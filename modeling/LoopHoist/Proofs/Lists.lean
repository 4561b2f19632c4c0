import Mathlib.Data.List.Basic
import Mathlib.Data.List.Forall2
import Mathlib.Data.List.Nodup

/-!
# Lists

Facts about lists of anything: where an item stands, how many items pass a test, what can be
told apart in a sequence, and what is looked up under a key.
-/

namespace LoopHoist

variable {α β : Type}

theorem map_eq_self {f : α → α} {items : List α} (h : ∀ item ∈ items, f item = item) :
    items.map f = items :=
  (List.map_congr_left h).trans (List.map_id' items)

theorem isPrefixOf?_append [BEq α] [ReflBEq α] (front rest : List α) :
    front.isPrefixOf? (front ++ rest) = some rest := by
  induction front with
  | nil => cases rest <;> rfl
  | cons item front ih =>
      change (if item == item then front.isPrefixOf? (front ++ rest) else none) = some rest
      rw [beq_self_eq_true, if_pos rfl, ih]

theorem exists_mem_of_forall₂ {R : α → β → Prop} {items : List α} {results : List β}
    (h : List.Forall₂ R items results) {result : β} (hmem : result ∈ results) :
    ∃ item ∈ items, R item result := by
  induction h with
  | nil => cases hmem
  | cons hfirst _ ih =>
      rcases List.mem_cons.mp hmem with rfl | hmem
      · exact ⟨_, List.mem_cons_self, hfirst⟩
      · obtain ⟨item, hitem, hrel⟩ := ih hmem
        exact ⟨item, List.mem_cons_of_mem _ hitem, hrel⟩

/-- Keys that are computed beforehand select the same item. -/
theorem minOn?_map_key (key : α → Nat) (items : List α) :
    ((items.map fun item => (item, key item)).minOn? Prod.snd).map Prod.fst = items.minOn? key := by
  cases items with
  | nil => rfl
  | cons first items =>
      have hfold : ∀ item, (items.map fun item => (item, key item)).foldl (minOn Prod.snd)
          (item, key item) =
          (items.foldl (minOn key) item, key (items.foldl (minOn key) item)) := by
        induction items with
        | nil => exact fun _ => rfl
        | cons other items ih =>
            intro item
            have hstep : minOn Prod.snd (item, key item) (other, key other) =
                (minOn key item other, key (minOn key item other)) := by
              simp only [minOn]
              split <;> rfl
            rw [List.map_cons, List.foldl_cons, List.foldl_cons, hstep, ih]
      rw [List.map_cons, List.minOn?, hfold]
      rfl

/-! ## Where an item stands -/

/-- An item of two lists in a row stands in the second or in the first. -/
theorem append_eq_append_cons {first second before after : List α} {item : α}
    (h : first ++ second = before ++ item :: after) :
    (∃ middle, before = first ++ middle ∧ second = middle ++ item :: after) ∨
      ∃ middle, first = before ++ item :: middle ∧ after = middle ++ second := by
  rcases List.append_eq_append_iff.mp h with ⟨middle, hbefore, hsecond⟩ | ⟨middle, hfirst, hitem⟩
  · exact .inl ⟨middle, hbefore, hsecond⟩
  · cases middle with
    | nil => exact .inl ⟨[], by simpa using hfirst.symm, hitem.symm⟩
    | cons head middle =>
        rw [List.cons_append, List.cons.injEq] at hitem
        obtain ⟨rfl, hafter⟩ := hitem
        exact .inr ⟨middle, hfirst, hafter⟩

/-- A place in a list from which an item was taken is a place in the list with
the item, which stands behind the place or before it. -/
theorem exists_split_of_append {first second before after : List α} (item : α)
    {other : α} (h : first ++ second = before ++ other :: after) :
    ∃ before' after', first ++ item :: second = before' ++ other :: after' ∧
      (before' = before ∨ before'.Perm (item :: before)) := by
  rcases append_eq_append_cons h with ⟨middle, rfl, rfl⟩ | ⟨middle, rfl, rfl⟩
  · exact ⟨first ++ item :: middle, after, by simp, .inr List.perm_middle⟩
  · exact ⟨before, middle ++ item :: second, by simp, .inl rfl⟩

/-- The items before an index are what stands before it in a cut. -/
theorem all_zipIdx_iff {items : List α} (holds : List α → α → Prop) :
    (∀ item index, (item, index) ∈ items.zipIdx → holds (items.take index) item) ↔
      ∀ {before after : List α} {item : α}, items = before ++ item :: after →
        holds before item := by
  constructor
  · rintro h before after item rfl
    have hmem : (item, before.length) ∈ (before ++ item :: after).zipIdx := by
      simp [List.mem_zipIdx_iff_getElem?]
    simpa using h item before.length hmem
  · intro h item index hmem
    obtain ⟨hlt, hitem⟩ := List.getElem?_eq_some_iff.mp (List.mem_zipIdx_iff_getElem?.mp hmem)
    have hitems : items = items.take index ++ item :: items.drop (index + 1) := by
      rw [show item = items[index] from hitem.symm]
      simp
    exact h hitems

/-! ## What can be told apart -/

/-- Where no result comes twice, two items with one result are one. -/
theorem eq_of_nodup_filterMap {f : α → Option β} {items : List α} {first second : α}
    {result : β} (h : (items.filterMap f).Nodup) (hfirst : first ∈ items) (hsecond : second ∈ items)
    (hresult : f first = some result) (hresult' : f second = some result) : first = second := by
  have hpairwise := List.pairwise_iff_getElem.mp (List.pairwise_filterMap.mp h)
  obtain ⟨i, hi, rfl⟩ := List.mem_iff_getElem.mp hfirst
  obtain ⟨j, hj, rfl⟩ := List.mem_iff_getElem.mp hsecond
  rcases Nat.lt_trichotomy i j with hlt | heq | hgt
  · exact absurd rfl (hpairwise i j hi hj hlt result hresult result hresult')
  · subst heq
    rfl
  · exact absurd rfl (hpairwise j i hj hi hgt result hresult' result hresult)

/-- Where no part comes twice, a common part shows that two items stand at one place. -/
theorem eq_of_nodup_flatMap {f : α → List β} {items : List α} {i j : Nat}
    {first second : α} {part : β} (h : (items.flatMap f).Nodup) (hfirst : items[i]? = some first)
    (hsecond : items[j]? = some second) (hpart : part ∈ f first) (hpart' : part ∈ f second) :
    i = j := by
  have hpairwise := List.pairwise_iff_getElem.mp (List.pairwise_flatMap.mp h).2
  obtain ⟨hi, rfl⟩ := List.getElem?_eq_some_iff.mp hfirst
  obtain ⟨hj, rfl⟩ := List.getElem?_eq_some_iff.mp hsecond
  rcases Nat.lt_trichotomy i j with hlt | heq | hgt
  · exact absurd rfl (hpairwise i j hi hj hlt part hpart part hpart')
  · exact heq
  · exact absurd rfl (hpairwise j i hj hi hgt part hpart' part hpart)

/-- Items that take equally much can be told apart in a sequence. -/
theorem eq_of_flatMap_eq {f g : α → List β} {items : List α}
    (hlength : ∀ item, (f item).length = (g item).length)
    (h : items.flatMap f = items.flatMap g) : ∀ item ∈ items, f item = g item := by
  induction items with
  | nil => simp
  | cons item items ih =>
      obtain ⟨hitem, hitems⟩ := List.append_inj h (hlength item)
      exact List.forall_mem_cons.mpr ⟨hitem, ih hitems⟩

/-! ## How many items pass a test -/

theorem countP_lt_countP {p q : α → Bool} {items : List α} {item : α}
    (himp : ∀ item ∈ items, p item = true → q item = true) (hmem : item ∈ items)
    (hq : q item = true) (hp : p item = false) : items.countP p < items.countP q := by
  obtain ⟨before, after, rfl⟩ := List.append_of_mem hmem
  have hbefore := List.countP_mono_left fun item hitem =>
    himp item (List.mem_append_left _ hitem)
  have hafter := List.countP_mono_left fun item hitem =>
    himp item (List.mem_append_right _ (List.mem_cons_of_mem _ hitem))
  simp only [List.countP_append, List.countP_cons, hp, hq, if_true, Bool.false_eq_true, if_false]
  omega

theorem countP_eq_succ [DecidableEq α] {p q : α → Bool} {items : List α} {item : α}
    (hnodup : items.Nodup) (hmem : item ∈ items) (hp : p item = true) (hq : q item = false)
    (hsame : ∀ other ∈ items, other ≠ item → p other = q other) :
    items.countP p = items.countP q + 1 := by
  have hperm := List.perm_cons_erase hmem
  have hrest : (items.erase item).countP p = (items.erase item).countP q := by
    refine List.countP_congr fun other hother => ?_
    obtain ⟨hne, hother⟩ := (hnodup.mem_erase_iff).mp hother
    rw [hsame other hother hne]
  rw [hperm.countP_eq, hperm.countP_eq, List.countP_cons_of_pos hp,
    List.countP_cons_of_neg (by simp [hq]), hrest]

/-! ## What is looked up under a key -/

section

variable {κ : Type} [BEq κ] [LawfulBEq κ] {key : κ} {entries : List (κ × β)}

theorem mem_of_lookup {value : β} (h : entries.lookup key = some value) :
    (key, value) ∈ entries := by
  obtain ⟨first, second, rfl, _⟩ := List.lookup_eq_some_iff.mp h
  simp

theorem lookup_filter_key (test : κ → Bool) (entries : List (κ × β)) (key : κ) :
    (entries.filter fun entry => test entry.1).lookup key =
      if test key then entries.lookup key else none := by
  induction entries with
  | nil => simp
  | cons entry entries ih =>
      obtain ⟨found, value⟩ := entry
      by_cases hkey : key = found
      · subst hkey
        cases htest : test key with
        | false => simpa [htest] using ih
        | true => simp [htest]
      · have hdiffers : (key == found) = false := beq_false_of_ne hkey
        cases htest : test found with
        | false => rw [List.filter_cons_of_neg (by simp [htest]), ih, List.lookup_cons, hdiffers]
        | true =>
            rw [List.filter_cons_of_pos (by simp [htest]), List.lookup_cons, List.lookup_cons,
              hdiffers, ih]

theorem lookup_filter_ne [DecidableEq κ] (entries : List (κ × β)) (removed key : κ) :
    (entries.filter fun entry => entry.1 != removed).lookup key =
      if key = removed then none else entries.lookup key := by
  rw [lookup_filter_key (· != removed)]
  by_cases hkey : key = removed
  · simp [hkey]
  · simp [hkey, bne_iff_ne]

/-- Where every key has one value, looking it up is a matter of membership. -/
theorem lookup_eq_of_mem_iff {twins : List (κ × β)}
    (hmem : ∀ value, (key, value) ∈ twins ↔ (key, value) ∈ entries)
    (hsingle : ∀ {first second : β}, (key, first) ∈ entries → (key, second) ∈ entries →
      first = second) :
    twins.lookup key = entries.lookup key := by
  cases hfound : entries.lookup key with
  | none =>
      rw [List.lookup_eq_none_iff] at hfound ⊢
      rintro ⟨other, value⟩ hentry
      by_cases heq : key = other
      · subst heq
        exact hfound _ ((hmem value).mp hentry)
      · simpa using heq
  | some value =>
      have hvalue := mem_of_lookup hfound
      cases htwin : twins.lookup key with
      | none =>
          rw [List.lookup_eq_none_iff] at htwin
          simpa using htwin _ ((hmem value).mpr hvalue)
      | some other => rw [hsingle ((hmem other).mp (mem_of_lookup htwin)) hvalue]

/-- A table of the values of a partial function at the keys of some items. -/
theorem lookup_filterMap_key (keyOf : α → κ) (value? : κ → Option β) {items : List α}
    (h : key ∈ items.map keyOf ∨ value? key = none) :
    (items.filterMap fun item => (value? (keyOf item)).map fun value =>
      (keyOf item, value)).lookup key = value? key := by
  induction items with
  | nil => exact (h.resolve_left List.not_mem_nil).symm
  | cons item items ih =>
      by_cases heq : key = keyOf item
      · subst heq
        cases hvalue : value? (keyOf item) with
        | none => rw [List.filterMap_cons_none (by rw [hvalue]; rfl), ih (.inr hvalue), hvalue]
        | some value =>
            rw [List.filterMap_cons_some (by rw [hvalue]; rfl), List.lookup_cons_self]
      · have hrest := ih (h.imp_left fun hmem => (List.mem_cons.mp hmem).resolve_left heq)
        cases hvalue : value? (keyOf item) with
        | none => rw [List.filterMap_cons_none (by rw [hvalue]; rfl), hrest]
        | some value =>
            rw [List.filterMap_cons_some (by rw [hvalue]; rfl), List.lookup_cons,
              beq_false_of_ne heq, hrest]

theorem lookup_map_key (keyOf : α → κ) (value : κ → β) {items : List α}
    (h : key ∈ items.map keyOf) :
    (items.map fun item => (keyOf item, value (keyOf item))).lookup key = some (value key) := by
  rw [← lookup_filterMap_key keyOf (fun key => some (value key)) (.inl h), ← List.filterMap_eq_map]
  rfl

end

end LoopHoist
