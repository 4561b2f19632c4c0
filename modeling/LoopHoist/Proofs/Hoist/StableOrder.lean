import LoopHoist.Proofs.Hoist.Relocate
import Mathlib.Data.Fintype.Pigeonhole

/-!
# The stable order

An item depends on the last item that writes what it reads.  Items that no circle of
dependencies holds up are placed in a topological order, and in the least one if orders are
compared index by index: each time the first item that may come next is taken.  When none may,
each of those that are left waits for another one of them, so all of them are on a circle or
behind one, and they follow as they stand.
-/

namespace LoopHoist.Access

variable {items : List Access} {index producer : Nat} {symbol : Symbol}

/-! ## Dependencies -/

/-- The last item that writes a symbol. -/
def IsProducer (items : List Access) (symbol : Symbol) (index : Nat) : Prop :=
  (∃ item, items[index]? = some item ∧ item.write = some symbol) ∧
    ∀ later > index, ∀ other, items[later]? = some other → other.write ≠ some symbol

/-- An item reads what another one produces. -/
def DependsOn (items : List Access) (index producer : Nat) : Prop :=
  producer ≠ index ∧ ∃ item, items[index]? = some item ∧
    ∃ symbol ∈ item.reads, IsProducer items symbol producer

/-- An item is on a circle of dependencies or behind one. -/
def Entangled (items : List Access) (index : Nat) : Prop :=
  ∃ knot, Relation.ReflTransGen (DependsOn items) index knot ∧
    Relation.TransGen (DependsOn items) knot knot

/-- An item that no circle of dependencies holds up. -/
def Free (items : List Access) (index : Nat) : Prop :=
  index < items.length ∧ ¬Entangled items index

/-- Certain items in an order in which none stands before one that it depends on. -/
structure IsTopological (items : List Access) (indices : Nat → Prop) (order : List Nat) : Prop where
  nodup : order.Nodup
  mem_iff : ∀ index, index ∈ order ↔ indices index
  ordered : order.Pairwise fun earlier later => ¬DependsOn items earlier later

/-- The first one of all topological orders, compared index by index. -/
structure IsLeastTopological (items : List Access) (indices : Nat → Prop) (order : List Nat) :
    Prop extends IsTopological items indices order where
  least : ∀ {other : List Nat}, IsTopological items indices other →
    order = other ∨ List.Lex (· < ·) order other

theorem DependsOn.lt_length (h : DependsOn items index producer) : index < items.length := by
  obtain ⟨_, _, hitem, _⟩ := h
  exact (List.getElem?_eq_some_iff.mp hitem).1

theorem DependsOn.producer_lt_length (h : DependsOn items index producer) :
    producer < items.length := by
  obtain ⟨_, _, _, _, _, ⟨_, hitem, _⟩, _⟩ := h
  exact (List.getElem?_eq_some_iff.mp hitem).1

/-- What is on a circle or behind one depends on something that is. -/
theorem entangled_iff :
    Entangled items index ↔ ∃ producer, DependsOn items index producer ∧
      Entangled items producer := by
  constructor
  · rintro ⟨knot, hpath, hcircle⟩
    rcases hpath.cases_head with rfl | ⟨producer, hfirst, hrest⟩
    · obtain ⟨producer, hfirst, hrest⟩ := Relation.TransGen.head'_iff.mp hcircle
      exact ⟨producer, hfirst, _, hrest, hcircle⟩
    · exact ⟨producer, hfirst, knot, hrest, hcircle⟩
  · rintro ⟨producer, hfirst, knot, hrest, hcircle⟩
    exact ⟨knot, .head hfirst hrest, hcircle⟩

/-- Where each item depends on another one of finitely many, following the dependencies comes
back to an item that was passed before. -/
theorem entangled_of_forall_exists {indices : List Nat}
    (h : ∀ index ∈ indices, ∃ producer ∈ indices, DependsOn items index producer)
    (hindex : index ∈ indices) : Entangled items index := by
  choose! next hnext hdepends using h
  let walk (steps : Nat) : Nat := next^[steps] index
  have hmem : ∀ steps, walk steps ∈ indices := by
    intro steps
    induction steps with
    | zero => exact hindex
    | succ steps ih =>
        simp only [walk, Function.iterate_succ_apply'] at ih ⊢
        exact hnext _ ih
  have hstep : ∀ steps, Relation.TransGen (DependsOn items) (walk steps) (walk (steps + 1)) := by
    intro steps
    simp only [walk, Function.iterate_succ_apply']
    exact .single (hdepends _ (hmem steps))
  have hlater : ∀ {first second : Nat}, first < second →
      Relation.TransGen (DependsOn items) (walk first) (walk second) :=
    fun hlt => Nat.rel_of_forall_rel_succ_of_lt _ hstep hlt
  have hreach : ∀ steps, Relation.ReflTransGen (DependsOn items) index (walk steps) := by
    intro steps
    rcases Nat.eq_zero_or_pos steps with rfl | hpos
    · exact .refl
    · exact (hlater hpos).to_reflTransGen
  have hcircle : ∀ {first second : Nat}, first < second → walk first = walk second →
      Entangled items index := by
    intro first second hlt heq
    have hback := hlater hlt
    rw [← heq] at hback
    exact ⟨walk first, hreach first, hback⟩
  obtain ⟨first, second, hne, heq⟩ := Finite.exists_ne_map_eq_of_infinite
    fun steps => (⟨walk steps, hmem steps⟩ : { index // index ∈ indices })
  have hsame : walk first = walk second := congrArg Subtype.val heq
  rcases Nat.lt_or_gt_of_ne hne with hlt | hlt
  · exact hcircle hlt hsame
  · exact hcircle hlt hsame.symm

/-! ## What the items need -/

theorem producer?_eq_some_iff :
    producer? items symbol = some index ↔ IsProducer items symbol index := by
  -- the list of items is searched from its end
  simp only [producer?, Option.map_eq_some_iff, List.find?_eq_some_iff_getElem,
    List.getElem_reverse, List.getElem_zipIdx, List.length_reverse, List.length_zipIdx,
    Nat.zero_add, Bool.not_eq_true', decide_eq_true_eq, decide_eq_false_iff_not]
  constructor
  · rintro ⟨_, ⟨hwrite, place, hplace, rfl, hlast⟩, rfl⟩
    refine ⟨⟨_, List.getElem?_eq_getElem _, hwrite⟩, fun later hlater other hother => ?_⟩
    obtain ⟨hlt, rfl⟩ := List.getElem?_eq_some_iff.mp hother
    have hback : items.length - 1 - (items.length - 1 - later) = later := by omega
    simpa only [hback] using hlast (items.length - 1 - later) (by grind)
  · rintro ⟨⟨item, hitem, hwrite⟩, hlast⟩
    obtain ⟨hlt, rfl⟩ := List.getElem?_eq_some_iff.mp hitem
    have hback : items.length - 1 - (items.length - 1 - index) = index := by omega
    refine ⟨(items[index], index), ⟨hwrite, items.length - 1 - index, by omega, ?_, ?_⟩, rfl⟩
    · simp only [hback]
    · intro place hbefore
      exact hlast _ (by omega) _ (List.getElem?_eq_getElem _)

theorem mem_needs_iff {item : Access} (hitem : items[index]? = some item) :
    producer ∈ needs items index item ↔ DependsOn items index producer := by
  simp only [needs, List.mem_filter, List.mem_filterMap, producer?_eq_some_iff, bne_iff_ne,
    DependsOn, hitem, Option.some.injEq, exists_eq_left']
  exact and_comm

theorem mem_requirements_iff {entry : Nat × List Nat} :
    entry ∈ requirements items ↔
      ∃ item, items[entry.1]? = some item ∧ entry.2 = needs items entry.1 item := by
  simp only [requirements, List.mem_map]
  constructor
  · rintro ⟨⟨item, index⟩, hitem, rfl⟩
    exact ⟨item, List.mk_mem_zipIdx_iff_getElem?.mp hitem, rfl⟩
  · rintro ⟨item, hitem, hneeds⟩
    exact ⟨(item, entry.1), List.mk_mem_zipIdx_iff_getElem?.mpr hitem,
      Prod.ext rfl hneeds.symm⟩

/-! ## Placing items -/

variable {placed rest : List Nat} {waiting : List (Nat × List Nat)} {entry : Nat × List Nat}

/-- Free items in a topological order, together with all that they depend on. -/
structure Placed (items : List Access) (placed : List Nat) : Prop where
  nodup : placed.Nodup
  free : ∀ index ∈ placed, Free items index
  closed : ∀ index ∈ placed, ∀ producer, DependsOn items index producer → producer ∈ placed
  ordered : placed.Pairwise fun earlier later => ¬DependsOn items earlier later

/-- The items that are not placed yet, in their order, with what they need. -/
structure Waits (items : List Access) (placed : List Nat) (waiting : List (Nat × List Nat)) :
    Prop where
  sorted : waiting.Pairwise fun earlier later => earlier.1 < later.1
  mem_iff : ∀ {entry : Nat × List Nat},
    entry ∈ waiting ↔ entry ∈ requirements items ∧ entry.1 ∉ placed

/-- An item whose needs are placed can be placed. -/
theorem Placed.concat (h : Placed items placed) (hlt : index < items.length)
    (hnew : index ∉ placed)
    (hneeds : ∀ producer, DependsOn items index producer → producer ∈ placed) :
    Placed items (placed ++ [index]) where
  nodup := List.nodup_append.mpr ⟨h.nodup, List.nodup_singleton _, by grind⟩
  free := by
    simp only [List.mem_append, List.mem_singleton]
    rintro other (hother | rfl)
    · exact h.free other hother
    · refine ⟨hlt, fun hentangled => ?_⟩
      obtain ⟨producer, hdepends, hproducer⟩ := entangled_iff.mp hentangled
      exact (h.free producer (hneeds producer hdepends)).2 hproducer
  closed := by
    simp only [List.mem_append, List.mem_singleton]
    rintro other (hother | rfl) producer hdepends
    · exact .inl (h.closed other hother producer hdepends)
    · exact .inl (hneeds producer hdepends)
  ordered := by
    refine List.pairwise_append.mpr ⟨h.ordered, List.pairwise_singleton _ _, ?_⟩
    intro earlier hearlier later hlater hdepends
    rw [List.mem_singleton] at hlater
    exact hnew (hlater ▸ h.closed earlier hearlier later hdepends)

/-- Where none stands before one that it depends on, what an item depends on stands before it. -/
theorem mem_of_dependsOn
    (hordered : (placed ++ index :: rest).Pairwise fun earlier later =>
      ¬DependsOn items earlier later)
    (hproducer : producer ∈ placed ++ index :: rest) (hdepends : DependsOn items index producer) :
    producer ∈ placed := by
  obtain ⟨_, hrest, _⟩ := List.pairwise_append.mp hordered
  rw [List.mem_append, List.mem_cons] at hproducer
  rcases hproducer with hbefore | heq | hafter
  · exact hbefore
  · exact absurd heq hdepends.1
  · exact absurd hdepends ((List.pairwise_cons.mp hrest).1 producer hafter)

theorem Free.of_dependsOn (h : Free items index) (hdepends : DependsOn items index producer) :
    Free items producer :=
  ⟨hdepends.producer_lt_length, fun hentangled =>
    h.2 (entangled_iff.mpr ⟨producer, hdepends, hentangled⟩)⟩

namespace Waits

variable (h : Waits items placed waiting)

include h

theorem lt_length (hentry : entry ∈ waiting) : entry.1 < items.length := by
  obtain ⟨_, hitem, _⟩ := mem_requirements_iff.mp (h.mem_iff.mp hentry).1
  exact (List.getElem?_eq_some_iff.mp hitem).1

theorem mem_map_fst_iff :
    index ∈ waiting.map Prod.fst ↔ index < items.length ∧ index ∉ placed := by
  rw [List.mem_map]
  constructor
  · rintro ⟨entry, hentry, rfl⟩
    exact ⟨h.lt_length hentry, (h.mem_iff.mp hentry).2⟩
  · rintro ⟨hlt, hnew⟩
    exact ⟨(index, needs items index items[index]), h.mem_iff.mpr
      ⟨mem_requirements_iff.mpr ⟨_, List.getElem?_eq_getElem hlt, rfl⟩, hnew⟩, rfl⟩

theorem ready_iff (hentry : entry ∈ waiting) : entry.2.all placed.contains = true ↔
    ∀ producer, DependsOn items entry.1 producer → producer ∈ placed := by
  obtain ⟨item, hitem, hneeds⟩ := mem_requirements_iff.mp (h.mem_iff.mp hentry).1
  simp only [List.all_eq_true, List.contains_iff_mem, hneeds, mem_needs_iff hitem]

theorem erase (hentry : entry ∈ waiting) :
    Waits items (placed ++ [entry.1]) (waiting.erase entry) where
  sorted := h.sorted.sublist List.erase_sublist
  mem_iff := by
    have hnodup : waiting.Nodup := h.sorted.imp fun hlt heq => by simp [heq] at hlt
    intro other
    have hne : other ∈ waiting → (other ≠ entry ↔ other.1 ≠ entry.1) := by
      intro hother
      -- what an item needs is settled by its index
      obtain ⟨_, hitem, hneeds⟩ := mem_requirements_iff.mp (h.mem_iff.mp hentry).1
      obtain ⟨_, hitem', hneeds'⟩ := mem_requirements_iff.mp (h.mem_iff.mp hother).1
      refine not_congr ⟨congrArg Prod.fst, fun heq => Prod.ext heq ?_⟩
      rw [heq, hitem] at hitem'
      cases hitem'
      rw [hneeds, hneeds', heq]
    rw [hnodup.mem_erase_iff, List.mem_append, List.mem_singleton]
    grind [h.mem_iff]

/-- The first item that is ready has the least index of those that are. -/
theorem le_of_find? {ready : Nat × List Nat → Bool} (hfind : waiting.find? ready = some entry)
    {other : Nat × List Nat} (hother : other ∈ waiting) (hready : ready other = true) :
    entry.1 ≤ other.1 := by
  obtain ⟨_, before, after, rfl, hbefore⟩ := List.find?_eq_some_iff_append.mp hfind
  obtain ⟨_, hsorted, _⟩ := List.pairwise_append.mp h.sorted
  rw [List.mem_append, List.mem_cons] at hother
  rcases hother with hother | rfl | hother
  · have hnot := hbefore other hother
    rw [hready] at hnot
    cases hnot
  · exact le_rfl
  · exact ((List.pairwise_cons.mp hsorted).1 other hother).le

/-- In any topological order that goes on from the placed items, the next one is ready too. -/
theorem le_of_isTopological (hfind : waiting.find? (·.2.all placed.contains) = some entry)
    (hrest : IsTopological items (Free items) (placed ++ index :: rest)) : entry.1 ≤ index := by
  obtain ⟨_, _, hapart⟩ := List.nodup_append.mp hrest.nodup
  have hfree : Free items index := (hrest.mem_iff index).mp (by simp)
  have hnew : index ∉ placed := fun hmem => hapart index hmem index (by simp) rfl
  obtain ⟨other, hother, rfl⟩ := List.mem_map.mp (h.mem_map_fst_iff.mpr ⟨hfree.1, hnew⟩)
  refine h.le_of_find? hfind hother ((h.ready_iff hother).mpr fun producer hdepends => ?_)
  have hproducer := (hrest.mem_iff producer).mpr (hfree.of_dependsOn hdepends)
  exact mem_of_dependsOn hrest.ordered hproducer hdepends

/-- When no item is ready, each one waits for another one that is not placed either. -/
theorem entangled_of_find?_eq_none (hfind : waiting.find? (·.2.all placed.contains) = none)
    (hindex : index ∈ waiting.map Prod.fst) : Entangled items index := by
  refine entangled_of_forall_exists ?_ hindex
  rw [List.forall_mem_map]
  intro entry hentry
  have hready := List.find?_eq_none.mp hfind entry hentry
  rw [h.ready_iff hentry] at hready
  push Not at hready
  obtain ⟨producer, hdepends, hnew⟩ := hready
  exact ⟨producer, h.mem_map_fst_iff.mpr ⟨hdepends.producer_lt_length, hnew⟩, hdepends⟩

end Waits

/-- From any point on, the items are placed in the least way, and those that stay are entangled.
-/
theorem schedule_stable (hplaced : Placed items placed) (hwaits : Waits items placed waiting) :
    ∃ front back, schedule placed waiting = placed ++ front ++ back ∧
      Placed items (placed ++ front) ∧ back.Pairwise (· < ·) ∧
      (∀ index, index ∈ back ↔ index < items.length ∧ Entangled items index) ∧
      ∀ {rest : List Nat}, IsTopological items (Free items) (placed ++ rest) →
        front = rest ∨ List.Lex (· < ·) front rest := by
  fun_induction schedule placed waiting with
  | case1 placed waiting hnone =>
      refine ⟨[], waiting.map Prod.fst, by simp, by simpa using hplaced,
        List.pairwise_map.mpr hwaits.sorted, fun index => ⟨fun hindex => ?_, ?_⟩, ?_⟩
      · exact ⟨(hwaits.mem_map_fst_iff.mp hindex).1,
          hwaits.entangled_of_find?_eq_none hnone hindex⟩
      · rintro ⟨hlt, hentangled⟩
        exact hwaits.mem_map_fst_iff.mpr
          ⟨hlt, fun hmem => (hplaced.free index hmem).2 hentangled⟩
      · intro rest _
        cases rest with
        | nil => exact .inl rfl
        | cons => exact .inr .nil
  | case2 placed waiting entry hready ih =>
      have hentry := List.mem_of_find?_eq_some hready
      have hneeds := (hwaits.ready_iff hentry).mp (List.find?_eq_some_iff_append.mp hready).1
      have hnew := (hwaits.mem_iff.mp hentry).2
      have hplaced' := hplaced.concat (hwaits.lt_length hentry) hnew hneeds
      obtain ⟨front, back, hschedule, hfront, hsorted, hback, hleast⟩ :=
        ih hplaced' (hwaits.erase hentry)
      refine ⟨entry.1 :: front, back, by simpa using hschedule, by simpa using hfront, hsorted,
        hback, fun {rest} hrest => ?_⟩
      have hfree : Free items entry.1 := hplaced'.free entry.1 (by simp)
      cases rest with
      | nil =>
          rw [List.append_nil] at hrest
          exact absurd ((hrest.mem_iff entry.1).mpr hfree) hnew
      | cons index rest =>
          rcases Nat.lt_or_eq_of_le (hwaits.le_of_isTopological hready hrest) with hlt | heq
          · exact .inr (.rel hlt)
          · rw [← heq] at hrest ⊢
            rcases hleast (by simpa using hrest) with rfl | hlex
            · exact .inl rfl
            · exact .inr (.cons hlex)

theorem pair_sublist_of_dependsOn {order : List Nat}
    (hordered : order.Pairwise fun earlier later => ¬DependsOn items earlier later)
    (hindex : index ∈ order) (hproducer : producer ∈ order)
    (hdepends : DependsOn items index producer) : [producer, index].Sublist order := by
  obtain ⟨before, after, rfl⟩ := List.append_of_mem hindex
  have hbefore := mem_of_dependsOn hordered hproducer hdepends
  exact (List.singleton_sublist.mpr hbefore).append
    (List.singleton_sublist.mpr List.mem_cons_self)

theorem waits_requirements (items : List Access) : Waits items [] (requirements items) where
  sorted := by
    rw [← List.pairwise_map, map_fst_requirements]
    exact List.pairwise_lt_range
  mem_iff := by simp

/-- The order is the least topological order of the free items, followed by the entangled ones
as they stand.  Without circles every item stands behind those it depends on. -/
theorem order_isLeastTopological (items : List Access) :
    (order items).Perm (List.range items.length) ∧
    (∃ front back, order items = front ++ back ∧
      IsLeastTopological items (Free items) front ∧
      back.Pairwise (· < ·) ∧
      ∀ index, index ∈ back ↔ index < items.length ∧ Entangled items index) ∧
    ((∀ index, ¬Relation.TransGen (DependsOn items) index index) →
      ∀ {index producer : Nat}, DependsOn items index producer →
        [producer, index].Sublist (order items)) := by
  have hnone : Placed items [] := ⟨.nil, by simp, by simp, .nil⟩
  obtain ⟨front, back, horder, hplaced, hsorted, hback, hleast⟩ :=
    schedule_stable hnone (waits_requirements items)
  rw [List.nil_append] at horder hplaced
  have hmem : ∀ index, index ∈ front ++ back ↔ index < items.length := by
    intro index
    rw [← horder, ← List.mem_range]
    exact (order_perm items).mem_iff
  have htopological : IsTopological items (Free items) front := by
    refine ⟨hplaced.nodup, fun index => ⟨hplaced.free index, ?_⟩, hplaced.ordered⟩
    rintro ⟨hlt, hfree⟩
    refine (List.mem_append.mp ((hmem index).mpr hlt)).resolve_right fun hindex => ?_
    exact hfree ((hback index).mp hindex).2
  refine ⟨order_perm items, ⟨front, back, horder, ⟨htopological, hleast⟩, hsorted, hback⟩, ?_⟩
  intro hacyclic index producer hdepends
  have hempty : back = [] := by
    refine List.eq_nil_iff_forall_not_mem.mpr fun index hindex => ?_
    obtain ⟨_, knot, _, hcircle⟩ := (hback index).mp hindex
    exact hacyclic knot hcircle
  rw [hempty, List.append_nil] at hmem
  rw [show order items = front ++ back from horder, hempty, List.append_nil]
  exact pair_sublist_of_dependsOn hplaced.ordered ((hmem index).mpr hdepends.lt_length)
    ((hmem producer).mpr hdepends.producer_lt_length) hdepends

end LoopHoist.Access
