import LoopHoist.Hoist.Order
import LoopHoist.Proofs.Checked.Breakdown
import LoopHoist.Proofs.Hoist.Relocate
import Mathlib.Data.List.Perm.Subperm
import Mathlib.Data.List.Sort

/-!
# Ordering by counting

The order of hoisted instructions can be found without looking at all needs again and
again: every item keeps the number of its needs that are not placed yet, and an item whose
number is used up is ready.  Placing an item takes one off the numbers of those that use
its result, once for every use.  No number is ever taken below zero, no index is out of
range, and the order is the same.
-/

namespace LoopHoist.Access

/-! ## Counting -/

/-- Every use of a result: the index of its producer and that of its user. -/
def uses (required : List (Nat × List Nat)) : List (Nat × Nat) :=
  required.flatMap fun entry => entry.2.map fun producer => (producer, entry.1)

/-- The users of every item, and the number of needs that it waits for. -/
structure Tally where
  users : List (List Nat)
  pending : List Nat

def Tally.enter (tally : Tally) (use : Nat × Nat) : Checked Tally := do
  let users ← Checked.item tally.users use.1
  let pending ← Checked.item tally.pending use.2
  return ⟨tally.users.set use.1 (users ++ [use.2]), tally.pending.set use.2 (pending + 1)⟩

/-- The numbers that are left, and the items that are ready, in order. -/
structure Front where
  pending : List Nat
  ready : List Nat

/-- Takes one off the number of a user. -/
def Front.release (front : Front) (user : Nat) : Checked Front := do
  let pending ← Checked.item front.pending user
  match pending with
  | 0 => .error (.noCountLeft user)
  | left + 1 => .ok ⟨front.pending.set user left,
      if left = 0 then front.ready.orderedInsert (· ≤ ·) user else front.ready⟩

/-- Places what is ready, first things first. -/
def drain (users : List (List Nat)) : Nat → Front → List Nat → Checked (List Nat)
  | _, ⟨_, []⟩, placed => .ok placed
  | 0, ⟨_, _ :: _⟩, _ => .error .noEnd
  | rounds + 1, ⟨pending, next :: ready⟩, placed => do
      let released ← Checked.item users next
      let front ← released.foldlM Front.release ⟨pending, ready⟩
      drain users rounds front (placed ++ [next])

def mark (marks : List Bool) (index : Nat) : Checked (List Bool) := do
  let _ ← Checked.item marks index
  return marks.set index true

/-- Adds what could not be placed. -/
def complete (count : Nat) (placed : List Nat) : Checked (List Nat) :=
  if placed.length < count then do
    let marks ← placed.foldlM mark (List.replicate count false)
    let rest ← Checked.filter (fun index => do
      let placed ← Checked.item marks index
      return !placed) (List.range count)
    return placed ++ rest
  else .ok placed

def countedOrder (items : List Access) : Checked (List Nat) := do
  let tally ← (uses (requirements items)).foldlM Tally.enter
    ⟨List.replicate items.length [], List.replicate items.length 0⟩
  let ready ← Checked.filter (fun index => do
    let pending ← Checked.item tally.pending index
    return pending = 0) (List.range items.length)
  let placed ← drain tally.users items.length ⟨tally.pending, ready⟩ []
  complete items.length placed

/-! ## Lists that are tables -/

section

variable {α : Type} {count index : Nat}

theorem getElem?_table (f : Nat → α) (h : index < count) :
    ((List.range count).map f)[index]? = some (f index) := by
  rw [List.getElem?_map, List.getElem?_range h, Option.map_some]

theorem item_table (f : Nat → α) (h : index < count) :
    Checked.item ((List.range count).map f) index = .ok (f index) :=
  Checked.demand_eq_ok (getElem?_table f h)

theorem filter_table (f : Nat → α) (test : α → Bool) :
    (Checked.filter (fun index => do
        let value ← Checked.item ((List.range count).map f) index
        return test value) (List.range count)) =
      .ok ((List.range count).filter fun index => test (f index)) := by
  apply Checked.filter_eq_ok
  intro index hindex
  rw [item_table f (List.mem_range.mp hindex)]
  rfl

theorem set_table (f : Nat → α) (value : α) :
    ((List.range count).map f).set index value =
      (List.range count).map fun other => if other = index then value else f other := by
  apply List.ext_getElem?
  intro other
  by_cases hlt : other < count
  · rw [List.getElem?_set, getElem?_table f hlt, getElem?_table _ hlt]
    by_cases heq : index = other
    · subst heq
      simp [hlt]
    · simp [heq, Ne.symm heq]
  · rw [List.getElem?_eq_none (by simp; omega), List.getElem?_eq_none (by simp; omega)]

theorem replicate_eq_table (count : Nat) (value : α) :
    List.replicate count value = (List.range count).map fun _ => value := by
  simp [List.map_const']

end

/-! ## Numbers that are used up -/

variable {used : List (Nat × Nat)} {placed : List Nat} {count : Nat}

/-- The users of an item, one for every use. -/
def usersOf (used : List (Nat × Nat)) (producer : Nat) : List Nat :=
  (used.filter fun use => use.1 = producer).map Prod.snd

/-- The number of needs of an item that are not placed. -/
def unmet (used : List (Nat × Nat)) (placed : List Nat) (user : Nat) : Nat :=
  used.countP fun use => use.2 = user ∧ use.1 ∉ placed

theorem foldlM_enter (hused : ∀ use ∈ used, use.1 < count ∧ use.2 < count)
    (users : Nat → List Nat) (pending : Nat → Nat) :
    used.foldlM Tally.enter ⟨(List.range count).map users, (List.range count).map pending⟩ =
      .ok ⟨(List.range count).map fun index => users index ++ usersOf used index,
        (List.range count).map fun index => pending index + unmet used [] index⟩ := by
  induction used generalizing users pending with
  | nil => simp [usersOf, unmet, pure, Except.pure]
  | cons use used ih =>
      rw [List.forall_mem_cons] at hused
      have hstep : Tally.enter ⟨(List.range count).map users, (List.range count).map pending⟩ use =
          .ok ⟨(List.range count).map fun index =>
              if index = use.1 then users use.1 ++ [use.2] else users index,
            (List.range count).map fun index =>
              if index = use.2 then pending use.2 + 1 else pending index⟩ := by
        rw [Tally.enter, item_table users hused.1.1, item_table pending hused.1.2,
          ← set_table, ← set_table]
        rfl
      rw [List.foldlM_cons, hstep]
      refine (ih hused.2 _ _).trans ?_
      congr 2
      · refine List.map_congr_left fun index _ => ?_
        by_cases heq : index = use.1
        · simp [usersOf, heq]
        · simp [usersOf, heq, Ne.symm heq]
      · refine List.map_congr_left fun index _ => ?_
        by_cases heq : index = use.2
        · simp [unmet, heq]
          omega
        · simp [unmet, heq, Ne.symm heq]

theorem unmet_concat (used : List (Nat × Nat)) {producer : Nat} (hnew : producer ∉ placed)
    (user : Nat) :
    unmet used placed user =
      unmet used (placed ++ [producer]) user + (usersOf used producer).count user := by
  rw [unmet, List.countP_eq_countP_filter_add _ _ (fun use => use.1 = producer), Nat.add_comm]
  congr 1
  · rw [unmet, List.countP_filter]
    refine List.countP_congr fun use _ => ?_
    simp only [List.mem_append, List.mem_singleton, Bool.and_eq_true, decide_eq_true_eq,
      Bool.not_eq_true', decide_eq_false_iff_not, not_or, and_assoc]
  · rw [usersOf, List.count, List.countP_map]
    refine List.countP_congr fun use huse => ?_
    have hproducer : use.1 = producer := by simpa using (List.mem_filter.mp huse).2
    simp [hproducer, hnew]

/-! ## Releasing users -/

/-- A front with certain numbers for the items, of which certain ones are ready. -/
structure Front.Shows (front : Front) (count : Nat) (pending : Nat → Nat) (isReady : Nat → Prop) :
    Prop where
  pending_eq : front.pending = (List.range count).map pending
  sorted : front.ready.Pairwise (· ≤ ·)
  nodup : front.ready.Nodup
  mem_ready : ∀ index, index ∈ front.ready ↔ isReady index

namespace Front.Shows

variable {front : Front} {pending : Nat → Nat} {isReady : Nat → Prop}

theorem congr (h : front.Shows count pending isReady) {other : Nat → Nat} {isReady' : Nat → Prop}
    (hpending : ∀ index < count, pending index = other index)
    (hready : ∀ index, isReady index ↔ isReady' index) : front.Shows count other isReady' where
  pending_eq := by
    rw [h.pending_eq]
    exact List.map_congr_left fun index hindex => hpending index (List.mem_range.mp hindex)
  sorted := h.sorted
  nodup := h.nodup
  mem_ready := fun index => (h.mem_ready index).trans (hready index)

theorem release (h : front.Shows count pending isReady) {user left : Nat} (hlt : user < count)
    (hleft : pending user = left + 1) (hnew : ¬isReady user) :
    ∃ next, front.release user = .ok next ∧
      next.Shows count (fun index => if index = user then left else pending index)
        fun index => isReady index ∨ index = user ∧ left = 0 := by
  have hrelease : front.release user = .ok ⟨front.pending.set user left,
      if left = 0 then front.ready.orderedInsert (· ≤ ·) user else front.ready⟩ := by
    rw [Front.release, h.pending_eq, item_table pending hlt, hleft]
    rfl
  have hpending : front.pending.set user left =
      (List.range count).map fun index => if index = user then left else pending index := by
    rw [h.pending_eq, set_table]
  refine ⟨_, hrelease, ?_⟩
  by_cases hzero : left = 0
  · rw [if_pos hzero]
    rw [← h.mem_ready] at hnew
    refine ⟨hpending, h.sorted.orderedInsert _ _, ?_, fun index => ?_⟩
    · exact (List.perm_orderedInsert _ user front.ready).nodup_iff.mpr
        (List.nodup_cons.mpr ⟨hnew, h.nodup⟩)
    · rw [List.mem_orderedInsert, h.mem_ready, or_comm]
      simp only [hzero, and_true]
  · rw [if_neg hzero]
    refine ⟨hpending, h.sorted, h.nodup, fun index => ?_⟩
    simp only [hzero, and_false, or_false]
    exact h.mem_ready index

theorem foldlM_release (h : front.Shows count pending isReady) {users : List Nat}
    (hlt : ∀ user ∈ users, user < count) (hcount : ∀ user, users.count user ≤ pending user)
    (hnew : ∀ user ∈ users, ¬isReady user) :
    ∃ last, users.foldlM Front.release front = .ok last ∧
      last.Shows count (fun index => pending index - users.count index)
        fun index => isReady index ∨ 0 < users.count index ∧ pending index = users.count index := by
  induction users generalizing front pending isReady with
  | nil => exact ⟨front, rfl, by simpa using h⟩
  | cons user users ih =>
      rw [List.forall_mem_cons] at hlt hnew
      obtain ⟨left, hleft⟩ : ∃ left, pending user = left + 1 := by
        have hle := hcount user
        rw [List.count_cons_self] at hle
        exact ⟨pending user - 1, by omega⟩
      obtain ⟨next, hnext, hshows⟩ := h.release hlt.1 hleft hnew.1
      have hcount' : ∀ index, users.count index ≤ if index = user then left else pending index := by
        intro index
        have hle := hcount index
        by_cases heq : index = user
        · subst heq
          rw [List.count_cons_self] at hle
          rw [if_pos rfl]
          omega
        · rw [if_neg heq]
          rwa [List.count_cons_of_ne (Ne.symm heq)] at hle
      have hnew' : ∀ index ∈ users, ¬(isReady index ∨ index = user ∧ left = 0) := by
        rintro index hindex (hready | ⟨rfl, hzero⟩)
        · exact hnew.2 index hindex hready
        · have hle := hcount' index
          rw [if_pos rfl, hzero] at hle
          exact absurd (List.count_pos_iff.mpr hindex) (by omega)
      obtain ⟨last, hlast, hshows'⟩ := ih hshows hlt.2 hcount' hnew'
      refine ⟨last, by rw [List.foldlM_cons, hnext]; exact hlast, hshows'.congr ?_ ?_⟩
      · intro index _
        by_cases heq : index = user
        · subst heq
          simp [hleft]
        · simp [heq, Ne.symm heq]
      · intro index
        by_cases heq : index = user
        · subst heq
          have hle := hcount' index
          simp only [if_true, true_and, List.count_cons_self, hleft, or_assoc] at hle ⊢
          exact or_congr_right (by omega)
        · simp [heq, Ne.symm heq]

theorem eq_of_test {test : Nat → Bool}
    (h : front.Shows count pending fun index => index < count ∧ test index = true) :
    front = ⟨(List.range count).map pending, (List.range count).filter test⟩ := by
  have hready : front.ready = (List.range count).filter test := by
    refine @List.Perm.eq_of_pairwise _ (· ≤ ·) _ _ (fun _ _ _ _ => Nat.le_antisymm) h.sorted
      (List.pairwise_le_range.filter _) ?_
    refine (List.perm_ext_iff_of_nodup h.nodup (List.nodup_range.filter _)).mpr fun index => ?_
    rw [h.mem_ready, List.mem_filter, List.mem_range]
  rw [← h.pending_eq, ← hready]

end Front.Shows

/-! ## Placing items -/

def isReady (used : List (Nat × Nat)) (placed : List Nat) (index : Nat) : Bool :=
  index ∉ placed ∧ unmet used placed index = 0

def frontAt (used : List (Nat × Nat)) (count : Nat) (placed : List Nat) : Front :=
  ⟨(List.range count).map (unmet used placed), (List.range count).filter (isReady used placed)⟩

/-- Items that are placed once each, behind all that they need. -/
structure ArePlaced (used : List (Nat × Nat)) (count : Nat) (placed : List Nat) : Prop where
  lt : ∀ index ∈ placed, index < count
  nodup : placed.Nodup
  closed : ∀ index ∈ placed, unmet used placed index = 0

namespace ArePlaced

variable {next : Nat} {ready : List Nat}

theorem of_ready (hready : (frontAt used count placed).ready = next :: ready) :
    next < count ∧ next ∉ placed ∧ unmet used placed next = 0 := by
  have hmem : next ∈ (frontAt used count placed).ready := hready ▸ List.mem_cons_self
  simpa [frontAt, isReady] using hmem

theorem concat (h : ArePlaced used count placed)
    (hready : (frontAt used count placed).ready = next :: ready) :
    ArePlaced used count (placed ++ [next]) := by
  obtain ⟨hlt, hnew, hzero⟩ := of_ready hready
  have hall : ∀ index ∈ placed ++ [next], index < count ∧ unmet used placed index = 0 :=
    List.forall_mem_append.mpr
      ⟨fun index hindex => ⟨h.lt index hindex, h.closed index hindex⟩, by simp [hlt, hzero]⟩
  refine ⟨fun index hindex => (hall index hindex).1, ?_, fun index hindex => ?_⟩
  · rw [← List.concat_eq_append]
    exact h.nodup.concat hnew
  · have hsum := unmet_concat used hnew index
    rw [(hall index hindex).2] at hsum
    omega

theorem foldlM_release (h : ArePlaced used count placed)
    (hused : ∀ use ∈ used, use.1 < count ∧ use.2 < count)
    (hready : (frontAt used count placed).ready = next :: ready) :
    (usersOf used next).foldlM Front.release ⟨(frontAt used count placed).pending, ready⟩ =
      .ok (frontAt used count (placed ++ [next])) := by
  obtain ⟨_, hnew, hzero⟩ := of_ready hready
  have hsum := unmet_concat used hnew
  have hsorted : (frontAt used count placed).ready.Pairwise (· < ·) :=
    List.pairwise_lt_range.filter _
  rw [hready, List.pairwise_cons] at hsorted
  have hmem : ∀ index, index ∈ ready ↔
      index ≠ next ∧ index < count ∧ index ∉ placed ∧ unmet used placed index = 0 := by
    intro index
    have hboth : index = next ∨ index ∈ ready ↔
        index < count ∧ index ∉ placed ∧ unmet used placed index = 0 := by
      rw [← List.mem_cons, ← hready]
      simp [frontAt, isReady]
    rw [← hboth]
    constructor
    · exact fun hindex => ⟨Nat.ne_of_gt (hsorted.1 index hindex), .inr hindex⟩
    · exact fun hindex => hindex.2.resolve_left hindex.1
  have hshows : Front.Shows ⟨(frontAt used count placed).pending, ready⟩ count
      (unmet used placed) (· ∈ ready) :=
    ⟨rfl, hsorted.2.imp Nat.le_of_lt, hsorted.2.imp Nat.ne_of_lt, fun _ => Iff.rfl⟩
  have hlt : ∀ user ∈ usersOf used next, user < count := by
    intro user huser
    obtain ⟨use, huse, rfl⟩ := List.mem_map.mp huser
    exact (hused use (List.mem_of_mem_filter huse)).2
  obtain ⟨last, hlast, hshows'⟩ := hshows.foldlM_release hlt
    (fun user => by rw [hsum user]; omega) (by
      intro user huser hold
      have hpos := List.count_pos_iff.mpr huser
      have htotal := hsum user
      have hzero' := ((hmem user).mp hold).2.2.2
      omega)
  rw [hlast, frontAt]
  refine congrArg Except.ok (hshows'.congr (fun index _ => ?_) fun index => ?_).eq_of_test
  · rw [hsum index]
    omega
  · rw [hmem, isReady, decide_eq_true_eq, List.mem_append, List.mem_singleton, not_or]
    have htotal := hsum index
    constructor
    · rintro (⟨hne, hindex, hnot, hmet⟩ | ⟨hpos, heq⟩)
      · exact ⟨hindex, ⟨hnot, hne⟩, by omega⟩
      · refine ⟨hlt index (List.count_pos_iff.mp hpos), ⟨fun hold => ?_, ?_⟩, by omega⟩
        · have hmet := h.closed index hold
          omega
        · rintro rfl
          omega
    · rintro ⟨hindex, ⟨hnot, hne⟩, hmet⟩
      by_cases hcount : 0 < (usersOf used next).count index
      · exact .inr ⟨hcount, by omega⟩
      · exact .inl ⟨hne, hindex, hnot, by omega⟩

theorem length_le (h : ArePlaced used count placed) : placed.length ≤ count := by
  have hsub := h.nodup.subperm fun index hindex => List.mem_range.mpr (h.lt index hindex)
  simpa using hsub.length_le

theorem length_lt_of_ready (h : ArePlaced used count placed)
    (hready : (frontAt used count placed).ready = next :: ready) : placed.length < count := by
  have hle := (h.concat hready).length_le
  rwa [List.length_append] at hle

end ArePlaced

/-! ## What is left -/

theorem foldlM_mark (hlt : ∀ index ∈ placed, index < count) (marks : Nat → Bool) :
    placed.foldlM mark ((List.range count).map marks) =
      .ok ((List.range count).map fun index => marks index || decide (index ∈ placed)) := by
  induction placed generalizing marks with
  | nil => simp [pure, Except.pure]
  | cons first placed ih =>
      rw [List.forall_mem_cons] at hlt
      have hstep : mark ((List.range count).map marks) first =
          .ok ((List.range count).map fun index => if index = first then true else marks index) := by
        rw [mark, item_table marks hlt.1, ← set_table]
        rfl
      rw [List.foldlM_cons, hstep]
      refine (ih hlt.2 _).trans (congrArg Except.ok (List.map_congr_left fun index _ => ?_))
      by_cases heq : index = first <;> simp [heq]

theorem ArePlaced.complete_eq (h : ArePlaced used count placed) :
    complete count placed =
      .ok (placed ++ (List.range count).filter fun index => index ∉ placed) := by
  rw [complete]
  split
  · rw [replicate_eq_table, foldlM_mark h.lt]
    simp only [ok_bind, filter_table _ fun placed : Bool => !placed, Bool.false_or, ← decide_not]
    rfl
  · rename_i hlength
    have hsub := h.nodup.subperm fun index hindex => List.mem_range.mpr (h.lt index hindex)
    have hperm := hsub.perm_of_length_le (by simpa using hlength)
    have hnone : (List.range count).filter (fun index => decide (index ∉ placed)) = [] := by
      rw [List.filter_eq_nil_iff]
      intro index hindex
      simpa using hperm.mem_iff.mpr hindex
    rw [hnone, List.append_nil]

/-! ## The same order -/

variable {required : List (Nat × List Nat)}

theorem mem_uses_iff {use : Nat × Nat} :
    use ∈ uses required ↔ ∃ entry ∈ required, use.1 ∈ entry.2 ∧ entry.1 = use.2 := by
  obtain ⟨producer, user⟩ := use
  simp [uses]

theorem unmet_uses_eq_zero_iff (hnodup : (required.map Prod.fst).Nodup) {entry : Nat × List Nat}
    (hentry : entry ∈ required) (placed : List Nat) :
    unmet (uses required) placed entry.1 = 0 ↔ entry.2.all placed.contains = true := by
  rw [unmet, List.countP_eq_zero]
  simp only [decide_eq_true_eq, not_and, not_not, List.all_eq_true, List.contains_iff_mem]
  constructor
  · intro h producer hproducer
    exact h (producer, entry.1) (mem_uses_iff.mpr ⟨entry, hentry, hproducer, rfl⟩) rfl
  · intro h use huse heq
    obtain ⟨other, hother, hproducer, hindex⟩ := mem_uses_iff.mp huse
    cases List.inj_on_of_nodup_map hnodup hother hentry (hindex.trans heq)
    exact h use.1 hproducer

def waiting (required : List (Nat × List Nat)) (placed : List Nat) : List (Nat × List Nat) :=
  required.filter fun entry => entry.1 ∉ placed

theorem ready_eq (hindices : required.map Prod.fst = List.range count) :
    (frontAt (uses required) count placed).ready =
      ((waiting required placed).filter fun entry => entry.2.all placed.contains).map Prod.fst := by
  have hnodup : (required.map Prod.fst).Nodup := hindices ▸ List.nodup_range
  rw [frontAt, ← hindices, List.filter_map, waiting, List.filter_filter]
  refine congrArg (List.map Prod.fst) (List.filter_congr fun entry hentry => ?_)
  have hiff := unmet_uses_eq_zero_iff hnodup hentry placed
  rw [Bool.eq_iff_iff]
  simp [isReady, hiff, and_comm]

theorem erase_waiting (hindices : required.map Prod.fst = List.range count)
    {entry : Nat × List Nat} (hentry : entry ∈ required) :
    (waiting required placed).erase entry = waiting required (placed ++ [entry.1]) := by
  have hnodup : (required.map Prod.fst).Nodup := hindices ▸ List.nodup_range
  rw [waiting, (hnodup.of_map.filter _).erase_eq_filter, waiting, List.filter_filter]
  refine List.filter_congr fun other hother => ?_
  have hiff : other ≠ entry ↔ other.1 ≠ entry.1 :=
    not_congr ⟨fun h => h ▸ rfl, List.inj_on_of_nodup_map hnodup hother hentry⟩
  rw [Bool.eq_iff_iff]
  simp [hiff, and_comm]

/-- With nothing ready the rest keeps its order. -/
theorem schedule_of_ready_nil (hindices : required.map Prod.fst = List.range count)
    (hready : (frontAt (uses required) count placed).ready = []) :
    schedule placed (waiting required placed) =
      placed ++ (List.range count).filter fun index => index ∉ placed := by
  rw [ready_eq hindices, List.map_eq_nil_iff, List.filter_eq_nil_iff] at hready
  rw [schedule]
  split
  · rw [waiting, ← hindices, List.filter_map]
    rfl
  · rename_i entry hfind
    exact absurd (List.find?_some hfind) (hready entry (List.mem_of_find?_eq_some hfind))

theorem schedule_of_ready_cons (hindices : required.map Prod.fst = List.range count) {next : Nat}
    {ready : List Nat} (hready : (frontAt (uses required) count placed).ready = next :: ready) :
    schedule placed (waiting required placed) =
      schedule (placed ++ [next]) (waiting required (placed ++ [next])) := by
  rw [ready_eq hindices] at hready
  obtain ⟨first, rest, hfilter, rfl, _⟩ := List.map_eq_cons_iff.mp hready
  have hfirst : (waiting required placed).find? (fun entry => entry.2.all placed.contains) =
      some first := by
    rw [← List.head?_filter, hfilter, List.head?_cons]
  have hmem := List.mem_of_mem_filter (List.mem_of_find?_eq_some hfirst)
  rw [schedule]
  split
  · rename_i hnone
    cases hfirst.symm.trans hnone
  · rename_i entry hentry
    cases hfirst.symm.trans hentry
    rw [erase_waiting hindices hmem]

theorem drain_of_ready_nil {users : List (List Nat)} {rounds : Nat} {front : Front}
    (h : front.ready = []) : drain users rounds front placed = .ok placed := by
  obtain ⟨pending, ready⟩ := front
  cases h
  cases rounds <;> rfl

theorem ArePlaced.drain_complete_of_ready_nil {users : List (List Nat)} {rounds : Nat}
    (h : ArePlaced (uses required) count placed)
    (hindices : required.map Prod.fst = List.range count)
    (hready : (frontAt (uses required) count placed).ready = []) :
    (do
      let last ← drain users rounds (frontAt (uses required) count placed) placed
      complete count last) = .ok (schedule placed (waiting required placed)) := by
  rw [schedule_of_ready_nil hindices hready, ← h.complete_eq, drain_of_ready_nil hready]
  rfl

/-- Counting places the items as the schedule does. -/
theorem ArePlaced.drain_eq {rounds : Nat} (h : ArePlaced (uses required) count placed)
    (hindices : required.map Prod.fst = List.range count)
    (hused : ∀ use ∈ uses required, use.1 < count ∧ use.2 < count)
    (hrounds : count ≤ rounds + placed.length) :
    (do
      let last ← drain ((List.range count).map (usersOf (uses required))) rounds
        (frontAt (uses required) count placed) placed
      complete count last) = .ok (schedule placed (waiting required placed)) := by
  -- While something is ready not all items are placed, so the rounds do not run out before it.
  induction rounds generalizing placed with
  | zero =>
      cases hready : (frontAt (uses required) count placed).ready with
      | nil => exact h.drain_complete_of_ready_nil hindices hready
      | cons next ready =>
          have hlt := h.length_lt_of_ready hready
          omega
  | succ rounds ih =>
      cases hready : (frontAt (uses required) count placed).ready with
      | nil => exact h.drain_complete_of_ready_nil hindices hready
      | cons next ready =>
          have hitem := item_table (usersOf (uses required)) (ArePlaced.of_ready hready).1
          have hfront : frontAt (uses required) count placed =
            ⟨(frontAt (uses required) count placed).pending, next :: ready⟩ := by rw [← hready]
          rw [schedule_of_ready_cons hindices hready, ← ih (h.concat hready) (by simp; omega),
            hfront, drain, hitem]
          rw [ok_bind, h.foldlM_release hused hready, ok_bind]

theorem lt_of_mem_uses {items : List Access} {use : Nat × Nat}
    (h : use ∈ uses (requirements items)) : use.1 < items.length ∧ use.2 < items.length := by
  obtain ⟨entry, hentry, hproducer, huser⟩ := mem_uses_iff.mp h
  have hindex : entry.1 ∈ List.range items.length :=
    map_fst_requirements items ▸ List.mem_map_of_mem hentry
  obtain ⟨item, _, rfl⟩ := List.mem_map.mp hentry
  obtain ⟨symbol, _, hsymbol⟩ := List.mem_filterMap.mp (List.mem_of_mem_filter hproducer)
  obtain ⟨writer, hwriter, hlast⟩ := Option.map_eq_some_iff.mp hsymbol
  have hmem := List.mem_reverse.mp (List.mem_of_find?_eq_some hwriter)
  refine ⟨?_, huser ▸ List.mem_range.mp hindex⟩
  rw [← hlast]
  exact (List.mem_zipIdx' hmem).1

/-- Counting never breaks down and gives the order itself. -/
theorem countedOrder_eq (items : List Access) : countedOrder items = .ok (order items) := by
  have hused : ∀ use ∈ uses (requirements items), use.1 < items.length ∧ use.2 < items.length :=
    fun _ => lt_of_mem_uses
  have hplaced : ArePlaced (uses (requirements items)) items.length [] :=
    ⟨by simp, List.nodup_nil, by simp⟩
  have htally := foldlM_enter hused (fun _ => []) (fun _ => 0)
  simp only [List.nil_append, Nat.zero_add] at htally
  have hready : (List.range items.length).filter
      (fun index => decide (unmet (uses (requirements items)) [] index = 0)) =
        (frontAt (uses (requirements items)) items.length []).ready :=
    List.filter_congr fun index _ => by simp [isReady]
  have hwaiting : waiting (requirements items) [] = requirements items := by simp [waiting]
  simp only [countedOrder, replicate_eq_table, htally, ok_bind,
    filter_table _ fun pending : Nat => decide (pending = 0), hready]
  refine (hplaced.drain_eq (map_fst_requirements items) hused (by simp)).trans ?_
  rw [hwaiting]
  rfl

end LoopHoist.Access
