import LoopHoist.Graph.Basic
import Mathlib.Data.List.Basic

/-!
# Paths and dominance

A path starts at the entry and follows edges; it is listed with its last block
first.  A block dominates another one if every path to the second passes through
the first, so a block that no path leads to is dominated by every block.  On the
blocks that can be reached dominance is an order in which the dominators of a
block form a chain.  The last link of that chain is the immediate dominator, and
the others are the strict dominators of that one.  From a block that another one does
not dominate no way around that one leads to what it dominates.
-/

namespace LoopHoist.Graph

variable {graph : Graph}

def Edge (graph : Graph) (source destination : Nat) : Prop :=
  ∃ block, graph.block? source = some block ∧ destination ∈ block.succ

/-- A list of blocks, the latest first, that control may pass from the entry on.
-/
inductive Path (graph : Graph) : List Nat → Prop
  | entry : Path graph [0]
  | step {source destination : Nat} {earlier : List Nat} :
      Path graph (source :: earlier) → graph.Edge source destination →
      Path graph (destination :: source :: earlier)

def Reachable (graph : Graph) (position : Nat) : Prop :=
  ∃ earlier, graph.Path (position :: earlier)

def Dominates (graph : Graph) (a b : Nat) : Prop :=
  ∀ earlier, graph.Path (b :: earlier) → a ∈ b :: earlier

/-! ## Cutting and joining paths -/

namespace Path

theorem back (later : List Nat) {earlier : List Nat} {position : Nat}
    (h : graph.Path (later ++ position :: earlier)) : graph.Path (position :: earlier) := by
  induction later with
  | nil => exact h
  | cons first later ih =>
      apply ih
      cases later with
      | nil =>
          cases h with
          | step hpath _ => exact hpath
      | cons second later =>
          cases h with
          | step hpath _ => exact hpath

/-- The end of one path can be put behind another path to the same block. -/
theorem splice (later : List Nat) {earlier other : List Nat} {position : Nat}
    (h : graph.Path (later ++ position :: earlier)) (hother : graph.Path (position :: other)) :
    graph.Path (later ++ position :: other) := by
  induction later with
  | nil => exact hother
  | cons first later ih =>
      cases later with
      | nil =>
          cases h with
          | step hpath hedge => exact .step hother hedge
      | cons second later =>
          cases h with
          | step hpath hedge => exact .step (ih hpath) hedge

theorem reachable_of_mem {path : List Nat} (h : graph.Path path) {position : Nat}
    (hmem : position ∈ path) : graph.Reachable position := by
  obtain ⟨later, earlier, rfl⟩ := List.append_of_mem hmem
  exact ⟨earlier, h.back⟩

theorem zero_mem {path : List Nat} (h : graph.Path path) : 0 ∈ path := by
  induction h with
  | entry => exact List.mem_singleton_self 0
  | step _ _ ih => exact List.mem_cons_of_mem _ ih

/-- Only the last edge of a path may lead out of the graph. -/
theorem block_of_mem_earlier {position other : Nat} {earlier : List Nat}
    (h : graph.Path (position :: earlier)) (hmem : other ∈ earlier) :
    ∃ block, graph.block? other = some block := by
  induction earlier generalizing position with
  | nil => cases hmem
  | cons source earlier ih =>
      cases h with
      | step hpath hedge =>
          rcases List.mem_cons.mp hmem with rfl | hrest
          · obtain ⟨block, hblock, _⟩ := hedge
            exact ⟨block, hblock⟩
          · exact ih hpath hrest

end Path

theorem Reachable.step {source destination : Nat} (h : graph.Reachable source)
    (hedge : graph.Edge source destination) : graph.Reachable destination := by
  obtain ⟨earlier, hpath⟩ := h
  exact ⟨source :: earlier, .step hpath hedge⟩

/-! ## Dominance is an order -/

namespace Dominates

theorem refl (graph : Graph) (a : Nat) : graph.Dominates a a :=
  fun _ _ => List.mem_cons_self

theorem trans {a b c : Nat} (hab : graph.Dominates a b) (hbc : graph.Dominates b c) :
    graph.Dominates a c := by
  intro earlier hpath
  obtain ⟨later, rest, heq⟩ := List.append_of_mem (hbc earlier hpath)
  rw [heq] at hpath ⊢
  exact List.mem_append_right later (hab rest hpath.back)

theorem eq_zero {a : Nat} (h : graph.Dominates a 0) : a = 0 := by
  simpa using h [] .entry

theorem exists_avoiding {a b : Nat} (h : ¬graph.Dominates a b) :
    ∃ earlier, graph.Path (b :: earlier) ∧ a ∉ b :: earlier := by
  simpa [Dominates] using h

/-- Going round from one block to another and back shortens a path for ever. -/
theorem not_path_of_mutual {a b : Nat} (hab : graph.Dominates a b) (hba : graph.Dominates b a)
    (hne : a ≠ b) (bound : Nat) :
    ∀ earlier, earlier.length < bound → ¬graph.Path (b :: earlier) := by
  induction bound with
  | zero => simp
  | succ bound ih =>
      intro earlier hlength hpath
      have ha : a ∈ earlier := by simpa [hne] using hab earlier hpath
      obtain ⟨later, rest, rfl⟩ := List.append_of_mem ha
      have hrest : graph.Path (a :: rest) := Path.back (b :: later) hpath
      have hb : b ∈ rest := by simpa [Ne.symm hne] using hba rest hrest
      obtain ⟨middle, last, rfl⟩ := List.append_of_mem hb
      refine ih last ?_ (Path.back (a :: middle) hrest)
      simp only [List.length_append, List.length_cons] at hlength
      omega

theorem antisymm {a b : Nat} (hab : graph.Dominates a b) (hba : graph.Dominates b a)
    (hreach : graph.Reachable b) : a = b := by
  by_contra hne
  obtain ⟨earlier, hpath⟩ := hreach
  exact not_path_of_mutual hab hba hne (earlier.length + 1) earlier (Nat.lt_succ_self _) hpath

theorem of_edge {a source destination : Nat} (h : graph.Dominates a destination)
    (hne : a ≠ destination) (hedge : graph.Edge source destination) :
    graph.Dominates a source := by
  intro earlier hpath
  simpa [hne] using h (source :: earlier) (.step hpath hedge)

theorem reachable {a b : Nat} (h : graph.Dominates a b) (hreach : graph.Reachable b) :
    graph.Reachable a := by
  obtain ⟨earlier, hpath⟩ := hreach
  exact hpath.reachable_of_mem (h earlier hpath)

/-- On the way from a block that it does not dominate, a path to a block that it
dominates passes through the dominator. -/
theorem mem_later {a b c : Nat} {earlier later rest : List Nat} (hac : graph.Dominates a c)
    (hab : ¬graph.Dominates a b) (hpath : graph.Path (c :: earlier))
    (heq : c :: earlier = later ++ b :: rest) : a ∈ later := by
  obtain ⟨other, hother, havoid⟩ := exists_avoiding hab
  cases later with
  | nil =>
      cases heq
      exact absurd hac hab
  | cons first later =>
      cases heq
      have hmem : a ∈ (c :: later) ++ b :: other :=
        hac (later ++ b :: other) (Path.splice (c :: later) hpath hother)
      rcases List.mem_append.mp hmem with hlater | hrest
      · exact hlater
      · exact absurd hrest havoid

/-- The dominators of a reachable block form a chain. -/
theorem chain {a b c : Nat} (hac : graph.Dominates a c) (hbc : graph.Dominates b c)
    (hreach : graph.Reachable c) : graph.Dominates a b ∨ graph.Dominates b a := by
  by_contra hnot
  obtain ⟨hab, hba⟩ := not_or.mp hnot
  obtain ⟨earlier, hpath⟩ := hreach
  have hsome : ((c :: earlier).find? fun x => x = a || x = b).isSome := by
    rw [List.find?_isSome]
    exact ⟨a, hac earlier hpath, by simp⟩
  obtain ⟨last, hlast⟩ := Option.isSome_iff_exists.mp hsome
  -- no block behind the last of the two on the path is one of them
  obtain ⟨heither, later, rest, heq, hlater⟩ := List.find?_eq_some_iff_append.mp hlast
  have hneither : ∀ x ∈ later, x ≠ a ∧ x ≠ b := by simpa using hlater
  have heither' : last = a ∨ last = b := by simpa using heither
  rcases heither' with rfl | rfl
  · exact (hneither b (mem_later hbc hba hpath heq)).2 rfl
  · exact (hneither a (mem_later hac hab hpath heq)).1 rfl

end Dominates

/-! ## Ways around a block -/

/-- A way along edges from one block to another that nowhere comes to the block to avoid. -/
inductive Way (graph : Graph) (avoided : Nat) : Nat → Nat → Prop
  | stay {position : Nat} : position ≠ avoided → Way graph avoided position position
  | step {source next destination : Nat} : source ≠ avoided → graph.Edge source next →
      Way graph avoided next destination → Way graph avoided source destination

namespace Way

variable {avoided source destination : Nat}

theorem source_ne (h : graph.Way avoided source destination) : source ≠ avoided := by
  cases h with
  | stay hne => exact hne
  | step hne _ _ => exact hne

/-- Whoever can go around a block to one that it dominates is dominated as well. -/
theorem dominates (h : graph.Way avoided source destination)
    (hdominates : graph.Dominates avoided destination) : graph.Dominates avoided source := by
  induction h with
  | stay _ => exact hdominates
  | step _ hedge hrest ih => exact (ih hdominates).of_edge hrest.source_ne.symm hedge

end Way

/-! ## Strict and immediate dominators -/

/-- Dominance by another block, of a block that can be reached. -/
structure StrictlyDominates (graph : Graph) (a b : Nat) : Prop where
  ne : a ≠ b
  reachable : graph.Reachable b
  dominates : graph.Dominates a b

/-- The strict dominator that all strict dominators of a block dominate. -/
structure IsIdom (graph : Graph) (above position : Nat) : Prop where
  strict : graph.StrictlyDominates above position
  least : ∀ {other : Nat}, graph.StrictlyDominates other position → graph.Dominates other above

namespace StrictlyDominates

variable {a b c : Nat}

theorem entry (hne : b ≠ 0) (hreach : graph.Reachable b) : graph.StrictlyDominates 0 b :=
  ⟨hne.symm, hreach, fun _ hpath => hpath.zero_mem⟩

theorem ne_zero (h : graph.StrictlyDominates a b) : b ≠ 0 := by
  rintro rfl
  exact h.ne h.dominates.eq_zero

theorem reachable_left (h : graph.StrictlyDominates a b) : graph.Reachable a :=
  h.dominates.reachable h.reachable

theorem mem_earlier (h : graph.StrictlyDominates a b) {earlier : List Nat}
    (hpath : graph.Path (b :: earlier)) : a ∈ earlier :=
  (List.mem_cons.mp (h.dominates earlier hpath)).resolve_left h.ne

theorem block_left (h : graph.StrictlyDominates a b) : ∃ block, graph.block? a = some block := by
  obtain ⟨earlier, hpath⟩ := h.reachable
  exact hpath.block_of_mem_earlier (h.mem_earlier hpath)

theorem trans (hab : graph.StrictlyDominates a b) (hbc : graph.StrictlyDominates b c) :
    graph.StrictlyDominates a c := by
  refine ⟨?_, hbc.reachable, hab.dominates.trans hbc.dominates⟩
  rintro rfl
  exact hab.ne (hab.dominates.antisymm hbc.dominates hab.reachable)

end StrictlyDominates

/-- Above its immediate dominator a block has the same dominators as that one. -/
theorem IsIdom.strictlyDominates_iff {above position other : Nat}
    (h : graph.IsIdom above position) : graph.StrictlyDominates other position ↔
      other = above ∨ graph.StrictlyDominates other above := by
  constructor
  · intro hother
    by_cases heq : other = above
    · exact .inl heq
    · exact .inr ⟨heq, h.strict.reachable_left, h.least hother⟩
  · rintro (rfl | hother)
    · exact h.strict
    · exact hother.trans h.strict

end LoopHoist.Graph
