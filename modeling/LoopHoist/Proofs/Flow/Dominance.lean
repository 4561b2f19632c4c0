import LoopHoist.Flow.Dominance
import LoopHoist.Proofs.Graph.WellFormed
import LoopHoist.Proofs.Lists

/-!
# Computed dominance

A flood holds what can be reached, neither more nor less, whatever the edges of the
graph, as long as its blocks have ids of their own.  Hence the table of dominators that
is computed by taking blocks out agrees with dominance along paths.
-/

namespace LoopHoist

namespace Graph

variable {graph : Graph}

/-! ## Floods -/

section

variable {next : Block → List Nat} {admits : Int → Bool} {seen : List Int} {queue : List Nat}

/-- Whatever holds of the queue and passes along admitted edges holds of all that
a flood adds. -/
theorem of_mem_flood {P : Nat → Prop}
    (hnext : ∀ {position : Nat} {block : Block}, P position → graph.block? position = some block →
      ∀ other ∈ next block, (graph.id? other).any admits = true → P other)
    (hqueue : ∀ position ∈ queue, P position) {id : Int}
    (h : id ∈ graph.flood next admits seen queue) :
    id ∈ seen ∨ ∃ position, graph.id? position = some id ∧ P position := by
  fun_induction Graph.flood graph next admits seen queue with
  | case1 seen => exact .inl h
  | case2 seen position queue hnone ih =>
      exact ih (fun other hother => hqueue other (List.mem_cons_of_mem _ hother)) h
  | case3 seen position queue block hblock hseen ih =>
      exact ih (fun other hother => hqueue other (List.mem_cons_of_mem _ hother)) h
  | case4 seen position queue block hblock hnew ih =>
      have hposition : P position := hqueue position List.mem_cons_self
      have hall : ∀ other ∈ queue ++ (next block).filter fun position =>
          (graph.id? position).any admits, P other := by
        intro other hother
        rcases List.mem_append.mp hother with hold | hadded
        · exact hqueue other (List.mem_cons_of_mem _ hold)
        · obtain ⟨hmem, hadmits⟩ := List.mem_filter.mp hadded
          exact hnext hposition hblock other hmem hadmits
      rcases ih hall h with hmem | hfound
      · rcases List.mem_cons.mp hmem with rfl | hold
        · exact .inr ⟨position, id?_of_block? hblock, hposition⟩
        · exact .inl hold
      · exact .inr hfound

theorem mem_flood_of_seen {id : Int} (h : id ∈ seen) :
    id ∈ graph.flood next admits seen queue := by
  fun_induction Graph.flood graph next admits seen queue with
  | case1 seen => exact h
  | case2 seen position queue hnone ih => exact ih h
  | case3 seen position queue block hblock hseen ih => exact ih h
  | case4 seen position queue block hblock hnew ih => exact ih (List.mem_cons_of_mem _ h)

theorem mem_flood_of_queue {position : Nat} {block : Block} (h : position ∈ queue)
    (hblock : graph.block? position = some block) :
    block.id ∈ graph.flood next admits seen queue := by
  fun_induction Graph.flood graph next admits seen queue with
  | case1 seen => cases h
  | case2 seen first queue hnone ih =>
      rcases List.mem_cons.mp h with rfl | hrest
      · rw [hblock] at hnone
        cases hnone
      · exact ih hrest
  | case3 seen first queue found hfound hseen ih =>
      rcases List.mem_cons.mp h with rfl | hrest
      · cases hblock.symm.trans hfound
        exact mem_flood_of_seen hseen
      · exact ih hrest
  | case4 seen first queue found hfound hnew ih =>
      rcases List.mem_cons.mp h with rfl | hrest
      · cases hblock.symm.trans hfound
        exact mem_flood_of_seen List.mem_cons_self
      · exact ih (List.mem_append_left _ hrest)

/-- A flood leaves no block that it added by an admitted edge out of itself. -/
theorem mem_flood_of_next (hids : graph.DistinctIds) {position other : Nat} {block target : Block}
    (hblock : graph.block? position = some block) (hnew : block.id ∉ seen)
    (h : block.id ∈ graph.flood next admits seen queue) (hother : other ∈ next block)
    (htarget : graph.block? other = some target) (hadmits : admits target.id = true) :
    target.id ∈ graph.flood next admits seen queue := by
  fun_induction Graph.flood graph next admits seen queue with
  | case1 seen => exact absurd h hnew
  | case2 seen first queue hnone ih => exact ih hnew h
  | case3 seen first queue found hfound hseen ih => exact ih hnew h
  | case4 seen first queue found hfound hfresh ih =>
      by_cases hsame : block.id = found.id
      · obtain rfl := hids hblock hfound hsame
        cases hblock.symm.trans hfound
        refine mem_flood_of_queue (List.mem_append_right _ (List.mem_filter.mpr ⟨hother, ?_⟩))
          htarget
        simp [id?, htarget, hadmits]
      · exact ih (by simp [hsame, hnew]) h

end

/-! ## Reachability -/

/-- Paths that avoid the block that is left out, if there is one. -/
def Avoids (graph : Graph) (leftOut : Option Int) (path : List Nat) : Prop :=
  ∀ position ∈ path, ∀ id ∈ leftOut, graph.id? position ≠ some id

theorem avoids_cons_iff {leftOut : Option Int} {position : Nat} {path : List Nat} :
    graph.Avoids leftOut (position :: path) ↔
      (∀ id ∈ leftOut, graph.id? position ≠ some id) ∧ graph.Avoids leftOut path :=
  List.forall_mem_cons

theorem path_of_mem_reachable {leftOut : Option Int} {id : Int}
    (h : id ∈ graph.reachable leftOut) :
    ∃ position earlier, graph.id? position = some id ∧ graph.Path (position :: earlier) ∧
      graph.Avoids leftOut (position :: earlier) := by
  let P : Nat → Prop := fun position =>
    ∃ earlier, graph.Path (position :: earlier) ∧ graph.Avoids leftOut (position :: earlier)
  have hadmitted : ∀ {position : Nat},
      (graph.id? position).any (fun id => some id != leftOut) = true →
        ∀ id ∈ leftOut, graph.id? position ≠ some id := by
    rintro position hany id hid heq
    simp [heq, Option.mem_def.mp hid] at hany
  have hnext : ∀ {source : Nat} {block : Block}, P source → graph.block? source = some block →
      ∀ other ∈ block.succ, (graph.id? other).any (fun id => some id != leftOut) = true →
        P other := by
    rintro source block ⟨earlier, hpath, havoids⟩ hblock other hmem hadmits
    exact ⟨source :: earlier, .step hpath ⟨block, hblock, hmem⟩,
      avoids_cons_iff.mpr ⟨hadmitted hadmits, havoids⟩⟩
  have hqueue : ∀ entry ∈ [0].filter fun entry =>
      (graph.id? entry).any fun id => some id != leftOut, P entry := by
    intro entry hentry
    obtain ⟨hzero, hadmits⟩ := List.mem_filter.mp hentry
    cases List.mem_singleton.mp hzero
    exact ⟨[], .entry, avoids_cons_iff.mpr ⟨hadmitted hadmits, nofun⟩⟩
  rcases of_mem_flood hnext hqueue h with hseen | ⟨position, hid, earlier, hpath, havoids⟩
  · cases hseen
  · exact ⟨position, earlier, hid, hpath, havoids⟩

theorem mem_reachable_of_path (hids : graph.DistinctIds) {leftOut : Option Int} {position : Nat}
    {block : Block} {earlier : List Nat} (hpath : graph.Path (position :: earlier))
    (hblock : graph.block? position = some block)
    (havoids : graph.Avoids leftOut (position :: earlier)) :
    block.id ∈ graph.reachable leftOut := by
  have hadmits : some block.id ≠ leftOut := fun heq =>
    havoids position List.mem_cons_self block.id heq.symm (id?_of_block? hblock)
  -- along the path every block is flooded, from the entry on
  induction earlier generalizing position block with
  | nil =>
      cases hpath
      refine mem_flood_of_queue ?_ hblock
      simp [id?_of_block? hblock, hadmits]
  | cons source earlier ih =>
      cases hpath with
      | step hrest hedge =>
          obtain ⟨origin, horigin, hmem⟩ := hedge
          have havoids' := (avoids_cons_iff.mp havoids).2
          have hsource := ih hrest horigin havoids' fun heq =>
            havoids' source List.mem_cons_self origin.id heq.symm (id?_of_block? horigin)
          refine mem_flood_of_next hids horigin List.not_mem_nil hsource hmem hblock ?_
          simpa using hadmits

section

variable {a b : Nat} {first second : Block}

theorem mem_reachable_none_iff (hids : graph.DistinctIds) (hb : graph.block? b = some second) :
    second.id ∈ graph.reachable none ↔ graph.Reachable b := by
  constructor
  · intro hmem
    obtain ⟨position, earlier, hid, hpath, _⟩ := path_of_mem_reachable hmem
    rw [hids.eq_of_id? hid hb] at hpath
    exact ⟨earlier, hpath⟩
  · rintro ⟨earlier, hpath⟩
    exact mem_reachable_of_path hids hpath hb fun _ _ _ hnone => nomatch hnone

theorem mem_reachable_some_iff (hids : graph.DistinctIds) (ha : graph.block? a = some first)
    (hb : graph.block? b = some second) :
    second.id ∈ graph.reachable (some first.id) ↔ ¬graph.Dominates a b := by
  constructor
  · intro hmem hdominates
    obtain ⟨position, earlier, hid, hpath, havoids⟩ := path_of_mem_reachable hmem
    rw [hids.eq_of_id? hid hb] at hpath havoids
    exact havoids a (hdominates earlier hpath) first.id rfl (id?_of_block? ha)
  · intro hnot
    obtain ⟨earlier, hpath, hmem⟩ := Dominates.exists_avoiding hnot
    refine mem_reachable_of_path hids hpath hb ?_
    rintro position hposition _ ⟨⟩ hid
    exact hmem (hids.eq_of_id? hid ha ▸ hposition)

end

theorem WellFormed.mem_reachable_some_iff (wf : graph.WellFormed) {leftOut position : Nat} :
    (position : Int) ∈ graph.reachable (some (leftOut : Int)) ↔
      ¬graph.Dominates leftOut position := by
  constructor
  · intro hmem hdominates
    obtain ⟨found, earlier, hid, hpath, havoids⟩ := path_of_mem_reachable hmem
    rw [wf.eq_of_id? hid] at hpath havoids
    have hleftOut := hdominates earlier hpath
    obtain ⟨block, hblock⟩ := wf.block_of_reachable (hpath.reachable_of_mem hleftOut)
    exact havoids leftOut hleftOut leftOut rfl (wf.id?_eq hblock)
  · intro hnot
    obtain ⟨earlier, hpath, hmem⟩ := Dominates.exists_avoiding hnot
    obtain ⟨block, hblock⟩ := wf.block_of_path hpath
    rw [← wf.id_eq hblock]
    refine mem_reachable_of_path wf.distinctIds hpath hblock ?_
    rintro other hother _ ⟨⟩ hid
    exact hmem (wf.eq_of_id? hid ▸ hother)

/-! ## The table -/

theorem row_dominanceTable {position : Nat} {block : Block}
    (h : graph.block? position = some block) :
    Dominance.row graph.dominanceTable block.id =
      graph.dominatedBy (graph.reachable none) block.id := by
  have hmem : block.id ∈ graph.blocks.map Block.id := List.mem_map_of_mem (mem_of_block? h)
  simp only [Dominance.row, dominanceTable, lookup_map_key Block.id _ hmem, Option.getD_some]

section

variable {a b : Nat} {first second : Block} (hids : graph.DistinctIds)
  (ha : graph.block? a = some first) (hb : graph.block? b = some second)

include hids ha

theorem dominatedBy_of_reachable (hreach : graph.Reachable a) :
    graph.dominatedBy (graph.reachable none) first.id =
      (graph.reachable none).filter fun other => other ∉ graph.reachable (some first.id) :=
  if_pos ((mem_reachable_none_iff hids ha).mpr hreach)

include hb

theorem mem_dominatedBy_iff : second.id ∈ graph.dominatedBy (graph.reachable none) first.id ↔
    a = b ∨ graph.Reachable b ∧ graph.Dominates a b := by
  by_cases hreach : graph.Reachable a
  · have hself : a = b → graph.Reachable b ∧ graph.Dominates a b := by
      rintro rfl
      exact ⟨hreach, .refl graph a⟩
    rw [or_iff_right_of_imp hself, dominatedBy_of_reachable hids ha hreach, List.mem_filter,
      mem_reachable_none_iff hids hb, decide_eq_true_eq, mem_reachable_some_iff hids ha hb, not_not]
  · -- a block that cannot be reached is on no path
    have hnone : ¬(graph.Reachable b ∧ graph.Dominates a b) :=
      fun hpaths => hreach (hpaths.2.reachable hpaths.1)
    rw [dominatedBy, if_neg fun hmem => hreach ((mem_reachable_none_iff hids ha).mp hmem),
      List.mem_singleton, or_iff_left hnone, eq_comm, hids.id_eq_iff ha hb]

end

end Graph

namespace Dominance

variable {graph : Graph} {a b : Nat} {first second : Block}

theorem dominates_ofGraph_eq (ha : graph.block? a = some first) (id : Int) :
    (ofGraph graph).dominates first.id id =
      (graph.dominatedBy (graph.reachable none) first.id).contains id := by
  rw [← Graph.row_dominanceTable ha]
  rfl

theorem dominates_ofGraph_iff (hids : graph.DistinctIds) (ha : graph.block? a = some first)
    (hb : graph.block? b = some second) (hreach : graph.Reachable a) :
    (ofGraph graph).dominates first.id second.id = true ↔
      graph.Reachable b ∧ graph.Dominates a b := by
  rw [dominates_ofGraph_eq ha, List.contains_iff_mem, Graph.mem_dominatedBy_iff hids ha hb]
  refine or_iff_right_of_imp ?_
  rintro rfl
  exact ⟨hreach, .refl graph a⟩

/-- One block dominates another exactly if the two are one, or the second can be reached
and every path to it passes through the first. -/
theorem dominates_ofGraph_iff_paths (hids : graph.DistinctIds) (ha : graph.block? a = some first)
    (hb : graph.block? b = some second) :
    (ofGraph graph).dominates first.id second.id = true ↔
      a = b ∨ graph.Reachable b ∧ graph.Dominates a b := by
  rw [dominates_ofGraph_eq ha, List.contains_iff_mem]
  exact Graph.mem_dominatedBy_iff hids ha hb

/-- Two ways lead from the first block to the one in the middle, and from there back to the
first and out.  One of them passes a block that repeats an edge, the other a block that jumps
to itself, and one more block in front of the middle cannot be reached. -/
def tangledGraph : Graph :=
  ⟨[{ id := 7, label := "start", prev := [3], succ := [1, 2] },
    { id := 3, label := "twice", prev := [0], succ := [3, 3] },
    { id := -1, label := "self", prev := [0, 2], succ := [3, 2] },
    { id := 12, label := "middle", prev := [1, 1, 2, 4], succ := [0, 5] },
    { id := 0, label := "apart", succ := [3] },
    { id := 4, label := "out", prev := [3] }]⟩

theorem distinctIds_tangledGraph : tangledGraph.DistinctIds :=
  Graph.DistinctIds.of_nodup (by decide)

/-- The start and the middle dominate what lies behind them, all others only themselves. -/
theorem ofGraph_tangledGraph : ofGraph tangledGraph =
    ⟨[(7, [4, 12, -1, 3, 7]), (3, [3]), (-1, [-1]), (12, [4, 12]), (0, [0]), (4, [4])],
      [(3, 7), (-1, 7), (12, 7), (4, 12)]⟩ := by
  decide +kernel

theorem dominates_tangledGraph :
    tangledGraph.DistinctIds ∧ (tangledGraph.Reachable 5 ∧ tangledGraph.Dominates 3 5) ∧
      ¬(tangledGraph.Reachable 3 ∧ tangledGraph.Dominates 1 3) ∧
      ¬(tangledGraph.Reachable 4 ∧ tangledGraph.Dominates 0 4) := by
  have hpaths {a b : Nat} {first second : Block} (ha : tangledGraph.block? a = some first)
      (hb : tangledGraph.block? b = some second) :=
    dominates_ofGraph_iff_paths distinctIds_tangledGraph ha hb
  simp only [ofGraph_tangledGraph] at hpaths
  refine ⟨distinctIds_tangledGraph, ((hpaths rfl rfl).mp (by decide)).resolve_left (by decide),
    fun h => ?_, fun h => ?_⟩
  · exact absurd ((hpaths rfl rfl).mpr (.inr h)) (by decide)
  · exact absurd ((hpaths rfl rfl).mpr (.inr h)) (by decide)

end Dominance

end LoopHoist
