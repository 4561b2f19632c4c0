import LoopHoist.Proofs.Hoist.EveryRound

/-!
# What does not depend on each other

Rounds go over all functions of a program and stop with the first in which none of them
changes.  A function that has settled stays as it is, so each one ends where passes over it
alone would have brought it.

Inside a function, hoisting out of a loop looks at the blocks of the loop alone, and changes
nothing but these and the preheader.  The preheader leads to the header and nowhere else, so
it lies in no loop beside this one and serves no other loop.  Hence loops that are not nested
can be taken in either order.
-/

namespace LoopHoist

variable {policy : Policy}

/-! ## Functions -/

def Func.hoistTimes (policy : Policy) : Nat → Func → Except Fault Func
  | 0, func => .ok func
  | rounds + 1, func => do
      let (next, _) ← func.hoist policy
      next.hoistTimes policy rounds

theorem Func.hoistTimes_eq_iterate {func : Func} (wf : func.graph.WellFormed) (policy : Policy)
    (rounds : Nat) : func.hoistTimes policy rounds = .ok ((Func.pass policy)^[rounds] func) := by
  induction rounds generalizing func with
  | zero => rfl
  | succ rounds ih =>
      obtain ⟨run, hrun⟩ := func.hoist_eq_pass wf policy
      have wf' : (func.pass policy).graph.WellFormed :=
        (Graph.hoists_pass wf policy).wellFormed wf
      exact bind_eq_ok_iff.mpr ⟨_, hrun, ih wf'⟩

/-- Optimising is passing over each function so many times, each by itself. -/
theorem Program.optimize_eq_hoistTimes {text : String} {program : Program}
    (hparse : Program.parse text = .ok program) (policy : Policy) (maxRounds : Nat) :
    ∃ optimized rounds, program.optimize ⟨policy, maxRounds⟩ = .ok (optimized, rounds) ∧
      List.Forall₂ (fun func last => func.hoistTimes policy maxRounds = .ok last)
        program.funcs optimized.funcs := by
  have wf := wellFormed_of_parse hparse
  obtain ⟨rounds, hrounds⟩ := hoistRounds_eq_iterate wf policy maxRounds
  refine ⟨_, rounds, hrounds, ?_⟩
  rw [funcs_iterate_pass, List.forall₂_map_right_iff, List.forall₂_same]
  exact fun func hfunc => func.hoistTimes_eq_iterate (wf func hfunc) policy maxRounds

/-- One function settles after the first round, the other one after the second. -/
theorem branchingText_hoistTimes : ∃ program optimized rounds,
    Program.parse branchingText = .ok program ∧
    program.optimize ⟨.aliasAware, 8⟩ = .ok (optimized, rounds) ∧
    rounds.map (fun round => round.map FuncRun.changed) =
      [[true, true], [false, true], [false, false]] ∧
    List.Forall₂ (fun func last => func.hoistTimes .aliasAware 8 = .ok last)
      program.funcs optimized.funcs := by
  obtain ⟨program, hparse, _, hchanged⟩ := parse_branchingText
  obtain ⟨optimized, rounds, hoptimized, hfuncs⟩ :=
    Program.optimize_eq_hoistTimes hparse .aliasAware 8
  rw [hoptimized] at hchanged
  exact ⟨program, optimized, rounds, hparse, hoptimized, Option.some.inj hchanged, hfuncs⟩

/-! ## What a visit looks at -/

namespace Graph

variable {graph next : Graph} {loop other : NaturalLoop} {facts : Facts} {position : Nat}

/-- Two graphs of one shape with the same blocks in a loop. -/
structure AgreeIn (loop : NaturalLoop) (graph next : Graph) : Prop where
  shape_eq : next.shape = graph.shape
  block?_eq : ∀ {position : Nat}, position ∈ loop.blocks →
    next.block? position = graph.block? position

namespace AgreeIn

variable (h : AgreeIn loop graph next)

include h

theorem preheader?_eq : loop.preheader? next = loop.preheader? graph :=
  NaturalLoop.preheader?_eq_of_shape h.shape_eq loop

theorem ofLoop_eq (origins : OriginTable) :
    LoopSummary.ofLoop next origins loop = LoopSummary.ofLoop graph origins loop := by
  have hblocks : loop.blocks.filterMap next.block? = loop.blocks.filterMap graph.block? :=
    List.filterMap_congr fun _ => h.block?_eq
  have hunavoidable := @unavoidable_eq_of_shape _ _ loop origins origins h.shape_eq
  have hid := @preheaderId_eq_of_shape _ _ loop origins origins h.shape_eq
  simp only [LoopSummary.ofLoop, hblocks, h.preheader?_eq] at hunavoidable hid ⊢
  rw [hunavoidable, hid]

theorem leaves_eq : next.leaves facts policy loop = graph.leaves facts policy loop := by
  funext position instr
  rw [leaves, leaves, h.ofLoop_eq, id?_eq_of_shape h.shape_eq]

theorem leaving_eq : next.leaving facts policy loop = graph.leaving facts policy loop := by
  rw [leaving, leaving, h.leaves_eq]
  exact List.flatMap_congr fun position hposition => by rw [h.block?_eq hposition]

theorem examine_eq (summary : LoopSummary) :
    next.examine facts policy loop summary = graph.examine facts policy loop summary :=
  List.flatMap_congr fun position hposition => by rw [h.block?_eq hposition]

theorem hoistReport_eq (preheader : Nat) : next.hoistReport facts policy loop preheader =
    graph.hoistReport facts policy loop preheader := by
  simp only [hoistReport, NaturalLoop.headerLabel, label?_eq_of_shape h.shape_eq, h.ofLoop_eq,
    h.examine_eq, h.leaving_eq]

/-- What a visit reports depends on the blocks of the loop and on the shape alone. -/
theorem hoistLoop_eq (hids : graph.DistinctIds) (hnodup : loop.blocks.Nodup) (facts : Facts)
    (policy : Policy) :
    ∃ report, graph.hoistLoop facts policy loop = .ok (graph.visit facts policy loop, report) ∧
      next.hoistLoop facts policy loop = .ok (next.visit facts policy loop, report) := by
  cases hpreheader : loop.preheader? graph with
  | none =>
      have hhere := hoistLoop_of_none hpreheader facts policy
      have hthere := hoistLoop_of_none (h.preheader?_eq.trans hpreheader) facts policy
      rw [NaturalLoop.headerLabel, label?_eq_of_shape h.shape_eq] at hthere
      rw [visit_eq hhere, visit_eq hthere]
      exact ⟨_, hhere, hthere⟩
  | some preheader =>
      obtain ⟨_, hhere, _⟩ := hoistLoop_sifts hids hnodup hpreheader facts policy
      obtain ⟨_, hthere, _⟩ := hoistLoop_sifts (hids.of_shape h.shape_eq) hnodup
        (h.preheader?_eq.trans hpreheader) facts policy
      rw [h.hoistReport_eq] at hthere
      rw [visit_eq hhere, visit_eq hthere]
      exact ⟨_, hhere, hthere⟩

theorem block?_visit_eq (hids : graph.DistinctIds) (hnodup : loop.blocks.Nodup)
    (hsame : next.block? position = graph.block? position) :
    (next.visit facts policy loop).block? position =
      (graph.visit facts policy loop).block? position := by
  rw [block?_visit hids hnodup, block?_visit (hids.of_shape h.shape_eq) hnodup, hsame, h.leaves_eq,
    h.leaving_eq, h.preheader?_eq]

end AgreeIn

end Graph

/-! ## What a visit changes -/

namespace NaturalLoop

variable {graph next : Graph} {loop other : NaturalLoop} {position : Nat}

/-- The block at a position is one of those that hoisting out of a loop can change. -/
def Touches (graph : Graph) (loop : NaturalLoop) (position : Nat) : Prop :=
  position ∈ loop.blocks ∨ loop.preheader? graph = some position

/-- Two loops that touch no common block. -/
def Apart (graph : Graph) (loop other : NaturalLoop) : Prop :=
  ∀ {position : Nat}, loop.Touches graph position → ¬other.Touches graph position

theorem Apart.symm (h : loop.Apart graph other) : other.Apart graph loop :=
  fun hother hloop => h hloop hother

theorem touches_iff_of_shape (hshape : next.shape = graph.shape) :
    loop.Touches next position ↔ loop.Touches graph position := by
  rw [Touches, Touches, preheader?_eq_of_shape hshape]

section

variable (wf : graph.WellFormed) (hloop : loop ∈ all graph (Dominance.ofGraph graph))
  (hother : other ∈ all graph (Dominance.ofGraph graph))

include wf hloop hother

theorem not_mem_of_preheader? (hnot : ¬loop.blocks ⊆ other.blocks)
    (hpreheader : loop.preheader? graph = some position) : position ∉ other.blocks := by
  intro hmem
  have hbefore := (isPreheader_of_preheader? wf hpreheader).liesBefore wf hloop
  exact hnot (hbefore.liesInside hother hmem).1

theorem preheader?_ne (hne : loop ≠ other) (hpreheader : loop.preheader? graph = some position) :
    other.preheader? graph ≠ some position := by
  intro hshared
  -- it leads to one header only
  obtain ⟨block, hblock, hsucc⟩ := (isPreheader_of_preheader? wf hpreheader).succ_eq
  obtain ⟨twin, htwin, hsucc'⟩ := (isPreheader_of_preheader? wf hshared).succ_eq
  cases hblock.symm.trans htwin
  have hheader : loop.header = other.header := List.singleton_inj.mp (hsucc.symm.trans hsucc')
  exact hne (eq_of_header_eq wf.distinctIds hother hloop hheader)

theorem apart_of_not_subset (hnot : ¬loop.blocks ⊆ other.blocks)
    (hnot' : ¬other.blocks ⊆ loop.blocks) : loop.Apart graph other := by
  have hne : loop ≠ other := fun heq => hnot (heq ▸ List.Subset.refl _)
  have hheader : loop.header ≠ other.header := fun heq =>
    hne (eq_of_header_eq wf.distinctIds hother hloop heq)
  have hdisjoint : loop.blocks.Disjoint other.blocks := by
    rcases disjoint_or_liesInside wf.consistent hloop hother hheader with hdisjoint | hin | hin
    · exact hdisjoint
    · exact absurd hin.1 hnot
    · exact absurd hin.1 hnot'
  rintro position (hmem | hpreheader) (hmem' | hpreheader')
  · exact hdisjoint hmem hmem'
  · exact not_mem_of_preheader? wf hother hloop hnot' hpreheader' hmem
  · exact not_mem_of_preheader? wf hloop hother hnot hpreheader hmem'
  · exact preheader?_ne wf hloop hother hne hpreheader hpreheader'

end

end NaturalLoop

namespace Graph

variable {graph : Graph} {loop other : NaturalLoop} {facts : Facts} {position : Nat}

theorem block?_visit_of_not_touches (hids : graph.DistinctIds) (hnodup : loop.blocks.Nodup)
    (hnot : ¬loop.Touches graph position) :
    (graph.visit facts policy loop).block? position = graph.block? position := by
  obtain ⟨hout, hpreheader⟩ := not_or.mp hnot
  have hstay : ∀ instr, graph.leaves facts policy loop position instr = false := by
    simp [leaves, hout]
  rw [block?_visit hids hnodup]
  simp [hstay, hpreheader]

section

variable (hids : graph.DistinctIds) (hnodup : loop.blocks.Nodup)

include hids hnodup

theorem agreeIn_visit (hapart : loop.Apart graph other) (facts : Facts) (policy : Policy) :
    AgreeIn other graph (graph.visit facts policy loop) where
  shape_eq := shape_visit hids hnodup
  block?_eq hposition :=
    block?_visit_of_not_touches hids hnodup fun htouches => hapart htouches (.inl hposition)

variable (hnodup' : other.blocks.Nodup) (hapart : loop.Apart graph other)

include hnodup' hapart

/-- Where one of the loops touches nothing, both orders do what a visit to the other one does.
-/
theorem block?_visit_visit (hnot : ¬loop.Touches graph position) :
    ((graph.visit facts policy loop).visit facts policy other).block? position =
      ((graph.visit facts policy other).visit facts policy loop).block? position := by
  have hshape : (graph.visit facts policy other).shape = graph.shape := shape_visit hids hnodup'
  rw [(agreeIn_visit hids hnodup hapart facts policy).block?_visit_eq hids hnodup'
      (block?_visit_of_not_touches hids hnodup hnot),
    block?_visit_of_not_touches (hids.of_shape hshape) hnodup
      (mt (NaturalLoop.touches_iff_of_shape hshape).mp hnot)]

theorem visit_visit_comm :
    (graph.visit facts policy loop).visit facts policy other =
      (graph.visit facts policy other).visit facts policy loop := by
  refine ext_block? fun position => ?_
  by_cases htouches : loop.Touches graph position
  · exact (block?_visit_visit hids hnodup' hnodup hapart.symm (hapart htouches)).symm
  · exact block?_visit_visit hids hnodup hnodup' hapart htouches

end

theorem hoistLoops_pair {middle last : Graph} {report report' : HoistReport}
    (hfirst : graph.hoistLoop facts policy loop = .ok (middle, report))
    (hsecond : middle.hoistLoop facts policy other = .ok (last, report')) :
    hoistLoops facts policy [loop, other] graph = .ok (last, [report, report']) :=
  hoistLoops_cons_eq_ok_iff.mpr
    ⟨_, _, _, hfirst, hoistLoops_cons_eq_ok_iff.mpr ⟨_, _, _, hsecond, rfl, rfl⟩, rfl⟩

end Graph

/-- Loops of which neither contains the other are left in either order with one result, and
each with one report. -/
theorem Program.hoistLoops_pair_comm {text : String} {program : Program}
    (hparse : Program.parse text = .ok program) {func : Func} (hfunc : func ∈ program.funcs)
    {loop other : NaturalLoop} (hloop : loop ∈ (Facts.compute func.graph).forest.loops)
    (hother : other ∈ (Facts.compute func.graph).forest.loops)
    (hnot : ¬loop.blocks ⊆ other.blocks) (hnot' : ¬other.blocks ⊆ loop.blocks) (facts : Facts)
    (policy : Policy) :
    ∃ middle middle' last report report',
      (func.graph.hoistLoop facts policy loop = .ok (middle, report) ∧
        middle.hoistLoop facts policy other = .ok (last, report')) ∧
      (func.graph.hoistLoop facts policy other = .ok (middle', report') ∧
        middle'.hoistLoop facts policy loop = .ok (last, report)) ∧
      Graph.hoistLoops facts policy [loop, other] func.graph = .ok (last, [report, report']) ∧
      Graph.hoistLoops facts policy [other, loop] func.graph = .ok (last, [report', report]) := by
  have wf := wellFormed_of_parse hparse func hfunc
  have hapart : loop.Apart func.graph other :=
    NaturalLoop.apart_of_not_subset wf hloop hother hnot hnot'
  have hids : func.graph.DistinctIds := wf.distinctIds
  have hnodup := (NaturalLoop.isRegion_of_mem_all wf hloop).nodup
  have hnodup' := (NaturalLoop.isRegion_of_mem_all wf hother).nodup
  have hhere := Graph.agreeIn_visit hids hnodup' hapart.symm facts policy
  have hthere := Graph.agreeIn_visit hids hnodup hapart facts policy
  obtain ⟨report, hfirst, hlater⟩ := hhere.hoistLoop_eq hids hnodup facts policy
  obtain ⟨report', hfirst', hlater'⟩ := hthere.hoistLoop_eq hids hnodup' facts policy
  rw [← Graph.visit_visit_comm hids hnodup hnodup' hapart] at hlater
  exact ⟨_, _, _, report, report', ⟨hfirst, hlater'⟩, ⟨hfirst', hlater⟩,
    Graph.hoistLoops_pair hfirst hlater', Graph.hoistLoops_pair hfirst' hlater⟩

/-- A load leaves the first loop and a product the second one. -/
theorem branchingText_hoistLoops_pair_comm : ∃ program, Program.parse branchingText = .ok program ∧
    ∃ func ∈ program.funcs, ∃ loop ∈ (Facts.compute func.graph).forest.loops,
      ∃ other ∈ (Facts.compute func.graph).forest.loops, ∃ middle middle' last report report',
        (func.graph.hoistLoop (Facts.compute func.graph) .aliasAware loop = .ok (middle, report) ∧
          middle.hoistLoop (Facts.compute func.graph) .aliasAware other = .ok (last, report')) ∧
        (func.graph.hoistLoop (Facts.compute func.graph) .aliasAware other =
            .ok (middle', report') ∧
          middle'.hoistLoop (Facts.compute func.graph) .aliasAware loop = .ok (last, report)) ∧
        Graph.hoistLoops (Facts.compute func.graph) .aliasAware [loop, other] func.graph =
          .ok (last, [report, report']) ∧
        Graph.hoistLoops (Facts.compute func.graph) .aliasAware [other, loop] func.graph =
          .ok (last, [report', report]) ∧
        report.hoisted.filterMap Instr.write? = [.register "v" .i32] ∧
        report'.hoisted.filterMap Instr.write? = [.register "r" .i32] := by
  obtain ⟨program, hparse, ⟨func, hfunc, hloops, _, _, hhoisted⟩, _⟩ := parse_branchingText
  have hmem : ⟨1, [1, 2, 3]⟩ ∈ (Facts.compute func.graph).forest.loops ∧
      ⟨5, [5]⟩ ∈ (Facts.compute func.graph).forest.loops := by
    simp [hloops]
  obtain ⟨middle, middle', last, report, report', hthere, hback, hpass, hpass'⟩ :=
    Program.hoistLoops_pair_comm hparse hfunc hmem.1 hmem.2 (by decide) (by decide)
      (Facts.compute func.graph) .aliasAware
  rw [hpass] at hhoisted
  obtain ⟨hfirst, hsecond⟩ := List.cons.inj (Option.some.inj hhoisted)
  exact ⟨program, hparse, func, hfunc, _, hmem.1, _, hmem.2, middle, middle', last, report, report',
    hthere, hback, hpass, hpass', hfirst, List.singleton_inj.mp hsecond⟩

end LoopHoist
