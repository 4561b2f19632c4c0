import LoopHoist.Proofs.Flow.Shape
import LoopHoist.Proofs.Hoist.Conservation
import LoopHoist.Proofs.Source.Acceptance
import Mathlib.Algebra.BigOperators.Ring.Finset
import Mathlib.Algebra.Order.BigOperators.Group.Finset

/-!
# Every hoist makes progress

An instruction that leaves a loop comes to a block that lies in fewer loops.  Count with
every instruction the loops around it: each one that moves takes at least one from the
sum, so there cannot be more rounds of change than the sum at the beginning.
-/

namespace LoopHoist

variable {policy : Policy}

namespace Graph

variable {graph next other : Graph} {loop : NaturalLoop}

/-- The number of loops around the block at a position. -/
def loopsAround (graph : Graph) (position : Nat) : Nat :=
  NaturalLoop.nesting (Facts.compute graph).forest.loops position

def instrCount (graph : Graph) (position : Nat) : Nat :=
  (graph.block? position).elim 0 fun block => block.instrs.length

/-- The number of loops around each instruction, added up. -/
def loopLoad (graph : Graph) : Nat :=
  ∑ position ∈ Finset.range graph.blocks.length,
    graph.loopsAround position * graph.instrCount position

theorem loopsAround_eq_of_shape (hshape : other.shape = graph.shape) (position : Nat) :
    other.loopsAround position = graph.loopsAround position := by
  simp only [loopsAround, Facts.compute, Dominance.ofGraph_eq_of_shape hshape,
    LoopForest.ofGraph_eq_of_shape hshape]

/-- What hoisting out of one loop achieves: instructions go from blocks of the loop to one
that lies in fewer loops than any of them. -/
structure Advances (loop : NaturalLoop) (graph next : Graph) (moved : List Instr) : Prop where
  origin : ∀ instr ∈ moved, ∃ source ∈ loop.blocks, graph.Holds source instr
  landing : moved ≠ [] → ∃ destination block, graph.block? destination = some block ∧
    next.block? destination = some { block with body := block.body ++ moved } ∧
    ∀ source ∈ loop.blocks, graph.loopsAround destination < graph.loopsAround source
  load_le : next.loopLoad + moved.length ≤ graph.loopLoad

/-! ## Hoisting out of one loop -/

section

variable {test : Nat → Instr → Bool} {destination : Nat} {moved : List Instr} {landing : Block}

def passing (graph : Graph) (test : Nat → Instr → Bool) (position : Nat) : Nat :=
  (graph.block? position).elim 0 fun block => block.body.countP (test position)

theorem Sifts.instrCount_add (h : Sifts graph next test destination moved)
    (hlanding : graph.block? destination = some landing)
    (hout : ∀ instr, test destination instr = false) {position : Nat}
    (hposition : position < graph.blocks.length) :
    next.instrCount position + graph.passing test position =
      graph.instrCount position + if position = destination then moved.length else 0 := by
  have hblock : graph.block? position = some graph.blocks[position] :=
    List.getElem?_eq_getElem hposition
  by_cases heq : position = destination
  · subst heq
    cases hblock.symm.trans hlanding
    simp only [instrCount, passing, h.landed hblock, hblock, Option.elim_some, Block.instrs,
      List.length_append, if_pos]
    have hnone : List.countP (test position) (graph.blocks[position]).body = 0 := by
      simp [List.countP_eq_zero, hout]
    omega
  · simp only [instrCount, passing, h.kept heq hblock, hblock, Option.elim_some, Block.instrs,
      List.length_append, if_neg heq]
    have hsplit := List.length_eq_length_filter_add (l := graph.blocks[position].body)
      (test position)
    rw [List.countP_eq_length_filter]
    omega

end

variable {facts : Facts}

theorem passing_eq_zero {position : Nat} (h : position ∉ loop.blocks) :
    graph.passing (graph.leaves facts policy loop) position = 0 := by
  cases hblock : graph.block? position with
  | none => simp [passing, hblock]
  | some block => simp [passing, hblock, List.countP_eq_zero, leaves, h]

theorem length_leaving (facts : Facts) (policy : Policy) (hnodup : loop.blocks.Nodup)
    (hblocks : ∀ {position : Nat}, position ∈ loop.blocks → position < graph.blocks.length) :
    (graph.leaving facts policy loop).length = ∑ position ∈ Finset.range graph.blocks.length,
      graph.passing (graph.leaves facts policy loop) position := by
  have hpassing : (fun position => (((graph.block? position).elim [] Block.body).filter
      (graph.leaves facts policy loop position)).length) =
        graph.passing (graph.leaves facts policy loop) := by
    funext position
    rw [← List.countP_eq_length_filter, passing]
    cases graph.block? position with
    | none => rfl
    | some block => rfl
  rw [leaving, List.length_flatMap, hpassing, ← List.sum_toFinset _ hnodup]
  apply Finset.sum_subset
  · intro position hposition
    exact Finset.mem_range.mpr (hblocks (List.mem_toFinset.mp hposition))
  · -- nothing leaves from outside the loop
    intro position _ hout
    exact passing_eq_zero (List.mem_toFinset.not.mp hout)

/-- Whoever leaves gives up at least one of the loops around. -/
theorem Sifts.loopLoad_le {destination : Nat} {moved : List Instr} {landing : Block}
    (h : Sifts graph next (graph.leaves facts policy loop) destination moved)
    (hshape : next.shape = graph.shape) (hlanding : graph.block? destination = some landing)
    (hout : destination ∉ loop.blocks)
    (hmoved : moved.length = ∑ position ∈ Finset.range graph.blocks.length,
      graph.passing (graph.leaves facts policy loop) position)
    (hfewer : ∀ source ∈ loop.blocks, graph.loopsAround destination < graph.loopsAround source) :
    next.loopLoad + moved.length ≤ graph.loopLoad := by
  let passing := graph.passing (graph.leaves facts policy loop)
  have hstay : ∀ instr, graph.leaves facts policy loop destination instr = false := by
    simp [leaves, hout]
  have hterms : ∀ position ∈ Finset.range graph.blocks.length,
      graph.loopsAround position * next.instrCount position +
          graph.loopsAround position * passing position =
        graph.loopsAround position * graph.instrCount position +
          if position = destination then graph.loopsAround position * moved.length else 0 := by
    intro position hposition
    have hcount := congrArg (graph.loopsAround position * ·)
      (h.instrCount_add hlanding hstay (Finset.mem_range.mp hposition))
    simpa [Nat.mul_add] using hcount
  have hsum := Finset.sum_congr rfl hterms
  rw [Finset.sum_add_distrib, Finset.sum_add_distrib, Finset.sum_ite_eq',
    if_pos (Finset.mem_range.mpr (List.getElem?_eq_some_iff.mp hlanding).1)] at hsum
  have hgain : ∑ position ∈ Finset.range graph.blocks.length,
      (graph.loopsAround destination + 1) * passing position ≤
        ∑ position ∈ Finset.range graph.blocks.length,
          graph.loopsAround position * passing position := by
    refine Finset.sum_le_sum fun position _ => ?_
    by_cases hsource : position ∈ loop.blocks
    · exact Nat.mul_le_mul_right _ (hfewer position hsource)
    · have hzero : passing position = 0 := passing_eq_zero hsource
      simp [hzero]
  rw [← Finset.mul_sum, ← hmoved, Nat.add_mul, Nat.one_mul] at hgain
  have hload : next.loopLoad = ∑ position ∈ Finset.range graph.blocks.length,
      graph.loopsAround position * next.instrCount position := by
    rw [loopLoad, length_eq_of_shape hshape]
    simp only [loopsAround_eq_of_shape hshape]
  rw [hload]
  unfold loopLoad
  omega

theorem hoistLoop_advances (wf : graph.WellFormed)
    (hloop : loop ∈ NaturalLoop.all graph (Dominance.ofGraph graph)) {report : HoistReport}
    (h : graph.hoistLoop facts policy loop = .ok (next, report)) :
    Advances loop graph next report.hoisted := by
  have hregion := NaturalLoop.isRegion_of_mem_all wf hloop
  cases hpreheader : loop.preheader? graph with
  | none =>
      cases h.symm.trans (hoistLoop_of_none hpreheader facts policy)
      exact ⟨by simp, by simp, Nat.le_refl _⟩
  | some preheader =>
      have hpre := NaturalLoop.isPreheader_of_preheader? wf hpreheader
      obtain ⟨landing, hlanding, _⟩ := hpre.succ_eq
      obtain ⟨_, hgiven, hsifts, hrun⟩ :=
        hoistLoop_sifts wf.distinctIds hregion.nodup hpreheader facts policy
      cases h.symm.trans hgiven
      have hfewer : ∀ source ∈ loop.blocks,
          graph.loopsAround preheader < graph.loopsAround source := fun source hsource =>
        NaturalLoop.nesting_preheader_lt wf.consistent hloop hpre hsource
      have hlength := length_leaving facts policy hregion.nodup fun hmem => by
          obtain ⟨block, hblock⟩ := wf.block_of_reachable (hregion.reachable hmem)
          exact (List.getElem?_eq_some_iff.mp hblock).1
      refine ⟨?_, fun _ => ⟨preheader, landing, hlanding, hsifts.landed hlanding, hfewer⟩, ?_⟩
      · intro instr hinstr
        obtain ⟨source, hholds, hleaves⟩ := mem_leaving_iff.mp hinstr
        exact ⟨source, (leaves_eq_true_iff.mp hleaves).1, hholds⟩
      · exact hsifts.loopLoad_le (shape_eq_of_relocations hrun) hlanding hpre.not_mem hlength hfewer

/-! ## Passes -/

def movedBy (reports : List HoistReport) : Nat :=
  (reports.map fun report => report.hoisted.length).sum

theorem movedBy_pos {reports : List HoistReport} (h : reports.any HoistReport.changed = true) :
    0 < movedBy reports := by
  obtain ⟨report, hmem, hchanged⟩ := List.any_eq_true.mp h
  have hlength : 0 < report.hoisted.length := by
    simpa [HoistReport.changed, List.length_pos_iff] using hchanged
  exact Nat.lt_of_lt_of_le hlength
    (List.single_le_sum (fun _ _ => Nat.zero_le _) _ (List.mem_map_of_mem hmem))

theorem hoistLoops_loopLoad_le {loops : List NaturalLoop} {reports : List HoistReport}
    (wf : graph.WellFormed)
    (hloops : ∀ loop ∈ loops, loop ∈ NaturalLoop.all graph (Dominance.ofGraph graph))
    (horigins : facts.origins.Describes graph.bodies)
    (h : hoistLoops facts policy loops graph = .ok (next, reports)) :
    next.loopLoad + movedBy reports ≤ graph.loopLoad := by
  induction loops generalizing graph reports with
  | nil =>
      cases h
      exact Nat.le_refl _
  | cons loop loops ih =>
      rw [List.forall_mem_cons] at hloops
      obtain ⟨middle, report, later, hfirst, hlater, rfl⟩ := hoistLoops_cons_eq_ok_iff.mp h
      have hsteps := hoists_of_hoistLoop wf (NaturalLoop.isRegion_of_mem_all wf hloops.1) horigins
        hfirst
      have hload := (hoistLoop_advances wf hloops.1 hfirst).load_le
      have hrest := ih (hsteps.wellFormed wf)
        (fun other hother => mem_all_of_shape hsteps.shape_eq (hloops.2 other hother))
        (horigins.mono hsteps.bodies_perm.symm.subset) hlater
      simp only [movedBy, List.map_cons, List.sum_cons] at hrest ⊢
      omega

end Graph

/-- A pass over a function comes to a loop when the graph has become what is given. -/
def Func.ComesTo (policy : Policy) (func : Func) (loop : NaturalLoop) (graph : Graph) : Prop :=
  ∃ before after reports, (Facts.compute func.graph).visited = before ++ loop :: after ∧
    Graph.hoistLoops (Facts.compute func.graph) policy before func.graph = .ok (graph, reports)

theorem Func.ComesTo.advances {func : Func} {loop : NaturalLoop} {graph : Graph}
    (h : func.ComesTo policy loop graph) (wf : func.graph.WellFormed) :
    ∃ next report, graph.hoistLoop (Facts.compute func.graph) policy loop = .ok (next, report) ∧
      Graph.Advances loop graph next report.hoisted := by
  obtain ⟨before, after, reports, hvisited, hbefore⟩ := h
  have hloops : ∀ other ∈ before ++ loop :: after,
      other ∈ NaturalLoop.all func.graph (Dominance.ofGraph func.graph) := by
    intro other hother
    rwa [← hvisited, Facts.mem_visited_iff] at hother
  have hsteps := (Graph.hoistLoops_changed_iff wf
    (fun other hother => NaturalLoop.isRegion_of_mem_all wf
      (hloops other (List.mem_append_left _ hother)))
    (Facts.describes_origins func.graph) hbefore).1
  have hloop := Graph.mem_all_of_shape hsteps.shape_eq (hloops loop (by simp))
  have wf' := hsteps.wellFormed wf
  obtain ⟨next, report, hnext, _⟩ := Graph.hoistLoop_eq_ok wf'
    (NaturalLoop.isRegion_of_mem_all wf' hloop)
    ((Facts.describes_origins func.graph).mono hsteps.bodies_perm.symm.subset) policy
  exact ⟨next, report, hnext, Graph.hoistLoop_advances wf' hloop hnext⟩

theorem Func.hoist_loopLoad_le {func next : Func} {run : FuncRun} (wf : func.graph.WellFormed)
    (h : func.hoist policy = .ok (next, run)) :
    next.graph.loopLoad + Graph.movedBy run.reports ≤ func.graph.loopLoad := by
  obtain ⟨graph, reports, hloops, rfl, rfl⟩ := (hoist_eq_ok_iff wf).mp h
  exact Graph.hoistLoops_loopLoad_le wf (fun _ => Facts.mem_visited_iff.mp)
    (Facts.describes_origins func.graph) hloops

/-! ## Rounds -/

namespace Program

variable {program next : Program}

def loopLoad (program : Program) : Nat := (program.funcs.map fun func => func.graph.loopLoad).sum

theorem hoist_loopLoad_le {round : Round} (wf : ∀ func ∈ program.funcs, func.graph.WellFormed)
    (h : program.hoist policy = .ok (next, round)) :
    next.loopLoad + (round.map fun run => Graph.movedBy run.reports).sum ≤ program.loopLoad := by
  obtain ⟨funcs⟩ := program
  rw [Program.hoist, bind_eq_ok_iff] at h
  obtain ⟨results, hresults, ⟨⟩⟩ := h
  replace hresults := mapM_eq_ok_iff.mp hresults
  simp only [loopLoad, List.map_map] at wf hresults ⊢
  induction hresults with
  | nil => simp
  | @cons func result funcs results hfirst _ ih =>
      rw [List.forall_mem_cons] at wf
      have hhead := Func.hoist_loopLoad_le wf.1 hfirst
      have hrest := ih wf.2
      simp only [List.map_cons, List.sum_cons, Function.comp_apply] at hrest ⊢
      omega

theorem hoist_loopLoad_lt {round : Round} (wf : ∀ func ∈ program.funcs, func.graph.WellFormed)
    (h : program.hoist policy = .ok (next, round)) (hchanged : round.changed = true) :
    next.loopLoad < program.loopLoad := by
  have hload := hoist_loopLoad_le wf h
  obtain ⟨run, hmem, hrun⟩ := List.any_eq_true.mp hchanged
  have hmoved := List.single_le_sum (fun _ _ => Nat.zero_le _) _
    (List.mem_map_of_mem (f := fun run => Graph.movedBy run.reports) hmem)
  have hpos := Graph.movedBy_pos hrun
  omega

theorem hoistRounds_loopLoad_le {rounds : Nat} {log : List Round} {last : Program}
    (wf : ∀ func ∈ program.funcs, func.graph.WellFormed)
    (h : hoistRounds policy rounds program = .ok (last, log)) :
    last.loopLoad + (log.filter Round.changed).length ≤ program.loopLoad := by
  induction rounds generalizing program log with
  | zero =>
      cases h
      exact Nat.le_refl _
  | succ rounds ih =>
      obtain ⟨⟨next, round⟩, hnext, h⟩ := bind_eq_ok_iff.mp h
      obtain ⟨_, _, hgiven, hhoists⟩ := hoist_eq_ok wf policy
      cases hnext.symm.trans hgiven
      cases hchanged : round.changed with
      | false =>
          simp only [hchanged] at h
          cases h
          have hload := hoist_loopLoad_le wf hnext
          simp only [List.filter_cons, hchanged, List.filter_nil]
          exact Nat.le_trans (Nat.add_le_add_left (Nat.zero_le _) _) hload
      | true =>
          simp only [hchanged, if_true] at h
          obtain ⟨⟨final, later⟩, hlater, h⟩ := bind_eq_ok_iff.mp h
          cases h
          have hrest : final.loopLoad + _ ≤ _ := ih (wellFormed_of_hoists hhoists wf) hlater
          have hlt := hoist_loopLoad_lt wf hnext hchanged
          simp only [List.filter_cons, hchanged, if_true, List.length_cons]
          omega

/-- Whenever the optimiser comes to a loop, what leaves it comes to fewer loops and the sum
of loops around instructions drops for each.  So that sum bounds the rounds of change. -/
theorem advances_of_parse {text : String} {program : Program}
    (hparse : Program.parse text = .ok program) (policy : Policy) :
    (∀ {rounds : Nat} {current : Program} {log : List Round} {func : Func} {loop : NaturalLoop}
        {graph : Graph}, hoistRounds policy rounds program = .ok (current, log) →
      func ∈ current.funcs → func.ComesTo policy loop graph →
        ∃ next report,
          graph.hoistLoop (Facts.compute func.graph) policy loop = .ok (next, report) ∧
          Graph.Advances loop graph next report.hoisted) ∧
    ∀ maxRounds, ∃ optimized rounds,
      program.optimize ⟨policy, maxRounds⟩ = .ok (optimized, rounds) ∧
      (rounds.filter Round.changed).length ≤ program.loopLoad := by
  have wf := wellFormed_of_parse hparse
  constructor
  · intro rounds current log func loop graph hrounds hfunc hcomes
    obtain ⟨_, _, hgiven, hhoists⟩ := hoistRounds_eq_ok wf policy rounds
    cases hrounds.symm.trans hgiven
    exact hcomes.advances (wellFormed_of_hoists hhoists wf func hfunc)
  · intro maxRounds
    obtain ⟨optimized, rounds, hoptimized, _⟩ := optimize_eq_ok wf ⟨policy, maxRounds⟩
    have hload := hoistRounds_loopLoad_le wf hoptimized
    exact ⟨optimized, rounds, hoptimized, by omega⟩

end Program

/-! ## Two nested loops -/

/-- The product and the load can leave both loops at once, and the sum can follow. -/
def nestedText : String :=
  "define i32 @f(i32 %x, i32 %y) \x7b
a:
  br label %h
h:
  %i = phi i32 [0, %a], [%k, %l]
  br label %b
b:
  %j = phi i32 [0, %h], [%m, %b]
  %p = mul i32 %x, %y
  %q = add i32 %p, 1
  %v = load i32, i32* @g
  %m = add i32 %j, %v
  %c = icmp slt i32 %m, %q
  br i1 %c, label %b, label %l
l:
  %k = add i32 %i, 1
  %d = icmp slt i32 %k, %y
  br i1 %d, label %h, label %e
e:
  ret i32 %i
\x7d
"

/-- A pass begins with the inner loop, and two rounds change something.  The load stays
if loads are not looked at. -/
theorem parse_nestedText : ∃ program, Program.parse nestedText = .ok program ∧
    (∃ func ∈ program.funcs, (Facts.compute func.graph).visited = [⟨2, [2]⟩, ⟨1, [1, 2, 3]⟩]) ∧
    (program.optimize ⟨.aliasAware, 8⟩).toOption.map (fun result =>
      (result.2.filter Round.changed).length) = some 2 ∧
    (∀ func ∈ program.funcs, (func.graph.blocks.flatMap Block.defs).Nodup) ∧
    (program.optimize ⟨.conservative, 8⟩).toOption.map Prod.fst ≠
      (program.optimize ⟨.aliasAware, 8⟩).toOption.map Prod.fst :=
  Program.exists_parse_of_eval (by
    rw [nestedText, String.toList_ofList]
    decide +kernel)

theorem nestedText_advances : ∃ program, Program.parse nestedText = .ok program ∧
    (∃ func ∈ program.funcs, func.ComesTo .aliasAware ⟨2, [2]⟩ func.graph ∧
      ∃ next report, func.graph.hoistLoop (Facts.compute func.graph) .aliasAware ⟨2, [2]⟩ =
          .ok (next, report) ∧
        Graph.Advances ⟨2, [2]⟩ func.graph next report.hoisted) ∧
    ∃ optimized rounds, program.optimize ⟨.aliasAware, 8⟩ = .ok (optimized, rounds) ∧
      (rounds.filter Round.changed).length = 2 ∧ 2 ≤ program.loopLoad := by
  obtain ⟨program, hparse, ⟨func, hfunc, hvisited⟩, hchanged, _⟩ := parse_nestedText
  obtain ⟨hadvances, hbound⟩ := Program.advances_of_parse hparse .aliasAware
  have hcomes : func.ComesTo .aliasAware ⟨2, [2]⟩ func.graph :=
    ⟨[], [⟨1, [1, 2, 3]⟩], [], hvisited, rfl⟩
  obtain ⟨optimized, rounds, hoptimized, hle⟩ := hbound 8
  have htwo : (rounds.filter Round.changed).length = 2 := by
    simpa [hoptimized, Except.toOption] using hchanged
  exact ⟨program, hparse, ⟨func, hfunc, hcomes, @hadvances 0 _ _ _ _ _ rfl hfunc hcomes⟩,
    optimized, rounds, hoptimized, htwo, by omega⟩

end LoopHoist
