import LoopHoist.Proofs.Flow.Shape
import LoopHoist.Proofs.Hoist.Conservation
import Mathlib.Logic.Function.Iterate

/-!
# Passes

A visit to a loop brings what may leave to the preheader and leaves all else where it is.
A pass visits the loops one after the other, and rounds are passes over and over: that they
stop as soon as one of them changes nothing makes no difference to the result.
-/

namespace LoopHoist

variable {policy : Policy}

theorem LoopSummary.loadIsSafe_eq_true_iff {summary : LoopSummary} {facts : Facts}
    {instr : Instr} {id : Int} :
    summary.loadIsSafe facts policy instr id = true ↔
      policy = .aliasAware ∧ ∃ target ty address, instr = .load target ty address ∧
        (∀ written ∈ summary.written,
          (facts.origins.origin address).mayOverlap written = false) ∧
        ∀ other ∈ summary.unavoidable, facts.dominance.dominates id other = true := by
  unfold loadIsSafe
  split
  · rename_i target ty address
    simp
  · rename_i hnot
    simp only [Bool.false_eq_true, false_iff]
    rintro ⟨rfl, target, ty, address, rfl, _⟩
    exact hnot target ty address rfl rfl

namespace Graph

variable {start graph next : Graph} {loop : NaturalLoop} {facts : Facts}

/-! ## What verdicts look at -/

/-- A phi or an instruction in a loop defines a symbol. -/
def Defines (graph : Graph) (loop : NaturalLoop) (symbol : Symbol) : Prop :=
  ∃ block ∈ loop.blocks.filterMap graph.block?, symbol ∈ block.defs

instance {symbol : Symbol} : Decidable (graph.Defines loop symbol) :=
  inferInstanceAs (Decidable (∃ block ∈ loop.blocks.filterMap graph.block?, symbol ∈ block.defs))

theorem mem_defined_iff {origins : OriginTable} {symbol : Symbol} :
    symbol ∈ (LoopSummary.ofLoop graph origins loop).defined ↔ graph.Defines loop symbol :=
  List.mem_flatMap

theorem defines_iff {symbol : Symbol} : graph.Defines loop symbol ↔ ∃ position ∈ loop.blocks,
    (∃ block, graph.block? position = some block ∧ symbol ∈ block.phis.map Phi.target) ∨
    ∃ writer, graph.Holds position writer ∧ writer.write? = some symbol := by
  simp only [Defines, List.mem_filterMap, Block.defs, List.mem_append, Holds]
  constructor
  · rintro ⟨block, ⟨position, hposition, hblock⟩, hphi | ⟨writer, hwriter, hwrite⟩⟩
    · exact ⟨position, hposition, .inl ⟨block, hblock, hphi⟩⟩
    · exact ⟨position, hposition, .inr ⟨writer, ⟨block, hblock, hwriter⟩, hwrite⟩⟩
  · rintro ⟨position, hposition, ⟨block, hblock, hphi⟩ | ⟨writer, ⟨block, hblock, hmem⟩, hwrite⟩⟩
    · exact ⟨block, ⟨position, hposition, hblock⟩, .inl hphi⟩
    · exact ⟨block, ⟨position, hposition, hblock⟩, .inr ⟨writer, hmem, hwrite⟩⟩

theorem mem_written_iff {origins : OriginTable} {written : Origin} :
    written ∈ (LoopSummary.ofLoop graph origins loop).written ↔ ∃ position ∈ loop.blocks,
      ∃ writer, graph.Holds position writer ∧
        LoopSummary.writtenBy origins writer = some written := by
  simp only [LoopSummary.ofLoop, List.mem_filterMap, List.mem_flatMap, Holds]
  constructor
  · rintro ⟨writer, ⟨block, ⟨position, hposition, hblock⟩, hmem⟩, hwritten⟩
    exact ⟨position, hposition, writer, ⟨block, hblock, hmem⟩, hwritten⟩
  · rintro ⟨position, hposition, writer, ⟨block, hblock, hmem⟩, hwritten⟩
    exact ⟨writer, ⟨block, ⟨position, hposition, hblock⟩, hmem⟩, hwritten⟩

section

variable {origins others : OriginTable}

theorem unavoidable_eq_of_shape (hshape : next.shape = graph.shape) :
    (LoopSummary.ofLoop next others loop).unavoidable =
      (LoopSummary.ofLoop graph origins loop).unavoidable := by
  have hids : next.id? = graph.id? := funext (id?_eq_of_shape hshape)
  simp only [LoopSummary.ofLoop, ids, hids]
  rw [← NaturalLoop.latches_shape, ← NaturalLoop.exiting_shape, hshape, NaturalLoop.latches_shape,
    NaturalLoop.exiting_shape]

theorem preheaderId_eq_of_shape (hshape : next.shape = graph.shape) :
    (LoopSummary.ofLoop next others loop).preheaderId =
      (LoopSummary.ofLoop graph origins loop).preheaderId := by
  have hids : next.id? = graph.id? := funext (id?_eq_of_shape hshape)
  simp only [LoopSummary.ofLoop, hids, NaturalLoop.preheader?_eq_of_shape hshape]

end

/-! ## Visits -/

/-- What is left of a graph after hoisting out of one loop. -/
def visit (facts : Facts) (policy : Policy) (graph : Graph) (loop : NaturalLoop) : Graph :=
  ((graph.hoistLoop facts policy loop).toOption.map Prod.fst).getD graph

theorem visit_eq {report : HoistReport} (h : graph.hoistLoop facts policy loop = .ok (next, report)) :
    graph.visit facts policy loop = next := by
  rw [visit, h]
  rfl

theorem leaves_eq_false_of_none (h : loop.preheader? graph = none) (source : Nat)
    (instr : Instr) : graph.leaves facts policy loop source instr = false := by
  rw [← Bool.not_eq_true]
  intro hleaves
  obtain ⟨_, hsome⟩ := exists_preheader_of_leaves hleaves
  rw [h] at hsome
  cases hsome

/-- Hoisting out of a loop cannot fail, and reports what may leave. -/
theorem hoistLoop_eq_visit (hids : graph.DistinctIds) (hnodup : loop.blocks.Nodup) (facts : Facts)
    (policy : Policy) :
    ∃ report, graph.hoistLoop facts policy loop = .ok (graph.visit facts policy loop, report) ∧
      report.hoisted = graph.leaving facts policy loop := by
  cases hpreheader : loop.preheader? graph with
  | none =>
      have hhoist := hoistLoop_of_none hpreheader facts policy
      have hnone : graph.leaving facts policy loop = [] := by
        simp [leaving, leaves_eq_false_of_none hpreheader]
      rw [visit_eq hhoist]
      exact ⟨_, hhoist, hnone.symm⟩
  | some preheader =>
      obtain ⟨_, hhoist, _⟩ := hoistLoop_sifts hids hnodup hpreheader facts policy
      rw [visit_eq hhoist]
      exact ⟨_, hhoist, rfl⟩

/-- A visit takes from each body what may leave, and adds all of it to the preheader. -/
theorem block?_visit (hids : graph.DistinctIds) (hnodup : loop.blocks.Nodup) (position : Nat) :
    (graph.visit facts policy loop).block? position = (graph.block? position).map fun block =>
      { block with
        body := block.body.filter (fun instr => !graph.leaves facts policy loop position instr) ++
          if loop.preheader? graph = some position then graph.leaving facts policy loop
          else [] } := by
  cases hpreheader : loop.preheader? graph with
  | none =>
      rw [visit_eq (hoistLoop_of_none hpreheader facts policy)]
      simp [leaves_eq_false_of_none hpreheader]
  | some preheader =>
      obtain ⟨next, hnext, hsifts, hrun⟩ :=
        hoistLoop_sifts hids hnodup hpreheader facts policy
      obtain ⟨hout, _⟩ := preheader?_eq_some hpreheader
      rw [visit_eq hnext]
      cases hblock : graph.block? position with
      | none => exact block?_eq_none_of_shape (shape_eq_of_relocations hrun) hblock
      | some block =>
          by_cases heq : preheader = position
          · subst heq
            have hstay : ∀ instr, graph.leaves facts policy loop preheader instr = false := by
              simp [leaves, hout]
            simp [hsifts.landed hblock, hstay]
          · simp [hsifts.kept (Ne.symm heq) hblock, heq]

theorem shape_visit (hids : graph.DistinctIds) (hnodup : loop.blocks.Nodup) :
    (graph.visit facts policy loop).shape = graph.shape := by
  refine ext_block? fun position => ?_
  rw [block?_shape, block?_shape, block?_visit hids hnodup, Option.map_map]
  rfl

theorem holds_visit_iff (hids : graph.DistinctIds) (hnodup : loop.blocks.Nodup) {position : Nat}
    {instr : Instr} :
    (graph.visit facts policy loop).Holds position instr ↔
      graph.Holds position instr ∧ graph.leaves facts policy loop position instr = false ∨
      loop.preheader? graph = some position ∧ ∃ source, graph.Holds source instr ∧
        graph.leaves facts policy loop source instr = true := by
  rw [← mem_leaving_iff]
  simp only [Holds, block?_visit hids hnodup]
  cases hblock : graph.block? position with
  | none =>
      have hnot : loop.preheader? graph ≠ some position := by
        intro hpreheader
        obtain ⟨_, _, hlanding⟩ := preheader?_eq_some hpreheader
        rw [hblock] at hlanding
        cases hlanding
      simp [hnot]
  | some block => simp

/-- A visit to a loop of the graph in which a run of steps began goes on with that run. -/
theorem hoists_visit (wf : start.WellFormed) (h : Hoists policy start graph)
    (hloop : loop ∈ NaturalLoop.all start (Dominance.ofGraph start)) :
    (∃ report, graph.hoistLoop (Facts.compute start) policy loop =
      .ok (graph.visit (Facts.compute start) policy loop, report)) ∧
    Hoists policy start (graph.visit (Facts.compute start) policy loop) := by
  obtain ⟨next, report, hnext, hsteps⟩ := hoistLoop_eq_ok (h.wellFormed wf)
    ((NaturalLoop.isRegion_of_mem_all wf hloop).of_shape h.shape_eq)
    ((Facts.describes_origins start).mono h.bodies_perm.symm.subset) policy
  rw [visit_eq hnext]
  exact ⟨⟨report, hnext⟩, h.trans hsteps⟩

/-! ## A pass underway -/

/-- A pass that began with one graph has come to another one and goes on to some loops, the
inner ones first. -/
structure Underway (policy : Policy) (start : Graph) (loops : List NaturalLoop) (graph : Graph) :
    Prop where
  wf : start.WellFormed
  steps : Hoists policy start graph
  found : ∀ loop ∈ loops, loop ∈ NaturalLoop.all start (Dominance.ofGraph start)
  ordered : loops.Pairwise fun earlier later => later.header ∉ earlier.blocks

namespace Underway

variable {loops : List NaturalLoop} {instr : Instr} {position : Nat}

theorem begin (wf : start.WellFormed) (policy : Policy) :
    Underway policy start (Facts.compute start).visited start :=
  ⟨wf, .refl, fun _ => Facts.mem_visited_iff.mp, Facts.pairwise_visited wf⟩

theorem single (wf : start.WellFormed) (policy : Policy)
    (hloop : loop ∈ NaturalLoop.all start (Dominance.ofGraph start)) :
    Underway policy start [loop] start :=
  ⟨wf, .refl, List.forall_mem_singleton.mpr hloop, List.pairwise_singleton ..⟩

theorem visit (h : Underway policy start (loop :: loops) graph) :
    Underway policy start loops (graph.visit (Facts.compute start) policy loop) :=
  ⟨h.wf, (hoists_visit h.wf h.steps (h.found loop List.mem_cons_self)).2,
    fun other hother => h.found other (List.mem_cons_of_mem _ hother), h.ordered.of_cons⟩

theorem isRegion (h : Underway policy start (loop :: loops) graph) : loop.IsRegion start :=
  NaturalLoop.isRegion_of_mem_all h.wf (h.found loop List.mem_cons_self)

theorem holds_visit_iff (h : Underway policy start (loop :: loops) graph) :
    (graph.visit (Facts.compute start) policy loop).Holds position instr ↔
      graph.Holds position instr ∧
        graph.leaves (Facts.compute start) policy loop position instr = false ∨
      loop.preheader? start = some position ∧ ∃ source, graph.Holds source instr ∧
        graph.leaves (Facts.compute start) policy loop source instr = true := by
  rw [Graph.holds_visit_iff (h.steps.wellFormed h.wf).distinctIds h.isRegion.nodup,
    NaturalLoop.preheader?_eq_of_shape h.steps.shape_eq]

/-- A preheader dominates its loop, so besides where an instruction stands its kind and what
the loop does decide whether it may leave. -/
theorem leaves_iff (h : Underway policy start (loop :: loops) graph) {preheader : Nat}
    (hpreheader : loop.preheader? start = some preheader) :
    graph.leaves (Facts.compute start) policy loop position instr = true ↔
      position ∈ loop.blocks ∧ instr.isTerminator = false ∧ instr.isPhi = false ∧
      instr.hasSideEffect = false ∧
      (instr.accessesMemory = true →
        (LoopSummary.ofLoop graph (Facts.compute start).origins loop).loadIsSafe
          (Facts.compute start) policy instr position = true) ∧
      ∀ symbol ∈ instr.reads, ¬graph.Defines loop symbol := by
  have wf := h.steps.wellFormed h.wf
  have hpre := NaturalLoop.isPreheader_of_preheader? h.wf hpreheader
  rw [leaves_eq_true_iff]
  refine and_congr_right fun hposition => ?_
  obtain ⟨block, hblock⟩ := wf.block_of_reachable
    ((reachable_iff_of_shape h.steps.shape_eq).mpr (h.isRegion.reachable hposition))
  obtain ⟨landing, hlanding, _⟩ := hpre.succ_eq
  have hid : (LoopSummary.ofLoop graph (Facts.compute start).origins loop).preheaderId =
      some (preheader : Int) := by
    simp only [LoopSummary.ofLoop, NaturalLoop.preheader?_eq_of_shape h.steps.shape_eq, hpreheader,
      Option.bind_some, id?_eq_of_shape h.steps.shape_eq, h.wf.id?_eq hlanding]
  obtain ⟨twin, htwin⟩ := h.wf.block_of_reachable (h.isRegion.reachable hposition)
  have hdominates : (Facts.compute start).dominance.dominates preheader position = true := by
    rw [← h.wf.id_eq hlanding, ← h.wf.id_eq htwin]
    exact (Dominance.dominates_ofGraph_iff h.wf.distinctIds hlanding htwin
      (h.isRegion.preheader_reachable hpre)).mpr
        ⟨h.isRegion.reachable hposition, h.isRegion.preheader_dominates hpre hposition⟩
  simp only [hblock, Option.some.injEq, exists_eq_left', LoopSummary.verdict_eq_invariant_iff,
    wf.id_eq hblock, hid, hdominates, mem_defined_iff, and_true]

end Underway

/-! ## Passes -/

/-- What is left of a graph after one pass. -/
def pass (policy : Policy) (graph : Graph) : Graph :=
  (Facts.compute graph).visited.foldl (visit (Facts.compute graph) policy) graph

theorem hoistLoops_eq_foldl {loops : List NaturalLoop} (wf : start.WellFormed)
    (hloops : ∀ loop ∈ loops, loop ∈ NaturalLoop.all start (Dominance.ofGraph start))
    (h : Hoists policy start graph) :
    (∃ reports, hoistLoops (Facts.compute start) policy loops graph =
      .ok (loops.foldl (visit (Facts.compute start) policy) graph, reports)) ∧
    Hoists policy start (loops.foldl (visit (Facts.compute start) policy) graph) := by
  induction loops generalizing graph with
  | nil => exact ⟨⟨[], rfl⟩, h⟩
  | cons loop loops ih =>
      rw [List.forall_mem_cons] at hloops
      obtain ⟨⟨report, hreport⟩, hfirst⟩ := hoists_visit wf h hloops.1
      obtain ⟨⟨reports, hreports⟩, hrest⟩ := ih hloops.2 hfirst
      exact ⟨⟨report :: reports, hoistLoops_cons_eq_ok_iff.mpr
        ⟨_, _, _, hreport, hreports, rfl⟩⟩, hrest⟩

theorem hoists_pass (wf : graph.WellFormed) (policy : Policy) :
    Hoists policy graph (graph.pass policy) :=
  (hoistLoops_eq_foldl wf (fun _ => Facts.mem_visited_iff.mp) .refl).2

theorem hoists_iterate_pass (wf : graph.WellFormed) (policy : Policy) (rounds : Nat) :
    Hoists policy graph ((pass policy)^[rounds] graph) := by
  induction rounds with
  | zero => exact .refl
  | succ rounds ih =>
      rw [Function.iterate_succ_apply']
      exact ih.trans (hoists_pass (ih.wellFormed wf) policy)

end Graph

/-! ## Rounds -/

def Func.pass (policy : Policy) (func : Func) : Func :=
  { func with graph := func.graph.pass policy }

theorem Func.hoist_eq_pass {func : Func} (wf : func.graph.WellFormed) (policy : Policy) :
    ∃ run, func.hoist policy = .ok (func.pass policy, run) := by
  have hnone : Graph.Hoists policy func.graph func.graph := .refl
  obtain ⟨⟨reports, hreports⟩, _⟩ :=
    Graph.hoistLoops_eq_foldl wf (fun _ => Facts.mem_visited_iff.mp) hnone
  exact ⟨_, (hoist_eq_ok_iff wf).mpr ⟨_, reports, hreports, rfl, rfl⟩⟩

namespace Program

variable {program : Program}

def pass (policy : Policy) (program : Program) : Program :=
  ⟨program.funcs.map (Func.pass policy)⟩

theorem hoist_eq_pass (wf : ∀ func ∈ program.funcs, func.graph.WellFormed) (policy : Policy) :
    ∃ round, program.hoist policy = .ok (program.pass policy, round) := by
  obtain ⟨results, hresults, hfuncs⟩ : ∃ results,
      program.funcs.mapM (fun func => func.hoist policy) = .ok results ∧
      results.map Prod.fst = program.funcs.map (Func.pass policy) := by
    simp only [mapM_eq_ok_iff]
    generalize program.funcs = funcs at wf
    induction funcs with
    | nil => exact ⟨[], .nil, rfl⟩
    | cons func funcs ih =>
        rw [List.forall_mem_cons] at wf
        obtain ⟨run, hrun⟩ := Func.hoist_eq_pass wf.1 policy
        obtain ⟨results, hresults, hrest⟩ := ih wf.2
        exact ⟨(func.pass policy, run) :: results, .cons hrun hresults, by simp [hrest]⟩
  refine ⟨results.map Prod.snd, bind_eq_ok_iff.mpr ⟨_, hresults, ?_⟩⟩
  rw [hfuncs]
  rfl

theorem wellFormed_pass (wf : ∀ func ∈ program.funcs, func.graph.WellFormed) (policy : Policy) :
    ∀ func ∈ (program.pass policy).funcs, func.graph.WellFormed := by
  rw [pass, List.forall_mem_map]
  exact fun func hfunc => (Graph.hoists_pass (wf func hfunc) policy).wellFormed (wf func hfunc)

theorem wellFormed_iterate_pass (wf : ∀ func ∈ program.funcs, func.graph.WellFormed)
    (policy : Policy) (rounds : Nat) :
    ∀ func ∈ ((pass policy)^[rounds] program).funcs, func.graph.WellFormed := by
  induction rounds with
  | zero => exact wf
  | succ rounds ih =>
      rw [Function.iterate_succ_apply']
      exact wellFormed_pass ih policy

/-- Rounds that stop early end where all of them would have ended. -/
theorem hoistRounds_eq_iterate (wf : ∀ func ∈ program.funcs, func.graph.WellFormed)
    (policy : Policy) (rounds : Nat) :
    ∃ log, hoistRounds policy rounds program = .ok ((pass policy)^[rounds] program, log) := by
  induction rounds generalizing program with
  | zero => exact ⟨[], rfl⟩
  | succ rounds ih =>
      obtain ⟨round, hround⟩ := hoist_eq_pass wf policy
      cases hchanged : round.changed with
      | false =>
          have hsame : program.pass policy = program := by
            by_contra hne
            rw [(hoist_changed_iff wf hround).mpr hne] at hchanged
            cases hchanged
          refine ⟨[round], bind_eq_ok_iff.mpr ⟨_, hround, ?_⟩⟩
          simp only [hchanged]
          rw [Function.iterate_fixed hsame, hsame]
          rfl
      | true =>
          obtain ⟨log, hlog⟩ := ih (wellFormed_pass wf policy)
          refine ⟨round :: log, bind_eq_ok_iff.mpr ⟨_, hround, ?_⟩⟩
          simp only [hchanged, if_true]
          exact bind_eq_ok_iff.mpr ⟨_, hlog, rfl⟩

theorem pass_eq_self (h : ∀ func ∈ program.funcs, func.graph.pass policy = func.graph) :
    program.pass policy = program := by
  have hfuncs : program.funcs.map (Func.pass policy) = program.funcs :=
    map_eq_self fun func hfunc => by rw [Func.pass, h func hfunc]
  rw [pass, hfuncs]

theorem funcs_iterate_pass (policy : Policy) (rounds : Nat) :
    ((pass policy)^[rounds] program).funcs = program.funcs.map (Func.pass policy)^[rounds] := by
  induction rounds with
  | zero => simp
  | succ rounds ih =>
      rw [Function.iterate_succ_apply', pass, ih, List.map_map, Function.iterate_succ']

end Program

theorem Func.graph_iterate_pass (func : Func) (policy : Policy) (rounds : Nat) :
    ((Func.pass policy)^[rounds] func).graph = (Graph.pass policy)^[rounds] func.graph := by
  induction rounds with
  | zero => rfl
  | succ rounds ih => rw [Function.iterate_succ_apply', Function.iterate_succ_apply', pass, ih]

end LoopHoist
