import LoopHoist.Proofs.Checked.Facts
import LoopHoist.Proofs.Checked.Order
import LoopHoist.Proofs.Checked.Reading
import LoopHoist.Proofs.Hoist.Progress

/-!
# From text to optimised program, checked

Hoisting with the checked facts and the counted order breaks down only where hoisting itself
reports a fault.  What is read from a text causes none, whatever the policy and the
number of rounds, so the way from a text to the optimised program never breaks down.
-/

namespace LoopHoist

/-! ## Hoisting -/

namespace Graph

def checkedHoistLoop (graph : Graph) (facts : Facts) (policy : Policy) (loop : NaturalLoop) :
    Checked (Graph × HoistReport) :=
  let summary := LoopSummary.ofLoop graph facts.origins loop
  let header := loop.headerLabel graph
  match summary.preheader with
  | none => .ok (graph, ⟨header, none, [], []⟩)
  | some preheader => do
      let findings := graph.examine facts policy loop summary
      let found := findings.filter fun finding => finding.verdict = .invariant
      let order ← Access.countedOrder <|
        found.map fun finding => ⟨finding.instr.write?, finding.instr.reads⟩
      let hoisted ← Checked.ofFault (relocate preheader order (found.map Finding.site) graph)
      let label := (graph.block? preheader).map Block.label
      return (hoisted.1, ⟨header, label, findings, hoisted.2⟩)

def checkedHoistLoops (facts : Facts) (policy : Policy) :
    List NaturalLoop → Graph → Checked (Graph × List HoistReport)
  | [], graph => .ok (graph, [])
  | loop :: loops, graph => do
      let first ← graph.checkedHoistLoop facts policy loop
      let rest ← checkedHoistLoops facts policy loops first.1
      return (rest.1, first.2 :: rest.2)

theorem checkedHoistLoop_eq (graph : Graph) (facts : Facts) (policy : Policy)
    (loop : NaturalLoop) :
    graph.checkedHoistLoop facts policy loop =
      Checked.ofFault (graph.hoistLoop facts policy loop) := by
  simp only [checkedHoistLoop, hoistLoop, Access.countedOrder_eq, ok_bind]
  cases (LoopSummary.ofLoop graph facts.origins loop).preheader with
  | none => rfl
  | some preheader =>
      simp only [Checked.ofFault_bind]
      rfl

theorem checkedHoistLoops_eq (facts : Facts) (policy : Policy) (loops : List NaturalLoop)
    (graph : Graph) :
    checkedHoistLoops facts policy loops graph =
      Checked.ofFault (hoistLoops facts policy loops graph) := by
  induction loops generalizing graph with
  | nil => rfl
  | cons loop loops ih =>
      simp only [checkedHoistLoops, hoistLoops, checkedHoistLoop_eq, ih, Checked.ofFault_bind]
      rfl

end Graph

def Func.checkedHoist (func : Func) (policy : Policy) : Checked (Func × FuncRun) := do
  let facts ← Facts.checkedOfGraph func.graph
  let order ← facts.forest.checkedInnermostFirst
  let loops := order.filterMap fun index => facts.forest.loops[index]?
  let hoisted ← Graph.checkedHoistLoops facts policy loops func.graph
  let found := facts.forest.loops.mapIdx fun index loop => loop.describeAlone func.graph index
  return ({ func with graph := hoisted.1 },
    ⟨func.name, facts.dominance.idoms, found, hoisted.2⟩)

theorem Facts.grows_of_ofGraph {graph : Graph} {facts : Facts}
    (h : Facts.ofGraph graph = .ok facts) : facts.forest.Grows := by
  rw [Facts.ofGraph] at h
  cases hentry : graph.entry with
  | error fault =>
      rw [hentry] at h
      cases h
  | ok entry =>
      rw [hentry] at h
      cases h
      exact LoopForest.grows_ofGraph ..

theorem Func.checkedHoist_eq (func : Func) (policy : Policy) :
    func.checkedHoist policy = Checked.ofFault (func.hoist policy) := by
  rw [Func.checkedHoist, Func.hoist, Facts.checkedOfGraph_eq, Checked.ofFault_bind]
  cases hfacts : Facts.ofGraph func.graph with
  | error fault => rfl
  | ok facts =>
      have hgrows := Facts.grows_of_ofGraph hfacts
      simp only [Checked.ofFault_ok, ok_bind, hgrows.checkedInnermostFirst_eq,
        Graph.checkedHoistLoops_eq, Checked.ofFault_bind]
      rfl

namespace Program

def checkedHoist (program : Program) (policy : Policy) : Checked (Program × Round) := do
  let results ← program.funcs.mapM fun func => func.checkedHoist policy
  return (⟨results.map Prod.fst⟩, results.map Prod.snd)

def checkedRounds (policy : Policy) : Nat → Program → Checked (Program × List Round)
  | 0, program => .ok (program, [])
  | rounds + 1, program => do
      let next ← program.checkedHoist policy
      if next.2.changed then
        let last ← checkedRounds policy rounds next.1
        return (last.1, next.2 :: last.2)
      else
        return (next.1, [next.2])

def checkedOptimize (program : Program) (settings : Settings) :
    Checked (Program × List Round) :=
  checkedRounds settings.policy settings.maxRounds program

theorem checkedHoist_eq (program : Program) (policy : Policy) :
    program.checkedHoist policy = Checked.ofFault (program.hoist policy) := by
  rw [checkedHoist, hoist, Checked.ofFault_bind,
    Checked.ofFault_mapM _ fun func _ => Func.checkedHoist_eq func policy]
  rfl

theorem checkedRounds_eq (policy : Policy) (rounds : Nat) (program : Program) :
    checkedRounds policy rounds program = Checked.ofFault (hoistRounds policy rounds program) := by
  induction rounds generalizing program with
  | zero => rfl
  | succ rounds ih =>
      simp only [checkedRounds, hoistRounds, checkedHoist_eq, Checked.ofFault_bind]
      refine bind_congr fun next => ?_
      split
      · rw [ih, Checked.ofFault_bind]
        rfl
      · rfl

/-! ## From text to result -/

/-- Every analysis of a program, every pass and every run of the optimiser comes to an end
without a breakdown, and with the result of the unchecked one. -/
structure Completes (program : Program) : Prop where
  dominance : ∀ func ∈ program.funcs,
    Dominance.checkedOfGraph func.graph = .ok (Dominance.ofGraph func.graph)
  facts : ∀ func ∈ program.funcs,
    Facts.checkedOfGraph func.graph = .ok (Facts.compute func.graph)
  loops : ∀ func ∈ program.funcs,
    (Facts.compute func.graph).forest.checkedInnermostFirst =
      .ok (Facts.compute func.graph).forest.innermostFirst
  hoist : ∀ policy, ∃ result,
    program.checkedHoist policy = .ok result ∧ program.hoist policy = .ok result
  optimize : ∀ settings, ∃ result,
    program.checkedOptimize settings = .ok result ∧ program.optimize settings = .ok result

theorem completes_of_wellFormed {program : Program}
    (wf : ∀ func ∈ program.funcs, func.graph.WellFormed) : program.Completes where
  dominance := by
    intro func hfunc
    obtain ⟨entry, hentry⟩ := (wf func hfunc).exists_entry
    exact Dominance.checkedOfGraph_eq hentry
  facts := by
    intro func hfunc
    rw [Facts.checkedOfGraph_eq, Facts.ofGraph_eq_ok (wf func hfunc)]
    rfl
  loops := fun func _ => (LoopForest.grows_ofGraph func.graph _).checkedInnermostFirst_eq
  hoist := by
    intro policy
    obtain ⟨next, round, hhoist, _⟩ := hoist_eq_ok wf policy
    refine ⟨(next, round), ?_, hhoist⟩
    rw [checkedHoist_eq, hhoist]
    rfl
  optimize := by
    intro settings
    obtain ⟨optimized, rounds, hoptimize, _⟩ := optimize_eq_ok wf settings
    refine ⟨(optimized, rounds), ?_, hoptimize⟩
    rw [optimize] at hoptimize
    rw [checkedOptimize, checkedRounds_eq, hoptimize]
    rfl

/-- Whatever the text, reading it does not break down and ends with a program or with what
is wrong with the text.  Whatever it reads, the analyses and the optimiser complete. -/
theorem completes_of_text (text : String) :
    (walk text).run = .ok (parse text) ∧
    (∀ fault, parse text ≠ .error (.fault fault)) ∧
    ∀ program, parse text = .ok program → program.Completes :=
  ⟨run_walk text, faultless_parse text,
    fun _ hparse => completes_of_wellFormed (wellFormed_of_parse hparse)⟩

end Program

theorem nestedText_completes : ∃ program, Program.parse nestedText = .ok program ∧
    (Program.walk nestedText).run = .ok (.ok program) ∧ program.Completes ∧
    ∃ optimized rounds, program.checkedOptimize ⟨.aliasAware, 8⟩ = .ok (optimized, rounds) ∧
      (rounds.filter Round.changed).length = 2 := by
  obtain ⟨program, hparse, _, hchanged, _⟩ := parse_nestedText
  obtain ⟨hwalk, _, hcompletes⟩ := Program.completes_of_text nestedText
  have hprogram := hcompletes program hparse
  obtain ⟨⟨optimized, rounds⟩, hchecked, hoptimize⟩ := hprogram.optimize ⟨.aliasAware, 8⟩
  rw [hparse] at hwalk
  refine ⟨program, hparse, hwalk, hprogram, optimized, rounds, hchecked, ?_⟩
  simpa [hoptimize, Except.toOption] using hchanged

end LoopHoist
