import LoopHoist.Hoist.Order
import LoopHoist.Hoist.Verdict

/-!
# Hoisting out of one loop

Every invariant instruction of a loop moves to the end of the preheader.  All
verdicts are given on the loop as it was before the first move.
-/

namespace LoopHoist

/-- The place of an instruction: the position of its block and its index in the
body. -/
structure Site where
  block : Nat
  index : Nat
deriving DecidableEq, Repr

structure Finding where
  site : Site
  instr : Instr
  verdict : Verdict
deriving DecidableEq, Repr

/-- What hoisting did with one loop.  Without a preheader nothing is looked at.
-/
structure HoistReport where
  header : Label
  preheader : Option Label
  findings : List Finding
  hoisted : List Instr
deriving DecidableEq, Repr

def HoistReport.changed (report : HoistReport) : Bool := !report.hoisted.isEmpty

namespace Graph

/-- Looks at every instruction in the bodies of a loop, block by block. -/
def examine (graph : Graph) (facts : Facts) (policy : Policy) (loop : NaturalLoop)
    (summary : LoopSummary) : List Finding :=
  loop.blocks.flatMap fun position =>
    match graph.block? position with
    | none => []
    | some block =>
        block.body.mapIdx fun index instr =>
          ⟨⟨position, index⟩, instr, summary.verdict facts policy instr block.id⟩

/-- A site after the instruction at another site was removed: behind it, in the
block of the same id, instructions move up by one. -/
def shiftSite (graph : Graph) (removed site : Site) : Site :=
  if graph.id? site.block = graph.id? removed.block ∧ removed.index < site.index then
    { site with index := site.index - 1 }
  else site

/-- Moves instructions to the end of a block one after the other.  The order
lists indices into the sites, which are kept up to date. -/
def relocate (destination : Nat) : List Nat → List Site → Graph → Except Fault (Graph × List Instr)
  | [], _, graph => .ok (graph, [])
  | next :: order, sites, graph =>
      match sites[next]? with
      | none => .error .noSuchInstruction
      | some site => do
          let (instr, removed) ← graph.remove site.block site.index
          let (last, moved) ← relocate destination order (sites.map (graph.shiftSite site))
            (removed.append destination instr)
          return (last, instr :: moved)

/-- Moves every invariant instruction of a loop to its preheader. -/
def hoistLoop (graph : Graph) (facts : Facts) (policy : Policy) (loop : NaturalLoop) :
    Except Fault (Graph × HoistReport) :=
  let summary := LoopSummary.ofLoop graph facts.origins loop
  let header := loop.headerLabel graph
  match summary.preheader with
  | none => .ok (graph, ⟨header, none, [], []⟩)
  | some preheader => do
      let findings := graph.examine facts policy loop summary
      let found := findings.filter fun finding => finding.verdict = .invariant
      let order := Access.order <|
        found.map fun finding => ⟨finding.instr.write?, finding.instr.reads⟩
      let (hoisted, moved) ← relocate preheader order (found.map Finding.site) graph
      let label := (graph.block? preheader).map Block.label
      return (hoisted, ⟨header, label, findings, moved⟩)

def hoistLoops (facts : Facts) (policy : Policy) :
    List NaturalLoop → Graph → Except Fault (Graph × List HoistReport)
  | [], graph => .ok (graph, [])
  | loop :: loops, graph => do
      let (next, report) ← graph.hoistLoop facts policy loop
      let (last, reports) ← hoistLoops facts policy loops next
      return (last, report :: reports)

end Graph

end LoopHoist
