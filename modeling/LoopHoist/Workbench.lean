import LoopHoist.Hoist.Optimize

/-!
# Working on a program step by step

A workbench holds a program together with facts about its functions.  The facts
are computed at the start and stay as they are, whatever happens to the
program, until they are refreshed.  A step that fails leaves the workbench as it
was.
-/

namespace LoopHoist

structure Workbench where
  program : Program
  facts : List Facts
deriving DecidableEq, Repr

inductive StepError where
  | noFunction
  | noLoop
  | noBlock
  | fault (fault : Fault)
deriving DecidableEq, Repr

/-- A block named by its label, or an id that need not belong to any block. -/
inductive Place where
  | label (label : Label)
  | id (id : Int)
deriving DecidableEq, Repr

/-- For one block: whether it is in the loop, and whether each of its
instructions is invariant. -/
structure BlockCheck where
  label : Label
  inLoop : Bool
  invariant : List Bool
deriving DecidableEq, Repr

namespace Workbench

def orElse {α : Type} (error : StepError) : Option α → Except StepError α
  | none => .error error
  | some value => .ok value

def orFault {α : Type} : Except Fault α → Except StepError α
  | .error fault => .error (.fault fault)
  | .ok value => .ok value

def start (program : Program) : Except Fault Workbench := do
  let facts ← program.funcs.mapM fun func => Facts.ofGraph func.graph
  return ⟨program, facts⟩

def refresh (bench : Workbench) : Except StepError Workbench := orFault (start bench.program)

/-! ## Looking things up -/

def graph (bench : Workbench) (func : Nat) : Except StepError Graph := do
  let func ← orElse .noFunction bench.program.funcs[func]?
  return func.graph

def factsOf (bench : Workbench) (func : Nat) : Except StepError Facts :=
  orElse .noFunction bench.facts[func]?

def findLoop (bench : Workbench) (func : Nat) (header : Label) : Except StepError NaturalLoop := do
  let graph ← bench.graph func
  let facts ← bench.factsOf func
  orElse .noLoop (facts.forest.find? graph header)

def findBlock (bench : Workbench) (func : Nat) (label : Label) : Except StepError Nat := do
  let graph ← bench.graph func
  orElse .noBlock (graph.find? label)

/-! ## Asking -/

def summary (bench : Workbench) (func : Nat) (loop : NaturalLoop) :
    Except StepError LoopSummary := do
  let graph ← bench.graph func
  let facts ← bench.factsOf func
  return LoopSummary.ofLoop graph facts.origins loop

/-- The preheader of a loop and a check of every block of the function. -/
def checkAll (bench : Workbench) (func : Nat) (header : Label) (policy : Policy) :
    Except StepError (Option Label × List BlockCheck) := do
  let graph ← bench.graph func
  let facts ← bench.factsOf func
  let loop ← bench.findLoop func header
  let summary ← bench.summary func loop
  let preheader := (summary.preheader.bind graph.block?).map Block.label
  let checks := graph.blocks.map fun block =>
    { label := block.label
      inLoop := loop.contains graph block.id
      invariant := block.instrs.map fun instr => summary.isInvariant facts policy instr block.id :
      BlockCheck }
  return (preheader, checks)

/-- Whether an instruction would be invariant at some place. -/
def check (bench : Workbench) (func : Nat) (header : Label) (place : Place) (instr : Instr)
    (policy : Policy) : Except StepError Bool := do
  let graph ← bench.graph func
  let facts ← bench.factsOf func
  let loop ← bench.findLoop func header
  let id ← match place with
    | .id id => pure id
    | .label label => do
        let position ← bench.findBlock func label
        orElse .noBlock (graph.id? position)
  let summary ← bench.summary func loop
  return summary.isInvariant facts policy instr id

def origins (bench : Workbench) (func : Nat) (operands : List Operand) :
    Except StepError (List Origin) := do
  let facts ← bench.factsOf func
  return operands.map facts.origins.origin

def blockText (bench : Workbench) (func : Nat) (label : Label) : Except StepError String := do
  let graph ← bench.graph func
  let position ← bench.findBlock func label
  let block ← orElse .noBlock (graph.block? position)
  return block.text

/-! ## Changing the program -/

def setGraph (bench : Workbench) (func : Nat) (graph : Graph) : Workbench :=
  { bench with
    program := ⟨bench.program.funcs.modify func fun func => { func with graph := graph }⟩ }

/-- Changes the block with a label by a function on its position. -/
def editBlock (bench : Workbench) (func : Nat) (label : Label) (edit : Graph → Nat → Graph) :
    Except StepError Workbench := do
  let graph ← bench.graph func
  let position ← bench.findBlock func label
  return bench.setGraph func (edit graph position)

def remove (bench : Workbench) (func : Nat) (label : Label) (index : Nat) :
    Except StepError (Workbench × Instr) := do
  let graph ← bench.graph func
  let position ← bench.findBlock func label
  let (instr, next) ← orFault (graph.remove position index)
  return (bench.setGraph func next, instr)

def link (bench : Workbench) (func : Nat) (source destination : Label) :
    Except StepError Workbench := do
  let graph ← bench.graph func
  let sourcePosition ← bench.findBlock func source
  let destinationPosition ← bench.findBlock func destination
  return bench.setGraph func (graph.link sourcePosition destinationPosition)

def hoist (bench : Workbench) (func : Nat) (header : Label) (policy : Policy) :
    Except StepError (Workbench × HoistReport) := do
  let graph ← bench.graph func
  let facts ← bench.factsOf func
  let loop ← bench.findLoop func header
  let (next, report) ← orFault (graph.hoistLoop facts policy loop)
  return (bench.setGraph func next, report)

/-- One pass over the program, with facts of its own. -/
def hoistAll (bench : Workbench) (policy : Policy) : Except StepError (Workbench × Bool) := do
  let (next, round) ← orFault (bench.program.hoist policy)
  return ({ bench with program := next }, round.changed)

end Workbench

end LoopHoist
