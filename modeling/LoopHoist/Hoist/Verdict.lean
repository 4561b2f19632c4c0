import LoopHoist.Hoist.Facts

/-!
# Which instructions are invariant

An instruction of a loop may move to the preheader if it is no phi and ends no
block, has no side effect, reads nothing that the loop defines, and stands in a
block that the preheader dominates.  If it touches memory it must besides be a
load that nothing written in the loop can change and that runs in every round
of the loop.  A verdict says which of these conditions failed first.
-/

namespace LoopHoist

/-- Whether loads may be hoisted at all. -/
inductive Policy where
  | conservative
  | aliasAware
deriving DecidableEq, Repr

inductive Verdict where
  | terminator
  | phi
  | sideEffect
  | memoryAccess
  | definedInLoop (symbol : Symbol)
  | noPreheader
  | notDominated
  | invariant
deriving DecidableEq, Repr

/-- A loop as it is before anything moves.  `unavoidable` holds the ids of the
latches and of the blocks with an edge out of the loop: what dominates all of
them runs in every round. -/
structure LoopSummary where
  preheader : Option Nat
  preheaderId : Option Int
  defined : List Symbol
  written : List Origin
  unavoidable : List Int
deriving DecidableEq, Repr

namespace LoopSummary

/-- What an instruction may write to.  A call may write to anything. -/
def writtenBy (origins : OriginTable) (instr : Instr) : Option Origin :=
  match instr with
  | .store _ address => some (origins.origin address)
  | _ => if instr.writesMemory then some .unknown else none

def ofLoop (graph : Graph) (origins : OriginTable) (loop : NaturalLoop) : LoopSummary :=
  let blocks := loop.blocks.filterMap graph.block?
  let preheader := loop.preheader? graph
  { preheader := preheader
    preheaderId := preheader.bind graph.id?
    defined := blocks.flatMap Block.defs
    written := (blocks.flatMap Block.body).filterMap (writtenBy origins)
    unavoidable := graph.ids (loop.latches graph ++ loop.exiting graph) }

/-- Whether an instruction in a block is a load that always runs and always
yields the same. -/
def loadIsSafe (summary : LoopSummary) (facts : Facts) (policy : Policy) (instr : Instr)
    (blockId : Int) : Bool :=
  match policy, instr with
  | .aliasAware, .load _ _ address =>
      let origin := facts.origins.origin address
      (summary.written.all fun written => !origin.mayOverlap written)
        && summary.unavoidable.all fun id => facts.dominance.dominates blockId id
  | _, _ => false

/-- The verdict on an instruction that stands in the block with some id. -/
def verdict (summary : LoopSummary) (facts : Facts) (policy : Policy) (instr : Instr)
    (blockId : Int) : Verdict :=
  if instr.isTerminator then .terminator
  else if instr.isPhi then .phi
  else if instr.hasSideEffect then .sideEffect
  else if instr.accessesMemory && !summary.loadIsSafe facts policy instr blockId then .memoryAccess
  else match instr.reads.find? fun symbol => symbol ∈ summary.defined with
    | some symbol => .definedInLoop symbol
    | none =>
        match summary.preheaderId with
        | none => .noPreheader
        | some id => if facts.dominance.dominates id blockId then .invariant else .notDominated

def isInvariant (summary : LoopSummary) (facts : Facts) (policy : Policy) (instr : Instr)
    (blockId : Int) : Bool :=
  decide (summary.verdict facts policy instr blockId = .invariant)

end LoopSummary

end LoopHoist
