import LoopHoist.Flow.Loop

/-!
# The loop forest

Loops with different headers are disjoint or nested, so the loops of a graph
form a forest.  A loop is named by its index in layout order of the headers.
-/

namespace LoopHoist

/-- The loops, and for each of them the index of the loop directly around it. -/
structure LoopForest where
  loops : List NaturalLoop
  outers : List (Option Nat)
deriving DecidableEq, Repr

namespace LoopForest

/-- The smallest larger loop that contains the header of the loop at an index.
-/
def findOuter (graph : Graph) (loops : List NaturalLoop) (index : Nat) (inner : NaturalLoop) :
    Option Nat :=
  let candidates := loops.zipIdx.filter fun (loop, other) =>
    other != index && loop.containsAt graph inner.header
      && decide (inner.blocks.length < loop.blocks.length)
  (candidates.minOn? fun (loop, _) => loop.blocks.length).map Prod.snd

def ofLoops (graph : Graph) (loops : List NaturalLoop) : LoopForest :=
  ⟨loops, loops.mapIdx (findOuter graph loops)⟩

def ofGraph (graph : Graph) (dominance : Dominance) : LoopForest :=
  ofLoops graph (NaturalLoop.all graph dominance)

def outer? (forest : LoopForest) (index : Nat) : Option Nat := forest.outers[index]?.join

def subloops (forest : LoopForest) (index : Nat) : List Nat :=
  (List.range forest.loops.length).filter fun inner => forest.outer? inner = some index

def isInnermost (forest : LoopForest) (index : Nat) : Bool := (forest.subloops index).isEmpty

/-- One more than the number of steps outwards, at most `fuel` of which are
made. -/
def levelWithin (forest : LoopForest) : Nat → Nat → Nat
  | 0, _ => 1
  | fuel + 1, index =>
      match forest.outer? index with
      | none => 1
      | some outer => forest.levelWithin fuel outer + 1

/-- The depth of nesting; a loop inside no other one has level one. -/
def level (forest : LoopForest) (index : Nat) : Nat :=
  forest.levelWithin forest.loops.length index

/-- A loop behind all loops inside it, down to a depth. -/
def postorder (forest : LoopForest) : Nat → Nat → List Nat
  | 0, index => [index]
  | depth + 1, index => (forest.subloops index).flatMap (forest.postorder depth) ++ [index]

def roots (forest : LoopForest) : List Nat :=
  (List.range forest.loops.length).filter fun index => forest.outer? index = none

/-- All loops, each behind those inside it. -/
def innermostFirst (forest : LoopForest) : List Nat :=
  forest.roots.flatMap (forest.postorder forest.loops.length)

def find? (forest : LoopForest) (graph : Graph) (label : Label) : Option NaturalLoop :=
  forest.loops.find? fun loop => (graph.block? loop.header).any fun block => block.label = label

end LoopForest

/-! ## Describing loops -/

namespace NaturalLoop

def headerLabel (graph : Graph) (loop : NaturalLoop) : Label :=
  ((graph.block? loop.header).map Block.label).getD ""

/-- One line about a loop, given its place in a forest. -/
def describe (graph : Graph) (loop : NaturalLoop) (index : Nat) (outer : Option NaturalLoop)
    (level : Int) (isInnermost : Bool) : String :=
  "loop " ++ (IntNumeral.ofInt index).text ++ ": header: " ++ loop.headerLabel graph
    ++ ", outer: " ++ ((outer.map (headerLabel graph)).getD "None")
    ++ ", level: " ++ (IntNumeral.ofInt level).text
    ++ ", no_inner: " ++ (if isInnermost then "true" else "false")
    ++ ", blocks: [" ++ ", ".intercalate (graph.labels loop.blocks) ++ "]"

/-- The line about a loop that has no place in a forest yet. -/
def describeAlone (graph : Graph) (loop : NaturalLoop) (index : Nat) : String :=
  loop.describe graph index none (-1) true

end NaturalLoop

namespace LoopForest

def describe (forest : LoopForest) (graph : Graph) (index : Nat) (loop : NaturalLoop) : String :=
  loop.describe graph index ((forest.outer? index).bind fun outer => forest.loops[outer]?)
    (forest.level index) (forest.isInnermost index)

end LoopForest

end LoopHoist
