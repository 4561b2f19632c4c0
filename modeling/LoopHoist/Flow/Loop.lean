import LoopHoist.Flow.Dominance

/-!
# Natural loops

A reachable block is the header of a loop if it dominates one of its
predecessors, a latch.  The loop consists of the header and of the blocks,
dominated by it, from which a latch can be reached.  Its blocks are listed by
position, in layout order.

Latches and preheader are looked up in the graph as it is now, which may have
changed since the loop was found.
-/

namespace LoopHoist

structure NaturalLoop where
  header : Nat
  blocks : List Nat
deriving DecidableEq, Repr

namespace NaturalLoop

/-! ## Finding loops -/

/-- The positions of the predecessors of a block that it dominates. -/
def latchesOf (graph : Graph) (dominance : Dominance) (header : Block) : List Nat :=
  header.prev.filter fun position => (graph.id? position).any (dominance.dominates header.id)

/-- The loop of a header with some latches. -/
def withLatches (graph : Graph) (dominance : Dominance) (position : Nat) (header : Block)
    (latches : List Nat) : NaturalLoop :=
  let body := graph.flood Block.prev (dominance.dominates header.id) [header.id] latches
  ⟨position, (List.range graph.blocks.length).filter fun position =>
    (graph.id? position).any body.contains⟩

/-- The loop of which a block is the header, if it is one. -/
def ofHeader? (graph : Graph) (dominance : Dominance) (position : Nat) (header : Block) :
    Option NaturalLoop :=
  if (graph.id? 0).any fun entry => dominance.dominates entry header.id then
    match latchesOf graph dominance header with
    | [] => none
    | latches => some (withLatches graph dominance position header latches)
  else none

/-- All loops of a graph, in the layout order of their headers. -/
def all (graph : Graph) (dominance : Dominance) : List NaturalLoop :=
  graph.blocks.zipIdx.filterMap fun (header, position) =>
    ofHeader? graph dominance position header

/-! ## Looking at a loop -/

def contains (graph : Graph) (loop : NaturalLoop) (id : Int) : Bool :=
  loop.blocks.any fun position => graph.id? position = some id

def containsAt (graph : Graph) (loop : NaturalLoop) (position : Nat) : Bool :=
  (graph.id? position).any (loop.contains graph)

def headerPrev (graph : Graph) (loop : NaturalLoop) : List Nat :=
  ((graph.block? loop.header).map Block.prev).getD []

/-- The blocks of the loop that go back to the header. -/
def latches (graph : Graph) (loop : NaturalLoop) : List Nat :=
  (loop.headerPrev graph).filter (loop.containsAt graph)

def exiting (graph : Graph) (loop : NaturalLoop) : List Nat :=
  loop.blocks.filter fun position =>
    (graph.block? position).any fun block => block.succ.any fun next => !loop.containsAt graph next

/-- Whether the block at a position has the header as its only successor and may
take more instructions at its end. -/
def servesAsPreheader (graph : Graph) (position : Nat) : Bool :=
  (graph.block? position).any fun block => block.hasSingleSucc && block.acceptsHoist

/-- The one block outside the loop that leads to the header and nowhere else. -/
def preheader? (graph : Graph) (loop : NaturalLoop) : Option Nat :=
  let outside := (loop.headerPrev graph).filter fun position => !loop.containsAt graph position
  match outside.getLast? with
  | none => none
  | some last =>
      if (outside.all fun position => graph.id? position = graph.id? last)
        && servesAsPreheader graph last then some last
      else none

end NaturalLoop

end LoopHoist
