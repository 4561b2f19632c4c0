import LoopHoist.Graph.Basic

/-!
# Graphs from outlines

An outline gives only the shape of a graph: for every block its successors, by
position, and perhaps an id, a label and the way it ends.  `Graph.ofOutline`
fills in the rest.
-/

namespace LoopHoist

inductive Ending where
  | dangling
  | ret
  | follow
deriving DecidableEq, Repr

/-- A block of an outline.  A `dangling` block has no jump, `ret` returns, and
`follow` jumps to the first one or two successors or, where there are none,
returns. -/
structure OutlineBlock where
  succ : List Nat
  id : Option Int
  label : Option Label
  ending : Ending
deriving DecidableEq, Repr

namespace OutlineBlock

/-- The block without its edges and its jump, at a position of the layout. -/
def bare (outline : OutlineBlock) (position : Nat) : Block :=
  let id := outline.id.getD position
  { id := id, label := outline.label.getD (Block.defaultLabel id) }

/-- The jump, given the labels of the successors. -/
def jump (outline : OutlineBlock) (targets : List Label) : Option Instr :=
  match outline.ending, targets with
  | .dangling, _ => none
  | .ret, _ | .follow, [] => some (.ret none)
  | .follow, [label] => some (.jump label)
  | .follow, ifTrue :: ifFalse :: _ =>
      some (.branch .i1 (.named (.register "c" .i1)) ifTrue ifFalse)

end OutlineBlock

namespace Graph

def ofOutline (outline : List OutlineBlock) : Graph :=
  let bare : Graph := ⟨outline.mapIdx fun position block => block.bare position⟩
  let edges := (outline.mapIdx fun position block => block.succ.map (position, ·)).flatten
  let linked := bare.linkAll edges
  ⟨List.zipWith (fun shape block => { block with jump := shape.jump (bare.labels shape.succ) })
    outline linked.blocks⟩

end Graph

end LoopHoist
