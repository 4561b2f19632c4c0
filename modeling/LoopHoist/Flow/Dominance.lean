import LoopHoist.Flow.Flood

/-!
# Dominance

A block dominates those that cannot be reached any more once it is taken out of
the graph.  A block that is not reachable to begin with dominates itself
alone.  The immediate dominator of a block is, of the other blocks that dominate
it, the one that dominates the fewest.
-/

namespace LoopHoist

namespace Graph

/-- The ids of the blocks that can be reached from the entry without the block
that is left out. -/
def reachable (graph : Graph) (leftOut : Option Int) : List Int :=
  let admits := fun id => some id != leftOut
  graph.flood Block.succ admits [] ([0].filter fun entry => (graph.id? entry).any admits)

/-- The ids of the blocks that a block dominates, given all that are reachable.
-/
def dominatedBy (graph : Graph) (all : List Int) (id : Int) : List Int :=
  if id ∈ all then
    let rest := graph.reachable (some id)
    all.filter fun other => other ∉ rest
  else [id]

/-- The ids of all blocks, each with those that it dominates. -/
def dominanceTable (graph : Graph) : List (Int × List Int) :=
  let all := graph.reachable none
  graph.blocks.map fun block => (block.id, graph.dominatedBy all block.id)

end Graph

/-- For every block id the ids that it dominates, and the id of its immediate
dominator if it has one, both in layout order. -/
structure Dominance where
  dominated : List (Int × List Int)
  idoms : List (Int × Int)
deriving DecidableEq, Repr

namespace Dominance

def row (table : List (Int × List Int)) (id : Int) : List Int := (table.lookup id).getD []

def dominates (dominance : Dominance) (a b : Int) : Bool := (row dominance.dominated a).contains b

def idom? (dominance : Dominance) (id : Int) : Option Int := dominance.idoms.lookup id

def children (dominance : Dominance) (id : Int) : List Int :=
  (dominance.idoms.filter fun entry => entry.2 = id).map Prod.fst

/-- The first of the strict dominators of an id that dominate the fewest blocks.
-/
def closest (table : List (Int × List Int)) (blocks : List Block) (id : Int) : Option Int :=
  let strict := (blocks.map Block.id).filter fun other =>
    other != id && (row table other).contains id
  strict.minOn? fun other => (row table other).length

def ofGraph (graph : Graph) : Dominance :=
  let table := graph.dominanceTable
  ⟨table, graph.blocks.filterMap fun block =>
    (closest table graph.blocks block.id).map fun idom => (block.id, idom)⟩

end Dominance

end LoopHoist
