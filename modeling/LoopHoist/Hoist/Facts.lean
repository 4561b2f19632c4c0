import LoopHoist.Flow.Forest
import LoopHoist.Flow.Origin

/-!
# Facts about a graph

What hoisting wants to know about a graph, computed once.  Moving instructions
does not change edges, so the facts outlive it.
-/

namespace LoopHoist

structure Facts where
  dominance : Dominance
  forest : LoopForest
  origins : OriginTable
deriving DecidableEq, Repr

namespace Facts

def compute (graph : Graph) : Facts :=
  let dominance := Dominance.ofGraph graph
  ⟨dominance, LoopForest.ofGraph graph dominance, OriginTable.ofGraph graph⟩

def ofGraph (graph : Graph) : Except Fault Facts :=
  graph.entry.map fun _ => compute graph

end Facts

end LoopHoist
