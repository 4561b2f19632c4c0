import LoopHoist.Flow.Forest
import LoopHoist.Proofs.Graph.WellFormed

/-!
# Analyses of the shape

Reachability, dominance, loops and their nesting are read off the shape of a graph: they
come out the same when the bodies of the blocks are emptied.  So they hold for any other
arrangement of the instructions.
-/

namespace LoopHoist

@[simp] theorem Block.id_shell (block : Block) : block.shell.id = block.id := rfl

namespace Graph

@[simp] theorem id?_shape (graph : Graph) (position : Nat) :
    graph.shape.id? position = graph.id? position := by
  rw [id?, block?_shape, Option.map_map]
  rfl

@[simp] theorem length_shape (graph : Graph) : graph.shape.blocks.length = graph.blocks.length :=
  List.length_map ..

theorem flood_shape (graph : Graph) (next : Block → List Nat) {admits : Int → Bool}
    {seen : List Int} {queue : List Nat} (hnext : ∀ block, next block.shell = next block) :
    graph.shape.flood next admits seen queue = graph.flood next admits seen queue := by
  fun_induction Graph.flood graph next admits seen queue with
  | case1 seen => rw [flood]
  | case2 seen position queue hnone ih =>
      rw [flood]
      split
      · exact ih
      · rename_i hblock
        simp [block?_shape, hnone] at hblock
  | case3 seen position queue block hblock hseen ih =>
      rw [flood]
      split
      · exact ih
      · rename_i twin htwin
        rw [block?_shape, hblock, Option.map_some, Option.some.injEq] at htwin
        subst htwin
        rw [Block.id_shell, if_pos hseen, ih]
  | case4 seen position queue block hblock hnew ih =>
      rw [flood]
      split
      · rename_i hnone
        simp [block?_shape, hblock] at hnone
      · rename_i twin htwin
        rw [block?_shape, hblock, Option.map_some, Option.some.injEq] at htwin
        subst htwin
        simp only [id?_shape, Block.id_shell] at ih ⊢
        rw [if_neg hnew, hnext]
        exact ih

theorem reachable_shape (graph : Graph) (leftOut : Option Int) :
    graph.shape.reachable leftOut = graph.reachable leftOut := by
  simp only [reachable, id?_shape]
  exact graph.flood_shape Block.succ fun _ => rfl

theorem dominanceTable_shape (graph : Graph) :
    graph.shape.dominanceTable = graph.dominanceTable := by
  simp only [dominanceTable, dominatedBy, reachable_shape]
  simp only [shape, List.map_map]
  rfl

end Graph

variable {graph other : Graph}

theorem Dominance.ofGraph_shape (graph : Graph) : ofGraph graph.shape = ofGraph graph := by
  have hids : graph.shape.blocks.map Block.id = graph.blocks.map Block.id := by
    simp only [Graph.shape, List.map_map]
    rfl
  simp only [ofGraph, closest, Graph.dominanceTable_shape, hids]
  simp only [Graph.shape, List.filterMap_map]
  rfl

namespace NaturalLoop

theorem all_shape (graph : Graph) (dominance : Dominance) :
    all graph.shape dominance = all graph dominance := by
  have hheader : ∀ position block,
      ofHeader? graph.shape dominance position block.shell =
        ofHeader? graph dominance position block := by
    intro position block
    have hlatches : latchesOf graph.shape dominance block.shell =
        latchesOf graph dominance block := by
      simp only [latchesOf, Graph.id?_shape]
      rfl
    simp only [ofHeader?, hlatches, Graph.id?_shape, withLatches, Graph.length_shape,
      Block.id_shell, graph.flood_shape Block.prev fun _ => rfl]
  simp only [all, Graph.shape, List.zipIdx_map, List.filterMap_map]
  exact congrArg (List.filterMap · _) (funext fun item => hheader item.2 item.1)

@[simp] theorem containsAt_shape (graph : Graph) (loop : NaturalLoop) (position : Nat) :
    loop.containsAt graph.shape position = loop.containsAt graph position := by
  simp only [containsAt, Graph.id?_shape]
  congr 1
  funext id
  simp [contains]

theorem headerPrev_shape (graph : Graph) (loop : NaturalLoop) :
    loop.headerPrev graph.shape = loop.headerPrev graph := by
  simp only [headerPrev, Graph.block?_shape, Option.map_map]
  rfl

theorem latches_shape (graph : Graph) (loop : NaturalLoop) :
    loop.latches graph.shape = loop.latches graph := by
  have hcontains : loop.containsAt graph.shape = loop.containsAt graph :=
    funext (containsAt_shape graph loop)
  rw [latches, headerPrev_shape, hcontains, latches]

theorem exiting_shape (graph : Graph) (loop : NaturalLoop) :
    loop.exiting graph.shape = loop.exiting graph := by
  simp only [exiting, Graph.block?_shape, Option.any_map, containsAt_shape]
  rfl

theorem preheader?_shape (graph : Graph) (loop : NaturalLoop) :
    loop.preheader? graph.shape = loop.preheader? graph := by
  have hserves : servesAsPreheader graph.shape = servesAsPreheader graph := by
    funext position
    simp only [servesAsPreheader, Graph.block?_shape, Option.any_map]
    rfl
  simp only [preheader?, headerPrev_shape, containsAt_shape, Graph.id?_shape, hserves]

end NaturalLoop

theorem LoopForest.ofGraph_shape (graph : Graph) (dominance : Dominance) :
    ofGraph graph.shape dominance = ofGraph graph dominance := by
  have hfind : ∀ loops, findOuter graph.shape loops = findOuter graph loops := by
    intro loops
    funext index inner
    simp [findOuter]
  simp [ofGraph, ofLoops, NaturalLoop.all_shape, hfind]

/-! ## Graphs of one shape -/

section

variable (hshape : other.shape = graph.shape)

include hshape

theorem Dominance.ofGraph_eq_of_shape : ofGraph other = ofGraph graph := by
  rw [← ofGraph_shape, hshape, ofGraph_shape]

theorem NaturalLoop.all_eq_of_shape (dominance : Dominance) :
    all other dominance = all graph dominance := by
  rw [← all_shape, hshape, all_shape]

theorem Graph.mem_all_of_shape {loop : NaturalLoop}
    (h : loop ∈ NaturalLoop.all graph (Dominance.ofGraph graph)) :
    loop ∈ NaturalLoop.all other (Dominance.ofGraph other) := by
  rwa [Dominance.ofGraph_eq_of_shape hshape, NaturalLoop.all_eq_of_shape hshape]

theorem LoopForest.ofGraph_eq_of_shape (dominance : Dominance) :
    ofGraph other dominance = ofGraph graph dominance := by
  rw [← ofGraph_shape, hshape, ofGraph_shape]

theorem NaturalLoop.preheader?_eq_of_shape (loop : NaturalLoop) :
    loop.preheader? other = loop.preheader? graph := by
  rw [← preheader?_shape, hshape, preheader?_shape]

theorem NaturalLoop.latches_eq_of_shape (loop : NaturalLoop) :
    loop.latches other = loop.latches graph := by
  rw [← latches_shape, hshape, latches_shape]

theorem Graph.id?_eq_of_shape (position : Nat) : other.id? position = graph.id? position := by
  rw [← id?_shape, hshape, id?_shape]

end

end LoopHoist
