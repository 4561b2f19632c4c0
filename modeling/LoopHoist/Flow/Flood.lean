import LoopHoist.Graph.Basic

/-!
# Flooding a graph

`Graph.flood` collects the ids of the blocks that can be reached from a queue
of positions.  It goes breadth first, one way along the edges, through admitted
blocks only, and visits a block when its id is new.  The edges of unvisited
blocks and the queue together shrink at every step.
-/

namespace LoopHoist

/-- The number of edges that leave a block, or zero once its id has been seen.
-/
def unseenDegree (next : Block → List Nat) (seen : List Int) (block : Block) : Nat :=
  if block.id ∈ seen then 0 else (next block).length

/-- The number of edges that leave the blocks whose id has not been seen. -/
def unseenEdges (next : Block → List Nat) (seen : List Int) : List Block → Nat
  | [] => 0
  | block :: blocks => unseenDegree next seen block + unseenEdges next seen blocks

theorem unseenDegree_cons_le (next : Block → List Nat) (id : Int) (seen : List Int)
    (block : Block) :
    unseenDegree next (id :: seen) block ≤ unseenDegree next seen block := by
  unfold unseenDegree
  by_cases hseen : block.id ∈ seen
  · simp [hseen]
  · rw [if_neg hseen]
    split
    · exact Nat.zero_le _
    · exact Nat.le_refl _

theorem unseenEdges_cons_le (next : Block → List Nat) (id : Int) (seen : List Int)
    (blocks : List Block) :
    unseenEdges next (id :: seen) blocks ≤ unseenEdges next seen blocks := by
  induction blocks with
  | nil => exact Nat.le_refl _
  | cons block blocks ih => exact Nat.add_le_add (unseenDegree_cons_le next id seen block) ih

theorem unseenEdges_cons_add_le (next : Block → List Nat) (seen : List Int) (block : Block)
    (blocks : List Block) (hmem : block ∈ blocks) (hnew : block.id ∉ seen) :
    unseenEdges next (block.id :: seen) blocks + (next block).length
      ≤ unseenEdges next seen blocks := by
  induction blocks with
  | nil => cases hmem
  | cons first blocks ih =>
      rw [unseenEdges, unseenEdges]
      rcases List.mem_cons.mp hmem with rfl | hrest
      · have hle := unseenEdges_cons_le next block.id seen blocks
        have hself : unseenDegree next (block.id :: seen) block = 0 := by simp [unseenDegree]
        have hdegree : unseenDegree next seen block = (next block).length := by
          simp [unseenDegree, hnew]
        omega
      · have hle := ih hrest
        have hfirst := unseenDegree_cons_le next block.id seen first
        omega

namespace Graph

theorem mem_of_block? {graph : Graph} {position : Nat} {block : Block}
    (h : graph.block? position = some block) : block ∈ graph.blocks :=
  List.mem_of_getElem? h

/-- The ids already seen and those of the blocks reached from the queue by
`next`. -/
def flood (graph : Graph) (next : Block → List Nat) (admits : Int → Bool) (seen : List Int)
    (queue : List Nat) : List Int :=
  match queue with
  | [] => seen
  | position :: queue =>
      match _hblock : graph.block? position with
      | none => graph.flood next admits seen queue
      | some block =>
          if block.id ∈ seen then graph.flood next admits seen queue
          else
            graph.flood next admits (block.id :: seen)
              (queue ++ (next block).filter fun position => (graph.id? position).any admits)
termination_by unseenEdges next seen graph.blocks + queue.length
decreasing_by
  · simp
  · simp
  · have hedges := unseenEdges_cons_add_le next seen block graph.blocks (mem_of_block? _hblock) ‹_›
    have hqueue :=
      List.length_filter_le (fun position => (graph.id? position).any admits) (next block)
    simp only [List.length_append, List.length_cons]
    omega

end Graph

end LoopHoist
