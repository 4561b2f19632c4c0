import LoopHoist.Proofs.Graph.WellFormed

/-!
# Graphs after linking

Linking a graph along a list of edges adds to every block the edges that leave
it and those that enter it, in the order of the list, and changes nothing else.
A graph all of whose edges were made that way lists each of them at both ends.
-/

namespace LoopHoist.Graph

def linkedBlock (edges : List (Nat × Nat)) (position : Nat) (block : Block) : Block :=
  { block with
    prev := block.prev ++ (edges.filter fun edge => edge.2 = position).map Prod.fst
    succ := block.succ ++ (edges.filter fun edge => edge.1 = position).map Prod.snd }

theorem linkedBlock_cons (edge : Nat × Nat) (edges : List (Nat × Nat)) (position : Nat)
    (block : Block) :
    linkedBlock (edge :: edges) position block =
      linkedBlock edges position (linkedBlock [edge] position block) := by
  by_cases hsource : edge.1 = position <;> by_cases hdestination : edge.2 = position <;>
    simp [linkedBlock, hsource, hdestination]

theorem block?_link (graph : Graph) (source destination position : Nat) :
    (graph.link source destination).block? position =
      (graph.block? position).map (linkedBlock [(source, destination)] position) := by
  simp only [link, block?_modify, Option.map_map]
  congr 1
  funext block
  by_cases hsource : source = position <;> by_cases hdestination : destination = position <;>
    simp [linkedBlock, hsource, hdestination]

theorem block?_linkAll (graph : Graph) (edges : List (Nat × Nat)) (position : Nat) :
    (graph.linkAll edges).block? position =
      (graph.block? position).map (linkedBlock edges position) := by
  induction edges generalizing graph with
  | nil =>
      change graph.block? position = _
      cases graph.block? position with
      | none => rfl
      | some block => simp [linkedBlock]
  | cons edge edges ih =>
      change ((graph.link edge.1 edge.2).linkAll edges).block? position = _
      rw [ih, block?_link, Option.map_map]
      congr 1
      funext block
      exact (linkedBlock_cons edge edges position block).symm

/-! ## Linked graphs -/

/-- The blocks of a graph with all edges taken away. -/
def bare (graph : Graph) : Graph :=
  ⟨graph.blocks.map fun block => { block with prev := [], succ := [] }⟩

/-- All edges of the graph were made by linking blocks of it. -/
def Linked (graph : Graph) : Prop :=
  ∃ edges : List (Nat × Nat),
    (∀ edge ∈ edges, edge.1 < graph.blocks.length ∧ edge.2 < graph.blocks.length) ∧
      graph.bare.linkAll edges = graph

section

variable {graph : Graph} {edges : List (Nat × Nat)} {position : Nat} {block : Block}

theorem eq_linkedBlock_of_bare (hlinked : graph.bare.linkAll edges = graph)
    (h : graph.block? position = some block) :
    block = linkedBlock edges position { block with prev := [], succ := [] } := by
  have hmap : graph.bare.block? position = some { block with prev := [], succ := [] } := by
    rw [bare, block?, List.getElem?_map, ← block?, h, Option.map_some]
  have hlinkAll := block?_linkAll graph.bare edges position
  rw [hlinked, h, hmap, Option.map_some] at hlinkAll
  exact Option.some.inj hlinkAll

theorem mem_prev_of_bare (hlinked : graph.bare.linkAll edges = graph)
    (h : graph.block? position = some block) {source : Nat} :
    source ∈ block.prev ↔ (source, position) ∈ edges := by
  rw [eq_linkedBlock_of_bare hlinked h]
  simp [linkedBlock]

theorem mem_succ_of_bare (hlinked : graph.bare.linkAll edges = graph)
    (h : graph.block? position = some block) {destination : Nat} :
    destination ∈ block.succ ↔ (position, destination) ∈ edges := by
  rw [eq_linkedBlock_of_bare hlinked h]
  simp [linkedBlock]

theorem Linked.consistent (hlinked : graph.Linked) (hids : graph.DistinctIds) :
    graph.Consistent := by
  obtain ⟨edges, hrange, hlinked⟩ := hlinked
  have hblock : ∀ {position : Nat}, position < graph.blocks.length →
      ∃ block, graph.block? position = some block := fun hlt =>
    ⟨_, List.getElem?_eq_getElem hlt⟩
  refine ⟨hids, ?_, ?_⟩
  · rintro source destination ⟨origin, horigin, hmem⟩
    exact hblock (hrange _ ((mem_succ_of_bare hlinked horigin).mp hmem)).2
  · intro source destination block h
    rw [mem_prev_of_bare hlinked h]
    constructor
    · intro hedge
      obtain ⟨origin, horigin⟩ := hblock (hrange _ hedge).1
      exact ⟨origin, horigin, (mem_succ_of_bare hlinked horigin).mpr hedge⟩
    · rintro ⟨origin, horigin, hmem⟩
      exact (mem_succ_of_bare hlinked horigin).mp hmem

end

/-! ## Labels and sources -/

theorem find?_eq_of_labels {graph other : Graph}
    (h : other.blocks.map Block.label = graph.blocks.map Block.label) (label : Label) :
    other.find? label = graph.find? label := by
  have hmap : ∀ graph : Graph, graph.find? label =
      (graph.blocks.map Block.label).findIdx? fun other => other = label := by
    intro graph
    rw [List.findIdx?_map]
    rfl
  rw [hmap, hmap, h]

theorem find?_linkAll (graph : Graph) (edges : List (Nat × Nat)) (label : Label) :
    (graph.linkAll edges).find? label = graph.find? label := by
  apply find?_eq_of_labels
  apply List.ext_getElem?
  intro position
  rw [List.getElem?_map, List.getElem?_map]
  change ((graph.linkAll edges).block? position).map Block.label = _
  rw [block?_linkAll, Option.map_map]
  rfl

/-- Where the lists of edges are given block by block, a block's own list is
found among all of them by its source. -/
theorem filter_flatten_eq {lists : List (List (Nat × Nat))} {start : Nat}
    (h : ∀ (index : Nat) {list : List (Nat × Nat)}, lists[index]? = some list →
      ∀ edge ∈ list, edge.1 = start + index) (index : Nat) :
    lists.flatten.filter (fun edge => edge.1 = start + index) = (lists[index]?).getD [] := by
  induction lists generalizing start index with
  | nil => simp
  | cons first lists ih =>
      have hfirst : ∀ edge ∈ first, edge.1 = start := h 0 rfl
      have hrest : ∀ (index : Nat) {list : List (Nat × Nat)}, lists[index]? = some list →
          ∀ edge ∈ list, edge.1 = (start + 1) + index := by
        intro index list hlist edge hedge
        have hedge' := h (index + 1) (by simpa using hlist) edge hedge
        omega
      rw [List.flatten_cons, List.filter_append]
      cases index with
      | zero =>
          have hnone : lists.flatten.filter (fun edge => edge.1 = start) = [] := by
            rw [List.filter_eq_nil_iff]
            intro edge hedge
            obtain ⟨list, hlist, hmem⟩ := List.mem_flatten.mp hedge
            obtain ⟨index, hindex⟩ := List.getElem?_of_mem hlist
            have hsource := hrest index hindex edge hmem
            simp only [decide_eq_true_eq]
            omega
          have hall : first.filter (fun edge => edge.1 = start) = first :=
            List.filter_eq_self.mpr fun edge hedge => by simpa using hfirst edge hedge
          simp [hnone, hall]
      | succ index =>
          have hnone : first.filter (fun edge => edge.1 = start + (index + 1)) = [] := by
            rw [List.filter_eq_nil_iff]
            intro edge hedge
            have hsource := hfirst edge hedge
            simp only [decide_eq_true_eq]
            omega
          have hsum : start + (index + 1) = (start + 1) + index := by omega
          rw [hnone, List.nil_append, hsum, ih hrest index]
          simp

end LoopHoist.Graph
