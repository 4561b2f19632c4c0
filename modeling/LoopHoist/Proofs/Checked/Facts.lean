import LoopHoist.Hoist.Facts
import LoopHoist.Proofs.Checked.Breakdown
import LoopHoist.Proofs.Flow.Forest

/-!
# The facts about a graph, checked

Dominance asks for the entry of the graph and for rows of its own table.  The rows are those
of the blocks, so only an empty graph, which has no entry, makes it break down.  The loops
of a graph are climbed from the inside outwards and visited from the outside inwards without
a bound; as the loop around another one is larger, both come to an end.
-/

namespace LoopHoist

/-! ## Dominance -/

namespace Graph

def checkedReachable (graph : Graph) (leftOut : Option Int) : Checked (List Int) := do
  let entry ← Checked.ofFault graph.entry
  let admits := fun id => some id != leftOut
  return graph.flood Block.succ admits [] (if admits entry.id then [0] else [])

def checkedTable (graph : Graph) : Checked (List (Int × List Int)) := do
  let all ← graph.checkedReachable none
  graph.blocks.mapM fun block =>
    if block.id ∈ all then do
      let rest ← graph.checkedReachable (some block.id)
      return (block.id, all.filter fun other => other ∉ rest)
    else return (block.id, [block.id])

variable {graph : Graph} {entry : Block}

theorem checkedReachable_eq (hentry : graph.entry = .ok entry) (leftOut : Option Int) :
    graph.checkedReachable leftOut = .ok (graph.reachable leftOut) := by
  obtain ⟨blocks⟩ := graph
  cases blocks with
  | nil => cases hentry
  | cons first blocks =>
      cases hentry
      simp only [checkedReachable, reachable, id?, block?, List.getElem?_cons_zero,
        Option.map_some, Option.any_some, List.filter_cons, List.filter_nil]
      rfl

theorem checkedTable_eq (hentry : graph.entry = .ok entry) :
    graph.checkedTable = .ok graph.dominanceTable := by
  rw [checkedTable, checkedReachable_eq hentry, ok_bind]
  refine mapM_eq_ok_map fun block _ => ?_
  rw [dominatedBy]
  split
  · rw [checkedReachable_eq hentry]
    rfl
  · rfl

end Graph

namespace Dominance

def checkedRow (table : List (Int × List Int)) (id : Int) : Checked (List Int) :=
  Checked.demand (.noSuchRow id) (table.lookup id)

/-- Whether another id strictly dominates an id. -/
def checkedStrict (table : List (Int × List Int)) (id other : Int) : Checked Bool :=
  if other != id then do
    let row ← checkedRow table other
    return row.contains id
  else return false

def checkedClosest (table : List (Int × List Int)) (blocks : List Block) (id : Int) :
    Checked (Option Int) := do
  let strict ← Checked.filter (checkedStrict table id) (blocks.map Block.id)
  let sized ← strict.mapM fun other => do
    let row ← checkedRow table other
    return (other, row.length)
  return (sized.minOn? Prod.snd).map Prod.fst

def checkedOfGraph (graph : Graph) : Checked Dominance := do
  let table ← graph.checkedTable
  let idoms ← graph.blocks.mapM fun block => do
    let idom ← checkedClosest table graph.blocks block.id
    return idom.map fun idom => (block.id, idom)
  return ⟨table, idoms.filterMap id⟩

variable {graph : Graph} {entry : Block}

theorem checkedRow_eq {id : Int} (h : id ∈ graph.blocks.map Block.id) :
    checkedRow graph.dominanceTable id = .ok (row graph.dominanceTable id) := by
  have hlookup := lookup_map_key Block.id (graph.dominatedBy (graph.reachable none)) h
  rw [row, Graph.dominanceTable, hlookup]
  exact Checked.demand_eq_ok hlookup

theorem checkedClosest_eq (graph : Graph) (id : Int) :
    checkedClosest graph.dominanceTable graph.blocks id =
      .ok (closest graph.dominanceTable graph.blocks id) := by
  have hstrict : Checked.filter (checkedStrict graph.dominanceTable id) (graph.blocks.map Block.id) =
      .ok ((graph.blocks.map Block.id).filter fun other =>
        other != id && (row graph.dominanceTable other).contains id) := by
    apply Checked.filter_eq_ok
    intro other hother
    rw [checkedStrict, checkedRow_eq hother]
    cases other != id <;> rfl
  rw [checkedClosest, hstrict, ok_bind, mapM_eq_ok_map (g := fun other =>
    (other, (row graph.dominanceTable other).length)), ok_bind, minOn?_map_key]
  · rfl
  · intro other hother
    rw [checkedRow_eq (List.mem_of_mem_filter hother)]
    rfl

theorem checkedOfGraph_eq (hentry : graph.entry = .ok entry) :
    checkedOfGraph graph = .ok (ofGraph graph) := by
  rw [checkedOfGraph, Graph.checkedTable_eq hentry, ok_bind, mapM_eq_ok_map (g := fun block =>
    (closest graph.dominanceTable graph.blocks block.id).map fun idom => (block.id, idom)), ok_bind,
    List.filterMap_map]
  · rfl
  · intro block _
    rw [checkedClosest_eq]
    rfl

end Dominance

/-! ## The forest -/

namespace LoopForest

def checkedLevel (forest : LoopForest) : Nat → Nat → Checked Nat
  | 0, _ => .error .noEnd
  | steps + 1, index =>
      match forest.outer? index with
      | none => .ok 1
      | some outer => do
          let level ← forest.checkedLevel steps outer
          return level + 1

def checkedOfGraph (graph : Graph) (dominance : Dominance) : Checked (LoopForest × List Nat) := do
  let _ ← Checked.ofFault graph.entry
  let forest := ofGraph graph dominance
  let levels ← (List.range forest.loops.length).mapM (forest.checkedLevel forest.loops.length)
  return (forest, levels)

def checkedPostorder (forest : LoopForest) : Nat → Nat → Checked (List Nat)
  | 0, _ => .error .noEnd
  | depth + 1, index => do
      let inner ← (forest.subloops index).mapM (forest.checkedPostorder depth)
      return inner.flatten ++ [index]

def checkedInnermostFirst (forest : LoopForest) : Checked (List Nat) := do
  let orders ← forest.roots.mapM (forest.checkedPostorder forest.loops.length)
  return orders.flatten

namespace Grows

variable {forest : LoopForest} {index : Nat}

theorem checkedLevel_eq (h : forest.Grows) {steps : Nat} (hindex : index < forest.loops.length)
    (hsteps : forest.loops.length ≤ steps + below forest index) :
    forest.checkedLevel steps index = .ok (forest.levelWithin steps index) := by
  induction steps generalizing index with
  | zero =>
      have hlt := below_lt_length hindex
      omega
  | succ steps ih =>
      rw [checkedLevel, levelWithin]
      cases houter : forest.outer? index with
      | none => rfl
      | some outer =>
          have hlt := h.below_lt houter
          simp only [ih (h.outer_lt houter) (by omega), ok_bind]
          rfl

theorem checkedPostorder_eq (h : forest.Grows) {depth : Nat} (hdepth : below forest index < depth) :
    forest.checkedPostorder depth index = .ok (forest.postorder depth index) := by
  induction depth generalizing index with
  | zero => omega
  | succ depth ih =>
      have hinner : (forest.subloops index).mapM (forest.checkedPostorder depth) =
          .ok ((forest.subloops index).map (forest.postorder depth)) := by
        refine mapM_eq_ok_map fun inner hinner => ih ?_
        have hlt := h.below_lt (h.mem_subloops_iff.mp hinner)
        omega
      rw [checkedPostorder, hinner, ok_bind, postorder, List.flatMap_def]
      rfl

theorem checkedInnermostFirst_eq (h : forest.Grows) :
    forest.checkedInnermostFirst = .ok forest.innermostFirst := by
  have hroots : forest.roots.mapM (forest.checkedPostorder forest.loops.length) =
      .ok (forest.roots.map (forest.postorder forest.loops.length)) :=
    mapM_eq_ok_map fun root hroot =>
      h.checkedPostorder_eq (below_lt_length (mem_roots_iff.mp hroot).1)
  rw [checkedInnermostFirst, hroots, ok_bind, innermostFirst, List.flatMap_def]
  rfl

end Grows

theorem checkedOfGraph_eq {graph : Graph} {entry : Block} (hentry : graph.entry = .ok entry)
    (dominance : Dominance) :
    checkedOfGraph graph dominance = .ok (ofGraph graph dominance,
      (List.range (ofGraph graph dominance).loops.length).map (ofGraph graph dominance).level) := by
  have hlevels : (List.range (ofGraph graph dominance).loops.length).mapM
      ((ofGraph graph dominance).checkedLevel (ofGraph graph dominance).loops.length) =
        .ok ((List.range (ofGraph graph dominance).loops.length).map
          (ofGraph graph dominance).level) :=
    mapM_eq_ok_map fun index hindex =>
      (grows_ofGraph graph dominance).checkedLevel_eq (List.mem_range.mp hindex)
        (Nat.le_add_right ..)
  simp only [checkedOfGraph, hentry, Checked.ofFault, ok_bind, hlevels]
  rfl

end LoopForest

/-! ## All facts -/

def Facts.checkedOfGraph (graph : Graph) : Checked Facts := do
  let dominance ← Dominance.checkedOfGraph graph
  let forest ← LoopForest.checkedOfGraph graph dominance
  return ⟨dominance, forest.1, OriginTable.ofGraph graph⟩

/-- Finding the facts breaks down only where there is no entry. -/
theorem Facts.checkedOfGraph_eq (graph : Graph) :
    Facts.checkedOfGraph graph = Checked.ofFault (Facts.ofGraph graph) := by
  cases hentry : graph.entry with
  | error fault =>
      simp only [Facts.checkedOfGraph, Dominance.checkedOfGraph, Graph.checkedTable,
        Graph.checkedReachable, Facts.ofGraph, hentry]
      rfl
  | ok entry =>
      rw [Facts.checkedOfGraph, Dominance.checkedOfGraph_eq hentry, ok_bind,
        LoopForest.checkedOfGraph_eq hentry, ok_bind, Facts.ofGraph, hentry]
      rfl

end LoopHoist
