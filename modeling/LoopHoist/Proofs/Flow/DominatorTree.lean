import LoopHoist.Proofs.Flow.Dominance

/-!
# The dominator tree

A strict dominator of a block dominates more blocks than any other one that it dominates.
The strict dominators of a block form a chain, so the one that dominates the fewest blocks
is the immediate dominator.  Climbing from one immediate dominator to the next passes all
strict dominators and ends at the entry.
-/

namespace LoopHoist

namespace Dominance

variable {graph : Graph} {a b : Nat} {first second : Block}

/-! ## The closest dominator -/

/-- Dominance of one block over another shows in the number of blocks they dominate. -/
theorem length_row_lt (hids : graph.DistinctIds) (ha : graph.block? a = some first)
    (hb : graph.block? b = some second) (h : graph.StrictlyDominates a b) :
    (row graph.dominanceTable second.id).length < (row graph.dominanceTable first.id).length := by
  rw [Graph.row_dominanceTable ha, Graph.row_dominanceTable hb,
    Graph.dominatedBy_of_reachable hids ha h.reachable_left,
    Graph.dominatedBy_of_reachable hids hb h.reachable, ← List.countP_eq_length_filter,
    ← List.countP_eq_length_filter]
  -- what the second block dominates the first one does too, and it also dominates itself
  have hself := (Graph.mem_reachable_none_iff hids ha).mpr h.reachable_left
  refine countP_lt_countP ?_ hself ?_ ?_
  · intro id hid hnot
    obtain ⟨position, earlier, hposition, _⟩ := Graph.path_of_mem_reachable hid
    obtain ⟨block, hblock, rfl⟩ := Option.map_eq_some_iff.mp hposition
    rw [decide_eq_true_eq, Graph.mem_reachable_some_iff hids hb hblock, not_not] at hnot
    rw [decide_eq_true_eq, Graph.mem_reachable_some_iff hids ha hblock, not_not]
    exact h.dominates.trans hnot
  · rw [decide_eq_true_eq, Graph.mem_reachable_some_iff hids ha ha, not_not]
    exact .refl graph a
  · rw [decide_eq_false_iff_not, Graph.mem_reachable_some_iff hids hb ha, not_not]
    exact fun hback => h.ne (h.dominates.antisymm hback h.reachable)

theorem mem_strict_iff (hids : graph.DistinctIds) (hb : graph.block? b = some second) {id : Int} :
    id ∈ (graph.blocks.map Block.id).filter (fun other =>
        other != second.id && (row graph.dominanceTable other).contains second.id) ↔
      ∃ a first, graph.block? a = some first ∧ first.id = id ∧ graph.StrictlyDominates a b := by
  have hstrict {a : Nat} {first : Block} (ha : graph.block? a = some first) :
      (first.id != second.id && (row graph.dominanceTable first.id).contains second.id) = true ↔
        graph.StrictlyDominates a b := by
    rw [Bool.and_eq_true, bne_iff_ne, ne_eq, hids.id_eq_iff ha hb, Graph.row_dominanceTable ha,
      List.contains_iff_mem, Graph.mem_dominatedBy_iff hids ha hb]
    constructor
    · rintro ⟨hne, hpaths⟩
      obtain ⟨hreach, hdominates⟩ := hpaths.resolve_left hne
      exact ⟨hne, hreach, hdominates⟩
    · exact fun h => ⟨h.ne, .inr ⟨h.reachable, h.dominates⟩⟩
  rw [List.mem_filter, List.mem_map]
  constructor
  · rintro ⟨⟨first, hmem, rfl⟩, hid⟩
    obtain ⟨a, ha⟩ := List.getElem?_of_mem hmem
    exact ⟨a, first, ha, rfl, (hstrict ha).mp hid⟩
  · rintro ⟨a, first, ha, rfl, h⟩
    exact ⟨⟨first, List.mem_of_getElem? ha, rfl⟩, (hstrict ha).mpr h⟩

theorem closest_eq_some (hids : graph.DistinctIds) (hb : graph.block? b = some second)
    (h : graph.StrictlyDominates a b) :
    ∃ above twin, graph.block? above = some twin ∧ graph.IsIdom above b ∧
      closest graph.dominanceTable graph.blocks second.id = some twin.id := by
  let size := fun other => (row graph.dominanceTable other).length
  obtain ⟨first, ha⟩ := h.block_left
  obtain ⟨id, hmin⟩ := Option.isSome_iff_exists.mp
    (List.isSome_minOn?_of_mem (f := size) ((mem_strict_iff hids hb).mpr ⟨a, first, ha, rfl, h⟩))
  obtain ⟨above, twin, htwin, rfl, habove⟩ := (mem_strict_iff hids hb).mp (List.minOn?_mem hmin)
  refine ⟨above, twin, htwin, ⟨habove, fun {other} hother => ?_⟩, hmin⟩
  rcases hother.dominates.chain habove.dominates h.reachable with hdominates | hback
  · exact hdominates
  · by_cases heq : above = other
    · exact heq ▸ .refl graph above
    -- otherwise the other one would have been closer
    obtain ⟨mate, hmate⟩ := hother.block_left
    have hlt := length_row_lt hids htwin hmate ⟨heq, hother.reachable_left, hback⟩
    have hle := List.apply_minOn_le_of_mem (f := size)
      ((mem_strict_iff hids hb).mpr ⟨other, mate, hmate, rfl, hother⟩)
    rw [List.minOn_eq_of_minOn?_eq_some hmin] at hle
    exact absurd hlt (Nat.not_lt.mpr hle)

theorem closest_eq_none (hids : graph.DistinctIds) (hb : graph.block? b = some second)
    (h : ∀ a, ¬graph.StrictlyDominates a b) :
    closest graph.dominanceTable graph.blocks second.id = none := by
  cases hmin : closest graph.dominanceTable graph.blocks second.id with
  | none => rfl
  | some id =>
      obtain ⟨a, _, _, _, hstrict⟩ := (mem_strict_iff hids hb).mp (List.minOn?_mem hmin)
      exact absurd hstrict (h a)

/-! ## The tables of parents and children -/

section

variable {blocks : List Block} (parent? : Int → Option Int)

theorem map_filter_filterMap_id (id : Int) :
    ((blocks.filterMap fun block => (parent? block.id).map fun parent =>
      (block.id, parent)).filter fun entry => entry.2 = id).map Prod.fst =
      (blocks.filter fun block => parent? block.id = some id).map Block.id := by
  induction blocks with
  | nil => rfl
  | cons block blocks ih =>
      cases hparent : parent? block.id with
      | none => simp [hparent, ih]
      | some parent =>
          by_cases heq : parent = id
          · simp [hparent, heq, ih]
          · simp [hparent, heq, ih]

end

theorem idom?_ofGraph (hmem : second ∈ graph.blocks) : (ofGraph graph).idom? second.id =
    closest graph.dominanceTable graph.blocks second.id :=
  lookup_filterMap_key Block.id _ (.inl (List.mem_map_of_mem hmem))

theorem children_ofGraph (graph : Graph) (id : Int) : (ofGraph graph).children id =
    (graph.blocks.filter fun child => (ofGraph graph).idom? child.id = some id).map Block.id := by
  refine (map_filter_filterMap_id _ id).trans (congrArg _ (List.filter_congr fun child hchild => ?_))
  rw [idom?_ofGraph hchild]

/-! ## Climbing -/

/-- The ids that are passed by going from one immediate dominator to the next until there is
none. -/
inductive Climb (dominance : Dominance) : Int → List Int → Prop
  | top {id : Int} : dominance.idom? id = none → Climb dominance id []
  | step {id above : Int} {rest : List Int} : dominance.idom? id = some above →
      Climb dominance above rest → Climb dominance id (above :: rest)

theorem exists_climb (hids : graph.DistinctIds) (hb : graph.block? b = some second)
    (hreach : graph.Reachable b) : ∃ chain, (ofGraph graph).Climb second.id (graph.ids chain) ∧
      chain.Nodup ∧ (∀ a, a ∈ chain ↔ graph.StrictlyDominates a b) ∧
      (b :: chain).getLast? = some 0 := by
  obtain ⟨earlier, hpath⟩ := hreach
  -- a strict dominator stands on the path to the block, so the path to it is shorter
  induction hlength : earlier.length using Nat.strongRecOn generalizing b second earlier with
  | _ length ih =>
  by_cases hzero : b = 0
  · subst hzero
    have hnone : ∀ a, ¬graph.StrictlyDominates a 0 := fun a h => h.ne_zero rfl
    refine ⟨[], .top ?_, List.nodup_nil, fun a => ?_, rfl⟩
    · rw [idom?_ofGraph (List.mem_of_getElem? hb), closest_eq_none hids hb hnone]
    · simp [hnone a]
  · obtain ⟨above, twin, htwin, hidom, hclosest⟩ :=
      closest_eq_some hids hb (.entry hzero ⟨earlier, hpath⟩)
    obtain ⟨later, rest, rfl⟩ := List.append_of_mem (hidom.strict.mem_earlier hpath)
    obtain ⟨chain, hclimb, hnodup, hmem, hlast⟩ :=
      ih rest.length (by simp [← hlength]; omega) htwin rest (hpath.back (b :: later)) rfl
    refine ⟨above :: chain, ?_, ?_, fun a => ?_, ?_⟩
    · rw [Graph.ids, List.filterMap_cons_some (Graph.id?_of_block? htwin)]
      refine .step ?_ hclimb
      rw [idom?_ofGraph (List.mem_of_getElem? hb), hclosest]
    · exact List.nodup_cons.mpr ⟨fun hself => ((hmem above).mp hself).ne rfl, hnodup⟩
    · rw [List.mem_cons, hmem, hidom.strictlyDominates_iff]
    · rw [List.getLast?_cons_cons, hlast]

/-! ## The tree as a whole -/

/-- A table of dominators whose immediate dominators and children form the dominator tree of
a graph. -/
structure IsTreeOf (dominance : Dominance) (graph : Graph) : Prop where
  idom?_entry : ∀ {block : Block}, graph.block? 0 = some block → dominance.idom? block.id = none
  idom?_unreachable : ∀ {position : Nat} {block : Block}, graph.block? position = some block →
    ¬graph.Reachable position → dominance.idom? block.id = none
  isIdom : ∀ {position : Nat} {block : Block}, graph.block? position = some block →
    position ≠ 0 → graph.Reachable position →
      ∃ above twin, graph.block? above = some twin ∧ dominance.idom? block.id = some twin.id ∧
        graph.IsIdom above position
  climb : ∀ {position : Nat} {block : Block}, graph.block? position = some block →
    position ≠ 0 → graph.Reachable position →
      ∃ chain, dominance.Climb block.id (graph.ids chain) ∧ chain.Nodup ∧
        (∀ other, other ∈ chain ↔ graph.StrictlyDominates other position) ∧
        chain.getLast? = some 0
  children_eq : ∀ id, dominance.children id =
    (graph.blocks.filter fun child => dominance.idom? child.id = some id).map Block.id

/-- Whatever its edges, a graph whose blocks have ids of their own gets its dominator tree. -/
theorem isTreeOf_ofGraph (hids : graph.DistinctIds) : (ofGraph graph).IsTreeOf graph where
  idom?_entry := by
    intro block hblock
    rw [idom?_ofGraph (List.mem_of_getElem? hblock)]
    exact closest_eq_none hids hblock fun a h => h.ne_zero rfl
  idom?_unreachable := by
    intro position block hblock hunreachable
    rw [idom?_ofGraph (List.mem_of_getElem? hblock)]
    exact closest_eq_none hids hblock fun a h => hunreachable h.reachable
  isIdom := by
    intro position block hblock hne hreach
    obtain ⟨above, twin, htwin, hidom, hclosest⟩ :=
      closest_eq_some hids hblock (.entry hne hreach)
    rw [idom?_ofGraph (List.mem_of_getElem? hblock), hclosest]
    exact ⟨above, twin, htwin, rfl, hidom⟩
  climb := by
    intro position block hblock hne hreach
    obtain ⟨chain, hclimb, hnodup, hmem, hlast⟩ := exists_climb hids hblock hreach
    have hentry : chain ≠ [] := List.ne_nil_of_mem ((hmem 0).mpr (.entry hne hreach))
    obtain ⟨above, chain, rfl⟩ := List.exists_cons_of_ne_nil hentry
    exact ⟨above :: chain, hclimb, hnodup, hmem, List.getLast?_cons_cons ▸ hlast⟩
  children_eq := children_ofGraph graph

/-- The two ways from the start join again in the middle. -/
theorem isIdom_tangledGraph :
    tangledGraph.DistinctIds ∧ (ofGraph tangledGraph).idom? 12 = some 7 ∧
      tangledGraph.IsIdom 0 3 ∧ (ofGraph tangledGraph).children 7 = [3, -1, 12] := by
  have htree := isTreeOf_ofGraph distinctIds_tangledGraph
  have hmiddle : tangledGraph.Reachable 3 :=
    ⟨[1, 0], .step (.step .entry ⟨_, rfl, by decide⟩) ⟨_, rfl, by decide⟩⟩
  have hvalue : (ofGraph tangledGraph).idom? 12 = some 7 := by
    rw [ofGraph_tangledGraph]
    rfl
  obtain ⟨above, twin, htwin, hidom, habove⟩ := htree.isIdom rfl (by decide) hmiddle
  obtain rfl : above = 0 :=
    distinctIds_tangledGraph htwin rfl (Option.some.inj (hidom.symm.trans hvalue))
  refine ⟨distinctIds_tangledGraph, hvalue, habove, ?_⟩
  rw [ofGraph_tangledGraph]
  rfl

end Dominance

end LoopHoist
