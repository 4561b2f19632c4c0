import LoopHoist.Proofs.Graph.WellFormed
import LoopHoist.Proofs.Lists

/-!
# Moving one instruction

`Graph.move` takes the instruction at an index out of the body of one block and
puts it at the end of the body of another.  The shape of the graph stays, and so
does the collection of all instructions.
-/

namespace LoopHoist

namespace Graph

variable {graph : Graph} {source destination index : Nat} {instr : Instr}

def move (graph : Graph) (source index destination : Nat) (instr : Instr) : Graph :=
  (graph.modify source fun block => { block with body := block.body.eraseIdx index }).append
    destination instr

def bodies (graph : Graph) : List Instr := graph.blocks.flatMap Block.body

/-- An instruction stands in the body of the block at a position. -/
def Holds (graph : Graph) (position : Nat) (instr : Instr) : Prop :=
  ∃ block, graph.block? position = some block ∧ instr ∈ block.body

def HasInstr (graph : Graph) (position index : Nat) (instr : Instr) : Prop :=
  ∃ block, graph.block? position = some block ∧ block.body[index]? = some instr

theorem remove_of_hasInstr (h : graph.HasInstr source index instr) :
    graph.remove source index = .ok (instr,
      graph.modify source fun block => { block with body := block.body.eraseIdx index }) := by
  obtain ⟨block, hblock, hinstr⟩ := h
  simp [remove, hblock, hinstr]

/-! ## Blocks after a move -/

theorem block?_move (graph : Graph) (source index destination : Nat) (instr : Instr)
    (position : Nat) :
    (graph.move source index destination instr).block? position =
      (graph.block? position).map fun block =>
        { block with
          body := (if source = position then block.body.eraseIdx index else block.body) ++
            (if destination = position then [instr] else []) } := by
  simp only [move, append, block?_modify, Option.map_map]
  congr 1
  funext block
  by_cases hsource : source = position <;> by_cases hdestination : destination = position <;>
    simp [hsource, hdestination]

theorem hasInstr_move_iff {position place : Nat} {other : Instr} (h : position ≠ destination) :
    (graph.move source index destination instr).HasInstr position place other ↔
      ∃ block, graph.block? position = some block ∧
        (if source = position then block.body.eraseIdx index else block.body)[place]? =
          some other := by
  simp only [HasInstr, block?_move, Option.map_eq_some_iff, if_neg (Ne.symm h), List.append_nil]
  constructor
  · rintro ⟨_, ⟨block, hblock, rfl⟩, hother⟩
    exact ⟨block, hblock, hother⟩
  · rintro ⟨block, hblock, hother⟩
    exact ⟨_, ⟨block, hblock, rfl⟩, hother⟩

theorem shape_move (graph : Graph) (source index destination : Nat) (instr : Instr) :
    (graph.move source index destination instr).shape = graph.shape := by
  rw [move, append, shape_modify, shape_modify] <;> exact fun _ => rfl

theorem HasInstr.split (h : graph.HasInstr source index instr) :
    ∃ block before after, graph.block? source = some block ∧
      block.body = before ++ instr :: after ∧ before.length = index ∧
      (before ++ instr :: after).eraseIdx index = before ++ after := by
  obtain ⟨block, hblock, hinstr⟩ := h
  obtain ⟨hlt, rfl⟩ := List.getElem?_eq_some_iff.mp hinstr
  have hbody : block.body = block.body.take index ++ block.body[index] ::
      block.body.drop (index + 1) := by simp
  refine ⟨block, block.body.take index, block.body.drop (index + 1), hblock, hbody, ?_, ?_⟩
  · rw [List.length_take]
    omega
  · rw [← hbody]
    exact List.eraseIdx_eq_take_drop_succ ..

/-! ## The instructions after a move -/

theorem flatMap_body_modify_perm {blocks : List Block} {position : Nat} {block : Block}
    (h : blocks[position]? = some block) (f : Block → Block) :
    ((blocks.modify position f).flatMap Block.body ++ block.body).Perm
      (blocks.flatMap Block.body ++ (f block).body) := by
  induction blocks generalizing position with
  | nil => cases h
  | cons first blocks ih =>
      cases position with
      | zero =>
          cases h
          rw [List.perm_iff_count]
          intro instr
          simp only [List.modify_zero_cons, List.flatMap_cons, List.count_append]
          omega
      | succ position =>
          simp only [List.modify_succ_cons, List.flatMap_cons, List.append_assoc]
          exact (ih h).append_left first.body

theorem bodies_append_perm {block : Block} (hblock : graph.block? destination = some block) :
    (graph.append destination instr).bodies.Perm (instr :: graph.bodies) := by
  have hperm := flatMap_body_modify_perm hblock fun block =>
    { block with body := block.body ++ [instr] }
  rw [List.perm_iff_count] at hperm ⊢
  intro other
  have hcount := hperm other
  simp only [List.count_append, List.count_cons, List.count_nil] at hcount
  simp only [bodies, append, Graph.modify, List.count_cons]
  omega

theorem bodies_eraseIdx_perm (h : graph.HasInstr source index instr) :
    (instr :: (graph.modify source fun block =>
      { block with body := block.body.eraseIdx index }).bodies).Perm graph.bodies := by
  obtain ⟨block, before, after, hblock, hbody, _, herase⟩ := h.split
  have hperm := flatMap_body_modify_perm hblock fun block =>
    { block with body := block.body.eraseIdx index }
  rw [List.perm_iff_count] at hperm ⊢
  intro other
  have hcount := hperm other
  simp only [hbody, herase, List.count_append, List.count_cons] at hcount
  simp only [bodies, Graph.modify, List.count_cons]
  omega

theorem bodies_move_perm (h : graph.HasInstr source index instr) {block : Block}
    (hblock : graph.block? destination = some block) :
    (graph.move source index destination instr).bodies.Perm graph.bodies := by
  have hdestination : ∃ twin, (graph.modify source fun block =>
      { block with body := block.body.eraseIdx index }).block? destination = some twin := by
    rw [block?_modify, hblock]
    exact ⟨_, rfl⟩
  obtain ⟨twin, htwin⟩ := hdestination
  exact (bodies_append_perm htwin).trans (bodies_eraseIdx_perm h)

theorem mem_bodies_iff : instr ∈ graph.bodies ↔ ∃ position, graph.Holds position instr := by
  simp only [bodies, List.mem_flatMap, Holds, block?, List.mem_iff_getElem? (l := graph.blocks)]
  constructor
  · rintro ⟨block, ⟨position, hblock⟩, hmem⟩
    exact ⟨position, block, hblock, hmem⟩
  · rintro ⟨position, block, hblock, hmem⟩
    exact ⟨block, ⟨position, hblock⟩, hmem⟩

theorem body_subset_bodies {position : Nat} {block : Block}
    (hblock : graph.block? position = some block) : block.body ⊆ graph.bodies :=
  fun _ hmem => mem_bodies_iff.mpr ⟨position, block, hblock, hmem⟩

theorem WellFormed.move (wf : graph.WellFormed) (h : graph.HasInstr source index instr)
    {block : Block} (hblock : graph.block? destination = some block) :
    (graph.move source index destination instr).WellFormed := by
  refine wf.of_shape (shape_move ..) ?_
  intro position twin htwin other hother
  have hmem : other ∈ (graph.move source index destination instr).bodies :=
    mem_bodies_iff.mpr ⟨position, twin, htwin, hother⟩
  rw [(bodies_move_perm h hblock).mem_iff, mem_bodies_iff] at hmem
  obtain ⟨origin, found, hfound, hinstr⟩ := hmem
  exact wf.body_plain hfound other hinstr

end Graph

end LoopHoist
