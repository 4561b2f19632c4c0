import LoopHoist.Proofs.Flow.Path

/-!
# Well-formed graphs and their shape

The shape of a graph is what is left when the bodies of its blocks are
emptied.  Edges, paths and dominance are matters of the shape, so editing bodies
does not touch them.  A graph is well formed if its blocks are numbered by
position, its labels are distinct, its edges follow the jumps and are listed at
both ends, no edge enters the first block, and only the end of a block jumps.
-/

namespace LoopHoist

/-! ## Shapes -/

def Block.shell (block : Block) : Block := { block with body := [] }

theorem Block.shell_eq_iff {block twin : Block} :
    twin.shell = block.shell ↔ twin.id = block.id ∧ twin.label = block.label ∧
      twin.prev = block.prev ∧ twin.succ = block.succ ∧ twin.phis = block.phis ∧
      twin.jump = block.jump := by
  simp [Block.shell]

namespace Graph

variable {graph other : Graph}

def shape (graph : Graph) : Graph := ⟨graph.blocks.map Block.shell⟩

theorem block?_shape (graph : Graph) (position : Nat) :
    graph.shape.block? position = (graph.block? position).map Block.shell := by
  simp [shape, block?]

theorem find?_shape (graph : Graph) (label : Label) :
    graph.shape.find? label = graph.find? label := by
  simp only [find?, shape, List.findIdx?_map]
  rfl

theorem shape_modify (graph : Graph) (position : Nat) {f : Block → Block}
    (h : ∀ block, (f block).shell = block.shell) :
    (graph.modify position f).shape = graph.shape := by
  simp only [shape, Graph.modify, Graph.mk.injEq]
  apply List.ext_getElem?
  intro index
  rw [List.getElem?_map, List.getElem?_map, List.getElem?_modify]
  cases graph.blocks[index]? with
  | none => rfl
  | some block =>
      by_cases heq : position = index
      · simp [heq, h]
      · simp [heq]

/-- Blocks at one position of two graphs of one shape differ at most in their
bodies. -/
theorem shell_eq_of_shape {position : Nat} {block : Block} (hshape : other.shape = graph.shape)
    (h : graph.block? position = some block) :
    ∃ twin, other.block? position = some twin ∧ twin.shell = block.shell := by
  have hmap := block?_shape other position
  rw [hshape, block?_shape, h] at hmap
  exact Option.map_eq_some_iff.mp hmap.symm

theorem block?_eq_none_of_shape {position : Nat} (hshape : other.shape = graph.shape)
    (h : graph.block? position = none) : other.block? position = none := by
  have hmap := block?_shape other position
  rw [hshape, block?_shape, h] at hmap
  exact Option.map_eq_none_iff.mp hmap.symm

theorem label?_eq_of_shape (hshape : other.shape = graph.shape) (position : Nat) :
    (other.block? position).map Block.label = (graph.block? position).map Block.label := by
  have hlabels := congrArg (fun twin => (twin.block? position).map Block.label) hshape
  simp only [block?_shape, Option.map_map] at hlabels
  exact hlabels

theorem find?_eq_of_shape (hshape : other.shape = graph.shape) (label : Label) :
    other.find? label = graph.find? label := by
  rw [← find?_shape, hshape, find?_shape]

theorem edge_shape {source destination : Nat} :
    graph.shape.Edge source destination ↔ graph.Edge source destination := by
  simp only [Edge, block?_shape, Option.map_eq_some_iff]
  constructor
  · rintro ⟨_, ⟨block, hblock, rfl⟩, hmem⟩
    exact ⟨block, hblock, hmem⟩
  · rintro ⟨block, hblock, hmem⟩
    exact ⟨block.shell, ⟨block, hblock, rfl⟩, hmem⟩

theorem edge_iff_of_shape (hshape : other.shape = graph.shape) {source destination : Nat} :
    other.Edge source destination ↔ graph.Edge source destination := by
  rw [← edge_shape, hshape, edge_shape]

theorem Path.of_shape (hshape : other.shape = graph.shape) {path : List Nat}
    (h : graph.Path path) : other.Path path := by
  induction h with
  | entry => exact .entry
  | step _ hedge ih => exact .step ih ((edge_iff_of_shape hshape).mpr hedge)

theorem dominates_iff_of_shape (hshape : other.shape = graph.shape) {a b : Nat} :
    other.Dominates a b ↔ graph.Dominates a b :=
  ⟨fun h earlier hpath => h earlier (hpath.of_shape hshape),
    fun h earlier hpath => h earlier (hpath.of_shape hshape.symm)⟩

theorem reachable_iff_of_shape (hshape : other.shape = graph.shape) {position : Nat} :
    other.Reachable position ↔ graph.Reachable position :=
  ⟨fun ⟨earlier, hpath⟩ => ⟨earlier, hpath.of_shape hshape.symm⟩,
    fun ⟨earlier, hpath⟩ => ⟨earlier, hpath.of_shape hshape⟩⟩

/-! ## Graphs whose blocks have ids of their own -/

def DistinctIds (graph : Graph) : Prop :=
  ∀ {a b : Nat} {first second : Block}, graph.block? a = some first →
    graph.block? b = some second → first.id = second.id → a = b

theorem DistinctIds.of_nodup (h : (graph.blocks.map Block.id).Nodup) : graph.DistinctIds := by
  intro a b first second hfirst hsecond heq
  have hlt : a < (graph.blocks.map Block.id).length := by
    simpa using (List.getElem?_eq_some_iff.mp hfirst).1
  refine (List.getElem?_inj hlt h).mp ?_
  rw [List.getElem?_map, List.getElem?_map, ← block?, ← block?, hfirst, hsecond, Option.map_some,
    Option.map_some, heq]

theorem DistinctIds.of_shape (hids : graph.DistinctIds) (hshape : other.shape = graph.shape) :
    other.DistinctIds := by
  intro a b first second hfirst hsecond heq
  obtain ⟨twin, htwin, hshell⟩ := shell_eq_of_shape hshape.symm hfirst
  obtain ⟨mate, hmate, hshell'⟩ := shell_eq_of_shape hshape.symm hsecond
  refine hids htwin hmate ?_
  rw [(Block.shell_eq_iff.mp hshell).1, (Block.shell_eq_iff.mp hshell').1, heq]

theorem id?_of_block? {position : Nat} {block : Block} (h : graph.block? position = some block) :
    graph.id? position = some block.id := by
  rw [id?, h, Option.map_some]

theorem DistinctIds.eq_of_id? (hids : graph.DistinctIds) {a b : Nat} {block : Block}
    (ha : graph.id? a = some block.id) (hb : graph.block? b = some block) : a = b := by
  obtain ⟨twin, htwin, hid⟩ := Option.map_eq_some_iff.mp ha
  exact hids htwin hb hid

theorem DistinctIds.id_eq_iff (hids : graph.DistinctIds) {a b : Nat} {first second : Block}
    (hfirst : graph.block? a = some first) (hsecond : graph.block? b = some second) :
    first.id = second.id ↔ a = b := by
  refine ⟨hids hfirst hsecond, ?_⟩
  rintro rfl
  rw [Option.some.inj (hfirst.symm.trans hsecond)]

theorem DistinctIds.id?_eq_iff (hids : graph.DistinctIds) {a b : Nat} {first second : Block}
    (hfirst : graph.block? a = some first) (hsecond : graph.block? b = some second) :
    graph.id? a = graph.id? b ↔ a = b := by
  rw [id?_of_block? hfirst, id?_of_block? hsecond, Option.some.injEq, hids.id_eq_iff hfirst hsecond]

/-! ## Consistent graphs -/

/-- Ids tell the blocks apart, and edges lead to blocks and are listed at both ends. -/
structure Consistent (graph : Graph) : Prop where
  distinctIds : graph.DistinctIds
  block_of_edge : ∀ {source destination : Nat}, graph.Edge source destination →
    ∃ block, graph.block? destination = some block
  mem_prev : ∀ {source destination : Nat} {block : Block},
    graph.block? destination = some block →
      (source ∈ block.prev ↔ graph.Edge source destination)

/-! ## Well-formed graphs -/

structure WellFormed (graph : Graph) : Prop where
  nonempty : graph.blocks ≠ []
  id_eq : ∀ {position : Nat} {block : Block}, graph.block? position = some block →
    block.id = position
  find?_label : ∀ {position : Nat} {block : Block}, graph.block? position = some block →
    graph.find? block.label = some position
  jump_targets : ∀ {position : Nat} {block : Block}, graph.block? position = some block →
    ∃ jump, block.jump = some jump ∧ jump.isTerminator = true ∧
      jump.targets.map graph.find? = block.succ.map some
  mem_prev : ∀ {source destination : Nat} {block : Block},
    graph.block? destination = some block →
      (source ∈ block.prev ↔ graph.Edge source destination)
  not_edge_entry : ∀ {source : Nat}, ¬graph.Edge source 0
  body_plain : ∀ {position : Nat} {block : Block}, graph.block? position = some block →
    ∀ instr ∈ block.body, instr.isTerminator = false ∧ instr.isPhi = false

namespace WellFormed

theorem entry_block (wf : graph.WellFormed) : ∃ block, graph.block? 0 = some block := by
  have hpos : 0 < graph.blocks.length := List.length_pos_of_ne_nil wf.nonempty
  exact ⟨graph.blocks[0], List.getElem?_eq_getElem hpos⟩

theorem id?_eq (wf : graph.WellFormed) {position : Nat} {block : Block}
    (h : graph.block? position = some block) : graph.id? position = some (position : Int) := by
  rw [id?_of_block? h, wf.id_eq h]

theorem eq_of_id? (wf : graph.WellFormed) {position other : Nat}
    (h : graph.id? other = some (position : Int)) : other = position := by
  obtain ⟨block, hblock, hid⟩ := Option.map_eq_some_iff.mp h
  rw [wf.id_eq hblock] at hid
  exact Int.ofNat.inj hid

theorem distinctIds (wf : graph.WellFormed) : graph.DistinctIds := by
  intro a b first second hfirst hsecond heq
  rw [wf.id_eq hfirst, wf.id_eq hsecond] at heq
  exact Int.ofNat.inj heq

theorem edge_of_target (wf : graph.WellFormed) {position next : Nat} {block : Block} {jump : Instr}
    {label : Label} (hblock : graph.block? position = some block) (hjump : block.jump = some jump)
    (hlabel : label ∈ jump.targets) (hfind : graph.find? label = some next) :
    graph.Edge position next := by
  obtain ⟨found, hfound, _, htargets⟩ := wf.jump_targets hblock
  cases hjump.symm.trans hfound
  have hmem : some next ∈ jump.targets.map graph.find? := hfind ▸ List.mem_map_of_mem hlabel
  rw [htargets] at hmem
  exact ⟨block, hblock, by simpa using hmem⟩

theorem block_of_edge (wf : graph.WellFormed) {source destination : Nat}
    (h : graph.Edge source destination) : ∃ block, graph.block? destination = some block := by
  obtain ⟨block, hblock, hmem⟩ := h
  obtain ⟨jump, _, _, htargets⟩ := wf.jump_targets hblock
  have hsome : some destination ∈ jump.targets.map graph.find? := by
    rw [htargets]
    exact List.mem_map_of_mem hmem
  obtain ⟨label, _, hfind⟩ := List.mem_map.mp hsome
  obtain ⟨hlt, _⟩ := List.findIdx?_eq_some_iff_getElem.mp hfind
  exact ⟨graph.blocks[destination], List.getElem?_eq_getElem hlt⟩

theorem consistent (wf : graph.WellFormed) : graph.Consistent :=
  ⟨wf.distinctIds, wf.block_of_edge, wf.mem_prev⟩

theorem block_of_path (wf : graph.WellFormed) {position : Nat} {earlier : List Nat}
    (h : graph.Path (position :: earlier)) : ∃ block, graph.block? position = some block := by
  cases h with
  | entry => exact wf.entry_block
  | step _ hedge => exact wf.block_of_edge hedge

theorem block_of_reachable (wf : graph.WellFormed) {position : Nat}
    (h : graph.Reachable position) : ∃ block, graph.block? position = some block := by
  obtain ⟨earlier, hpath⟩ := h
  exact wf.block_of_path hpath

/-- Well-formedness only asks of a body that nothing in it jumps or selects. -/
theorem of_shape (wf : graph.WellFormed) (hshape : other.shape = graph.shape)
    (hbody : ∀ {position : Nat} {block : Block}, other.block? position = some block →
      ∀ instr ∈ block.body, instr.isTerminator = false ∧ instr.isPhi = false) :
    other.WellFormed where
  nonempty := by
    intro hnil
    have hlength := congrArg (fun graph => graph.blocks.length) hshape
    simp only [shape, List.length_map, hnil, List.length_nil] at hlength
    exact wf.nonempty (List.length_eq_zero_iff.mp hlength.symm)
  id_eq := by
    intro position block h
    obtain ⟨twin, htwin, hshell⟩ := shell_eq_of_shape hshape.symm h
    rw [← (Block.shell_eq_iff.mp hshell).1, wf.id_eq htwin]
  find?_label := by
    intro position block h
    obtain ⟨twin, htwin, hshell⟩ := shell_eq_of_shape hshape.symm h
    obtain ⟨_, hlabel, _⟩ := Block.shell_eq_iff.mp hshell
    rw [find?_eq_of_shape hshape, ← hlabel, wf.find?_label htwin]
  jump_targets := by
    intro position block h
    obtain ⟨twin, htwin, hshell⟩ := shell_eq_of_shape hshape.symm h
    obtain ⟨_, _, _, hsucc, _, hjump⟩ := Block.shell_eq_iff.mp hshell
    have hfind : other.find? = graph.find? := funext (find?_eq_of_shape hshape)
    rw [← hjump, ← hsucc, hfind]
    exact wf.jump_targets htwin
  mem_prev := by
    intro source destination block h
    obtain ⟨twin, htwin, hshell⟩ := shell_eq_of_shape hshape.symm h
    obtain ⟨_, _, hprev, _⟩ := Block.shell_eq_iff.mp hshell
    rw [← hprev, wf.mem_prev htwin, edge_iff_of_shape hshape]
  not_edge_entry := fun hedge => wf.not_edge_entry ((edge_iff_of_shape hshape).mp hedge)
  body_plain := hbody

end WellFormed

end Graph

end LoopHoist
