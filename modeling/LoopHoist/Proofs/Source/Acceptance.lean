import LoopHoist.Proofs.Source.Meaning
import LoopHoist.Proofs.Source.WellFormed

/-!
# Which texts are programs

A text that matches the grammar is a program exactly if its literals fit, its
instructions are well typed and stand in order, labels are used once, and jumps
go to blocks other than the first.  What it is read as holds the blocks and
instructions of the text in order, linked along the targets of the jumps.
-/

namespace LoopHoist

/-! ## Linked graphs -/

namespace Graph

/-- All edges, in the layout order of their sources. -/
def edges (graph : Graph) : List (Nat × Nat) :=
  graph.blocks.zipIdx.flatMap fun entry =>
    entry.1.succ.map fun destination => (entry.2, destination)

theorem edges_eq_of_succ {graph other : Graph}
    (h : other.blocks.map Block.succ = graph.blocks.map Block.succ) : other.edges = graph.edges := by
  have hmap : ∀ graph : Graph, graph.edges = (graph.blocks.map Block.succ).zipIdx.flatMap
      fun entry => entry.1.map fun destination => (entry.2, destination) := by
    intro graph
    rw [edges, List.zipIdx_map, List.flatMap_map]
    rfl
  rw [hmap, hmap, h]

/-- Blocks are numbered by position.  Successors are the blocks that the jump names,
predecessors are the sources of the edges that come in, and none come in at the
entry. -/
structure IsLinked (graph : Graph) : Prop where
  id_eq : ∀ {position : Nat} {block : Block}, graph.block? position = some block →
    block.id = position
  succ : ∀ {position : Nat} {block : Block}, graph.block? position = some block →
    List.Forall₂ (fun label destination =>
        ∃ target, graph.block? destination = some target ∧ target.label = label)
      (block.jump.toList.flatMap Instr.targets) block.succ
  prev_eq : ∀ {position : Nat} {block : Block}, graph.block? position = some block →
    block.prev = (graph.edges.filter fun edge => edge.2 = position).map Prod.fst
  entry_prev : ∀ {block : Block}, graph.block? 0 = some block → block.prev = []

theorem blocks_linkAll (graph : Graph) (edges : List (Nat × Nat)) :
    (graph.linkAll edges).blocks = graph.blocks.mapIdx (linkedBlock edges) := by
  apply List.ext_getElem?
  intro position
  rw [List.getElem?_mapIdx]
  exact block?_linkAll graph edges position

namespace AreLinks

variable {blocks : List Block} {lists : List (List (Nat × Nat))}

/-- The edges of the linked graph are those along which it was linked. -/
theorem edges_linkAll (h : AreLinks blocks lists) :
    ((⟨blocks⟩ : Graph).linkAll lists.flatten).edges = lists.flatten := by
  have hlists : ((⟨blocks⟩ : Graph).linkAll lists.flatten).blocks.zipIdx.map (fun entry =>
      entry.1.succ.map fun destination => (entry.2, destination)) = lists := by
    apply List.ext_getElem?
    intro position
    have hblock := block?_linkAll ⟨blocks⟩ lists.flatten position
    rw [block?, block?] at hblock
    rw [List.getElem?_map, List.getElem?_zipIdx, hblock]
    cases hdraft : blocks[position]? with
    | none =>
        have hlength : lists.length ≤ position :=
          h.length_eq ▸ List.getElem?_eq_none_iff.mp hdraft
        simp [List.getElem?_eq_none hlength]
    | some draft =>
        obtain ⟨list, hlist, hedges, hsucc⟩ := h.succ_eq hdraft
        have hpairs : (list.map Prod.snd).map (fun destination => (position, destination)) =
            list := by
          rw [List.map_map]
          conv_rhs => rw [← List.map_id list]
          apply List.map_congr_left
          intro edge hedge
          exact Prod.ext (hedges.source_eq edge hedge).symm rfl
        simp [hlist, hsucc, hpairs]
  rw [Graph.edges, List.flatMap_def, hlists]

theorem isLinked (h : AreLinks blocks lists) :
    ((⟨blocks⟩ : Graph).linkAll lists.flatten).IsLinked where
  id_eq := h.id_eq
  succ := by
    intro position block hblock
    obtain ⟨draft, hdraft, rfl⟩ := block?_linkAll_iff.mp hblock
    obtain ⟨list, _, hedges, hsucc⟩ := h.succ_eq hdraft
    have htargets : List.Forall₂ (· = ·)
        ((draft.jump.toList.flatMap Instr.targets).map (⟨blocks⟩ : Graph).find?)
        ((list.map Prod.snd).map some) := by
      rw [hedges.targets]
      exact List.forall₂_refl _
    rw [List.forall₂_map_left_iff, List.forall₂_map_right_iff] at htargets
    rw [hsucc]
    refine htargets.imp fun label destination hfind => ?_
    obtain ⟨hlt, hlabel, _⟩ := List.findIdx?_eq_some_iff_getElem.mp hfind
    exact ⟨_, block?_linkAll_iff.mpr ⟨blocks[destination], List.getElem?_eq_getElem hlt, rfl⟩,
      of_decide_eq_true hlabel⟩
  prev_eq := by
    intro position block hblock
    obtain ⟨draft, hdraft, rfl⟩ := block?_linkAll_iff.mp hblock
    simp [h.edges_linkAll, linkedBlock, (h.drafts.draft hdraft).1.prev_eq]
  entry_prev := by
    intro block hblock
    obtain ⟨draft, hdraft, rfl⟩ := block?_linkAll_iff.mp hblock
    have hnone : lists.flatten.filter (fun edge => edge.2 = 0) = [] := by
      rw [List.filter_eq_nil_iff]
      intro edge hedge
      obtain ⟨_, _, _, hedges, hmem⟩ := h.exists_list_of_mem hedge
      simpa using hedges.destination_ne edge hmem
    simp [linkedBlock, (h.drafts.draft hdraft).1.prev_eq, hnone]

end AreLinks

/-- A label that names a block other than the first is found behind the first. -/
theorem exists_find?_ne_zero_iff {blocks : List Block} (h : (blocks.map Block.label).Nodup)
    {label : Label} :
    (∃ destination, (⟨blocks⟩ : Graph).find? label = some destination ∧ destination ≠ 0) ↔
      label ∈ (blocks.map Block.label).tail := by
  cases blocks with
  | nil => simp [find?]
  | cons first rest =>
      rw [List.map_cons, List.nodup_cons] at h
      by_cases hfirst : first.label = label
      · subst hfirst
        simp [find?, List.findIdx?_cons, h.1]
      · have hrest : (rest.findIdx? fun block => block.label = label).isSome ↔
            label ∈ rest.map Block.label := by
          simp [List.findIdx?_isSome]
        rw [Option.isSome_iff_exists] at hrest
        simp [find?, List.findIdx?_cons, hfirst, ← hrest]

end Graph

/-! ## Accepted functions -/

namespace Source

/-- A block holds what a tree says, in order. -/
structure Block.Describes (tree : Block) (block : LoopHoist.Block) : Prop where
  label_eq : block.label = tree.label
  instrs : ∃ jump, block.jump = some jump ∧
    InOrder (tree.instrs.map Instr.meaning) block.phis block.body jump

theorem Block.resolve_describes {tree : Block} {id : Nat} {block : LoopHoist.Block}
    (h : tree.resolve id = .ok block) : tree.Accepted ∧ tree.Describes block := by
  obtain ⟨hinstrs, phis, body, jump, horder, rfl⟩ := resolve_eq_ok_iff.mp h
  exact ⟨⟨hinstrs, phis, body, jump, horder⟩, rfl, jump, rfl, horder⟩

theorem resolveBlocks_describes {name : String} {done blocks : List LoopHoist.Block}
    {trees : List Block} (h : resolveBlocks name done trees = .ok blocks) :
    ∃ news, blocks = done ++ news ∧ (∀ tree ∈ trees, tree.Accepted) ∧
      List.Forall₂ Block.Describes trees news := by
  induction trees generalizing done with
  | nil =>
      cases h
      exact ⟨[], by simp, by simp, .nil⟩
  | cons tree trees ih =>
      rw [resolveBlocks, bind_eq_ok_iff] at h
      obtain ⟨next, hnext, hrest⟩ := h
      split at hrest
      · cases hrest
      · obtain ⟨news, rfl, haccepted, hnews⟩ := ih hrest
        obtain ⟨hfirst, hdescribes⟩ := Block.resolve_describes hnext
        exact ⟨next :: news, by simp, List.forall_mem_cons.mpr ⟨hfirst, haccepted⟩,
          .cons hdescribes hnews⟩

theorem exists_resolveBlocks (name : String) (done : List LoopHoist.Block) {trees : List Block}
    (haccepted : ∀ tree ∈ trees, tree.Accepted)
    (hlabels : (done.map LoopHoist.Block.label ++ trees.map Block.label).Nodup) :
    ∃ blocks, resolveBlocks name done trees = .ok blocks := by
  induction trees generalizing done with
  | nil => exact ⟨done, rfl⟩
  | cons tree trees ih =>
      rw [List.forall_mem_cons] at haccepted
      obtain ⟨next, hnext⟩ := (Block.exists_resolve_iff done.length).mpr haccepted.1
      have hlabel := (Block.resolve_describes hnext).2.label_eq
      have hnodup : ((done ++ [next]).map LoopHoist.Block.label ++ trees.map Block.label).Nodup := by
        simpa [hlabel] using hlabels
      obtain ⟨blocks, hblocks⟩ := ih (done ++ [next]) haccepted.2 hnodup
      have hfresh : (done.any fun earlier => earlier.label = next.label) = false := by
        rw [List.map_append, List.append_assoc] at hnodup
        have hdisjoint := (List.nodup_append.mp hnodup).2.2
        simp only [List.any_eq_false, decide_eq_true_eq]
        intro earlier hearlier
        exact hdisjoint _ (List.mem_map_of_mem hearlier) _ (by simp)
      refine ⟨blocks, bind_eq_ok_iff.mpr ⟨next, hnext, ?_⟩⟩
      simp only [hfresh]
      exact hblocks

theorem exists_resolveEdges_iff {name : String} {graph : Graph} :
    (∃ edges, resolveEdges name graph = .ok edges) ↔
      ∀ block ∈ graph.blocks, ∀ label ∈ block.jump.toList.flatMap LoopHoist.Instr.targets,
        ∃ destination, graph.find? label = some destination ∧ destination ≠ 0 := by
  have hlists : (∃ edges, resolveEdges name graph = .ok edges) ↔
      ∃ lists, (graph.blocks.zipIdx.mapM fun entry =>
        (entry.1.jump.toList.flatMap LoopHoist.Instr.targets).mapM
          (resolveTarget name graph entry.2)) = .ok lists := by
    simp only [resolveEdges, bind_eq_ok_iff, pure_eq_ok_iff]
    constructor
    · rintro ⟨_, lists, hlists, _⟩
      exact ⟨lists, hlists⟩
    · rintro ⟨lists, hlists⟩
      exact ⟨_, lists, hlists, rfl⟩
  have htarget : ∀ {source : Nat} {label : Label},
      (∃ edge, resolveTarget name graph source label = .ok edge) ↔
        ∃ destination, graph.find? label = some destination ∧ destination ≠ 0 := by
    intro source label
    simp [resolveTarget_eq_ok_iff]
  rw [hlists, exists_mapM_eq_ok_iff]
  simp only [exists_mapM_eq_ok_iff, htarget]
  constructor
  · intro h block hblock
    obtain ⟨position, hposition⟩ := List.getElem?_of_mem hblock
    exact h (block, position) (List.mem_zipIdx_iff_getElem?.mpr hposition)
  · rintro h ⟨block, position⟩ hmem
    exact h block (List.mem_of_getElem? (List.mem_zipIdx_iff_getElem?.mp hmem))

theorem Block.Describes.instrs_eq {tree : Block} {block : LoopHoist.Block}
    (h : tree.Describes block) : block.instrs = tree.instrs.map Instr.meaning := by
  obtain ⟨jump, hjump, horder⟩ := h.instrs
  rw [horder.instrs_eq, LoopHoist.Block.instrs, hjump, Option.toList_some]

theorem targets_eq_nil {instr : LoopHoist.Instr} (h : instr.isTerminator = false) :
    instr.targets = [] := by
  cases instr <;> simp_all [LoopHoist.Instr.isTerminator, LoopHoist.Instr.targets]

/-- Only the jump of a block has targets. -/
theorem Block.Describes.targets_eq {tree : Block} {block : LoopHoist.Block}
    (h : tree.Describes block) :
    block.jump.toList.flatMap LoopHoist.Instr.targets =
      (tree.instrs.map Instr.meaning).flatMap LoopHoist.Instr.targets := by
  obtain ⟨jump, hjump, horder⟩ := h.instrs
  have hbody : block.body.flatMap LoopHoist.Instr.targets = [] :=
    List.flatMap_eq_nil_iff.mpr fun instr hinstr => targets_eq_nil (horder.plain instr hinstr).1
  have hphis : (block.phis.map LoopHoist.Instr.phi).flatMap LoopHoist.Instr.targets = [] := by
    simp [List.flatMap_map, LoopHoist.Instr.targets]
  simp [hjump, horder.instrs_eq, hbody, hphis]

theorem labels_eq_of_describes {trees : List Block} {blocks : List LoopHoist.Block}
    (h : List.Forall₂ Block.Describes trees blocks) :
    blocks.map LoopHoist.Block.label = trees.map Block.label := by
  induction h with
  | nil => rfl
  | cons hfirst _ ih => rw [List.map_cons, List.map_cons, hfirst.label_eq, ih]

theorem describes_linkAll {trees : List Block} {graph : Graph}
    (h : List.Forall₂ Block.Describes trees graph.blocks) (edges : List (Nat × Nat)) :
    List.Forall₂ Block.Describes trees (graph.linkAll edges).blocks := by
  rw [Graph.blocks_linkAll]
  rw [List.forall₂_iff_get] at h ⊢
  refine ⟨by simpa using h.1, fun index htree hblock => ?_⟩
  -- an edge changes neither the label nor an instruction
  have hdraft := h.2 index htree (by simpa using hblock)
  simp only [List.get_eq_getElem, List.getElem_mapIdx]
  exact ⟨hdraft.label_eq, hdraft.instrs⟩

theorem targets_eq_of_describes {trees : List Block} {blocks : List LoopHoist.Block}
    (h : List.Forall₂ Block.Describes trees blocks) :
    blocks.flatMap (fun block => block.jump.toList.flatMap LoopHoist.Instr.targets) =
      trees.flatMap fun tree => (tree.instrs.map Instr.meaning).flatMap LoopHoist.Instr.targets := by
  induction h with
  | nil => rfl
  | cons hfirst _ ih => rw [List.flatMap_cons, List.flatMap_cons, hfirst.targets_eq, ih]

/-- Where blocks are what trees say, jumps can be linked exactly if all their targets
name blocks other than the first. -/
theorem exists_resolveEdges_of_describes (name : String) {trees : List Block} {graph : Graph}
    (h : List.Forall₂ Block.Describes trees graph.blocks)
    (hlabels : (trees.map Block.label).Nodup) :
    (∃ edges, resolveEdges name graph = .ok edges) ↔
      ∀ tree ∈ trees, ∀ instr ∈ tree.instrs, ∀ label ∈ instr.meaning.targets,
        label ∈ (trees.map Block.label).tail := by
  have hsame := labels_eq_of_describes h
  have hfind : ∀ {label : Label},
      (∃ destination, graph.find? label = some destination ∧ destination ≠ 0) ↔
        label ∈ (trees.map Block.label).tail := by
    intro label
    rw [← hsame]
    exact Graph.exists_find?_ne_zero_iff (hsame ▸ hlabels)
  simp only [exists_resolveEdges_iff, hfind]
  rw [← List.forall_mem_flatMap, targets_eq_of_describes h]
  simp only [List.forall_mem_flatMap, List.forall_mem_map]

namespace Func

/-- The blocks are accepted, no label is used twice, and jumps go to blocks other
than the first. -/
structure Accepted (tree : Func) : Prop where
  blocks : ∀ block ∈ tree.blocks, block.Accepted
  labels : (tree.blocks.map Block.label).Nodup
  targets : ∀ block ∈ tree.blocks, ∀ instr ∈ block.instrs, ∀ label ∈ instr.meaning.targets,
    label ∈ (tree.blocks.map Block.label).tail

structure Describes (tree : Func) (func : LoopHoist.Func) : Prop where
  name_eq : func.name = tree.name
  returnTy_eq : func.returnTy = tree.returnTy
  params_eq : func.params = tree.params.map fun param => .named (.register param.2 param.1)
  blocks : List.Forall₂ Block.Describes tree.blocks func.graph.blocks
  linked : func.graph.IsLinked

variable {tree : Func}

theorem resolve_describes {func : LoopHoist.Func} (h : tree.resolve = .ok func) :
    tree.Accepted ∧ tree.Describes func := by
  rw [resolve, bind_eq_ok_iff] at h
  obtain ⟨blocks, hblocks, h⟩ := h
  obtain ⟨edges, hedges, h⟩ := bind_eq_ok_iff.mp h
  cases h
  obtain ⟨_, rfl, haccepted, hdescribes⟩ := resolveBlocks_describes hblocks
  obtain ⟨hdrafts, _⟩ := areDrafts_of_resolveBlocks ⟨by simp, by simp⟩ hblocks
  obtain ⟨lists, rfl, hlength, hlists⟩ := isEdgeList_of_resolveEdges hedges
  have hlabels : (tree.blocks.map Block.label).Nodup :=
    labels_eq_of_describes hdescribes ▸ hdrafts.labels
  have htargets := (exists_resolveEdges_of_describes tree.name hdescribes hlabels).mp ⟨_, hedges⟩
  exact ⟨⟨haccepted, hlabels, htargets⟩, rfl, rfl, rfl, describes_linkAll hdescribes _,
    Graph.AreLinks.isLinked ⟨hdrafts, hlength, hlists⟩⟩

theorem exists_resolve_iff : (∃ func, tree.resolve = .ok func) ↔ tree.Accepted := by
  constructor
  · rintro ⟨func, hfunc⟩
    exact (resolve_describes hfunc).1
  · intro h
    obtain ⟨blocks, hblocks⟩ := exists_resolveBlocks tree.name [] h.blocks (by simpa using h.labels)
    obtain ⟨_, rfl, _, hdescribes⟩ := resolveBlocks_describes hblocks
    obtain ⟨edges, hedges⟩ :=
      (exists_resolveEdges_of_describes tree.name hdescribes h.labels).mpr h.targets
    exact ⟨_, bind_eq_ok_iff.mpr ⟨_, hblocks, bind_eq_ok_iff.mpr ⟨_, hedges, rfl⟩⟩⟩

end Func

/-! ## What a description leaves open -/

theorem map_phi_append_inj {phis phis' : List Phi} {body body' : List LoopHoist.Instr}
    (hbody : ∀ instr ∈ body, instr.isPhi = false) (hbody' : ∀ instr ∈ body', instr.isPhi = false)
    (h : phis.map LoopHoist.Instr.phi ++ body = phis'.map LoopHoist.Instr.phi ++ body') :
    phis = phis' ∧ body = body' := by
  induction phis generalizing phis' with
  | nil =>
      cases phis' with
      | nil => exact ⟨rfl, h⟩
      | cons phi phis' =>
          have hphi := hbody (.phi phi) (by simp [show body = _ from h])
          cases hphi
  | cons phi phis ih =>
      cases phis' with
      | nil =>
          have hphi := hbody' (.phi phi) (by simp [show body' = _ from h.symm])
          cases hphi
      | cons phi' phis' =>
          simp only [List.map_cons, List.cons_append, List.cons.injEq,
            LoopHoist.Instr.phi.injEq] at h
          obtain ⟨rfl, rfl⟩ := ih h.2
          exact ⟨by rw [h.1], rfl⟩

theorem InOrder.unique {instrs : List LoopHoist.Instr} {phis phis' : List Phi}
    {body body' : List LoopHoist.Instr} {jump jump' : LoopHoist.Instr}
    (h : InOrder instrs phis body jump) (h' : InOrder instrs phis' body' jump') :
    phis = phis' ∧ body = body' ∧ jump = jump' := by
  have hsame := h.instrs_eq.symm.trans h'.instrs_eq
  obtain ⟨hfront, hlast⟩ := List.append_inj' hsame rfl
  obtain ⟨rfl, rfl⟩ := map_phi_append_inj (fun instr hinstr => (h.plain instr hinstr).2)
    (fun instr hinstr => (h'.plain instr hinstr).2) hfront
  exact ⟨rfl, rfl, List.singleton_inj.mp hlast⟩

namespace Func.Describes

variable {tree : Func} {func other : LoopHoist.Func}

theorem labels_eq (h : tree.Describes func) :
    func.graph.blocks.map LoopHoist.Block.label = tree.blocks.map Block.label :=
  labels_eq_of_describes h.blocks

theorem block (h : tree.Describes func) {position : Nat} {block : LoopHoist.Block}
    (hblock : func.graph.block? position = some block) :
    ∃ source, tree.blocks[position]? = some source ∧ source.Describes block := by
  obtain ⟨hlength, hget⟩ := List.forall₂_iff_get.mp h.blocks
  obtain ⟨hlt, rfl⟩ := List.getElem?_eq_some_iff.mp hblock
  exact ⟨_, List.getElem?_eq_getElem (hlength ▸ hlt), hget position (hlength ▸ hlt) hlt⟩

/-- Two functions that a tree describes have the same blocks up to their edges. -/
theorem block_eq (h : tree.Describes func) (hother : tree.Describes other) {position : Nat}
    {block twin : LoopHoist.Block} (hblock : func.graph.block? position = some block)
    (htwin : other.graph.block? position = some twin) :
    block = { twin with prev := block.prev, succ := block.succ } := by
  obtain ⟨source, hsource, hdescribes⟩ := h.block hblock
  obtain ⟨source', hsource', hdescribes'⟩ := hother.block htwin
  cases hsource.symm.trans hsource'
  obtain ⟨jump, hjump, horder⟩ := hdescribes.instrs
  obtain ⟨jump', hjump', horder'⟩ := hdescribes'.instrs
  obtain ⟨hphis, hbody, rfl⟩ := horder.unique horder'
  have hid := (h.linked.id_eq hblock).trans (hother.linked.id_eq htwin).symm
  have hlabel := hdescribes.label_eq.trans hdescribes'.label_eq.symm
  cases block
  cases twin
  simp_all

/-- A label stands at one position, whichever of the functions one looks at. -/
theorem position_eq (hlabels : (tree.blocks.map Block.label).Nodup) (h : tree.Describes func)
    (hother : tree.Describes other) {first second : Nat} {block twin : LoopHoist.Block}
    (hblock : func.graph.block? first = some block) (htwin : other.graph.block? second = some twin)
    (hlabel : block.label = twin.label) : first = second := by
  have hfind := Graph.find?_label_of_nodup (h.labels_eq ▸ hlabels) hblock
  have hfind' := Graph.find?_label_of_nodup (hother.labels_eq ▸ hlabels) htwin
  have hsame := Graph.find?_eq_of_labels (h.labels_eq.trans hother.labels_eq.symm) block.label
  rw [hlabel] at hfind hsame
  exact Option.some.inj (hfind.symm.trans (hsame.trans hfind'))

theorem succ_eq (hlabels : (tree.blocks.map Block.label).Nodup) (h : tree.Describes func)
    (hother : tree.Describes other) {position : Nat} {block twin : LoopHoist.Block}
    (hblock : func.graph.block? position = some block)
    (htwin : other.graph.block? position = some twin) : block.succ = twin.succ := by
  have hnamed := h.linked.succ hblock
  have hnamed' := hother.linked.succ htwin
  rw [show block.jump = twin.jump by rw [block_eq h hother hblock htwin]] at hnamed
  revert hnamed hnamed'
  generalize twin.jump.toList.flatMap LoopHoist.Instr.targets = labels
  generalize block.succ = first
  generalize twin.succ = second
  intro hnamed hnamed'
  induction hnamed generalizing second with
  | nil =>
      cases hnamed'
      rfl
  | cons hfirst _ ih =>
      cases hnamed' with
      | cons hsecond hrest =>
          obtain ⟨target, htarget, hlabel⟩ := hfirst
          obtain ⟨target', htarget', hlabel'⟩ := hsecond
          rw [position_eq hlabels h hother htarget htarget' (hlabel.trans hlabel'.symm),
            ih _ hrest]

/-- A tree whose labels are distinct describes one function. -/
theorem unique (hlabels : (tree.blocks.map Block.label).Nodup) (h : tree.Describes func)
    (hother : tree.Describes other) : func = other := by
  have hlength : func.graph.blocks.length = other.graph.blocks.length :=
    h.blocks.length_eq.symm.trans hother.blocks.length_eq
  have hsucc : func.graph.blocks.map LoopHoist.Block.succ =
      other.graph.blocks.map LoopHoist.Block.succ := by
    apply List.ext_getElem (by simp [hlength])
    intro position hlt hlt'
    rw [List.length_map] at hlt hlt'
    simp only [List.getElem_map]
    exact succ_eq hlabels h hother (List.getElem?_eq_getElem hlt) (List.getElem?_eq_getElem hlt')
  have hedges := Graph.edges_eq_of_succ hsucc
  have hblocks : func.graph.blocks = other.graph.blocks := by
    apply List.ext_getElem hlength
    intro position hlt hlt'
    have hblock : func.graph.block? position = some func.graph.blocks[position] :=
      List.getElem?_eq_getElem hlt
    have htwin : other.graph.block? position = some other.graph.blocks[position] :=
      List.getElem?_eq_getElem hlt'
    rw [block_eq h hother hblock htwin, h.linked.prev_eq hblock, hedges,
      ← hother.linked.prev_eq htwin, succ_eq hlabels h hother hblock htwin]
  obtain ⟨name, returnTy, params, ⟨blocks⟩⟩ := func
  obtain ⟨name', returnTy', params', ⟨blocks'⟩⟩ := other
  cases h.name_eq.trans hother.name_eq.symm
  cases h.returnTy_eq.trans hother.returnTy_eq.symm
  cases h.params_eq.trans hother.params_eq.symm
  cases hblocks
  rfl

end Func.Describes

/-! ## Programs -/

namespace Program

def Accepted (tree : Program) : Prop := ∀ func ∈ tree.funcs, func.Accepted

def Describes (tree : Program) (program : LoopHoist.Program) : Prop :=
  List.Forall₂ Func.Describes tree.funcs program.funcs

theorem exists_resolve_iff {tree : Program} :
    (∃ program, tree.resolve = .ok program) ↔ tree.Accepted := by
  simp only [resolve, bind_eq_ok_iff, pure_eq_ok_iff, Accepted, ← Func.exists_resolve_iff,
    ← exists_mapM_eq_ok_iff]
  constructor
  · rintro ⟨_, funcs, hfuncs, _⟩
    exact ⟨funcs, hfuncs⟩
  · rintro ⟨funcs, hfuncs⟩
    exact ⟨_, funcs, hfuncs, rfl⟩

theorem resolve_describes {tree : Program} {program : LoopHoist.Program}
    (h : tree.resolve = .ok program) : tree.Describes program := by
  rw [resolve, bind_eq_ok_iff] at h
  obtain ⟨funcs, hfuncs, h⟩ := h
  cases h
  rw [mapM_eq_ok_iff] at hfuncs
  exact hfuncs.imp fun _ _ hfunc => (Func.resolve_describes hfunc).2

end Program

end Source

namespace Program

theorem exists_tree_of_parse {text : String} {program : Program}
    (h : Program.parse text = .ok program) : ∃ tree, Source.Program.read? text = some tree ∧
      tree.resolve = .ok program := by
  unfold parse at h
  split at h
  · cases h
  · rename_i tree htree
    exact ⟨tree, htree, h⟩

/-- Every instruction of a program was accepted where it was read. -/
theorem exists_meaning_of_parse {text : String} {program : Program}
    (h : Program.parse text = .ok program) {func : Func} (hfunc : func ∈ program.funcs)
    {instr : Instr} (hinstr : instr ∈ func.graph.blocks.flatMap Block.instrs) :
    ∃ tree : Source.Instr, tree.Accepted ∧ tree.meaning = instr := by
  obtain ⟨tree, _, hresolve⟩ := exists_tree_of_parse h
  have haccepted := Source.Program.exists_resolve_iff.mp ⟨program, hresolve⟩
  obtain ⟨source, hsource, hdescribes⟩ :=
    exists_mem_of_forall₂ (Source.Program.resolve_describes hresolve) hfunc
  obtain ⟨block, hblock, hinstr⟩ := List.mem_flatMap.mp hinstr
  obtain ⟨draft, hdraft, hblocks⟩ := exists_mem_of_forall₂ hdescribes.blocks hblock
  rw [hblocks.instrs_eq, List.mem_map] at hinstr
  obtain ⟨instr, hmem, rfl⟩ := hinstr
  exact ⟨instr, ((haccepted source hsource).blocks draft hdraft).instrs instr hmem, rfl⟩

theorem parse_of_read? {text : String} {tree : Source.Program}
    (h : Source.Program.read? text = some tree) : Program.parse text = tree.resolve := by
  rw [parse, h]

/-- A text that matches the grammar is read as a program exactly if it is accepted,
and then as the program that it describes. -/
theorem parse_eq_ok_iff_accepted {text : String} {tree : Source.Program}
    (h : Source.Program.read? text = some tree) :
    ((∃ program, Program.parse text = .ok program) ↔ tree.Accepted) ∧
      ∀ program, Program.parse text = .ok program → tree.Describes program := by
  rw [parse_of_read? h]
  exact ⟨Source.Program.exists_resolve_iff, fun _ => Source.Program.resolve_describes⟩

/-- Both targets of the branch are one block, which is entered twice. -/
def twinText : String :=
  "define float @f(i1 %c) \x7b
a:
  br i1 %c, label %b, label %b
b:
  %x = phi float [1, %a], [2.5, %a]
  ret float %x
\x7d
"

theorem twinText_accepted : ∃ tree program, Source.Program.read? twinText = some tree ∧
    tree.Accepted ∧ Program.parse twinText = .ok program ∧ tree.Describes program ∧
    program.funcs.map (fun func => func.graph.blocks.map Block.prev) = [[[], [0, 0]]] := by
  have hparse : (Program.parse twinText).toOption.map
      (fun program => program.funcs.map fun func => func.graph.blocks.map Block.prev) =
        some [[[], [0, 0]]] := by
    rw [twinText, toOption_parse_ofList]
    decide +kernel
  obtain ⟨program, hprogram, hprev⟩ := Option.map_eq_some_iff.mp hparse
  have hprogram := eq_ok_of_toOption hprogram
  obtain ⟨tree, htree, _⟩ := exists_tree_of_parse hprogram
  obtain ⟨haccepted, hdescribes⟩ := parse_eq_ok_iff_accepted htree
  exact ⟨tree, program, htree, haccepted.mp ⟨program, hprogram⟩, hprogram,
    hdescribes program hprogram, hprev⟩

/-! ## Evaluation -/

/-- What is read from a text can be evaluated, and so can what is said about it. -/
theorem exists_read_of_eval {text : String} {P : Source.Program → Program → Prop}
    [∀ tree program, Decidable (P tree program)]
    (h : (((Source.program text.toList).map Prod.fst).bind fun tree =>
      tree.resolve.toOption.map fun program => decide (P tree program)) = some true) :
    ∃ tree program, Source.Program.read? text = some tree ∧ Program.parse text = .ok program ∧
      P tree program := by
  obtain ⟨tree, hread, hmap⟩ := Option.bind_eq_some_iff.mp h
  obtain ⟨program, hprogram, hpasses⟩ := Option.map_eq_some_iff.mp hmap
  exact ⟨tree, program, hread, (parse_of_read? hread).trans (eq_ok_of_toOption hprogram),
    of_decide_eq_true hpasses⟩

theorem exists_parse_of_eval {text : String} {P : Program → Prop} [DecidablePred P]
    (h : (((Source.program text.toList).map Prod.fst).bind fun tree =>
      tree.resolve.toOption.map fun program => decide (P program)) = some true) :
    ∃ program, Program.parse text = .ok program ∧ P program := by
  obtain ⟨_, program, _, hparse, hprogram⟩ :=
    exists_read_of_eval (P := fun _ program => P program) h
  exact ⟨program, hparse, hprogram⟩

end Program

end LoopHoist
