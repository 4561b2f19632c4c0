import LoopHoist.Proofs.Attempt
import LoopHoist.Proofs.Graph.Link
import LoopHoist.Proofs.Graph.WellFormed
import LoopHoist.Source.Resolve
import Mathlib.Data.List.Nodup

/-!
# What is read is well formed

Reading a text either fails or gives functions with well-formed graphs: every
block has been numbered by its position and ends in a jump, labels are distinct,
and the edges are those that the jumps name.
-/

namespace LoopHoist

open Source

/-! ## What a reader yields -/

namespace Source.Reader

def Yields {α : Type} (reader : Reader α) (P : α → Prop) : Prop :=
  ∀ (input : List Char) (item : α) (rest : List Char), reader input = some (item, rest) → P item

theorem Yields.bind {α β : Type} {reader : Reader α} {next : α → Reader β} {P : α → Prop}
    {Q : β → Prop} (hreader : reader.Yields P) (hnext : ∀ item, P item → (next item).Yields Q) :
    (reader >>= next).Yields Q := by
  intro input item rest h
  rw [bind_apply, Option.bind_eq_some_iff] at h
  obtain ⟨⟨first, middle⟩, hfirst, hsecond⟩ := h
  exact hnext first (hreader input first middle hfirst) middle item rest hsecond

theorem Yields.after {α β : Type} {reader : Reader α} {next : α → Reader β} {P : β → Prop}
    (hnext : ∀ item, (next item).Yields P) : (reader >>= next).Yields P :=
  Yields.bind (P := fun _ => True) (fun _ _ _ _ => trivial) fun item _ => hnext item

theorem Yields.pure {α : Type} {item : α} {P : α → Prop} (h : P item) :
    (Pure.pure item : Reader α).Yields P := by
  intro input result rest heq
  cases heq
  exact h

theorem Yields.manyFrom {α : Type} {reader : Reader α} {P : α → Prop} (h : reader.Yields P)
    (input : List Char) : ∀ item ∈ (manyFrom reader input).1, P item := by
  fun_induction Reader.manyFrom reader input with
  | case1 input hnone => simp
  | case2 input first rest hsome hshorter items last hmany ih =>
      intro item hitem
      rw [hmany] at ih
      rcases List.mem_cons.mp hitem with rfl | hlater
      · exact h input item rest hsome
      · exact ih item hlater
  | case3 input first rest hsome hlonger => simp

theorem Yields.many {α : Type} {reader : Reader α} {P : α → Prop} (h : reader.Yields P) :
    (many reader).Yields fun items => ∀ item ∈ items, P item := by
  intro input items rest heq
  rw [Reader.many, Option.some.injEq] at heq
  have hitems := h.manyFrom input
  rw [heq] at hitems
  exact hitems

theorem yields_many1 {α : Type} (reader : Reader α) :
    (many1 reader).Yields fun items => items ≠ [] :=
  .after fun first => .after fun rest => .pure (List.cons_ne_nil first rest)

end Source.Reader

namespace Source

theorem yields_func : func.Yields fun tree => tree.blocks ≠ [] := by
  refine .after fun _ => .after fun _ => .after fun _ => .after fun _ => .after fun _ => ?_
  refine .after fun _ => .after fun _ => ?_
  exact (Reader.yields_many1 block).bind fun blocks hblocks => .after fun _ => .pure hblocks

theorem Program.blocks_ne_nil_of_read? {text : String} {tree : Program}
    (h : Program.read? text = some tree) : ∀ func ∈ tree.funcs, func.blocks ≠ [] := by
  have hyields : program.Yields fun tree => ∀ func ∈ tree.funcs, func.blocks ≠ [] := by
    refine .after fun _ => ?_
    exact yields_func.many.bind fun funcs hfuncs => .after fun _ => .pure hfuncs
  obtain ⟨⟨result, rest⟩, hresult, rfl⟩ := Option.map_eq_some_iff.mp h
  exact hyields _ _ _ hresult

/-! ## Blocks before they are linked -/

/-- A block that is being read: it has no edges yet, only its end jumps, and phis
stand apart. -/
structure IsDraft (block : LoopHoist.Block) : Prop where
  prev_eq : block.prev = []
  succ_eq : block.succ = []
  jump : ∀ {jump : LoopHoist.Instr}, block.jump = some jump → jump.isTerminator = true
  body : ∀ instr ∈ block.body, instr.isTerminator = false ∧ instr.isPhi = false

theorem IsDraft.place {block next : LoopHoist.Block} {instr : LoopHoist.Instr}
    (hdraft : IsDraft block) (h : place block instr = .ok next) :
    IsDraft next ∧ next.id = block.id ∧ next.label = block.label := by
  unfold Source.place at h
  split at h
  · cases h
  · split at h
    · rename_i hterminator
      cases h
      refine ⟨⟨hdraft.prev_eq, hdraft.succ_eq, ?_, hdraft.body⟩, rfl, rfl⟩
      rintro jump ⟨⟩
      exact hterminator
    · rename_i hplain
      split at h
      · split at h
        · cases h
          exact ⟨⟨hdraft.prev_eq, hdraft.succ_eq, hdraft.jump, hdraft.body⟩, rfl, rfl⟩
        · cases h
      · rename_i hnotphi
        cases h
        refine ⟨⟨hdraft.prev_eq, hdraft.succ_eq, hdraft.jump, ?_⟩, rfl, rfl⟩
        intro other hother
        rcases List.mem_append.mp hother with hold | hnew
        · exact hdraft.body other hold
        · rw [List.mem_singleton.mp hnew]
          refine ⟨Bool.not_eq_true _ ▸ hplain, ?_⟩
          cases instr with
          | phi node => exact absurd rfl (hnotphi node)
          | _ => rfl

theorem Block.isDraft_of_resolve {tree : Block} {id : Nat} {block : LoopHoist.Block}
    (h : tree.resolve id = .ok block) :
    IsDraft block ∧ block.id = id ∧ block.label = tree.label ∧ block.jump.isSome := by
  rw [Block.resolve, bind_eq_ok_iff] at h
  obtain ⟨result, hresult, hend⟩ := h
  have hkept : IsDraft result ∧ result.id = id ∧ result.label = tree.label := by
    refine foldlM_keeps (P := fun block : LoopHoist.Block =>
      IsDraft block ∧ block.id = id ∧ block.label = tree.label) ?_ ?_ hresult
    · rintro state item next ⟨hdraft, hid, hlabel⟩ hstep
      obtain ⟨instr, _, hplace⟩ := bind_eq_ok_iff.mp hstep
      obtain ⟨hnext, hid', hlabel'⟩ := hdraft.place hplace
      exact ⟨hnext, hid'.trans hid, hlabel'.trans hlabel⟩
    · exact ⟨⟨rfl, rfl, by rintro jump ⟨⟩, by simp⟩, rfl, rfl⟩
  cases hjump : result.jump with
  | none =>
      rw [hjump] at hend
      cases hend
  | some jump =>
      rw [hjump] at hend
      cases hend
      exact ⟨hkept.1, hkept.2.1, hkept.2.2, by simp [hjump]⟩

/-- Drafts in layout order, each numbered by its place and with a label of its
own. -/
structure AreDrafts (blocks : List LoopHoist.Block) : Prop where
  draft : ∀ {position : Nat} {block : LoopHoist.Block}, blocks[position]? = some block →
    IsDraft block ∧ block.id = position ∧ block.jump.isSome
  labels : (blocks.map LoopHoist.Block.label).Nodup

theorem AreDrafts.concat {blocks : List LoopHoist.Block} {block : LoopHoist.Block}
    (h : AreDrafts blocks) (hblock : IsDraft block ∧ block.id = blocks.length ∧ block.jump.isSome)
    (hlabel : ∀ earlier ∈ blocks, earlier.label ≠ block.label) : AreDrafts (blocks ++ [block]) where
  draft := by
    intro position found hfound
    rw [List.getElem?_append] at hfound
    split at hfound
    · exact h.draft hfound
    · rename_i hlast
      have hlt := (List.getElem?_eq_some_iff.mp hfound).1
      have hposition : position = blocks.length := by
        simp only [List.length_singleton] at hlt
        omega
      subst hposition
      simp only [Nat.sub_self, List.getElem?_cons_zero, Option.some.injEq] at hfound
      rw [← hfound]
      exact hblock
  labels := by
    rw [List.map_append, List.nodup_append]
    refine ⟨h.labels, by simp, ?_⟩
    intro label hmem other hother
    obtain ⟨earlier, hearlier, rfl⟩ := List.mem_map.mp hmem
    rw [List.mem_singleton.mp (show other ∈ [block.label] from hother)]
    exact hlabel earlier hearlier

theorem areDrafts_of_resolveBlocks {name : String} {done blocks : List LoopHoist.Block}
    {trees : List Block} (hdone : AreDrafts done) (h : resolveBlocks name done trees = .ok blocks) :
    AreDrafts blocks ∧ blocks.length = done.length + trees.length := by
  induction trees generalizing done with
  | nil =>
      cases h
      exact ⟨hdone, rfl⟩
  | cons tree trees ih =>
      rw [resolveBlocks, bind_eq_ok_iff] at h
      obtain ⟨next, hnext, hrest⟩ := h
      obtain ⟨hdraft, hid, _, hjump⟩ := Block.isDraft_of_resolve hnext
      by_cases hused : done.any fun earlier => earlier.label = next.label
      · rw [if_pos hused] at hrest
        cases hrest
      · rw [if_neg hused] at hrest
        have hlabel : ∀ earlier ∈ done, earlier.label ≠ next.label := by simpa using hused
        obtain ⟨hall, hlength⟩ := ih (hdone.concat ⟨hdraft, hid, hjump⟩ hlabel) hrest
        refine ⟨hall, ?_⟩
        simp only [List.length_append, List.length_cons, List.length_nil] at hlength
        simp only [List.length_cons]
        omega

/-! ## Edges -/

theorem resolveTarget_eq_ok_iff {name : String} {graph : Graph} {source : Nat} {label : Label}
    {edge : Nat × Nat} :
    resolveTarget name graph source label = .ok edge ↔
      edge.1 = source ∧ graph.find? label = some edge.2 ∧ edge.2 ≠ 0 := by
  unfold resolveTarget
  obtain ⟨first, second⟩ := edge
  cases hfind : graph.find? label with
  | none => simp
  | some destination =>
      cases destination with
      | zero =>
          simp only [Option.some.injEq, reduceCtorEq, false_iff, not_and, not_not]
          exact fun _ h => h.symm
      | succ destination =>
          simp only [Except.ok.injEq, Prod.mk.injEq, Option.some.injEq]
          constructor
          · rintro ⟨rfl, rfl⟩
            exact ⟨rfl, rfl, Nat.succ_ne_zero _⟩
          · rintro ⟨rfl, rfl, _⟩
            exact ⟨rfl, rfl⟩

/-- The edges out of one block: one for every target of its jump. -/
structure IsEdgeList (graph : Graph) (source : Nat) (block : LoopHoist.Block)
    (edges : List (Nat × Nat)) : Prop where
  source_eq : ∀ edge ∈ edges, edge.1 = source
  destination_ne : ∀ edge ∈ edges, edge.2 ≠ 0
  targets : (block.jump.toList.flatMap Instr.targets).map graph.find? =
    (edges.map Prod.snd).map some

theorem isEdgeList_of_mapM {name : String} {graph : Graph} {source : Nat}
    {block : LoopHoist.Block} {edges : List (Nat × Nat)}
    (h : (block.jump.toList.flatMap LoopHoist.Instr.targets).mapM
      (resolveTarget name graph source) = .ok edges) :
    IsEdgeList graph source block edges := by
  rw [mapM_eq_ok_iff] at h
  simp only [resolveTarget_eq_ok_iff] at h
  generalize hlabels : block.jump.toList.flatMap LoopHoist.Instr.targets = labels at h
  have hall : (∀ edge ∈ edges, edge.1 = source) ∧ (∀ edge ∈ edges, edge.2 ≠ 0) ∧
      labels.map graph.find? = (edges.map Prod.snd).map some := by
    clear hlabels
    induction h with
    | nil => simp
    | cons hedge _ ih =>
        simp only [List.forall_mem_cons, List.map_cons]
        exact ⟨⟨hedge.1, ih.1⟩, ⟨hedge.2.2, ih.2.1⟩, by rw [hedge.2.1, ih.2.2]⟩
  exact ⟨hall.1, hall.2.1, hlabels ▸ hall.2.2⟩

theorem isEdgeList_of_resolveEdges {name : String} {graph : Graph} {edges : List (Nat × Nat)}
    (h : resolveEdges name graph = .ok edges) :
    ∃ lists : List (List (Nat × Nat)), edges = lists.flatten ∧
      lists.length = graph.blocks.length ∧
      ∀ {position : Nat} {block : LoopHoist.Block} {list : List (Nat × Nat)},
        graph.block? position = some block → lists[position]? = some list →
          IsEdgeList graph position block list := by
  rw [resolveEdges, bind_eq_ok_iff] at h
  obtain ⟨lists, hlists, hflatten⟩ := h
  rw [mapM_eq_ok_iff, List.forall₂_iff_get] at hlists
  obtain ⟨hlength, hget⟩ := hlists
  cases hflatten
  rw [List.length_zipIdx] at hlength
  refine ⟨lists, rfl, hlength.symm, ?_⟩
  intro position block list hblock hlist
  obtain ⟨hlt, heq⟩ := List.getElem?_eq_some_iff.mp hblock
  obtain ⟨hlt', heq'⟩ := List.getElem?_eq_some_iff.mp hlist
  have hstep := hget position (by simpa using hlt) hlt'
  simp only [List.get_eq_getElem, List.getElem_zipIdx, Nat.zero_add, heq, heq'] at hstep
  exact isEdgeList_of_mapM hstep

end Source

/-! ## Functions and programs -/

namespace Graph

theorem block?_linkAll_iff {blocks : List Block} {edges : List (Nat × Nat)} {position : Nat}
    {block : Block} :
    ((⟨blocks⟩ : Graph).linkAll edges).block? position = some block ↔
      ∃ draft, blocks[position]? = some draft ∧ linkedBlock edges position draft = block := by
  rw [block?_linkAll, Option.map_eq_some_iff]
  rfl

theorem find?_label_of_nodup {blocks : List Block} (h : (blocks.map Block.label).Nodup)
    {position : Nat} {block : Block} (hblock : blocks[position]? = some block) :
    (⟨blocks⟩ : Graph).find? block.label = some position := by
  obtain ⟨hlt, rfl⟩ := List.getElem?_eq_some_iff.mp hblock
  refine List.findIdx?_eq_some_iff_getElem.mpr ⟨hlt, by simp, ?_⟩
  intro earlier hearlier
  simp only [decide_eq_true_eq]
  intro heq
  have hsame : earlier = position := by
    refine (List.getElem?_inj (by simp; omega) h).mp ?_
    rw [List.getElem?_map, List.getElem?_map, List.getElem?_eq_getElem (by omega), hblock,
      Option.map_some, Option.map_some, heq]
  omega

/-- Drafts in layout order and, for each of them, the edges of its jump. -/
structure AreLinks (blocks : List Block) (lists : List (List (Nat × Nat))) : Prop where
  drafts : AreDrafts blocks
  length_eq : lists.length = blocks.length
  edges : ∀ {position : Nat} {block : Block} {list : List (Nat × Nat)},
    blocks[position]? = some block → lists[position]? = some list →
      IsEdgeList ⟨blocks⟩ position block list

namespace AreLinks

variable {blocks : List Block} {lists : List (List (Nat × Nat))}

theorem isEdgeList (h : AreLinks blocks lists) {position : Nat} {list : List (Nat × Nat)}
    (hlist : lists[position]? = some list) :
    ∃ draft, blocks[position]? = some draft ∧ IsEdgeList ⟨blocks⟩ position draft list := by
  have hlt : position < blocks.length := h.length_eq ▸ (List.getElem?_eq_some_iff.mp hlist).1
  exact ⟨blocks[position], List.getElem?_eq_getElem hlt,
    h.edges (List.getElem?_eq_getElem hlt) hlist⟩

theorem exists_list_of_mem (h : AreLinks blocks lists) {edge : Nat × Nat}
    (hmem : edge ∈ lists.flatten) :
    ∃ draft list, blocks[edge.1]? = some draft ∧ IsEdgeList ⟨blocks⟩ edge.1 draft list ∧
      edge ∈ list := by
  obtain ⟨list, hlist, hedge⟩ := List.mem_flatten.mp hmem
  obtain ⟨index, hindex⟩ := List.getElem?_of_mem hlist
  obtain ⟨draft, hdraft, hedges⟩ := h.isEdgeList hindex
  have hsource := hedges.source_eq edge hedge
  subst hsource
  exact ⟨draft, list, hdraft, hedges, hedge⟩

theorem edge_iff (h : AreLinks blocks lists) {source destination : Nat} :
    ((⟨blocks⟩ : Graph).linkAll lists.flatten).Edge source destination ↔
      (source, destination) ∈ lists.flatten := by
  constructor
  · rintro ⟨block, hblock, hmem⟩
    obtain ⟨draft, hdraft, rfl⟩ := block?_linkAll_iff.mp hblock
    simp only [linkedBlock, (h.drafts.draft hdraft).1.succ_eq, List.nil_append, List.mem_map,
      List.mem_filter, decide_eq_true_eq] at hmem
    obtain ⟨edge, ⟨hedge, rfl⟩, rfl⟩ := hmem
    exact hedge
  · intro hmem
    obtain ⟨draft, _, hdraft, _⟩ := h.exists_list_of_mem hmem
    refine ⟨linkedBlock lists.flatten source draft, block?_linkAll_iff.mpr ⟨draft, hdraft, rfl⟩, ?_⟩
    apply List.mem_append_right
    exact List.mem_map.mpr ⟨(source, destination), List.mem_filter.mpr ⟨hmem, by simp⟩, rfl⟩

theorem succ_eq (h : AreLinks blocks lists) {position : Nat} {draft : Block}
    (hdraft : blocks[position]? = some draft) :
    ∃ list, lists[position]? = some list ∧ IsEdgeList ⟨blocks⟩ position draft list ∧
      (linkedBlock lists.flatten position draft).succ = list.map Prod.snd := by
  have hlt : position < lists.length :=
    h.length_eq ▸ (List.getElem?_eq_some_iff.mp hdraft).1
  have hlist : lists[position]? = some lists[position] := List.getElem?_eq_getElem hlt
  have hsource : ∀ (index : Nat) {list : List (Nat × Nat)}, lists[index]? = some list →
      ∀ edge ∈ list, edge.1 = 0 + index := by
    intro index list hlist edge hedge
    obtain ⟨_, _, hedges⟩ := h.isEdgeList hlist
    rw [Nat.zero_add]
    exact hedges.source_eq edge hedge
  have hfilter := filter_flatten_eq hsource position
  rw [Nat.zero_add, hlist, Option.getD_some] at hfilter
  refine ⟨lists[position], hlist, h.edges hdraft hlist, ?_⟩
  rw [linkedBlock, (h.drafts.draft hdraft).1.succ_eq, List.nil_append, hfilter]

theorem id_eq (h : AreLinks blocks lists) {position : Nat} {block : Block}
    (hblock : ((⟨blocks⟩ : Graph).linkAll lists.flatten).block? position = some block) :
    block.id = position := by
  obtain ⟨draft, hdraft, rfl⟩ := block?_linkAll_iff.mp hblock
  exact (h.drafts.draft hdraft).2.1

/-- Drafts are well formed once they are linked along the edges of their jumps. -/
theorem wellFormed (h : AreLinks blocks lists) (hnonempty : blocks ≠ []) :
    ((⟨blocks⟩ : Graph).linkAll lists.flatten).WellFormed where
  nonempty := by
    intro hnil
    have hlt : 0 < blocks.length := List.length_pos_of_ne_nil hnonempty
    have hsome : ((⟨blocks⟩ : Graph).linkAll lists.flatten).block? 0 =
        some (linkedBlock lists.flatten 0 blocks[0]) :=
      block?_linkAll_iff.mpr ⟨blocks[0], List.getElem?_eq_getElem hlt, rfl⟩
    rw [block?, hnil] at hsome
    cases hsome
  id_eq := h.id_eq
  find?_label := by
    intro position block hblock
    obtain ⟨draft, hdraft, rfl⟩ := block?_linkAll_iff.mp hblock
    rw [find?_linkAll]
    -- linking keeps the label, so the draft is found where the block is
    have hfind : (⟨blocks⟩ : Graph).find? draft.label = some position :=
      find?_label_of_nodup h.drafts.labels hdraft
    exact hfind
  jump_targets := by
    intro position block hblock
    obtain ⟨draft, hdraft, rfl⟩ := block?_linkAll_iff.mp hblock
    obtain ⟨hisdraft, _, hjump⟩ := h.drafts.draft hdraft
    obtain ⟨jump, hjump⟩ := Option.isSome_iff_exists.mp hjump
    obtain ⟨list, _, hlist, hsucc⟩ := h.succ_eq hdraft
    refine ⟨jump, hjump, hisdraft.jump hjump, ?_⟩
    have hfind : ((⟨blocks⟩ : Graph).linkAll lists.flatten).find? = (⟨blocks⟩ : Graph).find? :=
      funext fun label => find?_linkAll ..
    have htargets := hlist.targets
    rw [hjump] at htargets
    rw [hfind, hsucc, ← htargets]
    simp
  mem_prev := by
    intro source destination block hblock
    obtain ⟨draft, hdraft, rfl⟩ := block?_linkAll_iff.mp hblock
    rw [h.edge_iff]
    simp only [linkedBlock, (h.drafts.draft hdraft).1.prev_eq, List.nil_append, List.mem_map,
      List.mem_filter, decide_eq_true_eq]
    constructor
    · rintro ⟨edge, ⟨hedge, rfl⟩, rfl⟩
      exact hedge
    · intro hedge
      exact ⟨(source, destination), ⟨hedge, rfl⟩, rfl⟩
  not_edge_entry := by
    intro source hedge
    obtain ⟨_, _, _, hedges, hmem⟩ := h.exists_list_of_mem (h.edge_iff.mp hedge)
    exact hedges.destination_ne _ hmem rfl
  body_plain := by
    intro position block hblock
    obtain ⟨draft, hdraft, rfl⟩ := block?_linkAll_iff.mp hblock
    exact (h.drafts.draft hdraft).1.body

end AreLinks

end Graph

theorem Source.Func.wellFormed_of_resolve {tree : Source.Func} {func : LoopHoist.Func}
    (hblocks : tree.blocks ≠ []) (h : tree.resolve = .ok func) : func.graph.WellFormed := by
  rw [Source.Func.resolve, bind_eq_ok_iff] at h
  obtain ⟨blocks, hresolve, h⟩ := h
  obtain ⟨edges, hedges, h⟩ := bind_eq_ok_iff.mp h
  cases h
  have hempty : AreDrafts [] := ⟨by simp, by simp⟩
  obtain ⟨hdrafts, hlength⟩ := areDrafts_of_resolveBlocks hempty hresolve
  obtain ⟨lists, rfl, hlists, hedgeLists⟩ := isEdgeList_of_resolveEdges hedges
  refine Graph.AreLinks.wellFormed ⟨hdrafts, hlists, hedgeLists⟩ ?_
  rintro rfl
  simp only [List.length_nil] at hlength
  exact hblocks (List.length_eq_zero_iff.mp (by omega))

/-- A literal is the list of its characters, from which reading can be evaluated. -/
theorem Program.toOption_parse_ofList (chars : List Char) :
    (Program.parse (String.ofList chars)).toOption =
      ((Source.program chars).map Prod.fst).bind fun tree => tree.resolve.toOption := by
  rw [Program.parse, Source.Program.read?, String.toList_ofList, StateT.run]
  cases (Source.program chars).map Prod.fst <;> rfl

theorem Program.wellFormed_of_parse {text : String} {program : Program}
    (h : Program.parse text = .ok program) :
    ∀ func ∈ program.funcs, func.graph.WellFormed := by
  unfold Program.parse at h
  split at h
  · cases h
  · rename_i tree htree
    rw [Source.Program.resolve, bind_eq_ok_iff] at h
    obtain ⟨funcs, hfuncs, h⟩ := h
    cases h
    intro func hfunc
    obtain ⟨source, hsource, hresolve⟩ := exists_of_mem_mapM hfuncs hfunc
    exact Source.Func.wellFormed_of_resolve
      (Source.Program.blocks_ne_nil_of_read? htree source hsource) hresolve

end LoopHoist
