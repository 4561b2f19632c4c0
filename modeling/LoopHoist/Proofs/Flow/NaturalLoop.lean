import LoopHoist.Flow.Loop
import LoopHoist.Proofs.Flow.Dominance
import LoopHoist.Proofs.Graph.Link

/-!
# The loops that are found

The search for a loop goes back from the latches of a header and keeps to what the header
dominates.  No way around the header leads to a latch from anywhere else, so it collects
just the blocks that can be reached and lead to a latch without passing the header.  The
entry may be a header here, and blocks that cannot be reached may lead into a loop.
-/

namespace LoopHoist

/-! ## Latches and what leads to them -/

namespace Graph

variable {graph : Graph} {header position : Nat}

/-- A predecessor of a header that can be reached and that the header dominates. -/
structure IsLatch (graph : Graph) (header position : Nat) : Prop where
  edge : graph.Edge position header
  reachable : graph.Reachable position
  dominated : graph.Dominates header position

theorem IsLatch.reachable_header (h : graph.IsLatch header position) : graph.Reachable header :=
  h.reachable.step h.edge

/-- A block that can be reached and from which a latch can be reached without passing the
header. -/
structure LeadsBack (graph : Graph) (header position : Nat) : Prop where
  reachable : graph.Reachable position
  exists_way : ∃ latch, graph.IsLatch header latch ∧ graph.Way header position latch

namespace LeadsBack

theorem of_latch (h : graph.IsLatch header position) (hne : position ≠ header) :
    graph.LeadsBack header position :=
  ⟨h.reachable, position, h, .stay hne⟩

theorem back (h : graph.LeadsBack header position) {source : Nat}
    (hedge : graph.Edge source position) (hreach : graph.Reachable source)
    (hne : source ≠ header) : graph.LeadsBack header source := by
  obtain ⟨latch, hlatch, hway⟩ := h.exists_way
  exact ⟨hreach, latch, hlatch, .step hne hedge hway⟩

theorem dominated (h : graph.LeadsBack header position) : graph.Dominates header position := by
  obtain ⟨_, hlatch, hway⟩ := h.exists_way
  exact hway.dominates hlatch.dominated

theorem exists_block (h : graph.LeadsBack header position) :
    ∃ block, graph.block? position = some block := by
  obtain ⟨_, hlatch, hway⟩ := h.exists_way
  cases hway with
  | stay _ =>
      obtain ⟨block, hblock, _⟩ := hlatch.edge
      exact ⟨block, hblock⟩
  | step _ hedge _ =>
      obtain ⟨block, hblock, _⟩ := hedge
      exact ⟨block, hblock⟩

end LeadsBack

end Graph

namespace NaturalLoop

variable {graph : Graph} {loop : NaturalLoop}

/-- The loop of its header in a graph.  The header has a latch, and the other blocks of the
loop are those that lead back. -/
structure IsLoopIn (graph : Graph) (loop : NaturalLoop) : Prop where
  exists_latch : ∃ latch, graph.IsLatch loop.header latch
  blocks_sorted : loop.blocks.Pairwise (· < ·)
  mem_blocks_iff : ∀ {position : Nat}, position ∈ loop.blocks ↔
    position = loop.header ∨ graph.LeadsBack loop.header position

namespace IsLoopIn

theorem header_mem (h : loop.IsLoopIn graph) : loop.header ∈ loop.blocks :=
  h.mem_blocks_iff.mpr (.inl rfl)

theorem reachable (h : loop.IsLoopIn graph) {position : Nat} (hmem : position ∈ loop.blocks) :
    graph.Reachable position := by
  rcases h.mem_blocks_iff.mp hmem with rfl | hback
  · obtain ⟨latch, hlatch⟩ := h.exists_latch
    exact hlatch.reachable_header
  · exact hback.reachable

theorem dominated (h : loop.IsLoopIn graph) {position : Nat} (hmem : position ∈ loop.blocks) :
    graph.Dominates loop.header position := by
  rcases h.mem_blocks_iff.mp hmem with rfl | hback
  · exact .refl graph _
  · exact hback.dominated

theorem mem_iff_isLatch (h : loop.IsLoopIn graph) {source : Nat}
    (hedge : graph.Edge source loop.header) :
    source ∈ loop.blocks ↔ graph.IsLatch loop.header source := by
  constructor
  · exact fun hmem => ⟨hedge, h.reachable hmem, h.dominated hmem⟩
  · intro hlatch
    by_cases heq : source = loop.header
    · exact heq ▸ h.header_mem
    · exact h.mem_blocks_iff.mpr (.inr (.of_latch hlatch heq))

end IsLoopIn

theorem containsAt_iff (hids : graph.DistinctIds) {position : Nat} {block : Block}
    (h : graph.block? position = some block) :
    loop.containsAt graph position = true ↔ position ∈ loop.blocks := by
  simp only [containsAt, Graph.id?_of_block? h, Option.any_some, contains, List.any_eq_true,
    decide_eq_true_eq]
  constructor
  · rintro ⟨member, hmem, hid⟩
    rwa [← hids.eq_of_id? hid h]
  · exact fun hmem => ⟨position, hmem, Graph.id?_of_block? h⟩

theorem mem_of_containsAt (hids : graph.DistinctIds) {position : Nat}
    (h : loop.containsAt graph position = true) : position ∈ loop.blocks := by
  cases hblock : graph.block? position with
  | none => simp [containsAt, Graph.id?, hblock] at h
  | some block => exact (containsAt_iff hids hblock).mp h

/-! ## The search -/

section

variable {header : Nat} {block : Block} (hgraph : graph.Consistent)
  (hblock : graph.block? header = some block) (hreach : graph.Reachable header)

include hgraph hblock hreach

theorem admits_iff {source destination : Nat} (hedge : graph.Edge source destination) :
    (graph.id? source).any ((Dominance.ofGraph graph).dominates block.id) = true ↔
      graph.Reachable source ∧ graph.Dominates header source := by
  obtain ⟨origin, horigin, _⟩ := hedge
  rw [Graph.id?_of_block? horigin, Option.any_some,
    Dominance.dominates_ofGraph_iff hgraph.distinctIds hblock horigin hreach]

theorem mem_latchesOf {position : Nat} :
    position ∈ latchesOf graph (Dominance.ofGraph graph) block ↔ graph.IsLatch header position := by
  rw [latchesOf, List.mem_filter, hgraph.mem_prev hblock]
  constructor
  · rintro ⟨hedge, hany⟩
    obtain ⟨hreachable, hdominated⟩ := (admits_iff hgraph hblock hreach hedge).mp hany
    exact ⟨hedge, hreachable, hdominated⟩
  · intro h
    exact ⟨h.edge, (admits_iff hgraph hblock hreach h.edge).mpr ⟨h.reachable, h.dominated⟩⟩

theorem leadsBack_of_mem_flood {position : Nat} {twin : Block}
    (htwin : graph.block? position = some twin)
    (h : twin.id ∈ graph.flood Block.prev ((Dominance.ofGraph graph).dominates block.id) [block.id]
      (latchesOf graph (Dominance.ofGraph graph) block)) :
    position = header ∨ graph.LeadsBack header position := by
  let P : Nat → Prop := fun position => position = header ∨ graph.LeadsBack header position
  have hprev : ∀ {destination : Nat} {target : Block}, P destination →
      graph.block? destination = some target → ∀ source ∈ target.prev,
        (graph.id? source).any ((Dominance.ofGraph graph).dominates block.id) = true →
          P source := by
    intro destination target hdestination htarget source hsource hany
    have hedge := (hgraph.mem_prev htarget).mp hsource
    rw [admits_iff hgraph hblock hreach hedge] at hany
    by_cases heq : source = header
    · exact .inl heq
    · rcases hdestination with rfl | hback
      -- what comes to the header itself from a block that it dominates is a latch
      · exact .inr (.of_latch ⟨hedge, hany.1, hany.2⟩ heq)
      · exact .inr (hback.back hedge hany.1 heq)
  have hlatches : ∀ latch ∈ latchesOf graph (Dominance.ofGraph graph) block, P latch := by
    intro latch hlatch
    by_cases heq : latch = header
    · exact .inl heq
    · exact .inr (.of_latch ((mem_latchesOf hgraph hblock hreach).mp hlatch) heq)
  have hids : graph.DistinctIds := hgraph.distinctIds
  rcases Graph.of_mem_flood hprev hlatches h with hseen | ⟨found, hid, hfound⟩
  · exact .inl (hids htwin hblock (List.mem_singleton.mp hseen))
  · exact hids.eq_of_id? hid htwin ▸ hfound

theorem mem_flood_of_leadsBack {position : Nat} {twin : Block}
    (htwin : graph.block? position = some twin) (h : graph.LeadsBack header position) :
    twin.id ∈ graph.flood Block.prev ((Dominance.ofGraph graph).dominates block.id) [block.id]
      (latchesOf graph (Dominance.ofGraph graph) block) := by
  have hids : graph.DistinctIds := hgraph.distinctIds
  obtain ⟨hposition, latch, hlatch, hway⟩ := h
  -- against the direction of the way, from the latch on, no block is missed
  induction hway generalizing twin with
  | stay _ =>
      exact Graph.mem_flood_of_queue ((mem_latchesOf hgraph hblock hreach).mpr hlatch) htwin
  | @step source next _ hne hedge hrest ih =>
      obtain ⟨target, htarget⟩ := hgraph.block_of_edge hedge
      have hnext := ih htarget (hposition.step hedge) hlatch
      refine Graph.mem_flood_of_next hids htarget ?_ hnext ((hgraph.mem_prev htarget).mpr hedge)
        htwin ?_
      · rw [List.mem_singleton, hids.id_eq_iff htarget hblock]
        exact hrest.source_ne
      · rw [Dominance.dominates_ofGraph_iff hids hblock htwin hreach]
        exact ⟨hposition, (Graph.Way.step hne hedge hrest).dominates hlatch.dominated⟩

theorem isLoopIn_withLatches (hsome : latchesOf graph (Dominance.ofGraph graph) block ≠ []) :
    (withLatches graph (Dominance.ofGraph graph) header block
      (latchesOf graph (Dominance.ofGraph graph) block)).IsLoopIn graph where
  exists_latch := by
    obtain ⟨latch, hlatch⟩ := List.exists_mem_of_ne_nil _ hsome
    exact ⟨latch, (mem_latchesOf hgraph hblock hreach).mp hlatch⟩
  blocks_sorted := List.pairwise_lt_range.filter _
  mem_blocks_iff := by
    intro position
    simp only [withLatches, List.mem_filter, List.mem_range]
    constructor
    · rintro ⟨hlt, hany⟩
      have hposition : graph.block? position = some graph.blocks[position] :=
        List.getElem?_eq_getElem hlt
      rw [Graph.id?_of_block? hposition, Option.any_some, List.contains_iff_mem] at hany
      exact leadsBack_of_mem_flood hgraph hblock hreach hposition hany
    · intro h
      obtain ⟨twin, htwin⟩ : ∃ twin, graph.block? position = some twin := by
        rcases h with rfl | hback
        · exact ⟨block, hblock⟩
        · exact hback.exists_block
      refine ⟨(List.getElem?_eq_some_iff.mp htwin).1, ?_⟩
      rw [Graph.id?_of_block? htwin, Option.any_some, List.contains_iff_mem]
      rcases h with rfl | hback
      · cases htwin.symm.trans hblock
        exact Graph.mem_flood_of_seen List.mem_cons_self
      · exact mem_flood_of_leadsBack hgraph hblock hreach htwin hback

end

/-! ## All loops -/

theorem mem_all_iff (hids : graph.DistinctIds) :
    loop ∈ all graph (Dominance.ofGraph graph) ↔
      ∃ block, graph.block? loop.header = some block ∧ graph.Reachable loop.header ∧
        latchesOf graph (Dominance.ofGraph graph) block ≠ [] ∧
        loop = withLatches graph (Dominance.ofGraph graph) loop.header block
          (latchesOf graph (Dominance.ofGraph graph) block) := by
  have hreachable : ∀ {header : Nat} {block : Block}, graph.block? header = some block →
      ((graph.id? 0).any (fun entry => (Dominance.ofGraph graph).dominates entry block.id) = true ↔
        graph.Reachable header) := by
    intro header block hblock
    obtain ⟨entry, hentry⟩ : ∃ entry, graph.block? 0 = some entry :=
      ⟨_, List.getElem?_eq_getElem (Nat.zero_lt_of_lt (List.getElem?_eq_some_iff.mp hblock).1)⟩
    have hzero : graph.Reachable 0 := ⟨[], .entry⟩
    rw [Graph.id?_of_block? hentry, Option.any_some,
      Dominance.dominates_ofGraph_iff hids hentry hblock hzero, and_iff_left]
    exact fun _ hpath => hpath.zero_mem
  rw [all, List.mem_filterMap]
  constructor
  · rintro ⟨⟨block, header⟩, hmem, hloop⟩
    have hblock : graph.block? header = some block := List.mem_zipIdx_iff_getElem?.mp hmem
    simp only [ofHeader?] at hloop
    split at hloop
    · rename_i hdominates
      split at hloop
      · cases hloop
      · rename_i hsome
        cases hloop
        exact ⟨block, hblock, (hreachable hblock).mp hdominates, hsome, rfl⟩
    · cases hloop
  · rintro ⟨block, hblock, hreach, hsome, hloop⟩
    refine ⟨(block, loop.header), List.mem_zipIdx_iff_getElem?.mpr hblock, ?_⟩
    simp only [ofHeader?]
    rw [if_pos ((hreachable hblock).mpr hreach)]
    exact congrArg some hloop.symm

theorem isLoopIn_of_mem_all (hgraph : graph.Consistent)
    (h : loop ∈ all graph (Dominance.ofGraph graph)) : loop.IsLoopIn graph := by
  obtain ⟨block, hblock, hreach, hsome, heq⟩ := (mem_all_iff hgraph.distinctIds).mp h
  rw [heq]
  exact isLoopIn_withLatches hgraph hblock hreach hsome

theorem pairwise_header_all (graph : Graph) (dominance : Dominance) :
    (all graph dominance).Pairwise fun first second => first.header < second.header := by
  have hpositions : (graph.blocks.zipIdx.map Prod.snd).Pairwise (· < ·) := by
    rw [List.zipIdx_map_snd]
    exact List.pairwise_lt_range' 1
  have hheader : ∀ {block : Block} {position : Nat} {loop : NaturalLoop},
      ofHeader? graph dominance position block = some loop → loop.header = position := by
    intro block position loop h
    unfold ofHeader? at h
    split at h
    · split at h
      · cases h
      · cases h
        rfl
    · cases h
  rw [all, List.pairwise_filterMap]
  refine (List.pairwise_map.mp hpositions).imp fun {first second} hlt small hsmall large hlarge => ?_
  rwa [hheader hsmall, hheader hlarge]

theorem nodup_all (graph : Graph) (dominance : Dominance) : (all graph dominance).Nodup := by
  refine (pairwise_header_all graph dominance).imp fun {first second} hlt heq => ?_
  exact Nat.lt_irrefl _ (heq ▸ hlt)

theorem mem_headers_iff (hgraph : graph.Consistent) {header : Nat} :
    header ∈ (all graph (Dominance.ofGraph graph)).map NaturalLoop.header ↔
      graph.Reachable header ∧ ∃ latch, graph.IsLatch header latch := by
  rw [List.mem_map]
  constructor
  · rintro ⟨loop, hloop, rfl⟩
    obtain ⟨latch, hlatch⟩ := (isLoopIn_of_mem_all hgraph hloop).exists_latch
    exact ⟨hlatch.reachable_header, latch, hlatch⟩
  · rintro ⟨hreach, latch, hlatch⟩
    obtain ⟨block, hblock⟩ := hgraph.block_of_edge hlatch.edge
    have hmem := (mem_latchesOf hgraph hblock hreach).mpr hlatch
    exact ⟨withLatches graph (Dominance.ofGraph graph) header block _,
      (mem_all_iff hgraph.distinctIds).mpr ⟨block, hblock, hreach, List.ne_nil_of_mem hmem, rfl⟩,
      rfl⟩

open Classical in
theorem IsLoopIn.latches_eq (h : loop.IsLoopIn graph) (hgraph : graph.Consistent) :
    loop.latches graph =
      (loop.headerPrev graph).filter fun source => graph.IsLatch loop.header source := by
  obtain ⟨latch, hlatch⟩ := h.exists_latch
  obtain ⟨header, hheader⟩ := hgraph.block_of_edge hlatch.edge
  refine List.filter_congr fun source hsource => ?_
  have hedge : graph.Edge source loop.header := by
    rw [headerPrev, hheader] at hsource
    exact (hgraph.mem_prev hheader).mp hsource
  obtain ⟨origin, horigin, _⟩ := id hedge
  rw [Bool.eq_iff_iff, containsAt_iff hgraph.distinctIds horigin, decide_eq_true_eq,
    h.mem_iff_isLatch hedge]

open Classical in
/-- The loops of a graph, one for each block with a latch, in layout order. -/
structure AreLoopsOf (graph : Graph) (loops : List NaturalLoop) : Prop where
  headers_sorted : (loops.map NaturalLoop.header).Pairwise (· < ·)
  mem_headers_iff : ∀ {header : Nat}, header ∈ loops.map NaturalLoop.header ↔
    graph.Reachable header ∧ ∃ latch, graph.IsLatch header latch
  isLoopIn : ∀ {loop : NaturalLoop}, loop ∈ loops → loop.IsLoopIn graph
  dominated : ∀ {loop : NaturalLoop}, loop ∈ loops → ∀ position ∈ loop.blocks,
    graph.Reachable position ∧ graph.Dominates loop.header position
  latches_eq : ∀ {loop : NaturalLoop}, loop ∈ loops → loop.latches graph =
    (loop.headerPrev graph).filter fun source => graph.IsLatch loop.header source

/-- However its edges run, a linked graph gets exactly its natural loops. -/
theorem areLoopsOf_all (hids : graph.DistinctIds) (hlinked : graph.Linked) :
    AreLoopsOf graph (all graph (Dominance.ofGraph graph)) := by
  have hgraph := hlinked.consistent hids
  exact
    { headers_sorted := List.pairwise_map.mpr (pairwise_header_all graph _)
      mem_headers_iff := NaturalLoop.mem_headers_iff hgraph
      isLoopIn := isLoopIn_of_mem_all hgraph
      dominated := fun hloop position hmem =>
        ⟨(isLoopIn_of_mem_all hgraph hloop).reachable hmem,
          (isLoopIn_of_mem_all hgraph hloop).dominated hmem⟩
      latches_eq := fun hloop => (isLoopIn_of_mem_all hgraph hloop).latches_eq hgraph }

theorem linked_tangledGraph : Dominance.tangledGraph.Linked :=
  ⟨[(0, 1), (0, 2), (1, 3), (1, 3), (2, 3), (2, 2), (3, 0), (3, 5), (4, 3)], by decide, by decide⟩

theorem all_tangledGraph :
    all Dominance.tangledGraph (Dominance.ofGraph Dominance.tangledGraph) =
      [⟨0, [0, 1, 2, 3]⟩, ⟨2, [2]⟩] := by
  rw [Dominance.ofGraph_tangledGraph]
  decide +kernel

/-- The block apart leads to a latch of the entry, but it cannot be reached.  The middle is no
header, and only the jump of a block to itself goes back to the inner one. -/
theorem leadsBack_tangledGraph :
    Dominance.tangledGraph.DistinctIds ∧ Dominance.tangledGraph.Linked ∧
      Dominance.tangledGraph.LeadsBack 0 1 ∧ ¬Dominance.tangledGraph.LeadsBack 0 4 ∧
      (¬∃ latch, Dominance.tangledGraph.IsLatch 3 latch) ∧
      Dominance.tangledGraph.IsLatch 2 2 ∧ ¬Dominance.tangledGraph.IsLatch 2 0 := by
  have hloops := areLoopsOf_all Dominance.distinctIds_tangledGraph linked_tangledGraph
  rw [all_tangledGraph] at hloops
  have hwhole : IsLoopIn Dominance.tangledGraph ⟨0, [0, 1, 2, 3]⟩ := hloops.isLoopIn (by decide)
  have hlatch : ∀ source, source ∈ [2] ↔
      source ∈ [0, 2] ∧ Dominance.tangledGraph.IsLatch 2 source := by
    classical
    intro source
    have hlatches : [2] = List.filter _ [0, 2] := @hloops.latches_eq ⟨2, [2]⟩ (by decide)
    rw [congrArg (source ∈ ·) hlatches, List.mem_filter, decide_eq_true_eq]
  refine ⟨Dominance.distinctIds_tangledGraph, linked_tangledGraph, ?_, fun hback => ?_,
    fun hmiddle => ?_, ((hlatch 2).mp (by decide)).2, fun hzero => ?_⟩
  · exact (hwhole.mem_blocks_iff.mp (by decide)).resolve_left (by decide)
  · exact absurd (hwhole.mem_blocks_iff.mpr (.inr hback)) (by decide)
  · have hreach : Dominance.tangledGraph.Reachable 3 := hwhole.reachable (by decide)
    exact absurd (hloops.mem_headers_iff.mpr ⟨hreach, hmiddle⟩) (by decide)
  · exact absurd ((hlatch 0).mpr ⟨by decide, hzero⟩) (by decide)

end NaturalLoop

end LoopHoist
