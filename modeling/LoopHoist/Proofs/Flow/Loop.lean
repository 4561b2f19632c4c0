import LoopHoist.Proofs.Flow.NaturalLoop

/-!
# Loops as regions

The loops that are found in a graph are regions of reachable blocks with one way
in: whoever comes from outside comes to the header.  A preheader is then the only
way to the header from outside, so it dominates the loop, and what dominates a
block of the loop from outside dominates the preheader as well.
-/

namespace LoopHoist.NaturalLoop

variable {graph other : Graph} {loop : NaturalLoop}

/-- A set of reachable blocks that its header dominates, and that can only be
entered at the header. -/
structure IsRegion (graph : Graph) (loop : NaturalLoop) : Prop where
  nodup : loop.blocks.Nodup
  header_mem : loop.header ∈ loop.blocks
  reachable : ∀ {position : Nat}, position ∈ loop.blocks → graph.Reachable position
  dominated : ∀ {position : Nat}, position ∈ loop.blocks → graph.Dominates loop.header position
  closed : ∀ {source position : Nat}, position ∈ loop.blocks → position ≠ loop.header →
    graph.Edge source position → graph.Reachable source → source ∈ loop.blocks

/-- A block outside a loop from which every way into the loop starts, and which
leads nowhere else.  The entry is not the header then. -/
structure IsPreheader (graph : Graph) (loop : NaturalLoop) (position : Nat) : Prop where
  not_mem : position ∉ loop.blocks
  header_ne_zero : loop.header ≠ 0
  succ_eq : ∃ block, graph.block? position = some block ∧ block.succ = [loop.header]
  only : ∀ {source : Nat}, graph.Edge source loop.header → source ∉ loop.blocks →
    source = position

theorem IsRegion.of_shape (h : loop.IsRegion graph) (hshape : other.shape = graph.shape) :
    loop.IsRegion other where
  nodup := h.nodup
  header_mem := h.header_mem
  reachable hmem := (Graph.reachable_iff_of_shape hshape).mpr (h.reachable hmem)
  dominated hmem := (Graph.dominates_iff_of_shape hshape).mpr (h.dominated hmem)
  closed hmem hne hedge hreach := h.closed hmem hne ((Graph.edge_iff_of_shape hshape).mp hedge)
    ((Graph.reachable_iff_of_shape hshape).mp hreach)

theorem IsPreheader.of_shape {position : Nat} (h : loop.IsPreheader graph position)
    (hshape : other.shape = graph.shape) : loop.IsPreheader other position where
  not_mem := h.not_mem
  header_ne_zero := h.header_ne_zero
  succ_eq := by
    obtain ⟨block, hblock, hsucc⟩ := h.succ_eq
    obtain ⟨twin, htwin, hshell⟩ := Graph.shell_eq_of_shape hshape hblock
    obtain ⟨_, _, _, hsame, _⟩ := Block.shell_eq_iff.mp hshell
    exact ⟨twin, htwin, hsame.trans hsucc⟩
  only hedge hout := h.only ((Graph.edge_iff_of_shape hshape).mp hedge) hout

/-! ## What a preheader dominates -/

namespace IsRegion

theorem zero_not_mem (h : loop.IsRegion graph) {preheader : Nat}
    (hpre : loop.IsPreheader graph preheader) : 0 ∉ loop.blocks :=
  fun hmem => hpre.header_ne_zero (h.dominated hmem).eq_zero

theorem eq_of_enters (h : loop.IsRegion graph) {preheader source destination : Nat}
    (hpre : loop.IsPreheader graph preheader) (hedge : graph.Edge source destination)
    (hreach : graph.Reachable source) (hout : source ∉ loop.blocks)
    (hin : destination ∈ loop.blocks) : source = preheader ∧ destination = loop.header := by
  by_cases heq : destination = loop.header
  · subst heq
    exact ⟨hpre.only hedge hout, rfl⟩
  · exact absurd (h.closed hin heq hedge hreach) hout

/-- Every path that ends in the loop has come through the preheader. -/
theorem preheader_dominates (h : loop.IsRegion graph) {preheader position : Nat}
    (hpre : loop.IsPreheader graph preheader) (hmem : position ∈ loop.blocks) :
    graph.Dominates preheader position := by
  intro earlier hpath
  induction earlier generalizing position with
  | nil =>
      cases hpath
      exact absurd hmem (h.zero_not_mem hpre)
  | cons source earlier ih =>
      cases hpath with
      | step hrest hedge =>
          by_cases hin : source ∈ loop.blocks
          · exact List.mem_cons_of_mem _ (ih hin hrest)
          · rw [(h.eq_of_enters hpre hedge ⟨earlier, hrest⟩ hin hmem).1]
            exact List.mem_cons_of_mem _ List.mem_cons_self

theorem preheader_reachable (h : loop.IsRegion graph) {preheader : Nat}
    (hpre : loop.IsPreheader graph preheader) : graph.Reachable preheader :=
  (h.preheader_dominates hpre h.header_mem).reachable (h.reachable h.header_mem)

theorem not_dominates_preheader (h : loop.IsRegion graph) {preheader position : Nat}
    (hpre : loop.IsPreheader graph preheader) (hmem : position ∈ loop.blocks) :
    ¬graph.Dominates position preheader := by
  intro hdominates
  have heq := hdominates.antisymm (h.preheader_dominates hpre hmem) (h.preheader_reachable hpre)
  exact hpre.not_mem (heq ▸ hmem)

/-- What a path to a block of the loop passes since it last was at the header lies
in the loop. -/
theorem later_mem (h : loop.IsRegion graph) {position : Nat} {later rest : List Nat}
    (hpath : graph.Path (position :: later ++ rest)) (hmem : position ∈ loop.blocks)
    (hheader : loop.header ∉ (position :: later).dropLast) :
    ∀ x ∈ position :: later, x ∈ loop.blocks := by
  induction later generalizing position with
  | nil =>
      intro x hx
      rw [List.mem_singleton.mp hx]
      exact hmem
  | cons source later ih =>
      cases hpath with
      | step hback hedge =>
          rw [List.dropLast_cons_cons, List.mem_cons, not_or] at hheader
          have hsource : source ∈ loop.blocks :=
            h.closed hmem (Ne.symm hheader.1) hedge ⟨later ++ rest, hback⟩
          intro x hx
          rcases List.mem_cons.mp hx with rfl | hlater
          · exact hmem
          · exact ih hback hsource hheader.2 x hlater

/-- Behind the last visit to the header a path to a block of the loop stays inside. -/
theorem later_subset (h : loop.IsRegion graph) {position : Nat} {earlier later rest : List Nat}
    (hpath : graph.Path (position :: earlier)) (hmem : position ∈ loop.blocks)
    (heq : position :: earlier = later ++ loop.header :: rest) (hnot : loop.header ∉ later) :
    ∀ x ∈ later, x ∈ loop.blocks := by
  cases later with
  | nil => simp
  | cons first later =>
      cases heq
      have hpath' : graph.Path (position :: (later ++ [loop.header]) ++ rest) := by
        simpa using hpath
      have hinside := h.later_mem hpath' hmem (by
        rw [← List.cons_append, List.dropLast_concat]
        exact hnot)
      exact fun x hx => hinside x (by
        rw [← List.cons_append]
        exact List.mem_append_left _ hx)

/-- A block outside that dominates a block of the loop dominates the preheader. -/
theorem dominates_preheader (h : loop.IsRegion graph) {preheader a b : Nat}
    (hpre : loop.IsPreheader graph preheader) (hab : graph.Dominates a b)
    (hb : b ∈ loop.blocks) (ha : a ∉ loop.blocks) : graph.Dominates a preheader := by
  have hne : a ≠ loop.header := fun heq => ha (heq ▸ h.header_mem)
  have hedge : graph.Edge preheader loop.header := by
    obtain ⟨block, hblock, hsucc⟩ := hpre.succ_eq
    exact ⟨block, hblock, by simp [hsucc]⟩
  rcases hab.chain (h.dominated hb) (h.reachable hb) with hdominates | hdominated
  · exact hdominates.of_edge hne hedge
  · -- between the header and `b` a path would have to leave the loop and come back
    exfalso
    obtain ⟨earlier, hpath⟩ := h.reachable hb
    obtain ⟨later, rest, heq, hnot⟩ := List.eq_append_cons_of_mem (hab earlier hpath)
    have hheader : loop.header ∉ later := by
      intro hmem
      obtain ⟨first, second, rfl⟩ := List.append_of_mem hmem
      have hback : ¬graph.Dominates a loop.header := fun hdom =>
        hne (hdom.antisymm hdominated (h.reachable h.header_mem))
      have heq' : b :: earlier = first ++ loop.header :: (second ++ a :: rest) := by
        simpa using heq
      have hfirst := hab.mem_later hback hpath heq'
      exact hnot (List.mem_append_left _ hfirst)
    cases later with
    | nil =>
        cases heq
        exact ha hb
    | cons first later =>
        cases heq
        have hpath' : graph.Path (b :: (later ++ [a]) ++ rest) := by simpa using hpath
        refine ha (h.later_mem hpath' hb ?_ a ?_)
        · rw [← List.cons_append, List.dropLast_concat]
          exact hheader
        · simp

end IsRegion

/-! ## Loops that are found -/

theorem IsLoopIn.isRegion (h : loop.IsLoopIn graph) : loop.IsRegion graph where
  nodup := h.blocks_sorted.imp Nat.ne_of_lt
  header_mem := h.header_mem
  reachable := h.reachable
  dominated := h.dominated
  closed := by
    intro source position hmem hne hedge hreach
    have hback := (h.mem_blocks_iff.mp hmem).resolve_left hne
    by_cases heq : source = loop.header
    · exact heq ▸ h.header_mem
    · exact h.mem_blocks_iff.mpr (.inr (hback.back hedge hreach heq))

theorem isRegion_of_mem_all (wf : graph.WellFormed)
    (h : loop ∈ all graph (Dominance.ofGraph graph)) : loop.IsRegion graph :=
  (isLoopIn_of_mem_all wf.consistent h).isRegion

/-! ## Preheaders that are found -/

section

variable (hgraph : graph.Consistent)

include hgraph

theorem mem_headerPrev_iff {source : Nat} :
    source ∈ loop.headerPrev graph ↔ graph.Edge source loop.header := by
  cases hheader : graph.block? loop.header with
  | none =>
      simp only [headerPrev, hheader, Option.map_none, Option.getD_none, List.not_mem_nil, false_iff]
      intro hedge
      obtain ⟨block, hblock⟩ := hgraph.block_of_edge hedge
      cases hheader.symm.trans hblock
  | some header =>
      rw [headerPrev, hheader]
      exact hgraph.mem_prev hheader

theorem mem_outside_iff {source : Nat} :
    source ∈ (loop.headerPrev graph).filter (fun position => !loop.containsAt graph position) ↔
      graph.Edge source loop.header ∧ source ∉ loop.blocks := by
  rw [List.mem_filter, mem_headerPrev_iff hgraph]
  refine and_congr_right fun hedge => ?_
  obtain ⟨block, hblock, _⟩ := hedge
  rw [Bool.not_eq_true', ← Bool.not_eq_true, containsAt_iff hgraph.distinctIds hblock]

theorem preheader?_eq_some_iff {position : Nat} : loop.preheader? graph = some position ↔
    (graph.Edge position loop.header ∧ position ∉ loop.blocks) ∧
      (∀ {source : Nat}, graph.Edge source loop.header → source ∉ loop.blocks →
        source = position) ∧ servesAsPreheader graph position = true := by
  have hsame : ∀ {source last : Nat}, graph.Edge source loop.header →
      graph.Edge last loop.header → (graph.id? source = graph.id? last ↔ source = last) := by
    rintro source last ⟨block, hblock, _⟩ ⟨twin, htwin, _⟩
    exact Graph.DistinctIds.id?_eq_iff hgraph.distinctIds hblock htwin
  simp only [preheader?]
  constructor
  · intro h
    split at h
    · cases h
    · rename_i last hlast
      rw [Option.ite_none_right_eq_some, Bool.and_eq_true, List.all_eq_true] at h
      obtain ⟨⟨hall, hserves⟩, ⟨⟩⟩ := h
      have houtside := (mem_outside_iff hgraph).mp (List.mem_of_getLast? hlast)
      refine ⟨houtside, fun hedge hout => (hsame hedge houtside.1).mp ?_, hserves⟩
      exact of_decide_eq_true (hall _ ((mem_outside_iff hgraph).mpr ⟨hedge, hout⟩))
  · rintro ⟨houtside, honly, hserves⟩
    split
    · rename_i hnone
      have hmem := (mem_outside_iff hgraph).mpr houtside
      rw [List.getLast?_eq_none_iff.mp hnone] at hmem
      cases hmem
    · rename_i last hlast
      obtain ⟨hedge, hout⟩ := (mem_outside_iff hgraph).mp (List.mem_of_getLast? hlast)
      obtain rfl := honly hedge hout
      rw [if_pos]
      rw [Bool.and_eq_true, List.all_eq_true]
      refine ⟨fun source hsource => decide_eq_true ?_, hserves⟩
      obtain ⟨hedge', hout'⟩ := (mem_outside_iff hgraph).mp hsource
      rw [honly hedge' hout']

end

theorem length_succ_of_serves {position : Nat} {block : Block}
    (hblock : graph.block? position = some block)
    (h : servesAsPreheader graph position = true) : block.succ.length = 1 := by
  simp only [servesAsPreheader, hblock, Option.any_some, Bool.and_eq_true, Block.hasSingleSucc,
    decide_eq_true_eq] at h
  exact h.1

theorem isPreheader_of_preheader? (wf : graph.WellFormed) {position : Nat}
    (h : loop.preheader? graph = some position) : loop.IsPreheader graph position := by
  obtain ⟨⟨hedge, hnot⟩, honly, hserves⟩ := (preheader?_eq_some_iff wf.consistent).mp h
  refine ⟨hnot, ?_, ?_, honly⟩
  · intro hzero
    exact wf.not_edge_entry (hzero ▸ hedge)
  · obtain ⟨block, hblock, hmem⟩ := hedge
    obtain ⟨next, hnext⟩ := List.length_eq_one_iff.mp (length_succ_of_serves hblock hserves)
    rw [hnext, List.mem_singleton] at hmem
    exact ⟨block, hblock, by rw [hnext, hmem]⟩

end LoopHoist.NaturalLoop
