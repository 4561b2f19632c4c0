import LoopHoist.Proofs.Flow.Loop
import Mathlib.Logic.Relation

/-!
# Nested loops

From every block of a natural loop one comes back to the header without leaving the
loop.  So two loops that share a block are nested, and a loop that contains the
preheader of another one contains that whole loop.
-/

namespace LoopHoist

namespace NaturalLoop

variable {graph : Graph} {loop other : NaturalLoop}

/-- An edge that starts in the loop. -/
def EdgeFrom (graph : Graph) (loop : NaturalLoop) (source destination : Nat) : Prop :=
  source ∈ loop.blocks ∧ graph.Edge source destination

/-- A region from every block of which the header can be reached again inside. -/
structure IsNatural (graph : Graph) (loop : NaturalLoop) : Prop extends IsRegion graph loop where
  returns : ∀ {position : Nat}, position ∈ loop.blocks →
    Relation.TransGen (loop.EdgeFrom graph) position loop.header

/-! ## Loops that are found are natural -/

/-- A way into the loop goes on from the header to another block of it. -/
theorem IsRegion.exists_edge_header (h : loop.IsRegion graph) {position : Nat}
    (hmem : position ∈ loop.blocks) (hne : position ≠ loop.header) :
    ∃ next ∈ loop.blocks, graph.Edge loop.header next := by
  obtain ⟨earlier, hpath⟩ := h.reachable hmem
  induction earlier generalizing position with
  | nil =>
      cases hpath
      exact absurd (h.dominated hmem).eq_zero.symm hne
  | cons source earlier ih =>
      cases hpath with
      | step hrest hedge =>
          by_cases heq : source = loop.header
          · exact ⟨position, hmem, heq ▸ hedge⟩
          · exact ih (h.closed hmem hne hedge ⟨earlier, hrest⟩) heq hrest

theorem IsLoopIn.transGen_of_leadsBack (h : loop.IsLoopIn graph) {position : Nat}
    (hback : graph.LeadsBack loop.header position) :
    Relation.TransGen (loop.EdgeFrom graph) position loop.header := by
  obtain ⟨hreach, latch, hlatch, hway⟩ := hback
  induction hway with
  | @stay position hne =>
      have hmem := h.mem_blocks_iff.mpr (.inr (.of_latch hlatch hne))
      exact .single ⟨hmem, hlatch.edge⟩
  | @step source next latch hne hedge hrest ih =>
      have hmem := h.mem_blocks_iff.mpr (.inr ⟨hreach, latch, hlatch, .step hne hedge hrest⟩)
      exact .head ⟨hmem, hedge⟩ (ih (hreach.step hedge) hlatch)

theorem IsLoopIn.isNatural (h : loop.IsLoopIn graph) : loop.IsNatural graph := by
  refine ⟨h.isRegion, fun {position} hmem => ?_⟩
  rcases h.mem_blocks_iff.mp hmem with rfl | hback
  · -- from the header one goes to a latch, unless the header is one
    obtain ⟨latch, hlatch⟩ := h.exists_latch
    have hin := (h.mem_iff_isLatch hlatch.edge).mpr hlatch
    by_cases hself : latch = loop.header
    · exact .single ⟨hmem, hself ▸ hlatch.edge⟩
    · obtain ⟨next, hnext, hedge⟩ := h.isRegion.exists_edge_header hin hself
      rcases h.mem_blocks_iff.mp hnext with rfl | hback
      · exact .single ⟨hmem, hedge⟩
      · exact .head ⟨hmem, hedge⟩ (h.transGen_of_leadsBack hback)
  · exact h.transGen_of_leadsBack hback

theorem isNatural_of_mem_all (hgraph : graph.Consistent)
    (h : loop ∈ all graph (Dominance.ofGraph graph)) : loop.IsNatural graph :=
  (isLoopIn_of_mem_all hgraph h).isNatural

theorem eq_of_header_eq (hids : graph.DistinctIds)
    (hloop : loop ∈ all graph (Dominance.ofGraph graph))
    (hother : other ∈ all graph (Dominance.ofGraph graph)) (h : other.header = loop.header) :
    other = loop := by
  obtain ⟨block, hblock, _, _, heq⟩ := (mem_all_iff hids).mp hloop
  obtain ⟨twin, htwin, _, _, heq'⟩ := (mem_all_iff hids).mp hother
  rw [h] at htwin heq'
  cases hblock.symm.trans htwin
  rw [heq', ← heq]

/-! ## Nesting -/

theorem header_not_mem (h : loop.IsRegion graph) (hother : other.IsRegion graph)
    (hmem : loop.header ∈ other.blocks) (hne : loop.header ≠ other.header) :
    other.header ∉ loop.blocks := fun hin =>
  hne ((h.dominated hin).antisymm (hother.dominated hmem) (h.reachable hin))

theorem IsNatural.blocks_subset (h : loop.IsNatural graph) (houter : other.IsRegion graph)
    (hmem : loop.header ∈ other.blocks) (hne : loop.header ≠ other.header) :
    loop.blocks ⊆ other.blocks := by
  have hout := header_not_mem h.toIsRegion houter hmem hne
  intro position hposition
  have hchain := h.returns hposition
  induction hchain using Relation.TransGen.head_induction_on with
  | single hedge => exact houter.closed hmem hne hedge.2 (h.reachable hedge.1)
  | @head source destination hedge hrest ih =>
      have hin : destination ∈ loop.blocks := by
        cases Relation.TransGen.head'_iff.mp hrest with
        | intro _ hfirst => exact hfirst.1.1
      refine houter.closed (ih hin) (fun heq => hout (heq ▸ hin)) hedge.2 (h.reachable hedge.1)

/-- Of two loops that share a block, one contains the header of the other. -/
theorem IsRegion.header_mem_or (h : loop.IsRegion graph) (hother : other.IsRegion graph)
    {position : Nat} (hloop : position ∈ loop.blocks) (hposition : position ∈ other.blocks) :
    loop.header ∈ other.blocks ∨ other.header ∈ loop.blocks := by
  have hinner : ∀ {inner outer : NaturalLoop}, inner.IsRegion graph → outer.IsRegion graph →
      position ∈ inner.blocks → position ∈ outer.blocks →
        graph.Dominates outer.header inner.header → inner.header ∈ outer.blocks := by
    intro inner outer hin hout hleft hright hdominates
    by_cases heq : inner.header = outer.header
    · exact heq ▸ hout.header_mem
    · obtain ⟨earlier, hpath⟩ := hin.reachable hleft
      obtain ⟨later, rest, hsplit, hnot⟩ :=
        List.eq_append_cons_of_mem (hout.dominated hright earlier hpath)
      have hback : ¬graph.Dominates inner.header outer.header := fun hdominated =>
        heq (hdominated.antisymm hdominates (hout.reachable hout.header_mem))
      refine hout.later_subset hpath hright hsplit hnot _ ?_
      exact (hin.dominated hleft).mem_later hback hpath hsplit
  rcases (h.dominated hloop).chain (hother.dominated hposition) (h.reachable hloop) with
    hdominates | hdominates
  · exact .inr (hinner hother h hposition hloop hdominates)
  · exact .inl (hinner h hother hloop hposition hdominates)

/-! ## Where preheaders lie -/

theorem IsPreheader.edge {preheader : Nat} (h : loop.IsPreheader graph preheader) :
    graph.Edge preheader loop.header := by
  obtain ⟨block, hblock, hsucc⟩ := h.succ_eq
  exact ⟨block, hblock, by simp [hsucc]⟩

/-- Going on from the preheader of a loop one can only come to its header. -/
theorem IsPreheader.header_mem {preheader : Nat} (h : loop.IsPreheader graph preheader)
    (hother : other.IsNatural graph) (hmem : preheader ∈ other.blocks) :
    loop.header ∈ other.blocks := by
  obtain ⟨next, ⟨_, block, hblock, hnext⟩, hrest⟩ :=
    Relation.TransGen.head'_iff.mp (hother.returns hmem)
  obtain ⟨twin, htwin, hsucc⟩ := h.succ_eq
  cases hblock.symm.trans htwin
  rw [hsucc, List.mem_singleton] at hnext
  subst hnext
  rcases Relation.ReflTransGen.cases_head hrest with heq | ⟨_, hedge, _⟩
  · exact heq ▸ hother.header_mem
  · exact hedge.1

theorem preheader_mem_iff (hgraph : graph.Consistent)
    (hloop : loop ∈ all graph (Dominance.ofGraph graph))
    (hother : other ∈ all graph (Dominance.ofGraph graph)) {preheader : Nat}
    (hpre : loop.IsPreheader graph preheader) :
    preheader ∈ other.blocks ↔ loop.header ∈ other.blocks ∧ other ≠ loop := by
  constructor
  · intro hmem
    refine ⟨hpre.header_mem (isNatural_of_mem_all hgraph hother) hmem, ?_⟩
    rintro rfl
    exact hpre.not_mem hmem
  · rintro ⟨hmem, hne⟩
    refine (isLoopIn_of_mem_all hgraph hother).isRegion.closed hmem ?_ hpre.edge
      ((isLoopIn_of_mem_all hgraph hloop).isRegion.preheader_reachable hpre)
    exact fun heq => hne (eq_of_header_eq hgraph.distinctIds hloop hother heq.symm)

theorem blocks_subset_of_header_mem (hgraph : graph.Consistent)
    (hloop : loop ∈ all graph (Dominance.ofGraph graph))
    (hother : other ∈ all graph (Dominance.ofGraph graph)) (hmem : loop.header ∈ other.blocks) :
    loop.blocks ⊆ other.blocks := by
  by_cases heq : loop.header = other.header
  · rw [eq_of_header_eq hgraph.distinctIds hother hloop heq]
    exact List.Subset.refl _
  · exact (isNatural_of_mem_all hgraph hloop).blocks_subset
      (isLoopIn_of_mem_all hgraph hother).isRegion hmem heq

/-- The blocks of a loop are some, but not all, of those of another one. -/
def LiesInside (loop other : NaturalLoop) : Prop :=
  loop.blocks ⊆ other.blocks ∧ ¬other.blocks ⊆ loop.blocks

theorem liesInside_of_header_mem (hgraph : graph.Consistent)
    (hloop : loop ∈ all graph (Dominance.ofGraph graph))
    (hother : other ∈ all graph (Dominance.ofGraph graph)) (hmem : loop.header ∈ other.blocks)
    (hne : loop.header ≠ other.header) : loop.LiesInside other := by
  have hregion := (isLoopIn_of_mem_all hgraph hother).isRegion
  refine ⟨blocks_subset_of_header_mem hgraph hloop hother hmem, fun hback => ?_⟩
  exact header_not_mem (isLoopIn_of_mem_all hgraph hloop).isRegion hregion hmem hne
    (hback hregion.header_mem)

theorem disjoint_or_liesInside (hgraph : graph.Consistent)
    (hloop : loop ∈ all graph (Dominance.ofGraph graph))
    (hother : other ∈ all graph (Dominance.ofGraph graph)) (hne : loop.header ≠ other.header) :
    loop.blocks.Disjoint other.blocks ∨ loop.LiesInside other ∨ other.LiesInside loop := by
  by_cases hdisjoint : loop.blocks.Disjoint other.blocks
  · exact .inl hdisjoint
  · simp only [List.Disjoint, not_forall, not_false_eq_true, exists_prop, and_true] at hdisjoint
    obtain ⟨position, hposition, hmem⟩ := hdisjoint
    rcases (isLoopIn_of_mem_all hgraph hloop).isRegion.header_mem_or
      (isLoopIn_of_mem_all hgraph hother).isRegion hposition hmem with hin | hin
    · exact .inr (.inl (liesInside_of_header_mem hgraph hloop hother hin hne))
    · exact .inr (.inr (liesInside_of_header_mem hgraph hother hloop hin (Ne.symm hne)))

/-! ## How deep a block lies -/

/-- The number of loops that contain a block. -/
def nesting (loops : List NaturalLoop) (position : Nat) : Nat :=
  loops.countP fun loop => position ∈ loop.blocks

/-- The loops around a preheader are among those around each block of its loop, and do
not include that loop. -/
theorem nesting_preheader_lt (hgraph : graph.Consistent)
    (hloop : loop ∈ all graph (Dominance.ofGraph graph)) {preheader position : Nat}
    (hpre : loop.IsPreheader graph preheader) (hmem : position ∈ loop.blocks) :
    nesting (all graph (Dominance.ofGraph graph)) preheader <
      nesting (all graph (Dominance.ofGraph graph)) position := by
  have hinside : ∀ other ∈ all graph (Dominance.ofGraph graph),
      decide (preheader ∈ other.blocks) = true → decide (position ∈ other.blocks) = true := by
    intro other hother hpreheader
    rw [decide_eq_true_eq] at hpreheader ⊢
    obtain ⟨hheader, _⟩ := (preheader_mem_iff hgraph hloop hother hpre).mp hpreheader
    exact blocks_subset_of_header_mem hgraph hloop hother hheader hmem
  exact countP_lt_countP hinside hloop (by simpa using hmem) (by simpa using hpre.not_mem)

end NaturalLoop

end LoopHoist
