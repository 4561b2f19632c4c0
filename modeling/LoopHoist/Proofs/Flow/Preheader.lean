import LoopHoist.Proofs.Flow.Nesting
import LoopHoist.Proofs.SSA.Hoist

/-!
# What makes a preheader

A loop of a well-formed graph is entered from outside, as its header is not the entry.  So if
all edges into the header from outside come from one block, that block is on the way to every
block of the loop.  If they are the only edges that leave it, it is the preheader, and it
lies in just those loops that lie around the loop.
-/

namespace LoopHoist

namespace NaturalLoop

variable {graph : Graph} {loop : NaturalLoop} {position : Nat}

/-- All edges into the loop from outside come from one block, and it has one outgoing edge. -/
structure IsOnlyWayIn (graph : Graph) (loop : NaturalLoop) (position : Nat) : Prop where
  only : ∀ {source : Nat}, graph.Edge source loop.header → source ∉ loop.blocks →
    source = position
  single : ∃ block, graph.block? position = some block ∧ block.succ.length = 1

/-- A block in front of a loop, no further inside than the loops around the loop. -/
structure LiesBefore (graph : Graph) (loop : NaturalLoop) (position : Nat) : Prop where
  edge : graph.Edge position loop.header
  reachable : graph.Reachable position
  not_mem : position ∉ loop.blocks
  dominates : ∀ {inner : Nat}, inner ∈ loop.blocks → graph.Dominates position inner
  liesInside : ∀ {other : NaturalLoop}, other ∈ all graph (Dominance.ofGraph graph) →
    position ∈ other.blocks → loop.LiesInside other

theorem IsRegion.exists_edge_outside (h : loop.IsRegion graph) (hne : loop.header ≠ 0)
    (hmem : position ∈ loop.blocks) :
    ∃ source, graph.Edge source loop.header ∧ source ∉ loop.blocks := by
  obtain ⟨earlier, hpath⟩ := h.reachable hmem
  -- back along the path until it is outside the loop
  induction earlier generalizing position with
  | nil =>
      cases hpath
      exact absurd (h.dominated hmem).eq_zero hne
  | cons source earlier ih =>
      cases hpath with
      | step hrest hedge =>
          by_cases hin : source ∈ loop.blocks
          · exact ih hin hrest
          · by_cases heq : position = loop.header
            · exact ⟨source, heq ▸ hedge, hin⟩
            · exact absurd (h.closed hmem heq hedge ⟨earlier, hrest⟩) hin

theorem targets_eq_nil_of_isRet {instr : Instr} (h : instr.isRet = true) : instr.targets = [] := by
  cases instr <;> simp_all [Instr.isRet, Instr.targets]

section

variable (wf : graph.WellFormed) (hloop : loop ∈ all graph (Dominance.ofGraph graph))

include wf

theorem servesAsPreheader_of_single {block : Block} (hblock : graph.block? position = some block)
    (hsingle : block.succ.length = 1) : servesAsPreheader graph position = true := by
  -- a block that returns goes on to none
  obtain ⟨jump, hjump, _, htargets⟩ := wf.jump_targets hblock
  have hret : jump.isRet = false := by
    rw [← Bool.not_eq_true]
    intro hret
    have hlength := congrArg List.length htargets
    simp only [targets_eq_nil_of_isRet hret, List.length_map, List.length_nil, hsingle] at hlength
    cases hlength
  simp [servesAsPreheader, hblock, Block.hasSingleSucc, hsingle, Block.acceptsHoist, hjump, hret]

include hloop

theorem preheader?_iff_isOnlyWayIn :
    loop.preheader? graph = some position ↔ loop.IsOnlyWayIn graph position := by
  have hregion := isRegion_of_mem_all wf hloop
  rw [preheader?_eq_some_iff wf.consistent]
  constructor
  · rintro ⟨⟨⟨block, hblock, _⟩, _⟩, honly, hserves⟩
    exact ⟨honly, block, hblock, length_succ_of_serves hblock hserves⟩
  · rintro ⟨honly, block, hblock, hsingle⟩
    obtain ⟨latch, hlatch⟩ := (isLoopIn_of_mem_all wf.consistent hloop).exists_latch
    have hne : loop.header ≠ 0 := fun hzero => wf.not_edge_entry (hzero ▸ hlatch.edge)
    obtain ⟨source, hedge, hout⟩ := hregion.exists_edge_outside hne hregion.header_mem
    obtain rfl := honly hedge hout
    exact ⟨⟨hedge, hout⟩, honly, servesAsPreheader_of_single wf hblock hsingle⟩

theorem IsPreheader.liesBefore (hpre : loop.IsPreheader graph position) :
    loop.LiesBefore graph position where
  edge := hpre.edge
  reachable := (isRegion_of_mem_all wf hloop).preheader_reachable hpre
  not_mem := hpre.not_mem
  dominates := (isRegion_of_mem_all wf hloop).preheader_dominates hpre
  liesInside := by
    intro other hother hmem
    obtain ⟨hheader, _⟩ := (preheader_mem_iff wf.consistent hloop hother hpre).mp hmem
    exact ⟨blocks_subset_of_header_mem wf.consistent hloop hother hheader,
      fun hback => hpre.not_mem (hback hmem)⟩

end

end NaturalLoop

/-- The search for a preheader looks at the edges of the header alone.  That is enough. -/
theorem Program.preheader_of_parse {text : String} {program : Program}
    (hparse : Program.parse text = .ok program) {func : Func} (hfunc : func ∈ program.funcs)
    {loop : NaturalLoop} (hloop : loop ∈ NaturalLoop.all func.graph (Dominance.ofGraph func.graph))
    (position : Nat) :
    (loop.preheader? func.graph = some position ↔ loop.IsOnlyWayIn func.graph position) ∧
      (loop.preheader? func.graph = some position → loop.LiesBefore func.graph position) := by
  have wf := wellFormed_of_parse hparse func hfunc
  refine ⟨NaturalLoop.preheader?_iff_isOnlyWayIn wf hloop, fun hpreheader => ?_⟩
  exact (NaturalLoop.isPreheader_of_preheader? wf hpreheader).liesBefore wf hloop

/-- The only way to the body is through the test, so the test is the header of a loop, and
the first block is the only one that leads there from outside. -/
theorem guardedFunc_preheader : Program.parse guardedText = .ok ⟨[guardedFunc]⟩ ∧
    ∃ loop ∈ NaturalLoop.all guardedFunc.graph (Dominance.ofGraph guardedFunc.graph),
      loop.header = 1 ∧ loop.preheader? guardedFunc.graph = some 0 ∧
      loop.LiesBefore guardedFunc.graph 0 := by
  have wf := Program.wellFormed_of_parse parse_guardedText guardedFunc List.mem_cons_self
  have hentry : guardedFunc.graph.Edge 0 1 := ⟨_, rfl, by decide⟩
  have hbody : guardedFunc.graph.Edge 1 2 := ⟨_, rfl, by decide⟩
  have hlatch : guardedFunc.graph.IsLatch 1 2 := by
    refine ⟨⟨_, rfl, by decide⟩, ⟨[1, 0], .step (.step .entry hentry) hbody⟩, ?_⟩
    intro earlier hpath
    cases hpath with
    | @step source _ _ _ hedge =>
        have hsource : source ∈ [1] := (wf.mem_prev rfl).mpr hedge
        simp [List.mem_singleton.mp hsource]
  obtain ⟨loop, hloop, hheader⟩ := List.mem_map.mp
    ((NaturalLoop.mem_headers_iff wf.consistent).mpr ⟨⟨[0], .step .entry hentry⟩, 2, hlatch⟩)
  obtain ⟨hiff, hbefore⟩ :=
    Program.preheader_of_parse parse_guardedText List.mem_cons_self hloop 0
  have honly : loop.IsOnlyWayIn guardedFunc.graph 0 := by
    refine ⟨fun {source} hedge hout => ?_, _, rfl, rfl⟩
    have hsource : source ∈ [0, 2] := (wf.mem_prev rfl).mpr (hheader ▸ hedge)
    rcases List.mem_pair.mp hsource with rfl | rfl
    · rfl
    · rw [(NaturalLoop.isLoopIn_of_mem_all wf.consistent hloop).mem_iff_isLatch hedge,
        hheader] at hout
      exact absurd hlatch hout
  exact ⟨parse_guardedText, loop, hloop, hheader, hiff.mpr honly, hbefore (hiff.mpr honly)⟩

end LoopHoist
