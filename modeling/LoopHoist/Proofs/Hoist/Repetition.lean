import LoopHoist.Proofs.Hoist.Rounds

/-!
# Hoisting out of a loop twice

A visit takes instructions out of the bodies of a loop and adds none.  What the loop writes
to memory, its preheader and its ways out stay the same, so a second visit with the same facts
judges as the first one did, but for one condition: the loop defines less than before.  What
moves now was held back by its operands alone, and those that the loop defined have gone ahead.
-/

namespace LoopHoist

variable {policy : Policy}

namespace LoopSummary

variable {summary : LoopSummary} {facts : Facts} {instr : Instr} {id : Int}

/-- All that is asked of an invariant instruction, apart from what it reads. -/
def suits (summary : LoopSummary) (facts : Facts) (policy : Policy) (instr : Instr) (id : Int) :
    Bool :=
  !instr.isTerminator && !instr.isPhi && !instr.hasSideEffect &&
    (!instr.accessesMemory || summary.loadIsSafe facts policy instr id) &&
    summary.preheaderId.any fun preheader => facts.dominance.dominates preheader id

theorem isInvariant_eq_true_iff : summary.isInvariant facts policy instr id = true ↔
    summary.suits facts policy instr id = true ∧
      ∀ symbol ∈ instr.reads, symbol ∉ summary.defined := by
  simp only [isInvariant, decide_eq_true_eq, verdict_eq_invariant_iff, suits, Bool.and_eq_true,
    Bool.not_eq_true', Bool.or_eq_true, Option.any_eq_true, ← Bool.not_eq_true, ← imp_iff_not_or]
  grind

end LoopSummary

namespace Graph

variable {graph : Graph} {loop : NaturalLoop} {facts : Facts} {instr : Instr} {id : Int}
  {position : Nat} {symbol : Symbol}

/-- In one graph an instruction is all that it has to be, and of its operands that the loop
defines there, the loop defines none in another graph. -/
def Released (graph next : Graph) (facts : Facts) (policy : Policy) (loop : NaturalLoop)
    (instr : Instr) (id : Int) : Prop :=
  (LoopSummary.ofLoop graph facts.origins loop).suits facts policy instr id = true ∧
    ∀ symbol ∈ instr.reads, graph.Defines loop symbol → ¬next.Defines loop symbol

instance {next : Graph} : Decidable (graph.Released next facts policy loop instr id) :=
  inferInstanceAs (Decidable (_ ∧ _))

/-! ## What the first visit leaves -/

section

variable (hids : graph.DistinctIds) (hnodup : loop.blocks.Nodup)

include hids hnodup

/-- Inside the loop a visit only takes away. -/
theorem holds_visit_iff_of_mem (hposition : position ∈ loop.blocks) :
    (graph.visit facts policy loop).Holds position instr ↔
      graph.Holds position instr ∧ graph.leaves facts policy loop position instr = false := by
  rw [holds_visit_iff hids hnodup, or_iff_left]
  rintro ⟨hpreheader, _⟩
  exact (preheader?_eq_some hpreheader).1 hposition

/-- What a loop writes to memory does not leave it. -/
theorem mem_written_visit_iff {origins : OriginTable} {written : Origin} :
    written ∈ (LoopSummary.ofLoop (graph.visit facts policy loop) origins loop).written ↔
      written ∈ (LoopSummary.ofLoop graph origins loop).written := by
  simp only [mem_written_iff]
  refine exists_congr fun position => and_congr_right fun hposition =>
    exists_congr fun writer => and_congr_left fun hwritten => ?_
  have heffect : writer.hasSideEffect = true :=
    Instr.hasSideEffect_of_writesMemory (LoopSummary.writesMemory_of_writtenBy hwritten)
  rw [holds_visit_iff_of_mem hids hnodup hposition, and_iff_left (leaves_eq_false heffect position)]

theorem loadIsSafe_visit :
    (LoopSummary.ofLoop (graph.visit facts policy loop) facts.origins loop).loadIsSafe facts policy
        instr id =
      (LoopSummary.ofLoop graph facts.origins loop).loadIsSafe facts policy instr id := by
  have hunavoidable := @unavoidable_eq_of_shape _ _ loop facts.origins facts.origins
    (shape_visit hids hnodup : (graph.visit facts policy loop).shape = graph.shape)
  rw [Bool.eq_iff_iff]
  simp only [LoopSummary.loadIsSafe_eq_true_iff, mem_written_visit_iff hids hnodup, hunavoidable]

theorem suits_visit :
    (LoopSummary.ofLoop (graph.visit facts policy loop) facts.origins loop).suits facts policy
        instr id =
      (LoopSummary.ofLoop graph facts.origins loop).suits facts policy instr id := by
  have hpreheader := @preheaderId_eq_of_shape _ _ loop facts.origins facts.origins
    (shape_visit hids hnodup : (graph.visit facts policy loop).shape = graph.shape)
  simp only [LoopSummary.suits, loadIsSafe_visit hids hnodup, hpreheader]

/-- What a loop no longer defines after a visit, a phi never defined, and every instruction
that did has left. -/
theorem defines_visit_iff :
    (graph.visit facts policy loop).Defines loop symbol ↔ ∃ position ∈ loop.blocks,
      (∃ block, graph.block? position = some block ∧ symbol ∈ block.phis.map Phi.target) ∨
      ∃ writer, (graph.Holds position writer ∧
        graph.leaves facts policy loop position writer = false) ∧ writer.write? = some symbol := by
  rw [defines_iff]
  refine exists_congr fun position => and_congr_right fun hposition => or_congr ?_ ?_
  · simp only [block?_visit hids hnodup, Option.map_eq_some_iff]
    constructor
    · rintro ⟨_, ⟨block, hblock, rfl⟩, hphi⟩
      exact ⟨block, hblock, hphi⟩
    · rintro ⟨block, hblock, hphi⟩
      exact ⟨_, ⟨block, hblock, rfl⟩, hphi⟩
  · simp only [holds_visit_iff_of_mem hids hnodup hposition]

theorem Defines.of_visit (h : (graph.visit facts policy loop).Defines loop symbol) :
    graph.Defines loop symbol := by
  obtain ⟨position, hposition, hphi | ⟨writer, ⟨hholds, _⟩, hwrite⟩⟩ :=
    (defines_visit_iff hids hnodup).mp h
  · exact defines_iff.mpr ⟨position, hposition, .inl hphi⟩
  · exact defines_iff.mpr ⟨position, hposition, .inr ⟨writer, hholds, hwrite⟩⟩

/-- An operand that the loop defined and does not define any more is a result that left. -/
theorem Defines.exists_leaving (h : graph.Defines loop symbol)
    (hgone : ¬(graph.visit facts policy loop).Defines loop symbol) :
    ∃ producer ∈ graph.leaving facts policy loop, producer.write? = some symbol := by
  rw [defines_visit_iff hids hnodup] at hgone
  obtain ⟨position, hposition, hphi | ⟨writer, hholds, hwrite⟩⟩ :=
    defines_iff.mp h
  · exact absurd ⟨position, hposition, .inl hphi⟩ hgone
  · cases hleaves : graph.leaves facts policy loop position writer with
    | false => exact absurd ⟨position, hposition, .inr ⟨writer, ⟨hholds, hleaves⟩, hwrite⟩⟩ hgone
    | true => exact ⟨writer, mem_leaving_iff.mpr ⟨position, hholds, hleaves⟩, hwrite⟩

/-! ## What the second visit takes -/

theorem isInvariant_visit_iff :
    (LoopSummary.ofLoop (graph.visit facts policy loop) facts.origins loop).isInvariant facts policy
        instr id = true ↔
      graph.Released (graph.visit facts policy loop) facts policy loop instr id := by
  rw [LoopSummary.isInvariant_eq_true_iff, suits_visit hids hnodup, Released]
  refine and_congr_right fun _ => forall₂_congr fun symbol _ => ?_
  rw [mem_defined_iff]
  exact ⟨fun hnot _ => hnot, fun himp hdefines => himp (hdefines.of_visit hids hnodup) hdefines⟩

theorem mem_leaving_visit_iff :
    instr ∈ (graph.visit facts policy loop).leaving facts policy loop ↔ ∃ position ∈ loop.blocks,
      ∃ block, (graph.visit facts policy loop).block? position = some block ∧ instr ∈ block.body ∧
        graph.Released (graph.visit facts policy loop) facts policy loop instr block.id := by
  rw [mem_leaving_iff]
  constructor
  · rintro ⟨position, ⟨block, hblock, hmem⟩, hleaves⟩
    rw [leaves_of_block? _ _ _ _ hblock, Bool.and_eq_true, decide_eq_true_eq,
      isInvariant_visit_iff hids hnodup] at hleaves
    exact ⟨position, hleaves.1, block, hblock, hmem, hleaves.2⟩
  · rintro ⟨position, hposition, block, hblock, hmem, hreleased⟩
    refine ⟨position, ⟨block, hblock, hmem⟩, ?_⟩
    rw [leaves_of_block? _ _ _ _ hblock, Bool.and_eq_true, decide_eq_true_eq,
      isInvariant_visit_iff hids hnodup]
    exact ⟨hposition, hreleased⟩

/-- Only an operand can have held back what leaves at the second visit. -/
theorem exists_producer_of_mem_leaving_visit
    (h : instr ∈ (graph.visit facts policy loop).leaving facts policy loop) :
    ∃ producer ∈ graph.leaving facts policy loop, ∃ symbol ∈ instr.reads,
      producer.write? = some symbol := by
  obtain ⟨position, hposition, block, hblock, hmem, hsuits, hgone⟩ :=
    (mem_leaving_visit_iff hids hnodup).mp h
  obtain ⟨⟨former, hformer, _⟩, hstay⟩ :=
    (holds_visit_iff_of_mem hids hnodup hposition).mp ⟨block, hblock, hmem⟩
  have hid : former.id = block.id := by
    rw [block?_visit hids hnodup, hformer] at hblock
    cases hblock
    rfl
  have hheld : ¬∀ symbol ∈ instr.reads, ¬graph.Defines loop symbol := by
    intro hnone
    rw [← Bool.not_eq_true, leaves_of_block? _ _ _ _ hformer, Bool.and_eq_true, decide_eq_true_eq,
      LoopSummary.isInvariant_eq_true_iff, hid] at hstay
    simp only [mem_defined_iff] at hstay
    exact hstay ⟨hposition, hsuits, hnone⟩
  push Not at hheld
  obtain ⟨symbol, hread, hdefines⟩ := hheld
  obtain ⟨producer, hproducer, hwrite⟩ :=
    hdefines.exists_leaving hids hnodup (hgone symbol hread hdefines)
  exact ⟨producer, hproducer, symbol, hread, hwrite⟩

/-- Hoisting a second time takes what the first time held back for its operands alone, if the
loop defines none of these any more: all of it reads what moved the first time.  Nothing
changes if there is no such instruction. -/
theorem hoistLoop_twice (facts : Facts) (policy : Policy) :
    ∃ next first last second,
      graph.hoistLoop facts policy loop = .ok (next, first) ∧
      next.hoistLoop facts policy loop = .ok (last, second) ∧
      second.hoisted = next.discovered loop
        (fun instr id => decide (graph.Released next facts policy loop instr id)) ∧
      (∀ {preheader : Nat}, loop.preheader? graph = some preheader → last = next.sifted loop
        (fun instr id => decide (graph.Released next facts policy loop instr id)) preheader) ∧
      (∀ instr ∈ second.hoisted, ∃ producer ∈ first.hoisted, ∃ symbol ∈ instr.reads,
        producer.write? = some symbol) ∧
      (last = next ↔ ¬∃ position ∈ loop.blocks, ∃ block, next.block? position = some block ∧
        ∃ instr ∈ block.body, graph.Released next facts policy loop instr block.id) := by
  have hshape : (graph.visit facts policy loop).shape = graph.shape := shape_visit hids hnodup
  have hids' : (graph.visit facts policy loop).DistinctIds := hids.of_shape hshape
  obtain ⟨first, hfirst, hleft⟩ := hoistLoop_eq_visit hids hnodup facts policy
  obtain ⟨second, hsecond, hleft'⟩ := hoistLoop_eq_visit hids' hnodup facts policy
  have htest : (LoopSummary.ofLoop (graph.visit facts policy loop) facts.origins loop).isInvariant
      facts policy = fun instr id =>
        decide (graph.Released (graph.visit facts policy loop) facts policy loop instr id) := by
    funext instr id
    rw [Bool.eq_iff_iff, decide_eq_true_eq, isInvariant_visit_iff hids hnodup]
  refine ⟨_, first, _, second, hfirst, hsecond, ?_, ?_, ?_, ?_⟩
  · rw [hleft', leaving_eq_discovered, htest]
  · intro preheader hpreheader
    rw [← NaturalLoop.preheader?_eq_of_shape hshape] at hpreheader
    obtain ⟨last, hlast, hsifts, hrun⟩ := hoistLoop_sifts hids' hnodup hpreheader facts policy
    rw [visit_eq hlast, hsifts.eq_sifted (shape_eq_of_relocations hrun)
      (preheader?_eq_some hpreheader).1, htest]
  · rw [hleft, hleft']
    exact fun instr => exists_producer_of_mem_leaving_visit hids hnodup
  · rw [visit_eq_self_iff hids' hnodup, List.eq_nil_iff_forall_not_mem]
    simp only [mem_leaving_visit_iff hids hnodup]
    grind

end

/-- The sum that reads the product leaves the second time, when the product is gone; the
difference that reads the sum still stays. -/
theorem hoistLoop_twice_pairGraph :
    pairGraph.DistinctIds ∧ [2, 1].Nodup ∧ ∃ next first last second,
      pairGraph.hoistLoop madeUpFacts .conservative ⟨1, [2, 1]⟩ = .ok (next, first) ∧
      next.hoistLoop madeUpFacts .conservative ⟨1, [2, 1]⟩ = .ok (last, second) ∧
      (first.hoisted.filterMap Instr.write?).map Symbol.name = ["n", "r", "k"] ∧
      (second.hoisted.filterMap Instr.write?).map Symbol.name = ["m"] ∧
      last.blocks.map (fun block => block.defs.map Symbol.name) =
        [["x", "n", "r", "k", "m"], [], ["q"]] := by
  have hids : pairGraph.DistinctIds := DistinctIds.of_nodup (by decide)
  have hnodup : [2, 1].Nodup := by decide
  have hpreheader : NaturalLoop.preheader? pairGraph ⟨1, [2, 1]⟩ = some 0 := by decide
  obtain ⟨next, first, last, second, hfirst, hsecond, hhoisted, hlast, _⟩ :=
    @hoistLoop_twice pairGraph ⟨1, [2, 1]⟩ hids hnodup madeUpFacts .conservative
  obtain ⟨_, hfound, hsifts, hrun⟩ :=
    hoistLoop_sifts hids hnodup hpreheader madeUpFacts .conservative
  cases hfirst.symm.trans hfound
  obtain rfl := hsifts.eq_sifted (shape_eq_of_relocations hrun) (by decide)
  refine ⟨hids, hnodup, _, _, last, second, hfirst, hsecond, ?_, ?_, ?_⟩
  · rfl
  · rw [hhoisted]
    decide
  · rw [hlast hpreheader]
    decide

end Graph

end LoopHoist
