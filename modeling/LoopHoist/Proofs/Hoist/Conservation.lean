import LoopHoist.Proofs.SSA.Hoist
import Mathlib.Algebra.BigOperators.Group.Finset.Piecewise
import Mathlib.Data.Finset.Card

/-!
# What hoisting conserves

Hoisting only moves instructions between bodies, and what touches memory or calls
keeps its place among its like in its own block.  Every step brings an instruction
to a block that fewer blocks dominate, so hoisting never comes back to a graph that
it has left: a pass reports a change exactly if it has made one.
-/

namespace LoopHoist

variable {policy : Policy}

/-! ## Hoisting makes progress -/

namespace Graph

variable {graph next other : Graph}

open Classical in
/-- The number of blocks that dominate a block. -/
noncomputable def depth (graph : Graph) (position : Nat) : Nat :=
  ((Finset.range graph.blocks.length).filter fun above => graph.Dominates above position).card

def bodyLength (graph : Graph) (position : Nat) : Nat :=
  (graph.block? position).elim 0 fun block => block.body.length

/-- The depths of all instructions in bodies, added up. -/
noncomputable def weight (graph : Graph) : Nat :=
  ∑ position ∈ Finset.range graph.blocks.length, graph.depth position * graph.bodyLength position

theorem length_eq_of_shape (hshape : other.shape = graph.shape) :
    other.blocks.length = graph.blocks.length := by
  simpa [shape] using congrArg (fun graph => graph.blocks.length) hshape

theorem depth_eq_of_shape (hshape : other.shape = graph.shape) (position : Nat) :
    other.depth position = graph.depth position := by
  unfold depth
  rw [length_eq_of_shape hshape]
  congr 1
  ext above
  simp [dominates_iff_of_shape hshape]

theorem depth_lt {above position : Nat} {block : Block} (hdominates : graph.Dominates above position)
    (hblock : graph.block? position = some block) (hnot : ¬graph.Dominates position above) :
    graph.depth above < graph.depth position := by
  apply Finset.card_lt_card
  rw [Finset.ssubset_iff_of_subset]
  · refine ⟨position, ?_, ?_⟩
    · have hlt := (List.getElem?_eq_some_iff.mp hblock).1
      simp [hlt, Dominates.refl]
    · simp [hnot]
  · intro third
    simp only [Finset.mem_filter]
    exact fun ⟨hrange, hthird⟩ => ⟨hrange, hthird.trans hdominates⟩

section

variable {source index destination : Nat} {instr : Instr} {landing : Block}

theorem bodyLength_move (hinstr : graph.HasInstr source index instr)
    (hlanding : graph.block? destination = some landing) (position : Nat) :
    (graph.move source index destination instr).bodyLength position +
        (if position = source then 1 else 0) =
      graph.bodyLength position + if position = destination then 1 else 0 := by
  obtain ⟨home, hhome, hget⟩ := hinstr
  have hlt := (List.getElem?_eq_some_iff.mp hget).1
  unfold bodyLength
  rw [block?_move]
  by_cases hsource : position = source <;> by_cases hdestination : position = destination
  · subst hsource
    subst hdestination
    simp [hhome, List.length_eraseIdx_of_lt hlt]
    omega
  · subst hsource
    simp [hhome, hdestination, Ne.symm hdestination, List.length_eraseIdx_of_lt hlt]
    omega
  · subst hdestination
    simp [hlanding, hsource, Ne.symm hsource]
  · cases graph.block? position with
    | none => simp [hsource, hdestination]
    | some block => simp [hsource, hdestination, Ne.symm hsource, Ne.symm hdestination]

/-- A move replaces the depth of the old block by the depth of the new one. -/
theorem weight_move (hinstr : graph.HasInstr source index instr)
    (hlanding : graph.block? destination = some landing) :
    (graph.move source index destination instr).weight + graph.depth source =
      graph.weight + graph.depth destination := by
  have hshape := shape_move graph source index destination instr
  obtain ⟨home, hhome, _⟩ := id hinstr
  have hsource := (List.getElem?_eq_some_iff.mp hhome).1
  have hdestination := (List.getElem?_eq_some_iff.mp hlanding).1
  have hterms : ∀ position ∈ Finset.range graph.blocks.length,
      graph.depth position * (graph.move source index destination instr).bodyLength position +
          (if position = source then graph.depth position else 0) =
        graph.depth position * graph.bodyLength position +
          if position = destination then graph.depth position else 0 := by
    intro position _
    have hlength := congrArg (graph.depth position * ·)
      (bodyLength_move hinstr hlanding position)
    simpa [Nat.mul_add] using hlength
  have hsum := Finset.sum_congr rfl hterms
  rw [Finset.sum_add_distrib, Finset.sum_add_distrib, Finset.sum_ite_eq', Finset.sum_ite_eq',
    if_pos (Finset.mem_range.mpr hsource), if_pos (Finset.mem_range.mpr hdestination)] at hsum
  unfold weight
  rw [length_eq_of_shape hshape]
  simp only [depth_eq_of_shape hshape]
  exact hsum

end

theorem HoistStep.weight_lt (h : HoistStep policy graph next) : next.weight < graph.weight := by
  cases h with
  | @hoist loop origins preheader source index instr hregion hpre _ hhoistable hinstr =>
      obtain ⟨landing, hlanding, _⟩ := id hpre.succ_eq
      obtain ⟨block, hblock, _⟩ := id hinstr
      have hweight := weight_move hinstr hlanding
      have hdepth := depth_lt (hregion.preheader_dominates hpre hhoistable.source_mem) hblock
        (hregion.not_dominates_preheader hpre hhoistable.source_mem)
      omega

theorem Hoists.weight_le (h : Hoists policy graph next) : next.weight ≤ graph.weight := by
  induction h with
  | refl => exact le_rfl
  | tail _ hstep ih => exact (hstep.weight_lt.le).trans ih

/-- Hoisting never comes back to where it was. -/
theorem Hoists.antisymm (h : Hoists policy graph next) (hback : Hoists policy next graph) :
    next = graph := by
  cases h.cases_head with
  | inl heq => exact heq.symm
  | inr hfirst =>
      obtain ⟨middle, hstep, hrest⟩ := hfirst
      have hlt := hstep.weight_lt
      have hle := Hoists.weight_le hrest
      have hle' := hback.weight_le
      omega

theorem Hoists.ne_iff {last : Graph} (h : Hoists policy graph next) (hrest : Hoists policy next last) :
    last ≠ graph ↔ next ≠ graph ∨ last ≠ next := by
  rw [← not_and_or, not_iff_not]
  constructor
  · rintro rfl
    have heq := h.antisymm hrest
    exact ⟨heq, heq.symm⟩
  · rintro ⟨rfl, rfl⟩
    rfl

end Graph

/-! ## Instructions that stay -/

/-- Stores, calls and allocations never leave their block, and loads only do where the
policy looks at what they may overlap. -/
def Instr.staysPut (policy : Policy) : Instr → Bool
  | .store _ _ | .call _ _ _ _ | .alloc _ _ _ => true
  | .load _ _ _ => decide (policy = .conservative)
  | _ => false

theorem Graph.Hoistable.staysPut_eq_false {graph : Graph} {loop : NaturalLoop}
    {origins : OriginTable} {source : Nat} {instr : Instr}
    (h : graph.Hoistable loop origins policy source instr) : instr.staysPut policy = false := by
  rcases h.kind with hcomputation | ⟨rfl, target, ty, address, rfl, _⟩
  · cases instr <;> simp_all [Instr.isComputation, Instr.staysPut]
  · rfl

/-- The bodies of two blocks differ at most in instructions that may leave. -/
structure Block.Conserves (policy : Policy) (block next : Block) : Prop where
  shell_eq : next.shell = block.shell
  fixed_eq : next.body.filter (Instr.staysPut policy) = block.body.filter (Instr.staysPut policy)

namespace Graph

variable {graph next : Graph}

theorem HoistStep.conserves (h : HoistStep policy graph next) {position : Nat} {block : Block}
    (hblock : graph.block? position = some block) :
    ∃ twin, next.block? position = some twin ∧ block.Conserves policy twin := by
  cases h with
  | @hoist loop origins preheader source index instr hregion hpre _ hhoistable hinstr =>
      have hfree := hhoistable.staysPut_eq_false
      rw [block?_move, hblock]
      refine ⟨_, rfl, rfl, ?_⟩
      rw [List.filter_append]
      have hlanded : (if preheader = position then [instr] else []).filter
          (Instr.staysPut policy) = [] := by
        split <;> simp [hfree]
      rw [hlanded, List.append_nil]
      split
      · rename_i hsource
        subst hsource
        obtain ⟨home, before, after, hhome, hbody, _, herase⟩ := hinstr.split
        cases hblock.symm.trans hhome
        rw [hbody, herase]
        simp [hfree]
      · rfl

theorem Hoists.conserves (h : Hoists policy graph next) {position : Nat} {block : Block}
    (hblock : graph.block? position = some block) :
    ∃ twin, next.block? position = some twin ∧ block.Conserves policy twin := by
  induction h with
  | refl => exact ⟨block, hblock, rfl, rfl⟩
  | tail _ hstep ih =>
      obtain ⟨middle, hmiddle, hfirst⟩ := ih
      obtain ⟨twin, htwin, hsecond⟩ := hstep.conserves hmiddle
      exact ⟨twin, htwin, hsecond.shell_eq.trans hfirst.shell_eq,
        hsecond.fixed_eq.trans hfirst.fixed_eq⟩

/-- The instructions of a graph are those of its bodies and those of its shape. -/
theorem instrs_perm (graph : Graph) :
    (graph.blocks.flatMap Block.instrs).Perm
      (graph.shape.blocks.flatMap Block.instrs ++ graph.bodies) := by
  rw [List.perm_iff_count]
  intro instr
  simp only [shape, bodies]
  induction graph.blocks with
  | nil => simp
  | cons block blocks ih =>
      simp only [List.flatMap_cons, List.map_cons, List.count_append, Block.instrs,
        Block.shell] at ih ⊢
      simp only [List.count_nil] at *
      omega

theorem Hoists.instrs_perm (h : Hoists policy graph next) :
    (next.blocks.flatMap Block.instrs).Perm (graph.blocks.flatMap Block.instrs) := by
  refine (next.instrs_perm.trans ?_).trans graph.instrs_perm.symm
  rw [h.shape_eq]
  exact h.bodies_perm.append_left _

end Graph

/-- Two functions differ at most in where in their bodies some instructions stand. -/
structure Func.Conserves (policy : Policy) (func next : Func) : Prop where
  name_eq : next.name = func.name
  returnTy_eq : next.returnTy = func.returnTy
  params_eq : next.params = func.params
  blocks : List.Forall₂ (Block.Conserves policy) func.graph.blocks next.graph.blocks
  instrs_perm : (next.graph.blocks.flatMap Block.instrs).Perm
    (func.graph.blocks.flatMap Block.instrs)

theorem Func.Hoists.conserves {func next : Func} (h : func.Hoists policy next) :
    func.Conserves policy next where
  name_eq := by rw [h.frame_eq]
  returnTy_eq := by rw [h.frame_eq]
  params_eq := by rw [h.frame_eq]
  blocks := by
    rw [List.forall₂_iff_get]
    refine ⟨(Graph.length_eq_of_shape h.steps.shape_eq).symm, fun position hlt hlt' => ?_⟩
    obtain ⟨twin, htwin, hconserves⟩ := h.steps.conserves (List.getElem?_eq_getElem hlt)
    cases htwin.symm.trans (List.getElem?_eq_getElem hlt')
    exact hconserves
  instrs_perm := h.steps.instrs_perm

/-! ## Reports of change -/

theorem Graph.hoistLoops_changed_iff {graph next : Graph} {loops : List NaturalLoop}
    {reports : List HoistReport} {facts : Facts} (wf : graph.WellFormed)
    (hregions : ∀ loop ∈ loops, loop.IsRegion graph)
    (horigins : facts.origins.Describes graph.bodies)
    (h : hoistLoops facts policy loops graph = .ok (next, reports)) :
    Hoists policy graph next ∧ (reports.any HoistReport.changed = true ↔ next ≠ graph) := by
  induction loops generalizing graph reports with
  | nil =>
      cases h
      exact ⟨.refl, by simp⟩
  | cons loop loops ih =>
      rw [List.forall_mem_cons] at hregions
      obtain ⟨middle, report, hmiddle, hhoisted⟩ :=
        hoistLoop_isHoisted wf hregions.1 horigins policy
      obtain ⟨_, hgiven, h⟩ := bind_eq_ok_iff.mp h
      cases hgiven.symm.trans hmiddle
      obtain ⟨⟨last, later⟩, hlater, h⟩ := bind_eq_ok_iff.mp h
      cases h
      have hfirst := hhoisted.steps
      obtain ⟨hrest, hchanged⟩ := ih (hfirst.wellFormed wf)
        (fun other hother => (hregions.2 other hother).of_shape hfirst.shape_eq)
        (horigins.mono hfirst.bodies_perm.symm.subset) hlater
      refine ⟨hfirst.trans hrest, ?_⟩
      rw [List.any_cons, Bool.or_eq_true, hhoisted.changed_iff, hchanged,
        Hoists.ne_iff hfirst hrest]

theorem Func.hoist_changed_iff {func next : Func} {run : FuncRun} (wf : func.graph.WellFormed)
    (h : func.hoist policy = .ok (next, run)) : run.changed = true ↔ next ≠ func := by
  obtain ⟨graph, reports, hloops, rfl, rfl⟩ := (hoist_eq_ok_iff wf).mp h
  have hchanged := (Graph.hoistLoops_changed_iff wf (fun _ => Facts.isRegion_of_mem_visited wf)
    (Facts.describes_origins func.graph) hloops).2
  rw [FuncRun.changed, hchanged]
  obtain ⟨name, returnTy, params, former⟩ := func
  simp

theorem Program.hoist_changed_iff {program next : Program} {round : Round}
    (wf : ∀ func ∈ program.funcs, func.graph.WellFormed)
    (h : program.hoist policy = .ok (next, round)) : round.changed = true ↔ next ≠ program := by
  obtain ⟨funcs⟩ := program
  rw [Program.hoist, bind_eq_ok_iff] at h
  obtain ⟨results, hresults, ⟨⟩⟩ := h
  rw [Ne, Program.mk.injEq, Round.changed, List.any_map]
  replace hresults := mapM_eq_ok_iff.mp hresults
  dsimp only at wf hresults ⊢
  induction hresults with
  | nil => simp
  | @cons func result funcs results hfirst _ ih =>
      rw [List.forall_mem_cons] at wf
      have hhead : result.2.changed = true ↔ result.1 ≠ func :=
        Func.hoist_changed_iff wf.1 hfirst
      simp only [List.any_cons, Bool.or_eq_true, Function.comp_apply, hhead, ih wf.2,
        List.map_cons, List.cons.injEq]
      tauto

/-- A pass over a program, and any number of them, moves instructions between bodies
and does nothing else; a pass tells whether it did anything. -/
theorem Program.conserves_hoist_optimize {text : String} {program : Program}
    (hparse : Program.parse text = .ok program) (policy : Policy) (maxRounds : Nat) :
    (∃ next round, program.hoist policy = .ok (next, round) ∧
      List.Forall₂ (Func.Conserves policy) program.funcs next.funcs ∧
      (round.changed = true ↔ next ≠ program)) ∧
    ∃ optimized rounds, program.optimize ⟨policy, maxRounds⟩ = .ok (optimized, rounds) ∧
      List.Forall₂ (Func.Conserves policy) program.funcs optimized.funcs := by
  have wf := wellFormed_of_parse hparse
  obtain ⟨next, round, hnext, hfirst⟩ := hoist_eq_ok wf policy
  obtain ⟨optimized, rounds, hoptimized, hlast⟩ := optimize_eq_ok wf ⟨policy, maxRounds⟩
  exact ⟨⟨next, round, hnext, hfirst.imp fun _ _ => Func.Hoists.conserves,
      hoist_changed_iff wf hnext⟩,
    optimized, rounds, hoptimized, hlast.imp fun _ _ => Func.Hoists.conserves⟩

theorem guardedFunc_conserves : ∃ next round, (Program.mk [guardedFunc]).hoist .aliasAware =
      .ok (next, round) ∧ round.changed = true ∧ next ≠ ⟨[guardedFunc]⟩ ∧
    List.Forall₂ (Func.Conserves .aliasAware) [guardedFunc] next.funcs := by
  have hchanged : (((Program.mk [guardedFunc]).hoist .aliasAware).toOption.map
      fun result => result.2.changed) = some true := by
    decide +kernel
  obtain ⟨⟨next, round, hhoist, hconserves, hiff⟩, _⟩ :=
    Program.conserves_hoist_optimize parse_guardedText .aliasAware 8
  have hround : round.changed = true := by
    simpa [hhoist, Except.toOption] using hchanged
  exact ⟨next, round, hhoist, hround, hiff.mp hround, hconserves⟩

end LoopHoist
