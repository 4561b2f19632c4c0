import LoopHoist.Hoist.Optimize
import LoopHoist.Proofs.Flow.Forest
import LoopHoist.Proofs.Flow.Origin
import LoopHoist.Proofs.Hoist.Effect

/-!
# Hoisting as a run of single steps

A hoisting step moves one instruction from a block of a loop to the end of the
preheader.  The step carries what the verdict on the instruction promises, so
whatever every single step keeps is kept by hoisting out of any number of
loops.
-/

namespace LoopHoist

namespace Instr

/-- Arithmetic, comparisons, conversions and element addresses: the result depends
on the operands alone. -/
def isComputation : Instr → Bool
  | arith _ _ _ _ _ | compare _ _ _ _ _ _ | convert _ _ _ _ _ | element _ _ _ _ => true
  | _ => false

theorem isComputation_eq_true_iff {instr : Instr} : instr.isComputation = true ↔
    instr.isTerminator = false ∧ instr.isPhi = false ∧ instr.hasSideEffect = false ∧
      instr.accessesMemory = false := by
  cases instr <;>
    simp [isTerminator, isPhi, hasSideEffect, accessesMemory, readsMemory, writesMemory,
      isComputation]

end Instr

/-! ## Steps -/

namespace Graph

variable {graph next : Graph} {loop : NaturalLoop} {policy : Policy} {origins : OriginTable}

/-- A load of an address in a loop that writes to nothing its origin overlaps. -/
def LoadIsSteady (graph : Graph) (loop : NaturalLoop) (origins : OriginTable) (address : Operand) :
    Prop :=
  ∀ {position : Nat} {block : Block} {other : Instr} {written : Origin},
    position ∈ loop.blocks → graph.block? position = some block → other ∈ block.body →
      LoopSummary.writtenBy origins other = some written →
        (origins.origin address).mayOverlap written = false

/-- What makes an instruction of a loop fit to leave it. -/
structure Hoistable (graph : Graph) (loop : NaturalLoop) (origins : OriginTable) (policy : Policy)
    (source : Nat) (instr : Instr) : Prop where
  source_mem : source ∈ loop.blocks
  kind : instr.isComputation = true ∨ policy = .aliasAware ∧
    ∃ target ty address, instr = .load target ty address ∧ graph.LoadIsSteady loop origins address
  operands : ∀ {position : Nat} {block : Block} {symbol : Symbol}, position ∈ loop.blocks →
    graph.block? position = some block → symbol ∈ instr.reads → symbol ∉ block.defs

inductive HoistStep (policy : Policy) : Graph → Graph → Prop
  | hoist {graph : Graph} {loop : NaturalLoop} {origins : OriginTable}
      {preheader source index : Nat} {instr : Instr} :
      loop.IsRegion graph → loop.IsPreheader graph preheader → origins.Describes graph.bodies →
      graph.Hoistable loop origins policy source instr → graph.HasInstr source index instr →
      HoistStep policy graph (graph.move source index preheader instr)

abbrev Hoists (policy : Policy) : Graph → Graph → Prop := Relation.ReflTransGen (HoistStep policy)

namespace HoistStep

theorem shape_eq (h : HoistStep policy graph next) : next.shape = graph.shape := by
  cases h with
  | hoist => exact shape_move ..

theorem bodies_perm (h : HoistStep policy graph next) : next.bodies.Perm graph.bodies := by
  cases h with
  | hoist _ hpre _ _ hinstr =>
      obtain ⟨block, hblock, _⟩ := hpre.succ_eq
      exact bodies_move_perm hinstr hblock

theorem wellFormed (h : HoistStep policy graph next) (wf : graph.WellFormed) :
    next.WellFormed := by
  cases h with
  | hoist _ hpre _ _ hinstr =>
      obtain ⟨block, hblock, _⟩ := hpre.succ_eq
      exact wf.move hinstr hblock

/-- Whatever may be hoisted under the cautious policy may be hoisted. -/
theorem aliasAware (h : HoistStep policy graph next) : HoistStep .aliasAware graph next := by
  cases h with
  | hoist hregion hpre horigins hhoistable hinstr =>
      refine .hoist hregion hpre horigins ⟨hhoistable.source_mem, ?_, hhoistable.operands⟩ hinstr
      exact hhoistable.kind.imp_right fun hload => ⟨rfl, hload.2⟩

end HoistStep

namespace Hoists

theorem shape_eq (h : Hoists policy graph next) : next.shape = graph.shape := by
  induction h with
  | refl => rfl
  | tail _ hstep ih => exact hstep.shape_eq.trans ih

theorem bodies_perm (h : Hoists policy graph next) : next.bodies.Perm graph.bodies := by
  induction h with
  | refl => exact .refl _
  | tail _ hstep ih => exact hstep.bodies_perm.trans ih

theorem wellFormed (h : Hoists policy graph next) (wf : graph.WellFormed) : next.WellFormed := by
  induction h with
  | refl => exact wf
  | tail _ hstep ih => exact hstep.wellFormed ih

theorem aliasAware (h : Hoists policy graph next) : Hoists .aliasAware graph next := by
  induction h with
  | refl => exact .refl
  | tail _ hstep ih => exact ih.tail hstep.aliasAware

end Hoists

/-! ## Loops that lose instructions -/

def Shrinks (graph other : Graph) (loop : NaturalLoop) : Prop :=
  ∀ {position : Nat} {block : Block}, position ∈ loop.blocks → other.block? position = some block →
    ∃ twin, graph.block? position = some twin ∧ block.phis = twin.phis ∧ block.body ⊆ twin.body

theorem Shrinks.move {other : Graph} (h : Shrinks graph other loop) {source index destination : Nat}
    {instr : Instr} (hout : destination ∉ loop.blocks) :
    Shrinks graph (other.move source index destination instr) loop := by
  intro position block hposition hblock
  have hne : destination ≠ position := fun heq => hout (heq ▸ hposition)
  rw [block?_move, Option.map_eq_some_iff] at hblock
  obtain ⟨middle, hmiddle, rfl⟩ := hblock
  obtain ⟨twin, htwin, hphis, hbody⟩ := h hposition hmiddle
  refine ⟨twin, htwin, hphis, ?_⟩
  simp only [if_neg hne, List.append_nil]
  split
  · exact List.Subset.trans List.eraseIdx_subset hbody
  · exact hbody

/-- What may leave a loop may still leave it when others have left. -/
theorem Hoistable.of_shrinks {other : Graph} {source : Nat} {instr : Instr}
    (h : graph.Hoistable loop origins policy source instr) (hshrinks : Shrinks graph other loop) :
    other.Hoistable loop origins policy source instr where
  source_mem := h.source_mem
  kind := by
    rcases h.kind with hpure | ⟨hpolicy, target, ty, address, hinstr, hsteady⟩
    · exact .inl hpure
    · refine .inr ⟨hpolicy, target, ty, address, hinstr, ?_⟩
      intro position block another written hposition hblock hanother hwritten
      obtain ⟨twin, htwin, _, hbody⟩ := hshrinks hposition hblock
      exact hsteady hposition htwin (hbody hanother) hwritten
  operands := by
    intro position block symbol hposition hblock hsymbol hdefs
    obtain ⟨twin, htwin, hphis, hbody⟩ := hshrinks hposition hblock
    refine h.operands hposition htwin hsymbol ?_
    rw [Block.defs, hphis, List.mem_append] at hdefs
    exact List.mem_append.mpr (hdefs.imp_right fun hmem => List.filterMap_subset _ hbody hmem)

/-- Relocating what was fit to leave before the first move is a run of steps. -/
theorem hoists_of_relocations (hregion : loop.IsRegion graph) {preheader : Nat}
    (hpre : loop.IsPreheader graph preheader) (horigins : origins.Describes graph.bodies)
    (h : Relation.ReflTransGen
      (Relocation (graph.Hoistable loop origins policy) preheader) graph next) :
    Hoists policy graph next ∧ Shrinks graph next loop := by
  induction h with
  | refl => exact ⟨.refl, fun _ hblock => ⟨_, hblock, rfl, List.Subset.refl _⟩⟩
  | tail _ hmove ih =>
      obtain ⟨hrun, hshrinks⟩ := ih
      cases hmove with
      | move hallowed hinstr =>
          refine ⟨hrun.tail ?_, hshrinks.move hpre.not_mem⟩
          exact .hoist (hregion.of_shape hrun.shape_eq) (hpre.of_shape hrun.shape_eq)
            (horigins.mono hrun.bodies_perm.symm.subset) (hallowed.of_shrinks hshrinks) hinstr

/-! ## Verdicts on loops -/

theorem hoistable_of_verdict {facts : Facts} {source : Nat} {instr : Instr} {id : Int}
    (hsource : source ∈ loop.blocks)
    (h : (LoopSummary.ofLoop graph facts.origins loop).verdict facts policy instr id =
      .invariant) :
    graph.Hoistable loop facts.origins policy source instr := by
  obtain ⟨hterminator, hphi, heffect, hmemory, hreads, _⟩ :=
    LoopSummary.verdict_eq_invariant_iff.mp h
  have hblocks : ∀ {position : Nat} {block : Block}, position ∈ loop.blocks →
      graph.block? position = some block → block ∈ loop.blocks.filterMap graph.block? :=
    fun hposition hblock => List.mem_filterMap.mpr ⟨_, hposition, hblock⟩
  refine ⟨hsource, ?_, ?_⟩
  · cases haccess : instr.accessesMemory with
    | false =>
        exact .inl (Instr.isComputation_eq_true_iff.mpr ⟨hterminator, hphi, heffect, haccess⟩)
    | true =>
        have hsafe := hmemory haccess
        unfold LoopSummary.loadIsSafe at hsafe
        split at hsafe
        · rename_i target ty address
          rw [Bool.and_eq_true, List.all_eq_true] at hsafe
          refine .inr ⟨rfl, target, ty, address, rfl, ?_⟩
          intro position block other written hposition hblock hother hwritten
          have hmem : written ∈ (LoopSummary.ofLoop graph facts.origins loop).written := by
            refine List.mem_filterMap.mpr ⟨other, ?_, hwritten⟩
            exact List.mem_flatMap.mpr ⟨block, hblocks hposition hblock, hother⟩
          simpa using hsafe.1 written hmem
        · cases hsafe
  · intro position block symbol hposition hblock hsymbol hdefs
    exact hreads symbol hsymbol (List.mem_flatMap.mpr ⟨block, hblocks hposition hblock, hdefs⟩)

/-! ## Hoisting succeeds and is a run of steps -/

/-- What hoisting out of one loop did: a run of steps, of instructions that were fit
to leave when it began, and the report tells whether there were any. -/
structure IsHoisted (policy : Policy) (origins : OriginTable) (loop : NaturalLoop)
    (graph next : Graph) (report : HoistReport) : Prop where
  steps : Hoists policy graph next
  hoistable : ∀ instr ∈ report.hoisted, ∃ source, graph.Hoistable loop origins policy source instr
  changed_iff : report.changed = true ↔ next ≠ graph

theorem hoistLoop_isHoisted (wf : graph.WellFormed) (hregion : loop.IsRegion graph) {facts : Facts}
    (horigins : facts.origins.Describes graph.bodies) (policy : Policy) :
    ∃ next report, graph.hoistLoop facts policy loop = .ok (next, report) ∧
      IsHoisted policy facts.origins loop graph next report := by
  cases hpreheader : loop.preheader? graph with
  | none =>
      refine ⟨_, _, hoistLoop_of_none hpreheader facts policy, .refl, by simp, ?_⟩
      simp [HoistReport.changed]
  | some preheader =>
      have hpre := NaturalLoop.isPreheader_of_preheader? wf hpreheader
      obtain ⟨landing, hlanding, _⟩ := hpre.succ_eq
      obtain ⟨next, hhoist, hsifts, hrun⟩ :=
        hoistLoop_sifts wf.distinctIds hregion.nodup hpreheader facts policy
      have hhoistable : ∀ {source : Nat} {instr : Instr},
          graph.leaves facts policy loop source instr = true →
            graph.Hoistable loop facts.origins policy source instr := by
        intro source instr hleaves
        obtain ⟨hsource, _, _, hverdict⟩ := leaves_eq_true_iff.mp hleaves
        exact hoistable_of_verdict hsource hverdict
      have hsteps := (hoists_of_relocations hregion hpre horigins
        (hrun.lift id fun _ _ hmove => hmove.mono hhoistable)).1
      refine ⟨next, _, hhoist, hsteps, ?_, ?_⟩
      · intro instr hinstr
        obtain ⟨source, _, hleaves⟩ := mem_leaving_iff.mp hinstr
        exact ⟨source, hhoistable hleaves⟩
      · rw [Ne, hsifts.eq_iff hsteps.shape_eq hlanding]
        simp [HoistReport.changed, hoistReport]

theorem hoistLoop_eq_ok (wf : graph.WellFormed) (hregion : loop.IsRegion graph) {facts : Facts}
    (horigins : facts.origins.Describes graph.bodies) (policy : Policy) :
    ∃ next report, graph.hoistLoop facts policy loop = .ok (next, report) ∧
      Hoists policy graph next := by
  obtain ⟨next, report, hhoist, hhoisted⟩ := hoistLoop_isHoisted wf hregion horigins policy
  exact ⟨next, report, hhoist, hhoisted.steps⟩

theorem hoists_of_hoistLoop (wf : graph.WellFormed) (hregion : loop.IsRegion graph) {facts : Facts}
    (horigins : facts.origins.Describes graph.bodies) {report : HoistReport}
    (h : graph.hoistLoop facts policy loop = .ok (next, report)) : Hoists policy graph next := by
  obtain ⟨_, _, hgiven, hhoists⟩ := hoistLoop_eq_ok wf hregion horigins policy
  cases h.symm.trans hgiven
  exact hhoists

theorem hoistLoops_cons_eq_ok_iff {loops : List NaturalLoop} {facts : Facts} {last : Graph}
    {reports : List HoistReport} :
    hoistLoops facts policy (loop :: loops) graph = .ok (last, reports) ↔
      ∃ next report later, graph.hoistLoop facts policy loop = .ok (next, report) ∧
        hoistLoops facts policy loops next = .ok (last, later) ∧ reports = report :: later := by
  simp only [hoistLoops, bind_eq_ok_iff, pure_eq_ok_iff, Prod.exists, Prod.mk.injEq]
  constructor
  · rintro ⟨next, report, hnext, last, later, hlast, rfl, rfl⟩
    exact ⟨next, report, later, hnext, hlast, rfl⟩
  · rintro ⟨next, report, later, hnext, hlast, rfl⟩
    exact ⟨next, report, hnext, last, later, hlast, rfl, rfl⟩

theorem hoistLoops_eq_ok {loops : List NaturalLoop} (wf : graph.WellFormed)
    (hregions : ∀ loop ∈ loops, loop.IsRegion graph) {facts : Facts}
    (horigins : facts.origins.Describes graph.bodies) (policy : Policy) :
    ∃ next reports, hoistLoops facts policy loops graph = .ok (next, reports) ∧
      Hoists policy graph next := by
  induction loops generalizing graph with
  | nil => exact ⟨graph, [], rfl, .refl⟩
  | cons loop loops ih =>
      obtain ⟨middle, report, hmiddle, hfirst⟩ :=
        hoistLoop_eq_ok wf (hregions loop List.mem_cons_self) horigins policy
      obtain ⟨last, reports, hlast, hrest⟩ := ih (hfirst.wellFormed wf)
        (fun other hother =>
          (hregions other (List.mem_cons_of_mem _ hother)).of_shape hfirst.shape_eq)
        (horigins.mono hfirst.bodies_perm.symm.subset)
      refine ⟨last, report :: reports, ?_, hfirst.trans hrest⟩
      exact bind_eq_ok_iff.mpr ⟨_, hmiddle, bind_eq_ok_iff.mpr ⟨_, hlast, rfl⟩⟩

end Graph

/-! ## Functions and programs -/

/-- Nothing but instructions that were hoisted tells two functions apart. -/
structure Func.Hoists (policy : Policy) (func next : Func) : Prop where
  frame_eq : next = { func with graph := next.graph }
  steps : Graph.Hoists policy func.graph next.graph

theorem Func.Hoists.trans {policy : Policy} {first second third : Func}
    (h : first.Hoists policy second) (hnext : second.Hoists policy third) :
    first.Hoists policy third where
  frame_eq := by
    rw [hnext.frame_eq, h.frame_eq]
  steps := h.steps.trans hnext.steps

theorem Graph.WellFormed.exists_entry {graph : Graph} (wf : graph.WellFormed) :
    ∃ entry, graph.entry = .ok entry := by
  obtain ⟨entry, blocks, hblocks⟩ := List.exists_cons_of_ne_nil wf.nonempty
  exact ⟨entry, by simp [Graph.entry, hblocks]⟩

theorem Facts.ofGraph_eq_ok {graph : Graph} (wf : graph.WellFormed) :
    Facts.ofGraph graph = .ok (Facts.compute graph) := by
  obtain ⟨entry, hentry⟩ := wf.exists_entry
  rw [Facts.ofGraph, hentry]
  rfl

/-- The loops of a graph in the order in which a pass comes to them. -/
def Facts.visited (facts : Facts) : List NaturalLoop :=
  facts.forest.innermostFirst.filterMap fun index => facts.forest.loops[index]?

theorem Facts.mem_visited_iff {graph : Graph} {loop : NaturalLoop} :
    loop ∈ (Facts.compute graph).visited ↔
      loop ∈ NaturalLoop.all graph (Dominance.ofGraph graph) :=
  LoopForest.mem_innermostFirst_loops_iff

theorem Facts.pairwise_visited {graph : Graph} (wf : graph.WellFormed) :
    (Facts.compute graph).visited.Pairwise fun earlier later => later.header ∉ earlier.blocks :=
  LoopForest.pairwise_innermostFirst_loops wf.consistent

theorem Facts.isRegion_of_mem_visited {graph : Graph} (wf : graph.WellFormed) {loop : NaturalLoop}
    (h : loop ∈ (Facts.compute graph).visited) : loop.IsRegion graph :=
  NaturalLoop.isRegion_of_mem_all wf (Facts.mem_visited_iff.mp h)

theorem Facts.describes_origins (graph : Graph) :
    (Facts.compute graph).origins.Describes graph.bodies :=
  OriginTable.describes_ofGraph graph

/-- A pass over a function is a pass over the loops of its graph. -/
theorem Func.hoist_eq_ok_iff {func next : Func} {run : FuncRun} (wf : func.graph.WellFormed)
    {policy : Policy} :
    func.hoist policy = .ok (next, run) ↔ ∃ graph reports,
      Graph.hoistLoops (Facts.compute func.graph) policy (Facts.compute func.graph).visited
        func.graph = .ok (graph, reports) ∧
      next = { func with graph := graph } ∧
      run = ⟨func.name, (Facts.compute func.graph).dominance.idoms,
        (Facts.compute func.graph).forest.loops.mapIdx fun index loop =>
          loop.describeAlone func.graph index, reports⟩ := by
  simp only [Func.hoist, Facts.ofGraph_eq_ok wf, bind_eq_ok_iff, pure_eq_ok_iff,
    Except.ok.injEq, exists_eq_left', Prod.exists, Prod.mk.injEq, Facts.visited]

theorem Func.hoist_eq_ok {func : Func} (wf : func.graph.WellFormed) (policy : Policy) :
    ∃ next run, func.hoist policy = .ok (next, run) ∧ func.Hoists policy next := by
  obtain ⟨next, reports, hnext, hrun⟩ := Graph.hoistLoops_eq_ok wf
    (fun _ => Facts.isRegion_of_mem_visited wf) (Facts.describes_origins func.graph) policy
  exact ⟨_, _, (hoist_eq_ok_iff wf).mpr ⟨next, reports, hnext, rfl, rfl⟩, rfl, hrun⟩

namespace Program

variable {program : Program}

theorem hoist_eq_ok (wf : ∀ func ∈ program.funcs, func.graph.WellFormed) (policy : Policy) :
    ∃ next round, program.hoist policy = .ok (next, round) ∧
      List.Forall₂ (Func.Hoists policy) program.funcs next.funcs := by
  obtain ⟨results, hresults, hhoists⟩ : ∃ results,
      program.funcs.mapM (fun func => func.hoist policy) = .ok results ∧
      List.Forall₂ (Func.Hoists policy) program.funcs (results.map Prod.fst) := by
    simp only [mapM_eq_ok_iff]
    generalize program.funcs = funcs at wf
    induction funcs with
    | nil => exact ⟨[], .nil, .nil⟩
    | cons func funcs ih =>
        obtain ⟨next, run, hnext, hfirst⟩ := Func.hoist_eq_ok (wf func List.mem_cons_self) policy
        obtain ⟨results, hresults, hrest⟩ :=
          ih fun other hother => wf other (List.mem_cons_of_mem _ hother)
        exact ⟨(next, run) :: results, .cons hnext hresults, .cons hfirst hrest⟩
  exact ⟨⟨results.map Prod.fst⟩, results.map Prod.snd,
    bind_eq_ok_iff.mpr ⟨_, hresults, rfl⟩, hhoists⟩

theorem wellFormed_of_hoists {policy : Policy} {funcs nexts : List Func}
    (h : List.Forall₂ (Func.Hoists policy) funcs nexts)
    (wf : ∀ func ∈ funcs, func.graph.WellFormed) : ∀ next ∈ nexts, next.graph.WellFormed := by
  induction h with
  | nil => exact fun _ hmem => nomatch hmem
  | cons hfirst _ ih =>
      rw [List.forall_mem_cons] at wf ⊢
      exact ⟨hfirst.steps.wellFormed wf.1, ih wf.2⟩

theorem hoists_trans {policy : Policy} {first second third : List Func}
    (h : List.Forall₂ (Func.Hoists policy) first second)
    (hnext : List.Forall₂ (Func.Hoists policy) second third) :
    List.Forall₂ (Func.Hoists policy) first third := by
  induction h generalizing third with
  | nil => exact hnext
  | cons hfirst _ ih =>
      cases hnext with
      | cons hsecond hrest => exact .cons (hfirst.trans hsecond) (ih hrest)

theorem hoistRounds_eq_ok (wf : ∀ func ∈ program.funcs, func.graph.WellFormed) (policy : Policy)
    (rounds : Nat) :
    ∃ last log, hoistRounds policy rounds program = .ok (last, log) ∧
      List.Forall₂ (Func.Hoists policy) program.funcs last.funcs := by
  induction rounds generalizing program with
  | zero => exact ⟨program, [], rfl, List.forall₂_same.mpr fun _ _ => ⟨rfl, .refl⟩⟩
  | succ rounds ih =>
      obtain ⟨next, round, hnext, hfirst⟩ := hoist_eq_ok wf policy
      by_cases hchanged : round.changed = true
      · obtain ⟨last, log, hlast, hrest⟩ := ih (wellFormed_of_hoists hfirst wf)
        refine ⟨last, round :: log, bind_eq_ok_iff.mpr ⟨_, hnext, ?_⟩, hoists_trans hfirst hrest⟩
        simp only [hchanged, if_true]
        exact bind_eq_ok_iff.mpr ⟨_, hlast, rfl⟩
      · refine ⟨next, [round], bind_eq_ok_iff.mpr ⟨_, hnext, ?_⟩, hfirst⟩
        simp only [hchanged]
        rfl

/-- Optimising a well-formed program succeeds, whatever the settings, and hoists in
each function. -/
theorem optimize_eq_ok (wf : ∀ func ∈ program.funcs, func.graph.WellFormed) (settings : Settings) :
    ∃ optimized rounds, program.optimize settings = .ok (optimized, rounds) ∧
      List.Forall₂ (Func.Hoists settings.policy) program.funcs optimized.funcs :=
  hoistRounds_eq_ok wf settings.policy settings.maxRounds

end Program

end LoopHoist
