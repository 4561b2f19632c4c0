import LoopHoist.Proofs.Execution.Simulation

/-!
# Hoisting computations keeps behaviour

Two functions behave alike on a machine if after any number of blocks their runs
stand at the same place with the same memory and the same trace, or have returned
the same value.  A machine admits a policy if on it nothing in a loop disturbs
what the policy lets out of the loop.  Every machine admits the conservative one.
-/

namespace LoopHoist

variable {Value Memory : Type} {machine : Machine Value Memory} {policy : Policy}

namespace Machine

/-- Nobody outside can tell the runs of two functions apart. -/
def SameRuns (machine : Machine Value Memory) (func next : Func) : Prop :=
  ∀ (arguments : List Value) (memory : Memory) (count : Nat),
    (machine.run next arguments memory count).observe =
      (machine.run func arguments memory count).observe

/-- What a policy lets out of a loop is undisturbed in the loop, in all frames that a
run can come to. -/
def Admits (machine : Machine Value Memory) (policy : Policy) : Prop :=
  ∀ (func : Func) (site : HoistSite policy func) (arguments : List Value) (memory : Memory),
    ∃ holds, machine.Invariant func.graph holds ∧ site.IsSteady machine holds ∧
      holds (machine.initial func arguments memory)

theorem Admits.sameRuns_moved (h : machine.Admits policy) {func : Func}
    (site : HoistSite policy func) : machine.SameRuns func site.moved := by
  intro arguments memory count
  obtain ⟨holds, hinvariant, hsteady, hinitial⟩ := h func site arguments memory
  exact (HoistSite.related_run hinvariant hsteady hinitial count).observe_eq

theorem Admits.sameRuns (h : machine.Admits policy) {func next : Func}
    (wf : func.graph.WellFormed) (ssa : func.StrictSSA) (hhoists : func.Hoists policy next) :
    machine.SameRuns func next := by
  have hgraphs : ∀ {graph : Graph}, Graph.Hoists policy func.graph graph →
      machine.SameRuns func { func with graph := graph } := by
    intro graph hrun
    induction hrun with
    | refl => exact fun _ _ _ => rfl
    | @tail middle last hmiddle hstep ih =>
        obtain ⟨site, hsite⟩ := HoistSite.exists_of_hoistStep
          (Graph.Hoists.wellFormed hmiddle wf) (ssa.hoists hmiddle) hstep
        have hmoved := h.sameRuns_moved site
        rw [← hsite] at hmoved
        exact fun arguments memory count =>
          (hmoved arguments memory count).trans (ih arguments memory count)
  rw [hhoists.frame_eq]
  exact hgraphs hhoists.steps

end Machine

/-- Optimising a program that was read succeeds, and hoists in each of its functions. -/
theorem Program.optimize_parsed {text : String} {program : Program}
    (hparse : Program.parse text = .ok program) (ssa : ∀ func ∈ program.funcs, func.StrictSSA)
    (settings : Settings) :
    ∃ optimized rounds, program.optimize settings = .ok (optimized, rounds) ∧
      List.Forall₂ (fun func next => (func.graph.WellFormed ∧ func.StrictSSA) ∧
        func.Hoists settings.policy next) program.funcs optimized.funcs := by
  have wf := Program.wellFormed_of_parse hparse
  obtain ⟨optimized, rounds, hoptimize, hhoists⟩ := Program.optimize_eq_ok wf settings
  refine ⟨optimized, rounds, hoptimize, (List.forall₂_and_left _ _).mpr ⟨?_, hhoists⟩⟩
  exact fun func hfunc => ⟨wf func hfunc, ssa func hfunc⟩

/-! ## Computations -/

namespace HoistSite

variable {func : Func} {site : HoistSite policy func}

theorem registers_steady {name : String} (hread : site.instr.ReadsName name) {position : Nat}
    {block : Block} {other : Instr} {frame : Frame Value Memory}
    (hposition : position ∈ site.loop.blocks) (hblock : func.graph.block? position = some block)
    (hother : other ∈ block.body) :
    (machine.exec frame other).registers name = frame.registers name :=
  Machine.exec_registers_of_ne fun _ hwrite => site.name_ne_of_reads hread hposition hblock
    (List.mem_append_right _ (List.mem_filterMap.mpr ⟨other, hother, hwrite⟩))

theorem isSteady_of_isComputation (hpure : site.instr.isComputation = true)
    (holds : Frame Value Memory → Prop) : site.IsSteady machine holds := by
  intro position block other frame hposition hblock hother _
  have hmemory : ∀ {registers : String → Value} {memory memory' : Memory},
      machine.result? registers memory site.instr =
        machine.result? registers memory' site.instr := by
    intro registers memory memory'
    generalize site.instr = instr at hpure
    cases instr <;> simp_all [Instr.isComputation, Machine.result?]
  rw [Machine.value?, Machine.value?, hmemory]
  exact Machine.result?_congr fun hread => registers_steady hread hposition hblock hother

end HoistSite

theorem Machine.admits_conservative (machine : Machine Value Memory) :
    machine.Admits .conservative := by
  intro func site arguments memory
  have hpure : site.instr.isComputation = true := by
    rcases site.hoistable.kind with hpure | ⟨hpolicy, _⟩
    · exact hpure
    · cases hpolicy
  have hsteady : site.IsSteady machine fun _ => True :=
    HoistSite.isSteady_of_isComputation hpure fun _ => True
  exact ⟨fun _ => True, ⟨fun _ _ _ => trivial, fun _ _ => trivial⟩, hsteady, trivial⟩

/-- Optimising conservatively succeeds and keeps, function by function, the runs on
every machine: the blocks visited, the stores, allocations and calls with their
arguments, the memory and the returned value. -/
theorem Program.sameRuns_optimize_conservative {text : String} {program : Program}
    (hparse : Program.parse text = .ok program) (ssa : ∀ func ∈ program.funcs, func.StrictSSA)
    (maxRounds : Nat) :
    ∃ optimized rounds, program.optimize ⟨.conservative, maxRounds⟩ = .ok (optimized, rounds) ∧
      ∀ {Value Memory : Type} (machine : Machine Value Memory),
        List.Forall₂ machine.SameRuns program.funcs optimized.funcs := by
  obtain ⟨optimized, rounds, hoptimize, hhoists⟩ :=
    Program.optimize_parsed hparse ssa ⟨.conservative, maxRounds⟩
  refine ⟨optimized, rounds, hoptimize, fun machine => hhoists.imp ?_⟩
  rintro func next ⟨⟨wf, strict⟩, hhoisted⟩
  exact machine.admits_conservative.sameRuns wf strict hhoisted

theorem guardedFunc_sameRuns_conservative : ∃ optimized rounds,
    (⟨[guardedFunc]⟩ : Program).optimize ⟨.conservative, 8⟩ = .ok (optimized, rounds) ∧
    optimized ≠ ⟨[guardedFunc]⟩ ∧ ∀ {Value Memory : Type} (machine : Machine Value Memory),
      List.Forall₂ machine.SameRuns [guardedFunc] optimized.funcs := by
  have hchanged : ((⟨[guardedFunc]⟩ : Program).optimize ⟨.conservative, 8⟩).toOption.map
      Prod.fst ≠ some ⟨[guardedFunc]⟩ := by
    decide +kernel
  obtain ⟨optimized, rounds, hoptimize, hruns⟩ :=
    Program.sameRuns_optimize_conservative parse_guardedText
      (List.forall_mem_singleton.mpr guardedFunc_strictSSA) 8
  refine ⟨optimized, rounds, hoptimize, ?_, hruns⟩
  rintro rfl
  exact hchanged (by rw [hoptimize]; rfl)

end LoopHoist
