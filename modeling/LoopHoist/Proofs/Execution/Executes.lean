import LoopHoist.Proofs.Execution.Simulation

/-!
# What both runs execute

Beyond what can be seen from outside, the runs before and behind a hoisting step
execute the same instructions on the same operands.  The moved instruction alone
is executed elsewhere: at the end of the preheader, which the run has passed
whenever it is in the loop.
-/

namespace LoopHoist

variable {Value Memory : Type} {machine : Machine Value Memory}

/-! ## Executions of an instruction -/

namespace Machine

/-- After some blocks a run comes to an instruction of the block at a position, in
some frame. -/
def Executes (machine : Machine Value Memory) (func : Func) (arguments : List Value)
    (memory : Memory) (count position : Nat) (frame : Frame Value Memory) (instr : Instr) : Prop :=
  ∃ previous start block entered before after,
    machine.run func arguments memory count = .running position previous start ∧
    func.graph.block? position = some block ∧
    machine.enter? (func.graph.labelOf previous) block start = some entered ∧
    block.body = before ++ instr :: after ∧ frame = machine.execAll entered before

def SameOperands (machine : Machine Value Memory) (instr : Instr)
    (frame twin : Frame Value Memory) : Prop :=
  ∀ operand ∈ instr.operands,
    machine.eval frame.registers operand = machine.eval twin.registers operand

theorem sameOperands_of_registers {instr : Instr} {frame twin : Frame Value Memory}
    (h : ∀ {name : String}, instr.ReadsName name → frame.registers name = twin.registers name) :
    machine.SameOperands instr frame twin :=
  fun _ hoperand => eval_operand_congr instr h hoperand

theorem AgreeOff.sameOperands {name : String} {instr : Instr} {frame twin : Frame Value Memory}
    (h : AgreeOff name frame twin) (hreads : ¬instr.ReadsName name) :
    machine.SameOperands instr frame twin := by
  refine sameOperands_of_registers fun hread => h.registers_eq ?_
  rintro rfl
  exact hreads hread

theorem leave_eq_running {graph : Graph} {position next : Nat} {previous : Option Nat}
    {frame last : Frame Value Memory} {jump : Option Instr}
    (h : machine.leave graph position frame jump = .running next previous last) :
    last = frame ∧ previous = some position ∧
      ∃ instr label, jump = some instr ∧ label ∈ instr.targets ∧ graph.find? label = some next := by
  have hgo : ∀ {instr : Instr} {label : Label}, jump = some instr → label ∈ instr.targets →
      goTo graph position frame label = .running next previous last →
        last = frame ∧ previous = some position ∧ ∃ instr label, jump = some instr ∧
          label ∈ instr.targets ∧ graph.find? label = some next := by
    intro instr label hjump hlabel hgo
    unfold goTo at hgo
    split at hgo
    · rename_i found hfind
      cases hgo
      exact ⟨rfl, rfl, instr, label, hjump, hlabel, hfind⟩
    · cases hgo
  unfold leave at h
  split at h
  · exact hgo rfl List.mem_cons_self h
  · refine hgo rfl ?_ h
    split <;> simp [Instr.targets]
  · cases h
  · cases h

theorem step_eq_running {graph : Graph} {state : State Value Memory} {next : Nat}
    {previous : Option Nat} {last : Frame Value Memory}
    (h : machine.step graph state = .running next previous last) :
    ∃ position origin start block entered, state = .running position origin start ∧
      graph.block? position = some block ∧
      machine.enter? (graph.labelOf origin) block start = some entered ∧
      last = machine.execAll entered block.body ∧ previous = some position ∧
      ∃ jump label, block.jump = some jump ∧ label ∈ jump.targets ∧
        graph.find? label = some next := by
  cases state with
  | returned value frame => cases h
  | stuck frame => cases h
  | running position origin start =>
      simp only [step] at h
      split at h
      · cases h
      · rename_i block hblock
        split at h
        · cases h
        · rename_i entered hentered
          exact ⟨position, origin, start, block, entered, rfl, hblock, hentered, leave_eq_running h⟩

end Machine

namespace HoistSite

variable {policy : Policy} {func : Func} {site : HoistSite policy func}
  {holds : Frame Value Memory → Prop} {position : Nat} {block : Block}
  {frame twin : Frame Value Memory}

/-! ## The same instruction in both functions -/

theorem Entered.sameOperands_through (h : site.Entered machine holds position frame twin)
    (hblock : func.graph.block? position = some block) (hne : position ≠ site.source)
    {passed rest : List Instr} {other : Instr} (hbody : block.body = passed ++ other :: rest) :
    machine.SameOperands other (machine.execAll frame passed) (machine.execAll twin passed) := by
  by_cases hread : other.ReadsName site.symbol.name
  · rw [h.passed hne (site.dominates_of_reads hblock hbody hne hread)]
    exact fun _ _ => rfl
  · exact (h.agree_through hblock hne hbody).sameOperands hread

theorem Entered.sameOperands_before (h : site.Entered machine holds site.source frame twin)
    {passed rest : List Instr} {other : Instr} (hbefore : site.before = passed ++ other :: rest) :
    machine.SameOperands other (machine.execAll frame passed) (machine.execAll twin passed) :=
  (h.agree_before hbefore).sameOperands (site.not_reads_before hbefore)

theorem Entered.forward (hinvariant : machine.Invariant func.graph holds)
    (hsteady : site.IsSteady machine holds)
    (h : site.Entered machine holds position frame twin)
    (hblock : func.graph.block? position = some block) {passed rest : List Instr} {other : Instr}
    (hbody : block.body = passed ++ other :: rest) :
    (position = site.source ∧ passed = site.before ∧ other = site.instr) ∨
    ∃ body passed' rest', site.moved.graph.block? position = some { block with body := body } ∧
      body = passed' ++ other :: rest' ∧
      machine.SameOperands other (machine.execAll frame passed) (machine.execAll twin passed') := by
  by_cases hsource : position = site.source
  · subst hsource
    cases hblock.symm.trans site.defined.block_eq
    have hmoved := site.block?_moved_source
    rw [site.defined.body_eq] at hbody
    rcases append_eq_append_cons hbody with ⟨middle, rfl, hmiddle⟩ | ⟨middle, hbefore, rfl⟩
    · cases middle with
      | nil =>
          cases hmiddle
          exact .inl ⟨rfl, List.append_nil _, rfl⟩
      | cons first middle =>
          rw [List.cons_append, List.cons.injEq] at hmiddle
          obtain ⟨rfl, hafter⟩ := hmiddle
          refine .inr ⟨_, site.before ++ middle, rest, hmoved, by rw [hafter]; simp, ?_⟩
          rw [h.eq_after hinvariant hsteady middle]
          exact fun _ _ => rfl
    · exact .inr ⟨_, passed, middle ++ site.after, hmoved, by rw [hbefore]; simp,
        h.sameOperands_before hbefore⟩
  · by_cases hpre : position = site.preheader
    · subst hpre
      exact .inr ⟨_, passed, rest ++ [site.instr], site.block?_moved_preheader hblock,
        by rw [hbody]; simp, h.sameOperands_through hblock hsource hbody⟩
    · exact .inr ⟨_, passed, rest, site.block?_moved hblock hsource hpre, hbody,
        h.sameOperands_through hblock hsource hbody⟩

/-- Whatever the moved function executes stood there before, the moved instruction
apart. -/
theorem Entered.backward (hinvariant : machine.Invariant func.graph holds)
    (hsteady : site.IsSteady machine holds)
    (h : site.Entered machine holds position frame twin)
    (hblock : func.graph.block? position = some block) {body passed rest : List Instr}
    {other : Instr} (hmoved : site.moved.graph.block? position = some { block with body := body })
    (hbody : body = passed ++ other :: rest) :
    (position = site.preheader ∧ other = site.instr) ∨
    ∃ passed' rest', block.body = passed' ++ other :: rest' ∧
      machine.SameOperands other (machine.execAll frame passed') (machine.execAll twin passed) := by
  by_cases hsource : position = site.source
  · subst hsource
    cases hblock.symm.trans site.defined.block_eq
    have hsame : body = site.before ++ site.after := by
      have heq := Option.some.inj (hmoved.symm.trans site.block?_moved_source)
      exact congrArg Block.body heq
    rw [hsame] at hbody
    rcases append_eq_append_cons hbody with ⟨middle, rfl, hafter⟩ | ⟨middle, hbefore, rfl⟩
    · refine .inr ⟨site.before ++ site.instr :: middle, rest,
        by rw [site.defined.body_eq, hafter]; simp, ?_⟩
      rw [h.eq_after hinvariant hsteady middle]
      exact fun _ _ => rfl
    · exact .inr ⟨passed, middle ++ site.instr :: site.after,
        by rw [site.defined.body_eq, hbefore]; simp, h.sameOperands_before hbefore⟩
  · by_cases hpre : position = site.preheader
    · subst hpre
      have hsame : body = block.body ++ [site.instr] := by
        have heq := Option.some.inj (hmoved.symm.trans (site.block?_moved_preheader hblock))
        exact congrArg Block.body heq
      rw [hsame] at hbody
      rcases append_eq_append_cons hbody with ⟨middle, _, hmiddle⟩ | ⟨middle, hpassed, _⟩
      · have hmem : other ∈ [site.instr] := by
          rw [hmiddle]
          simp
        exact .inl ⟨rfl, List.mem_singleton.mp hmem⟩
      · exact .inr ⟨passed, middle, hpassed, h.sameOperands_through hblock hsource hpassed⟩
    · have hsame : body = block.body := by
        have heq := Option.some.inj (hmoved.symm.trans (site.block?_moved hblock hsource hpre))
        exact congrArg Block.body heq
      rw [hsame] at hbody
      exact .inr ⟨passed, rest, hbody, h.sameOperands_through hblock hsource hbody⟩

/-! ## The same execution in both runs -/

section

variable {arguments : List Value} {memory : Memory} {count : Nat} {previous : Option Nat}
  {start entered : Frame Value Memory}

theorem Related.entered_moved (hinvariant : machine.Invariant func.graph holds)
    {other : State Value Memory}
    (h : site.Related machine holds (.running position previous start) other)
    (hblock : func.graph.block? position = some block)
    (henter : machine.enter? (func.graph.labelOf previous) block start = some entered) :
    ∃ start' entered', other = .running position previous start' ∧
      machine.enter? (func.graph.labelOf previous) block start' = some entered' ∧
      site.Entered machine holds position entered entered' := by
  cases h with
  | @running _ _ _ start' hmatches =>
      have hrel := hmatches.enter hinvariant hblock
      rw [henter] at hrel
      obtain ⟨entered', htwin, hentered⟩ := rel_some_left hrel
      exact ⟨start', entered', rfl, htwin, hentered⟩

theorem Related.entered_original (hinvariant : machine.Invariant func.graph holds)
    {state : State Value Memory}
    (h : site.Related machine holds state (.running position previous start))
    (hblock : func.graph.block? position = some block)
    (henter : machine.enter? (func.graph.labelOf previous) block start = some entered) :
    ∃ start' entered', state = .running position previous start' ∧
      machine.enter? (func.graph.labelOf previous) block start' = some entered' ∧
      site.Entered machine holds position entered' entered := by
  cases h with
  | @running _ _ start' _ hmatches =>
      have hrel := hmatches.enter hinvariant hblock
      rw [henter] at hrel
      obtain ⟨entered', hframe, hentered⟩ := rel_some_right hrel
      exact ⟨start', entered', rfl, hframe, hentered⟩

/-- Whatever the moved function executes, the moved instruction apart, the original
executes in the same block on the same operands. -/
theorem executes_original (hinvariant : machine.Invariant func.graph holds)
    (hsteady : site.IsSteady machine holds)
    (hinitial : holds (machine.initial func arguments memory)) {other : Instr}
    (h : machine.Executes site.moved arguments memory count position twin other) :
    (position = site.preheader ∧ other = site.instr) ∨ ∃ frame,
      machine.Executes func arguments memory count position frame other ∧
      machine.SameOperands other frame twin := by
  obtain ⟨previous, start, block', entered, passed, rest, hrun, hblock', henter, hbody, rfl⟩ := h
  have hrelated := related_run hinvariant hsteady hinitial count
  rw [hrun] at hrelated
  obtain ⟨block, hblock⟩ : ∃ block, func.graph.block? position = some block := by
    obtain ⟨block, hblock, _⟩ := Graph.shell_eq_of_shape site.shape_moved.symm hblock'
    exact ⟨block, hblock⟩
  obtain ⟨body, hmoved⟩ : ∃ body,
      site.moved.graph.block? position = some { block with body := body } := by
    simp only [moved, Func.move, Graph.block?_move, hblock]
    exact ⟨_, rfl⟩
  cases hmoved.symm.trans hblock'
  rw [site.enter?_moved] at henter
  obtain ⟨start', entered', hstate, henter', hentered⟩ :=
    hrelated.entered_original hinvariant hblock henter
  rcases hentered.backward hinvariant hsteady hblock hmoved hbody with
    hmovedInstr | ⟨passed', rest', hbody', hsame⟩
  · exact .inl hmovedInstr
  · exact .inr ⟨_, ⟨previous, start', block, entered', passed', rest', hstate, hblock, henter',
      hbody', rfl⟩, hsame⟩

theorem sameOperands_loop (hposition : position ∈ site.loop.blocks)
    (hblock : func.graph.block? position = some block)
    (henter : machine.enter? (func.graph.labelOf previous) block start = some entered)
    {passed : List Instr} (hpassed : passed ⊆ block.body) :
    machine.SameOperands site.instr (machine.execAll entered passed) start := by
  refine Machine.sameOperands_of_registers fun hread => ?_
  have hdefs : ∀ {symbol : Symbol}, symbol ∈ block.defs → symbol.name ≠ _ :=
    fun hsymbol => site.name_ne_of_reads hread hposition hblock hsymbol
  rw [Machine.execAll_registers_of_ne fun symbol hsymbol =>
    hdefs (List.mem_append_right _ (List.filterMap_subset _ hpassed hsymbol))]
  exact (Machine.enter?_eq_some henter).2.2 fun symbol hsymbol =>
    hdefs (List.mem_append_left _ hsymbol)

theorem executes_landing (hinvariant : machine.Invariant func.graph holds)
    (hsteady : site.IsSteady machine holds)
    (hinitial : holds (machine.initial func arguments memory))
    (hrun : machine.run func arguments memory count = .running site.preheader previous start)
    (hblock : func.graph.block? site.preheader = some block)
    (henter : machine.enter? (func.graph.labelOf previous) block start = some entered) :
    ∃ twin, machine.Executes site.moved arguments memory count site.preheader twin site.instr ∧
      machine.SameOperands site.instr (machine.execAll entered block.body) twin := by
  have hrelated := related_run hinvariant hsteady hinitial count
  rw [hrun] at hrelated
  obtain ⟨start', entered', hstate, henter', hentered⟩ :=
    hrelated.entered_moved hinvariant hblock henter
  refine ⟨machine.execAll entered' block.body, ⟨previous, start', _, entered', block.body, [],
    hstate, site.block?_moved_preheader hblock, ?_, rfl, rfl⟩, ?_⟩
  · rw [site.enter?_moved, henter']
  · have hagree := hentered.agree_through hblock (Ne.symm site.source_ne_preheader)
      (List.append_nil _).symm
    refine hagree.sameOperands fun hread => ?_
    exact site.name_ne_of_reads hread site.hoistable.source_mem site.defined.block_eq
      site.defined.mem_defs rfl

/-- While a run is in the loop, the moved function has executed the instruction on
the operands that it has now. -/
theorem executes_preheader (hinvariant : machine.Invariant func.graph holds)
    (hsteady : site.IsSteady machine holds)
    (hinitial : holds (machine.initial func arguments memory))
    (hrun : machine.run func arguments memory count = .running position previous start)
    (hposition : position ∈ site.loop.blocks) :
    ∃ earlier twin,
      machine.Executes site.moved arguments memory earlier site.preheader twin site.instr ∧
      machine.SameOperands site.instr start twin := by
  induction count generalizing position previous start with
  | zero =>
      cases hrun
      exact absurd hposition (site.region.zero_not_mem site.isPreheader)
  | succ count ih =>
      have hrelated := related_run hinvariant hsteady hinitial (count + 1)
      rw [hrun] at hrelated
      obtain ⟨origin, before, first, block, entered, hstate, hblock, henter, rfl, rfl, _⟩ :=
        Machine.step_eq_running hrun
      obtain ⟨hreach, hedge⟩ := hrelated.arrives
      by_cases horigin : origin ∈ site.loop.blocks
      · obtain ⟨earlier, twin, hexecutes, hsame⟩ := ih hstate horigin
        have hkept := sameOperands_loop horigin hblock henter (List.Subset.refl _)
        exact ⟨earlier, twin, hexecutes, fun operand hoperand =>
          (hkept operand hoperand).trans (hsame operand hoperand)⟩
      · obtain ⟨rfl, _⟩ :=
          site.region.eq_of_enters site.isPreheader hedge hreach horigin hposition
        obtain ⟨twin, hexecutes, hsame⟩ :=
          executes_landing hinvariant hsteady hinitial hstate hblock henter
        exact ⟨count, twin, hexecutes, hsame⟩

/-- Whatever the original executes, the moved function executes somewhere on the same
operands. -/
theorem executes_moved (hinvariant : machine.Invariant func.graph holds)
    (hsteady : site.IsSteady machine holds)
    (hinitial : holds (machine.initial func arguments memory)) {other : Instr}
    (h : machine.Executes func arguments memory count position frame other) :
    ∃ count' position' twin,
      machine.Executes site.moved arguments memory count' position' twin other ∧
      machine.SameOperands other frame twin := by
  obtain ⟨previous, start, block, entered, passed, rest, hrun, hblock, henter, hbody, rfl⟩ := h
  have hrelated := related_run hinvariant hsteady hinitial count
  rw [hrun] at hrelated
  obtain ⟨start', entered', hstate, henter', hentered⟩ :=
    hrelated.entered_moved hinvariant hblock henter
  rcases hentered.forward hinvariant hsteady hblock hbody with
    ⟨rfl, rfl, rfl⟩ | ⟨body, passed', rest', hmoved, hbody', hsame⟩
  · obtain ⟨earlier, twin, hexecutes, hsame⟩ := executes_preheader hinvariant hsteady hinitial
      hrun site.hoistable.source_mem
    have hpassed : site.before ⊆ block.body := by
      rw [hbody]
      exact List.subset_append_left _ _
    have hkept := sameOperands_loop site.hoistable.source_mem hblock henter hpassed
    exact ⟨earlier, site.preheader, twin, hexecutes, fun operand hoperand =>
      (hkept operand hoperand).trans (hsame operand hoperand)⟩
  · refine ⟨count, position, _, ⟨previous, start', _, entered', passed', rest', hstate, hmoved,
      ?_, hbody', rfl⟩, hsame⟩
    rw [site.enter?_moved, henter']

end

end HoistSite

end LoopHoist
