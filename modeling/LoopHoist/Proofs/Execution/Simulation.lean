import LoopHoist.Proofs.Execution.Site

/-!
# A hoisting step and the run

The function before a hoisting step and the function behind it are run side by
side, block by block.  Their frames agree on all registers but the one that the
moved instruction defines.  They agree on that one too behind every block that the
old place of the instruction dominates, and nothing else reads it.  In the loop the
register of the moved function holds what the instruction would compute, because
nothing in the loop changes its operands.
-/

namespace LoopHoist

variable {Value Memory : Type} {machine : Machine Value Memory}

namespace Machine

def value? (machine : Machine Value Memory) (frame : Frame Value Memory) (instr : Instr) :
    Option Value :=
  machine.result? frame.registers frame.memory instr

theorem effect_of_isComputation {frame : Frame Value Memory} {instr : Instr}
    (h : instr.isComputation = true) :
    machine.effect frame instr = (machine.value? frame instr, frame.memory, frame.trace) := by
  cases instr <;> simp_all [Instr.isComputation, effect, value?]

theorem exists_value_of_isComputation {frame : Frame Value Memory} {instr : Instr}
    (h : instr.isComputation = true) : ∃ value, machine.value? frame instr = some value := by
  cases instr <;> simp_all [Instr.isComputation, value?, result?]

/-- A property of frames that running a function keeps. -/
structure Invariant (machine : Machine Value Memory) (graph : Graph)
    (holds : Frame Value Memory → Prop) : Prop where
  enter : ∀ {position : Nat} {block : Block} {previous : Option Label}
    {frame entered : Frame Value Memory}, graph.block? position = some block → holds frame →
      machine.enter? previous block frame = some entered → holds entered
  exec : ∀ {instr : Instr} {frame : Frame Value Memory}, instr ∈ graph.bodies → holds frame →
    holds (machine.exec frame instr)

theorem Invariant.execAll {graph : Graph} {holds : Frame Value Memory → Prop}
    (h : machine.Invariant graph holds) {instrs : List Instr} (hmem : instrs ⊆ graph.bodies)
    {frame : Frame Value Memory} (hframe : holds frame) :
    holds (machine.execAll frame instrs) := by
  induction instrs generalizing frame with
  | nil => exact hframe
  | cons instr instrs ih =>
      rw [List.cons_subset] at hmem
      exact ih hmem.2 (h.exec hmem.1 hframe)

end Machine

def Graph.Arrives (graph : Graph) (position : Nat) : Option Nat → Prop
  | none => position = 0
  | some previous => graph.Reachable previous ∧ graph.Edge previous position

theorem Graph.Arrives.reachable {graph : Graph} {position : Nat} {previous : Option Nat}
    (h : graph.Arrives position previous) : graph.Reachable position := by
  cases previous with
  | none =>
      cases h
      exact ⟨[], .entry⟩
  | some previous => exact h.1.step h.2

theorem Graph.labelOf_of_shape {graph other : Graph} (hshape : other.shape = graph.shape)
    (previous : Option Nat) : other.labelOf previous = graph.labelOf previous := by
  simp only [labelOf, label?_eq_of_shape hshape]

namespace HoistSite

variable {policy : Policy} {func : Func} (site : HoistSite policy func)

/-- Nothing in the loop changes what the instruction would compute. -/
def IsSteady (machine : Machine Value Memory) (holds : Frame Value Memory → Prop) : Prop :=
  ∀ {position : Nat} {block : Block} {other : Instr} {frame : Frame Value Memory},
    position ∈ site.loop.blocks → func.graph.block? position = some block → other ∈ block.body →
      holds frame →
        machine.value? (machine.exec frame other) site.instr = machine.value? frame site.instr

/-! ## The relation between frames -/

/-- At the start of a block, before its phis. -/
structure Matches (machine : Machine Value Memory) (holds : Frame Value Memory → Prop)
    (position : Nat) (previous : Option Nat) (frame twin : Frame Value Memory) : Prop where
  arrives : func.graph.Arrives position previous
  holds_frame : holds frame
  agree : Machine.AgreeOff site.symbol.name frame twin
  passed : ∀ {origin : Nat}, previous = some origin →
    func.graph.Dominates site.source origin → frame = twin
  value_eq : position ∈ site.loop.blocks →
    machine.value? frame site.instr = some (twin.registers site.symbol.name)

/-- Behind the phis of a block. -/
structure Entered (machine : Machine Value Memory) (holds : Frame Value Memory → Prop)
    (position : Nat) (frame twin : Frame Value Memory) : Prop where
  holds_frame : holds frame
  agree : Machine.AgreeOff site.symbol.name frame twin
  passed : position ≠ site.source → func.graph.Dominates site.source position → frame = twin
  value_eq : position ∈ site.loop.blocks →
    machine.value? frame site.instr = some (twin.registers site.symbol.name)

/-- Behind the body of a block. -/
structure Finished (machine : Machine Value Memory) (holds : Frame Value Memory → Prop)
    (position : Nat) (frame twin : Frame Value Memory) : Prop where
  holds_frame : holds frame
  agree : Machine.AgreeOff site.symbol.name frame twin
  passed : func.graph.Dominates site.source position → frame = twin
  value_eq : ∀ {next : Nat}, next ∈ site.loop.blocks → func.graph.Edge position next →
    machine.value? frame site.instr = some (twin.registers site.symbol.name)

/-- States of the two runs after the same number of blocks. -/
inductive Related (machine : Machine Value Memory) (holds : Frame Value Memory → Prop) :
    State Value Memory → State Value Memory → Prop
  | running {position : Nat} {previous : Option Nat} {frame twin : Frame Value Memory} :
      site.Matches machine holds position previous frame twin →
      Related machine holds (.running position previous frame) (.running position previous twin)
  | returned {value : Option Value} {frame twin : Frame Value Memory} :
      Machine.AgreeOff site.symbol.name frame twin →
      Related machine holds (.returned value frame) (.returned value twin)
  | stuck {frame twin : Frame Value Memory} :
      Machine.AgreeOff site.symbol.name frame twin →
      Related machine holds (.stuck frame) (.stuck twin)

variable {site} {holds : Frame Value Memory → Prop}

theorem Related.observe_eq {state other : State Value Memory}
    (h : site.Related machine holds state other) : other.observe = state.observe := by
  cases h with
  | running hmatches =>
      simp [State.observe, hmatches.agree.memory_eq, hmatches.agree.trace_eq]
  | returned hagree => simp [State.observe, hagree.memory_eq, hagree.trace_eq]
  | stuck hagree => simp [State.observe, hagree.memory_eq, hagree.trace_eq]

theorem Related.arrives {position : Nat} {previous : Option Nat} {frame : Frame Value Memory}
    {other : State Value Memory}
    (h : site.Related machine holds (.running position previous frame) other) :
    func.graph.Arrives position previous := by
  cases h with
  | running hmatches => exact hmatches.arrives

/-! ## Into a block -/

/-- Behind the old place of the instruction nothing is hidden. -/
theorem Matches.eq_of_dominates {position : Nat} {previous : Option Nat}
    {frame twin : Frame Value Memory} (h : site.Matches machine holds position previous frame twin)
    (hne : position ≠ site.source) (hdominates : func.graph.Dominates site.source position) :
    frame = twin := by
  have harrives := h.arrives
  cases previous with
  | none =>
      cases harrives
      have hzero := hdominates.eq_zero
      exact absurd (hzero ▸ site.hoistable.source_mem) (site.region.zero_not_mem site.isPreheader)
  | some origin => exact h.passed rfl (hdominates.of_edge (Ne.symm hne) harrives.2)

theorem value?_enter {position : Nat} {block : Block} {previous : Option Label}
    {frame entered : Frame Value Memory} (hposition : position ∈ site.loop.blocks)
    (hblock : func.graph.block? position = some block)
    (henter : machine.enter? previous block frame = some entered) :
    machine.value? entered site.instr = machine.value? frame site.instr := by
  obtain ⟨hmemory, _, hregisters⟩ := Machine.enter?_eq_some henter
  rw [Machine.value?, Machine.value?, hmemory]
  refine Machine.result?_congr fun hread => hregisters fun symbol hsymbol => ?_
  exact site.name_ne_of_reads hread hposition hblock (List.mem_append_left _ hsymbol)

theorem registers_enter {position : Nat} {block : Block} {previous : Option Label}
    {frame entered : Frame Value Memory} (hblock : func.graph.block? position = some block)
    (henter : machine.enter? previous block frame = some entered) :
    entered.registers site.symbol.name = frame.registers site.symbol.name := by
  refine (Machine.enter?_eq_some henter).2.2 fun symbol hsymbol => ?_
  by_cases hne : position = site.source
  · subst hne
    cases hblock.symm.trans site.defined.block_eq
    exact site.defined.name_ne site.ssa (.inl (List.mem_append_left _ hsymbol))
  · exact site.name_ne_of_mem_defs hblock hne (List.mem_append_left _ hsymbol)

theorem Matches.agree_enter {position : Nat} {previous : Option Nat} {block : Block}
    {frame twin : Frame Value Memory} (h : site.Matches machine holds position previous frame twin)
    (hblock : func.graph.block? position = some block) :
    Option.Rel (Machine.AgreeOff site.symbol.name)
      (machine.enter? (func.graph.labelOf previous) block frame)
      (machine.enter? (func.graph.labelOf previous) block twin) := by
  by_cases heq : frame = twin
  · subst heq
    cases machine.enter? (func.graph.labelOf previous) block frame with
    | none => exact .none
    | some entered => exact .some (.refl ..)
  · refine h.agree.enter? fun phi hphi source hsource hlabel symbol hsymbol hlocal hname => heq ?_
    obtain ⟨origin, hprevious, horigin⟩ := Option.bind_eq_some_iff.mp hlabel.symm
    obtain ⟨left, hleft, hlabel⟩ := Option.map_eq_some_iff.mp horigin
    exact h.passed hprevious
      (site.dominates_of_phi hblock hphi hsource hsymbol hlocal hname hleft hlabel.symm)

theorem Matches.enter (hinvariant : machine.Invariant func.graph holds) {position : Nat}
    {previous : Option Nat} {block : Block} {frame twin : Frame Value Memory}
    (h : site.Matches machine holds position previous frame twin)
    (hblock : func.graph.block? position = some block) :
    Option.Rel (site.Entered machine holds position)
      (machine.enter? (func.graph.labelOf previous) block frame)
      (machine.enter? (func.graph.labelOf previous) block twin) := by
  refine rel_imp (h.agree_enter hblock) fun {entered entered'} hframe htwin hagree => ?_
  refine ⟨hinvariant.enter hblock h.holds_frame hframe, hagree, ?_, ?_⟩
  · intro hne hdominates
    cases h.eq_of_dominates hne hdominates
    exact Option.some.inj (hframe.symm.trans htwin)
  · intro hposition
    rw [value?_enter hposition hblock hframe, registers_enter hblock htwin]
    exact h.value_eq hposition

/-! ## Through a body -/

section

variable {position : Nat} {block : Block} {frame twin : Frame Value Memory}

/-- Outside the old place of the instruction both run the same instructions. -/
theorem Entered.agree_through (h : site.Entered machine holds position frame twin)
    (hblock : func.graph.block? position = some block) (hne : position ≠ site.source)
    {passed rest : List Instr} (hbody : block.body = passed ++ rest) :
    Machine.AgreeOff site.symbol.name (machine.execAll frame passed)
      (machine.execAll twin passed) := by
  by_cases hdominates : func.graph.Dominates site.source position
  · rw [h.passed hne hdominates]
    exact .refl ..
  · refine h.agree.execAll fun other hother hread => hdominates ?_
    obtain ⟨first, second, rfl⟩ := List.append_of_mem hother
    have hcut : block.body = first ++ other :: (second ++ rest) := by simp [hbody]
    exact site.dominates_of_reads hblock hcut hne hread

/-- Up to the old place of the instruction nothing reads its register. -/
theorem Entered.agree_before (h : site.Entered machine holds site.source frame twin)
    {passed rest : List Instr} (hbefore : site.before = passed ++ rest) :
    Machine.AgreeOff site.symbol.name (machine.execAll frame passed)
      (machine.execAll twin passed) := by
  refine h.agree.execAll fun other hother => ?_
  obtain ⟨first, second, rfl⟩ := List.append_of_mem hother
  have hcut : site.before = first ++ other :: (second ++ rest) := by simp [hbefore]
  exact site.not_reads_before hcut

theorem value?_execAll (hinvariant : machine.Invariant func.graph holds)
    (hsteady : site.IsSteady machine holds) (hposition : position ∈ site.loop.blocks)
    (hblock : func.graph.block? position = some block) {passed : List Instr}
    (hpassed : passed ⊆ block.body) (hframe : holds frame) :
    machine.value? (machine.execAll frame passed) site.instr =
      machine.value? frame site.instr := by
  induction passed generalizing frame with
  | nil => rfl
  | cons other passed ih =>
      rw [List.cons_subset] at hpassed
      have hnext := hinvariant.exec (Graph.body_subset_bodies hblock hpassed.1) hframe
      exact (ih hpassed.2 hnext).trans (hsteady hposition hblock hpassed.1 hframe)

theorem exec_instr {value : Value} (hvalue : machine.value? frame site.instr = some value) :
    machine.exec frame site.instr =
      { frame with registers := Function.update frame.registers site.symbol.name value } := by
  have heffect : machine.effect frame site.instr =
      (machine.value? frame site.instr, frame.memory, frame.trace) := by
    rcases site.hoistable.kind with hpure | ⟨_, target, ty, address, hinstr, _⟩
    · exact Machine.effect_of_isComputation hpure
    · rw [hinstr]
      rfl
  simp only [Machine.exec, heffect, site.defined.write_eq, hvalue, Machine.assign]

theorem exists_value (site : HoistSite policy func) (machine : Machine Value Memory)
    (frame : Frame Value Memory) : ∃ value, machine.value? frame site.instr = some value := by
  rcases site.hoistable.kind with hpure | ⟨_, target, ty, address, hinstr, _⟩
  · exact Machine.exists_value_of_isComputation hpure
  · rw [hinstr]
    exact ⟨_, rfl⟩

/-- Behind its old place the instruction has made the frames equal. -/
theorem Entered.eq_after (hinvariant : machine.Invariant func.graph holds)
    (hsteady : site.IsSteady machine holds)
    (h : site.Entered machine holds site.source frame twin) (passed : List Instr) :
    machine.execAll frame (site.before ++ site.instr :: passed) =
      machine.execAll twin (site.before ++ passed) := by
  have hmem := site.hoistable.source_mem
  have hbefore : site.before ⊆ site.block.body := by
    rw [site.defined.body_eq]
    exact List.subset_append_left _ _
  have hagree := h.agree_before (List.append_nil _).symm
  have hvalue : machine.value? (machine.execAll frame site.before) site.instr =
      some ((machine.execAll twin site.before).registers site.symbol.name) := by
    rw [value?_execAll hinvariant hsteady hmem site.defined.block_eq hbefore h.holds_frame,
      h.value_eq hmem, Machine.execAll_registers_of_ne]
    exact fun symbol hsymbol =>
      site.defined.name_ne site.ssa (.inl (List.mem_append_right _ hsymbol))
  have hequal : machine.exec (machine.execAll frame site.before) site.instr =
      machine.execAll twin site.before := by
    have hoff : Machine.AgreeOff site.symbol.name
        (machine.exec (machine.execAll frame site.before) site.instr)
        (machine.execAll twin site.before) := by
      rw [exec_instr hvalue]
      exact ⟨hagree.memory_eq, hagree.trace_eq, fun hne =>
        (Function.update_of_ne hne ..).trans (hagree.registers_eq hne)⟩
    refine hoff.eq_of_eq ?_
    rw [exec_instr hvalue]
    exact Function.update_self ..
  rw [Machine.execAll_append, Machine.execAll_append, ← hequal]
  rfl

theorem Entered.finish_source (hinvariant : machine.Invariant func.graph holds)
    (hsteady : site.IsSteady machine holds)
    (h : site.Entered machine holds site.source frame twin) :
    site.Finished machine holds site.source (machine.execAll frame site.block.body)
      (machine.execAll twin (site.before ++ site.after)) := by
  have hmem := site.hoistable.source_mem
  have hblock := site.defined.block_eq
  have hequal : machine.execAll frame site.block.body =
      machine.execAll twin (site.before ++ site.after) := by
    rw [site.defined.body_eq]
    exact h.eq_after hinvariant hsteady site.after
  have hregister : (machine.execAll twin (site.before ++ site.after)).registers
      site.symbol.name = twin.registers site.symbol.name := by
    refine Machine.execAll_registers_of_ne fun symbol hsymbol => ?_
    rw [List.filterMap_append, List.mem_append] at hsymbol
    exact site.defined.name_ne site.ssa (hsymbol.imp_left (List.mem_append_right _))
  refine ⟨hinvariant.execAll (Graph.body_subset_bodies hblock) h.holds_frame, ?_,
    fun _ => hequal, ?_⟩
  · rw [hequal]
    exact .refl ..
  · intro next _ _
    rw [hregister, ← h.value_eq hmem]
    exact value?_execAll hinvariant hsteady hmem hblock (List.Subset.refl _) h.holds_frame

theorem Entered.finish_preheader (hinvariant : machine.Invariant func.graph holds)
    (hblock : func.graph.block? site.preheader = some block)
    (h : site.Entered machine holds site.preheader frame twin) :
    site.Finished machine holds site.preheader (machine.execAll frame block.body)
      (machine.execAll twin (block.body ++ [site.instr])) := by
  have hagree := h.agree_through hblock (Ne.symm site.source_ne_preheader)
    (List.append_nil _).symm
  obtain ⟨value, hvalue⟩ := site.exists_value machine (machine.execAll twin block.body)
  have hexec : machine.execAll twin (block.body ++ [site.instr]) =
      machine.exec (machine.execAll twin block.body) site.instr :=
    Machine.execAll_append ..
  rw [hexec, exec_instr hvalue]
  refine ⟨hinvariant.execAll (Graph.body_subset_bodies hblock) h.holds_frame, ?_,
    fun hdominates => absurd hdominates site.not_dominates_preheader, ?_⟩
  · exact ⟨hagree.memory_eq, hagree.trace_eq, fun hne =>
      (hagree.registers_eq hne).trans (Function.update_of_ne hne ..).symm⟩
  · intro next _ _
    simp only [Function.update_self]
    rw [← hvalue, Machine.value?, Machine.value?, hagree.memory_eq]
    refine Machine.result?_congr fun hread => hagree.registers_eq ?_
    exact (site.name_ne_of_reads hread site.hoistable.source_mem site.defined.block_eq
      site.defined.mem_defs).symm

theorem Entered.finish_other (hinvariant : machine.Invariant func.graph holds)
    (hsteady : site.IsSteady machine holds) (hreach : func.graph.Reachable position)
    (hblock : func.graph.block? position = some block) (hsource : position ≠ site.source)
    (hpre : position ≠ site.preheader)
    (h : site.Entered machine holds position frame twin) :
    site.Finished machine holds position (machine.execAll frame block.body)
      (machine.execAll twin block.body) := by
  refine ⟨hinvariant.execAll (Graph.body_subset_bodies hblock) h.holds_frame,
    h.agree_through hblock hsource (List.append_nil _).symm,
    fun hdominates => by rw [h.passed hsource hdominates], ?_⟩
  intro next hnext hedge
  by_cases hmem : position ∈ site.loop.blocks
  · rw [value?_execAll hinvariant hsteady hmem hblock (List.Subset.refl _) h.holds_frame,
      h.value_eq hmem, Machine.execAll_registers_of_ne]
    exact fun symbol hsymbol =>
      site.name_ne_of_mem_defs hblock hsource (List.mem_append_right _ hsymbol)
  · exact absurd (site.region.eq_of_enters site.isPreheader hedge hreach hmem hnext).1 hpre

/-- The block of the moved function, and what becomes of both frames in it. -/
theorem exists_finish (hinvariant : machine.Invariant func.graph holds)
    (hsteady : site.IsSteady machine holds) (hreach : func.graph.Reachable position)
    (hblock : func.graph.block? position = some block) :
    ∃ body, site.moved.graph.block? position = some { block with body := body } ∧
      ∀ {frame twin : Frame Value Memory}, site.Entered machine holds position frame twin →
        site.Finished machine holds position (machine.execAll frame block.body)
          (machine.execAll twin body) := by
  by_cases hsource : position = site.source
  · subst hsource
    cases hblock.symm.trans site.defined.block_eq
    exact ⟨_, site.block?_moved_source, fun h => h.finish_source hinvariant hsteady⟩
  · by_cases hpre : position = site.preheader
    · subst hpre
      exact ⟨_, site.block?_moved_preheader hblock, fun h => h.finish_preheader hinvariant hblock⟩
    · exact ⟨_, site.block?_moved hblock hsource hpre,
        fun h => h.finish_other hinvariant hsteady hreach hblock hsource hpre⟩

/-! ## Out of a block -/

theorem Finished.leave (hreach : func.graph.Reachable position)
    (hblock : func.graph.block? position = some block)
    (h : site.Finished machine holds position frame twin) :
    site.Related machine holds (machine.leave func.graph position frame block.jump)
      (machine.leave site.moved.graph position twin block.jump) := by
  have hgo : ∀ {jump : Instr} {label : Label}, block.jump = some jump → label ∈ jump.targets →
      site.Related machine holds (Machine.goTo func.graph position frame label)
        (Machine.goTo site.moved.graph position twin label) := by
    intro jump label hjump hlabel
    rw [Machine.goTo, Machine.goTo, Graph.find?_eq_of_shape site.shape_moved]
    cases hfind : func.graph.find? label with
    | none => exact .stuck h.agree
    | some next =>
        have hedge := site.wf.edge_of_target hblock hjump hlabel hfind
        refine .running ⟨⟨hreach, hedge⟩, h.holds_frame, h.agree, ?_, fun hmem =>
          h.value_eq hmem hedge⟩
        rintro _ ⟨⟩
        exact h.passed
  have heval : ∀ {jump : Instr} {operand : Operand}, block.jump = some jump →
      operand ∈ jump.operands →
        machine.eval frame.registers operand = machine.eval twin.registers operand := by
    intro jump operand hjump hoperand
    refine Machine.eval_operand_congr jump (fun {name} hread => ?_) hoperand
    by_cases hname : name = site.symbol.name
    · rw [h.passed (site.dominates_of_jump_reads hblock hjump (hname ▸ hread))]
    · exact h.agree.registers_eq hname
  cases hjump : block.jump with
  | none => exact .stuck h.agree
  | some jump =>
      cases jump with
      | jump label => exact hgo hjump List.mem_cons_self
      | branch ty condition ifTrue ifFalse =>
          rw [Machine.leave, Machine.leave, heval hjump List.mem_cons_self]
          split
          · exact hgo hjump (by simp [Instr.targets])
          · exact hgo hjump (by simp [Instr.targets])
      | ret value =>
          have hvalue : value.map (machine.eval frame.registers) =
              value.map (machine.eval twin.registers) := by
            cases value with
            | none => rfl
            | some operand => exact congrArg some (heval hjump List.mem_cons_self)
          rw [Machine.leave, Machine.leave, hvalue]
          exact .returned h.agree
      | _ => exact .stuck h.agree

end

/-! ## Steps and runs -/

theorem enter?_moved (site : HoistSite policy func) (machine : Machine Value Memory)
    (previous : Option Nat) (block : Block) (body : List Instr) (frame : Frame Value Memory) :
    machine.enter? (site.moved.graph.labelOf previous) { block with body := body } frame =
      machine.enter? (func.graph.labelOf previous) block frame := by
  rw [Graph.labelOf_of_shape site.shape_moved]
  rfl

theorem Related.step (hinvariant : machine.Invariant func.graph holds)
    (hsteady : site.IsSteady machine holds) {state other : State Value Memory}
    (h : site.Related machine holds state other) :
    site.Related machine holds (machine.step func.graph state)
      (machine.step site.moved.graph other) := by
  cases h with
  | returned hagree => exact .returned hagree
  | stuck hagree => exact .stuck hagree
  | @running position previous frame twin hmatches =>
      have hreach := hmatches.arrives.reachable
      obtain ⟨block, hblock⟩ := site.wf.block_of_reachable hreach
      obtain ⟨body, hmoved, hfinish⟩ := exists_finish hinvariant hsteady hreach hblock
      have hrel := hmatches.enter hinvariant hblock
      simp only [Machine.step, hblock, hmoved, site.enter?_moved]
      generalize machine.enter? (func.graph.labelOf previous) block frame = entered at hrel
      generalize machine.enter? (func.graph.labelOf previous) block twin = entered' at hrel
      cases hrel with
      | none => exact .stuck hmatches.agree
      | some hentered => exact (hfinish hentered).leave hreach hblock

theorem related_run (hinvariant : machine.Invariant func.graph holds)
    (hsteady : site.IsSteady machine holds) {arguments : List Value} {memory : Memory}
    (hinitial : holds (machine.initial func arguments memory)) (count : Nat) :
    site.Related machine holds (machine.run func arguments memory count)
      (machine.run site.moved arguments memory count) := by
  induction count with
  | zero =>
      refine .running ⟨rfl, hinitial, .refl .., fun hprevious => (nomatch hprevious), ?_⟩
      exact fun hmem => absurd hmem (site.region.zero_not_mem site.isPreheader)
  | succ count ih => exact ih.step hinvariant hsteady

end HoistSite

end LoopHoist
