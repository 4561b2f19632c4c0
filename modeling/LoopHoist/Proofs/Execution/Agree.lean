import LoopHoist.Proofs.Execution.Machine

/-!
# Frames that agree

What an instruction does depends on the registers that it reads, on the memory
and on the trace.  So two frames that agree on all registers but one stay that
way as long as nothing reads that one.
-/

namespace LoopHoist

variable {Value Memory : Type} {machine : Machine Value Memory} {frame twin : Frame Value Memory}

def Instr.ReadsName (instr : Instr) (name : String) : Prop :=
  ∃ symbol ∈ instr.reads, symbol.isGlobal = false ∧ symbol.name = name

section

variable {α β : Type} {r s : α → β → Prop} {first : Option α} {second : Option β}

theorem rel_imp (h : Option.Rel r first second) (himp : ∀ {item : α} {other : β},
    first = some item → second = some other → r item other → s item other) :
    Option.Rel s first second := by
  cases h with
  | none => exact .none
  | some hitem => exact .some (himp rfl rfl hitem)

theorem rel_some_left {item : α} (h : Option.Rel r (some item) second) :
    ∃ other, second = some other ∧ r item other := by
  cases h with
  | some hitem => exact ⟨_, rfl, hitem⟩

theorem rel_some_right {other : β} (h : Option.Rel r first (some other)) :
    ∃ item, first = some item ∧ r item other := by
  cases h with
  | some hitem => exact ⟨_, rfl, hitem⟩

end

namespace Machine

/-! ## What results depend on -/

theorem eval_congr {registers others : String → Value} {operand : Operand}
    (h : ∀ symbol, operand.symbol? = some symbol → symbol.isGlobal = false →
      registers symbol.name = others symbol.name) :
    machine.eval registers operand = machine.eval others operand := by
  cases operand with
  | int value => rfl
  | float value => rfl
  | named symbol =>
      rw [eval, eval]
      split
      · rfl
      · rename_i hlocal
        exact h symbol rfl (by simpa using hlocal)

theorem eval_operand_congr {registers others : String → Value} (instr : Instr)
    (h : ∀ {name : String}, instr.ReadsName name → registers name = others name)
    {operand : Operand} (hmem : operand ∈ instr.operands) :
    machine.eval registers operand = machine.eval others operand := by
  refine eval_congr fun symbol hsymbol hlocal => h ⟨symbol, ?_, hlocal, rfl⟩
  exact List.mem_filterMap.mpr ⟨operand, hmem, hsymbol⟩

theorem result?_congr {registers others : String → Value} {memory : Memory} {instr : Instr}
    (h : ∀ {name : String}, instr.ReadsName name → registers name = others name) :
    machine.result? registers memory instr = machine.result? others memory instr := by
  have heval : ∀ operand ∈ instr.operands,
      machine.eval registers operand = machine.eval others operand :=
    fun operand => eval_operand_congr _ h
  cases instr <;> simp_all [Instr.operands, result?]

theorem effect_congr {instr : Instr} (hmemory : frame.memory = twin.memory)
    (htrace : frame.trace = twin.trace)
    (h : ∀ {name : String}, instr.ReadsName name → frame.registers name = twin.registers name) :
    machine.effect frame instr = machine.effect twin instr := by
  have heval : ∀ operand ∈ instr.operands,
      machine.eval frame.registers operand = machine.eval twin.registers operand :=
    fun operand => eval_operand_congr _ h
  have hresult : machine.result? frame.registers twin.memory instr =
      machine.result? twin.registers twin.memory instr := result?_congr h
  cases instr with
  | store value address => simp_all [Instr.operands, effect]
  | alloc target ty count => simp_all [Instr.operands, effect]
  | call target ty callee arguments =>
      have harguments : (arguments.map fun argument =>
          (argument.1, machine.eval frame.registers argument.2)) =
          arguments.map fun argument => (argument.1, machine.eval twin.registers argument.2) :=
        List.map_congr_left fun argument hmem => by
          rw [heval argument.2 (List.mem_map_of_mem hmem)]
      simp only [effect, harguments, hmemory, htrace]
  | _ => simp only [effect, hmemory, htrace, hresult]

theorem select?_congr {registers others : String → Value} {previous : Option Label} {phi : Phi}
    (h : ∀ source ∈ phi.sources, some source.2 = previous → ∀ symbol,
      source.1.symbol? = some symbol → symbol.isGlobal = false →
        registers symbol.name = others symbol.name) :
    machine.select? registers previous phi = machine.select? others previous phi := by
  rw [select?, select?]
  cases hfind : phi.sources.find? fun source => decide (some source.2 = previous) with
  | none => rfl
  | some source =>
      have hlabel : some source.2 = previous := by simpa using List.find?_some hfind
      rw [Option.map_some, Option.map_some,
        eval_congr (h source (List.mem_of_find?_eq_some hfind) hlabel)]

theorem selectAll_congr {registers others : String → Value} {previous : Option Label}
    {phis : List Phi} (h : ∀ phi ∈ phis,
      machine.select? registers previous phi = machine.select? others previous phi) :
    phis.mapM (machine.select? registers previous) =
      phis.mapM (machine.select? others previous) := by
  induction phis with
  | nil => rfl
  | cons phi phis ih =>
      rw [List.forall_mem_cons] at h
      rw [List.mapM_cons, List.mapM_cons, h.1, ih h.2]

/-! ## What execution leaves alone -/

theorem assign_of_ne {registers : String → Value} {target : Option Symbol} {value : Option Value}
    {name : String} (h : ∀ symbol, target = some symbol → symbol.name ≠ name) :
    assign registers target value name = registers name := by
  cases target with
  | none => rfl
  | some symbol =>
      cases value with
      | none => rfl
      | some value => exact Function.update_of_ne (Ne.symm (h symbol rfl)) ..

theorem exec_registers_of_ne {instr : Instr} {name : String}
    (h : ∀ symbol, instr.write? = some symbol → symbol.name ≠ name) :
    (machine.exec frame instr).registers name = frame.registers name :=
  assign_of_ne h

theorem execAll_registers_of_ne {instrs : List Instr} {name : String}
    (h : ∀ symbol ∈ instrs.filterMap Instr.write?, symbol.name ≠ name) :
    (machine.execAll frame instrs).registers name = frame.registers name := by
  induction instrs generalizing frame with
  | nil => rfl
  | cons instr instrs ih =>
      have hfirst : ∀ symbol, instr.write? = some symbol → symbol.name ≠ name :=
        fun symbol hwrite => h symbol (List.mem_filterMap.mpr ⟨instr, List.mem_cons_self, hwrite⟩)
      have hrest : ∀ symbol ∈ instrs.filterMap Instr.write?, symbol.name ≠ name := by
        intro symbol hmem
        obtain ⟨other, hother, hwrite⟩ := List.mem_filterMap.mp hmem
        exact h symbol (List.mem_filterMap.mpr ⟨other, List.mem_cons_of_mem _ hother, hwrite⟩)
      exact (ih hrest).trans (exec_registers_of_ne hfirst)

theorem execAll_append (frame : Frame Value Memory) (first second : List Instr) :
    machine.execAll frame (first ++ second) =
      machine.execAll (machine.execAll frame first) second :=
  List.foldl_append

theorem assignAll_of_ne {registers : String → Value} {entries : List (Symbol × Value)}
    {name : String} (h : ∀ entry ∈ entries, entry.1.name ≠ name) :
    assignAll registers entries name = registers name := by
  induction entries generalizing registers with
  | nil => rfl
  | cons entry entries ih =>
      rw [List.forall_mem_cons] at h
      exact (ih h.2).trans (Function.update_of_ne (Ne.symm h.1) ..)

/-- Entering a block changes the registers of its phis alone. -/
theorem enter?_eq_some {previous : Option Label} {block : Block} {entered : Frame Value Memory}
    (h : machine.enter? previous block frame = some entered) :
    entered.memory = frame.memory ∧ entered.trace = .visit block.label :: frame.trace ∧
      ∀ {name : String}, (∀ symbol ∈ block.phis.map Phi.target, symbol.name ≠ name) →
        entered.registers name = frame.registers name := by
  obtain ⟨values, _, rfl⟩ := Option.map_eq_some_iff.mp h
  exact ⟨rfl, rfl, fun hname => assignAll_of_ne fun entry hentry =>
    hname _ (List.of_mem_zip hentry).1⟩

/-! ## Agreement off one register -/

/-- Two frames differ in one register at most. -/
structure AgreeOff (name : String) (frame twin : Frame Value Memory) : Prop where
  memory_eq : frame.memory = twin.memory
  trace_eq : frame.trace = twin.trace
  registers_eq : ∀ {other : String}, other ≠ name → frame.registers other = twin.registers other

namespace AgreeOff

variable {name : String}

theorem refl (name : String) (frame : Frame Value Memory) : AgreeOff name frame frame :=
  ⟨rfl, rfl, fun _ => rfl⟩

theorem eq_of_eq (h : AgreeOff name frame twin)
    (hname : frame.registers name = twin.registers name) : frame = twin := by
  refine Frame.ext ?_ h.memory_eq h.trace_eq
  funext other
  by_cases heq : other = name
  · rw [heq, hname]
  · exact h.registers_eq heq

theorem exec (h : AgreeOff name frame twin) {instr : Instr} (hreads : ¬instr.ReadsName name) :
    AgreeOff name (machine.exec frame instr) (machine.exec twin instr) := by
  have heffect : machine.effect frame instr = machine.effect twin instr := by
    refine effect_congr h.memory_eq h.trace_eq fun hread => h.registers_eq ?_
    rintro rfl
    exact hreads hread
  refine ⟨by simp [Machine.exec, heffect], by simp [Machine.exec, heffect], ?_⟩
  intro other hne
  simp only [Machine.exec, heffect]
  cases instr.write? with
  | none => exact h.registers_eq hne
  | some symbol =>
      cases (machine.effect twin instr).1 with
      | none => exact h.registers_eq hne
      | some value =>
          simp only [assign, Function.update_apply]
          split
          · rfl
          · exact h.registers_eq hne

theorem execAll (h : AgreeOff name frame twin) {instrs : List Instr}
    (hreads : ∀ instr ∈ instrs, ¬instr.ReadsName name) :
    AgreeOff name (machine.execAll frame instrs) (machine.execAll twin instrs) := by
  induction instrs generalizing frame twin with
  | nil => exact h
  | cons instr instrs ih =>
      rw [List.forall_mem_cons] at hreads
      exact ih (h.exec hreads.1) hreads.2

theorem assignAll {registers others : String → Value}
    (h : ∀ {other : String}, other ≠ name → registers other = others other)
    (entries : List (Symbol × Value)) {other : String} (hne : other ≠ name) :
    Machine.assignAll registers entries other = Machine.assignAll others entries other := by
  induction entries generalizing registers others with
  | nil => exact h hne
  | cons entry entries ih =>
      refine ih fun {another} hanother => ?_
      simp only [Function.update_apply]
      split
      · rfl
      · exact h hanother

theorem enter? (h : AgreeOff name frame twin) {previous : Option Label} {block : Block}
    (hreads : ∀ phi ∈ block.phis, ∀ source ∈ phi.sources, some source.2 = previous →
      ∀ symbol, source.1.symbol? = some symbol → symbol.isGlobal = false → symbol.name ≠ name) :
    Option.Rel (AgreeOff name) (machine.enter? previous block frame)
      (machine.enter? previous block twin) := by
  have hselect : block.phis.mapM (machine.select? frame.registers previous) =
      block.phis.mapM (machine.select? twin.registers previous) :=
    selectAll_congr fun phi hphi => select?_congr fun source hsource hlabel symbol hsymbol hlocal =>
      h.registers_eq (hreads phi hphi source hsource hlabel symbol hsymbol hlocal)
  rw [Machine.enter?, Machine.enter?, hselect]
  cases block.phis.mapM (machine.select? twin.registers previous) with
  | none => exact .none
  | some values =>
      refine .some ⟨h.memory_eq, by simp [h.trace_eq], ?_⟩
      exact fun hne => assignAll h.registers_eq _ hne

end AgreeOff

end Machine

end LoopHoist
