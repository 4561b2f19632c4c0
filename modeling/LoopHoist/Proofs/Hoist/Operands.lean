import LoopHoist.Proofs.Hoist.Conservation
import LoopHoist.Proofs.Source.Acceptance

/-!
# What hoisted instructions read

Whether an operand is made in the loop is asked of the whole symbol, and a symbol is
a name with a type.  So whatever leaves a loop reads none of the symbols that the
loop defines at that moment.  It may read one of their names, at another type.
-/

namespace LoopHoist

variable {policy : Policy}

/-! ## The calls of a run -/

/-- Hoisting comes to a loop of a graph, and some instructions leave. -/
structure HoistCall where
  graph : Graph
  loop : NaturalLoop
  moved : List Instr

inductive Graph.Calls (facts : Facts) (policy : Policy) :
    List NaturalLoop → Graph → HoistCall → Prop
  | here {graph next : Graph} {loop : NaturalLoop} {loops : List NaturalLoop}
      {report : HoistReport} :
      graph.hoistLoop facts policy loop = .ok (next, report) →
      Graph.Calls facts policy (loop :: loops) graph ⟨graph, loop, report.hoisted⟩
  | later {graph next : Graph} {loop : NaturalLoop} {loops : List NaturalLoop}
      {report : HoistReport} {call : HoistCall} :
      graph.hoistLoop facts policy loop = .ok (next, report) →
      Graph.Calls facts policy loops next call →
      Graph.Calls facts policy (loop :: loops) graph call

def Func.Calls (policy : Policy) (func : Func) (call : HoistCall) : Prop :=
  ∃ facts, Facts.ofGraph func.graph = .ok facts ∧
    Graph.Calls facts policy facts.visited func.graph call

/-- The calls of at most so many rounds. -/
inductive Program.Calls (policy : Policy) : Nat → Program → HoistCall → Prop
  | here {rounds : Nat} {program : Program} {func : Func} {call : HoistCall} :
      func ∈ program.funcs → func.Calls policy call →
      Program.Calls policy (rounds + 1) program call
  | later {rounds : Nat} {program next : Program} {round : Round} {call : HoistCall} :
      program.hoist policy = .ok (next, round) → round.changed = true →
      Program.Calls policy rounds next call → Program.Calls policy (rounds + 1) program call

/-- A call on a graph that hoisting has made of a given one, which moves only what is
fit to leave. -/
structure HoistCall.IsSound (policy : Policy) (graph : Graph) (call : HoistCall) : Prop where
  steps : Graph.Hoists policy graph call.graph
  hoistable : ∀ instr ∈ call.moved, ∃ source origins,
    call.graph.Hoistable call.loop origins policy source instr

theorem Graph.Calls.isSound {facts : Facts} {graph : Graph} {loops : List NaturalLoop}
    {call : HoistCall} (h : Graph.Calls facts policy loops graph call) (wf : graph.WellFormed)
    (hregions : ∀ loop ∈ loops, loop.IsRegion graph)
    (horigins : facts.origins.Describes graph.bodies) : call.IsSound policy graph := by
  induction h with
  | here hloop =>
      obtain ⟨_, _, hgiven, hhoisted⟩ :=
        hoistLoop_isHoisted wf (hregions _ List.mem_cons_self) horigins policy
      cases hloop.symm.trans hgiven
      refine ⟨.refl, fun instr hinstr => ?_⟩
      obtain ⟨source, hsource⟩ := hhoisted.hoistable instr hinstr
      exact ⟨source, _, hsource⟩
  | later hloop _ ih =>
      rw [List.forall_mem_cons] at hregions
      obtain ⟨_, _, hgiven, hhoisted⟩ := hoistLoop_isHoisted wf hregions.1 horigins policy
      cases hloop.symm.trans hgiven
      have hfirst := hhoisted.steps
      have hrest := ih (hfirst.wellFormed wf)
        (fun other hother => (hregions.2 other hother).of_shape hfirst.shape_eq)
        (horigins.mono hfirst.bodies_perm.symm.subset)
      exact ⟨hfirst.trans hrest.steps, hrest.hoistable⟩

theorem Func.Calls.isSound {func : Func} {call : HoistCall} (h : func.Calls policy call)
    (wf : func.graph.WellFormed) : call.IsSound policy func.graph := by
  obtain ⟨facts, hfacts, hcalls⟩ := h
  cases hfacts.symm.trans (Facts.ofGraph_eq_ok wf)
  exact hcalls.isSound wf (fun _ => Facts.isRegion_of_mem_visited wf)
    (Facts.describes_origins func.graph)

theorem Program.Calls.isSound {rounds : Nat} {program : Program} {call : HoistCall}
    (h : Program.Calls policy rounds program call)
    (wf : ∀ func ∈ program.funcs, func.graph.WellFormed) :
    ∃ func ∈ program.funcs, call.IsSound policy func.graph := by
  induction h with
  | here hfunc hcall => exact ⟨_, hfunc, hcall.isSound (wf _ hfunc)⟩
  | later hhoist _ _ ih =>
      obtain ⟨_, _, hgiven, hhoists⟩ := Program.hoist_eq_ok wf policy
      cases hhoist.symm.trans hgiven
      obtain ⟨next, hnext, hsound⟩ := ih (Program.wellFormed_of_hoists hhoists wf)
      obtain ⟨func, hfunc, hsteps⟩ := exists_mem_of_forall₂ hhoists hnext
      exact ⟨func, hfunc, hsteps.steps.trans hsound.steps, hsound.hoistable⟩

/-! ## Definitions are registers -/

theorem Source.Instr.isGlobal_write? {tree : Source.Instr} {symbol : Symbol}
    (h : symbol ∈ tree.meaning.write?) : symbol.isGlobal = false := by
  cases tree <;> simp [Source.Instr.meaning, Instr.write?] at h
  case call target ty callee arguments =>
    obtain ⟨name, _, rfl⟩ := h
    rfl
  all_goals
    subst h
    rfl

theorem Block.exists_write_of_mem_defs {block : Block} {symbol : Symbol} (h : symbol ∈ block.defs) :
    ∃ instr ∈ block.instrs, symbol ∈ instr.write? := by
  simp only [defs, instrs, List.mem_append, List.mem_map, List.mem_filterMap] at h ⊢
  rcases h with ⟨phi, hphi, rfl⟩ | ⟨instr, hinstr, hwrite⟩
  · exact ⟨.phi phi, .inl (.inl ⟨phi, hphi, rfl⟩), rfl⟩
  · exact ⟨instr, .inl (.inr hinstr), hwrite⟩

theorem Program.isGlobal_of_parse {text : String} {program : Program}
    (h : Program.parse text = .ok program) {func : Func} (hfunc : func ∈ program.funcs)
    {instr : Instr} (hinstr : instr ∈ func.graph.blocks.flatMap Block.instrs) {symbol : Symbol}
    (hsymbol : symbol ∈ instr.write?) : symbol.isGlobal = false := by
  obtain ⟨_, _, rfl⟩ := exists_meaning_of_parse h hfunc hinstr
  exact Source.Instr.isGlobal_write? hsymbol

/-- An instruction that leaves a loop may read the name of a register that the loop
defines, but never at the type with which the loop defines it. -/
theorem Program.ty_ne_of_calls {text : String} {program : Program}
    (hparse : Program.parse text = .ok program) (policy : Policy) (maxRounds : Nat)
    {call : HoistCall} (hcall : program.Calls policy maxRounds call)
    {instr : Instr} (hinstr : instr ∈ call.moved) {symbol : Symbol} (hread : symbol ∈ instr.reads)
    (hlocal : symbol.isGlobal = false) {position : Nat} {block : Block}
    (hposition : position ∈ call.loop.blocks) (hblock : call.graph.block? position = some block)
    {definition : Symbol} (hdefinition : definition ∈ block.defs)
    (hname : definition.name = symbol.name) : definition.ty ≠ symbol.ty := by
  obtain ⟨func, hfunc, hsound⟩ := hcall.isSound (wellFormed_of_parse hparse)
  obtain ⟨source, origins, hhoistable⟩ := hsound.hoistable instr hinstr
  have hregister : definition.isGlobal = false := by
    obtain ⟨writer, hwriter, hwrite⟩ := Block.exists_write_of_mem_defs hdefinition
    refine isGlobal_of_parse hparse hfunc ?_ hwrite
    apply hsound.steps.instrs_perm.subset
    exact List.mem_flatMap.mpr ⟨block, List.mem_of_getElem? hblock, hwriter⟩
  intro hty
  have hsame : definition = symbol := by
    cases definition
    cases symbol
    simp_all
  exact hhoistable.operands hposition hblock hread (hsame ▸ hdefinition)

/-! ## A name at two types -/

/-- The sum in the header is a number to the phi and a float to the next line. -/
def mixedText : String :=
  "define i32 @f(i32 %n) \x7b
a:
  br label %h
h:
  %i = phi i32 [0, %a], [%j, %h]
  %j = add i32 %i, 1
  %x = fadd float %j, 1.0
  %c = icmp slt i32 %j, %n
  br i1 %c, label %h, label %e
e:
  ret i32 %i
\x7d
"

def mixedSum : Instr :=
  .arith (.register "x" .float) .fadd .float (.named (.register "j" .float))
    (.float ⟨0x3f800000⟩)

def mixedHeader : Block :=
  let sum : Operand := .named (.register "j" .i32)
  { id := 1, label := "h", prev := [0, 1], succ := [1, 2],
    phis := [⟨.register "i" .i32, .i32, [(.int 0, "a"), (sum, "h")]⟩],
    body := [.arith (.register "j" .i32) .add .i32 (.named (.register "i" .i32)) (.int 1),
      mixedSum,
      .compare (.register "c" .i1) .icmp .slt .i32 sum (.named (.register "n" .i32))],
    jump := some (.branch .i1 (.named (.register "c" .i1)) "h" "e") }

def mixedFunc : Func :=
  { name := "f"
    returnTy := .i32
    params := [.named (.register "n" .i32)]
    graph := ⟨[
      { id := 0, label := "a", succ := [1], jump := some (.jump "h") },
      mixedHeader,
      { id := 2, label := "e", prev := [1],
        jump := some (.ret (some (.named (.register "i" .i32)))) }]⟩ }

/-- The text is read as the function, whose one loop loses the sum of floats. -/
theorem exists_parse_mixedText : ∃ program, Program.parse mixedText = .ok program ∧
    program = ⟨[mixedFunc]⟩ ∧ (Facts.compute mixedFunc.graph).visited = [⟨1, [1]⟩] ∧
    (mixedFunc.graph.hoistLoop (Facts.compute mixedFunc.graph) .conservative
      ⟨1, [1]⟩).toOption.map (fun result => result.2.hoisted) = some [mixedSum] :=
  Program.exists_parse_of_eval (by
    rw [mixedText, String.toList_ofList]
    decide +kernel)

theorem parse_mixedText : Program.parse mixedText = .ok ⟨[mixedFunc]⟩ := by
  obtain ⟨program, hparse, hprogram, _⟩ := exists_parse_mixedText
  rw [hparse, hprogram]

theorem mixedFunc_calls : (Program.mk [mixedFunc]).Calls .conservative 8
    ⟨mixedFunc.graph, ⟨1, [1]⟩, [mixedSum]⟩ := by
  have wf := Program.wellFormed_of_parse parse_mixedText mixedFunc List.mem_cons_self
  obtain ⟨_, _, _, hvisited, hhoisted⟩ := exists_parse_mixedText
  obtain ⟨⟨next, report⟩, hresult, hmoved⟩ := Option.map_eq_some_iff.mp hhoisted
  refine .here List.mem_cons_self ⟨_, Facts.ofGraph_eq_ok wf, ?_⟩
  rw [hvisited, ← hmoved]
  exact .here (eq_ok_of_toOption hresult)

theorem mem_reads_mixedSum : Symbol.register "j" .float ∈ mixedSum.reads := by
  simp [mixedSum, Instr.reads, Instr.operands, Operand.symbol?]

theorem mem_defs_mixedHeader : Symbol.register "j" .i32 ∈ mixedHeader.defs := by
  simp [mixedHeader, Block.defs, Instr.write?]

theorem mixedFunc_types_differ : Symbol.register "j" .float ∈ mixedSum.reads ∧
    Symbol.register "j" .i32 ∈ mixedHeader.defs ∧ Ty.i32 ≠ Ty.float :=
  ⟨mem_reads_mixedSum, mem_defs_mixedHeader,
    Program.ty_ne_of_calls parse_mixedText .conservative 8 mixedFunc_calls List.mem_cons_self
      mem_reads_mixedSum rfl List.mem_cons_self rfl mem_defs_mixedHeader rfl⟩

/-- The sum of floats leaves the loop, and the name it reads is defined there. -/
theorem mixedFunc_reads_name_of_loop :
    Program.parse mixedText = .ok ⟨[mixedFunc]⟩ ∧
    (mixedFunc.definitions.map Symbol.name).Nodup ∧
    ∃ call instr symbol position block definition,
      (Program.mk [mixedFunc]).Calls .conservative 8 call ∧ instr ∈ call.moved ∧
      symbol ∈ instr.reads ∧ symbol.isGlobal = false ∧ position ∈ call.loop.blocks ∧
      call.graph.block? position = some block ∧ definition ∈ block.defs ∧
      definition.name = symbol.name :=
  ⟨parse_mixedText, by decide, _, mixedSum, .register "j" .float, 1, mixedHeader,
    .register "j" .i32, mixedFunc_calls, List.mem_cons_self, mem_reads_mixedSum, rfl,
    List.mem_cons_self, rfl, mem_defs_mixedHeader, rfl⟩

end LoopHoist
