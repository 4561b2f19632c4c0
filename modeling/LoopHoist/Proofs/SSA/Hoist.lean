import LoopHoist.Proofs.Hoist.Step
import LoopHoist.Proofs.SSA.Check
import LoopHoist.Proofs.SSA.Move
import LoopHoist.Proofs.Source.WellFormed
import Mathlib.Data.List.Permutation

/-!
# Hoisting keeps strict form

An operand of an instruction that leaves a loop is defined outside the loop, in a
block that dominates the instruction.  Such a block dominates the preheader too,
so the operand is there when the instruction arrives.
-/

namespace LoopHoist

namespace Func

variable {func : Func} {policy : Policy} {next : Graph}

/-- What a hoistable instruction reads is available at the end of the preheader. -/
theorem StrictSSA.available_preheader (ssa : func.StrictSSA) {loop : NaturalLoop}
    {origins : OriginTable} {preheader source index : Nat} {landing : Block} {instr : Instr}
    (hregion : loop.IsRegion func.graph) (hpre : loop.IsPreheader func.graph preheader)
    (hlanding : func.graph.block? preheader = some landing)
    (hhoistable : func.graph.Hoistable loop origins policy source instr)
    (hinstr : func.graph.HasInstr source index instr) {symbol : Symbol}
    (hread : symbol ∈ instr.reads) (hlocal : symbol.isGlobal = false) :
    func.Available preheader landing.body symbol := by
  obtain ⟨block, before, after, hblock, hbody, _⟩ := hinstr.split
  rcases ssa.body hblock hbody symbol hread hlocal with
    hparam | ⟨twin, htwin, hmem⟩ | ⟨origin, twin, _, htwin, hmem, hdominates⟩
  · exact .inl hparam
  · -- the loop would define its own operand
    exfalso
    cases hblock.symm.trans htwin
    refine hhoistable.operands hhoistable.source_mem hblock hread ?_
    rw [Block.defs, hbody, List.filterMap_append, ← List.append_assoc]
    exact List.mem_append_left _ hmem
  · have hout : origin ∉ loop.blocks := fun hin => hhoistable.operands hin htwin hread hmem
    have hdominates' := hregion.dominates_preheader hpre hdominates hhoistable.source_mem hout
    by_cases heq : origin = preheader
    · subst heq
      cases hlanding.symm.trans htwin
      exact .inr (.inl ⟨landing, hlanding, hmem⟩)
    · exact .inr (.inr ⟨origin, twin, heq, htwin, hmem, hdominates'⟩)

theorem StrictSSA.hoistStep (ssa : func.StrictSSA) (h : Graph.HoistStep policy func.graph next) :
    { func with graph := next }.StrictSSA := by
  generalize hgraph : func.graph = graph at h
  cases h with
  | hoist hregion hpre _ hhoistable hinstr =>
      subst hgraph
      obtain ⟨landing, hlanding, _⟩ := id hpre.succ_eq
      refine ssa.move hinstr hlanding ?_ ?_ ?_ ?_
      · exact fun heq => hpre.not_mem (heq ▸ hhoistable.source_mem)
      · exact hregion.preheader_dominates hpre hhoistable.source_mem
      · exact hregion.preheader_reachable hpre
      · exact fun symbol => ssa.available_preheader hregion hpre hlanding hhoistable hinstr

theorem StrictSSA.hoists (ssa : func.StrictSSA) (h : Graph.Hoists policy func.graph next) :
    { func with graph := next }.StrictSSA := by
  induction h with
  | refl => exact ssa
  | tail _ hstep ih => exact ih.hoistStep hstep

end Func

/-! ## Calls in any order -/

namespace Graph

/-- Hoists out of one loop after the other, each time under a policy of its own. -/
def hoistCalls (graph : Graph) (facts : Facts) (calls : List (Policy × NaturalLoop)) :
    Except Fault Graph :=
  calls.foldlM (fun graph (policy, loop) => (graph.hoistLoop facts policy loop).map Prod.fst) graph

theorem hoistCalls_eq_ok {graph : Graph} {facts : Facts} {calls : List (Policy × NaturalLoop)}
    (wf : graph.WellFormed) (horigins : facts.origins.Describes graph.bodies)
    (hregions : ∀ call ∈ calls, call.2.IsRegion graph) :
    ∃ last, graph.hoistCalls facts calls = .ok last ∧ Hoists .aliasAware graph last := by
  induction calls generalizing graph with
  | nil => exact ⟨graph, rfl, .refl⟩
  | cons call calls ih =>
      obtain ⟨policy, loop⟩ := call
      rw [List.forall_mem_cons] at hregions
      obtain ⟨next, report, hnext, hfirst⟩ := hoistLoop_eq_ok wf hregions.1 horigins policy
      obtain ⟨last, hlast, hrest⟩ := ih (hfirst.wellFormed wf)
        (horigins.mono hfirst.bodies_perm.symm.subset)
        (fun other hother => (hregions.2 other hother).of_shape hfirst.shape_eq)
      refine ⟨last, ?_, hfirst.aliasAware.trans hrest⟩
      simp only [hoistCalls, List.foldlM_cons, hnext]
      exact hlast

end Graph

/-- Hoisting out of the loops of a function, in any order, as often as one likes and
under any policies, succeeds and keeps strict form. -/
theorem Func.strictSSA_hoistCalls {text : String} {program : Program} {func : Func}
    (hparse : Program.parse text = .ok program) (hfunc : func ∈ program.funcs)
    (ssa : func.StrictSSA) (calls : List (Policy × NaturalLoop))
    (hcalls : ∀ call ∈ calls, call.2 ∈ (Facts.compute func.graph).forest.loops) :
    ∃ last, func.graph.hoistCalls (Facts.compute func.graph) calls = .ok last ∧
      { func with graph := last }.StrictSSA := by
  have wf := Program.wellFormed_of_parse hparse func hfunc
  have horigins : (Facts.compute func.graph).origins.Describes func.graph.bodies :=
    OriginTable.describes_ofGraph func.graph
  obtain ⟨last, hlast, hrun⟩ := Graph.hoistCalls_eq_ok wf horigins
    fun call hcall => NaturalLoop.isRegion_of_mem_all wf (hcalls call hcall)
  exact ⟨last, hlast, ssa.hoists hrun⟩

/-! ## A loop with a guard -/

/-- The header reads a global, the body divides and writes to memory of the
function's own.  The load runs in every round, the division only behind the test.
-/
def guardedText : String :=
  "define i32 @f(i32 %x, i32 %y) \x7b
a:
  %s = alloca i32, i32 1
  br label %h
h:
  %i = phi i32 [0, %a], [%j, %b]
  %v = load i32, i32* @g
  %c = icmp slt i32 %i, %x
  br i1 %c, label %b, label %e
b:
  %d = sdiv i32 %x, %y
  store i32 %d, i32* %s
  %j = add i32 %i, %v
  br label %h
e:
  ret i32 %i
\x7d
"

def guardedFunc : Func :=
  let register (name : String) : Symbol := ⟨name, .i32, false⟩
  let value (name : String) : Operand := .named (register name)
  let cell : Symbol := ⟨"s", .i32Ptr, false⟩
  let test : Symbol := ⟨"c", .i1, false⟩
  { name := "f"
    returnTy := .i32
    params := [value "x", value "y"]
    graph := ⟨[
      { id := 0, label := "a", succ := [1], body := [.alloc cell .i32 (.int 1)],
        jump := some (.jump "h") },
      { id := 1, label := "h", prev := [0, 2], succ := [2, 3],
        phis := [⟨register "i", .i32, [(.int 0, "a"), (value "j", "b")]⟩],
        body := [.load (register "v") .i32 (.named ⟨"g", .i32Ptr, true⟩),
          .compare test .icmp .slt .i32 (value "i") (value "x")],
        jump := some (.branch .i1 (.named test) "b" "e") },
      { id := 2, label := "b", prev := [1], succ := [1],
        body := [.arith (register "d") .sdiv .i32 (value "x") (value "y"),
          .store (value "d") (.named cell),
          .arith (register "j") .add .i32 (value "i") (value "v")],
        jump := some (.jump "h") },
      { id := 3, label := "e", prev := [1], jump := some (.ret (some (value "i"))) }]⟩ }

theorem parse_guardedText : Program.parse guardedText = .ok ⟨[guardedFunc]⟩ := by
  apply eq_ok_of_toOption
  rw [guardedText, Program.toOption_parse_ofList]
  decide +kernel

theorem guardedFunc_strictSSA : guardedFunc.StrictSSA := by
  have wf := Program.wellFormed_of_parse parse_guardedText guardedFunc List.mem_cons_self
  exact (Func.isStrictSSA_iff wf).mp (by cbv)

/-- The loop of the function, hoisted from with care and then again without. -/
theorem guardedFunc_hoistCalls : ∃ loop last,
    (Facts.compute guardedFunc.graph).forest.loops = [loop] ∧
    guardedFunc.graph.hoistCalls (Facts.compute guardedFunc.graph)
      [(.conservative, loop), (.aliasAware, loop)] = .ok last ∧
    last ≠ guardedFunc.graph ∧ { guardedFunc with graph := last }.StrictSSA := by
  have hloops : (Facts.compute guardedFunc.graph).forest.loops = [⟨1, [1, 2]⟩] := by
    decide +kernel
  have hchanged : (guardedFunc.graph.hoistCalls (Facts.compute guardedFunc.graph)
      [(.conservative, ⟨1, [1, 2]⟩), (.aliasAware, ⟨1, [1, 2]⟩)]).toOption ≠
        some guardedFunc.graph := by
    decide +kernel
  obtain ⟨last, hlast, hstrict⟩ := Func.strictSSA_hoistCalls parse_guardedText List.mem_cons_self
    guardedFunc_strictSSA [(.conservative, ⟨1, [1, 2]⟩), (.aliasAware, ⟨1, [1, 2]⟩)]
    (by simp [hloops])
  refine ⟨⟨1, [1, 2]⟩, last, hloops, hlast, ?_, hstrict⟩
  rintro rfl
  exact hchanged (by rw [hlast]; rfl)

end LoopHoist
