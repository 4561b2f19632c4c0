import LoopHoist.Proofs.Execution.Executes
import LoopHoist.Proofs.Execution.Objects

/-!
# Divisions that trap

A signed division traps on a zero divisor and on the one quotient that does not
fit.  Hoisting moves divisions in front of the tests that guard them, so a run may
trap that did not.  It never happens the other way round, and only a division that
was moved can be to blame: an optimised run is free of traps exactly if the
original run is and no division traps where it was moved to.
-/

namespace LoopHoist

variable {Value Memory : Type} {machine : Machine Value Memory}

/-! ## Traps -/

/-- The divisor is zero, or the quotient is one too large. -/
def Datum.DivisionTraps (dividend divisor : Datum) : Prop :=
  divisor = .int 0 ∨ dividend = .int Int32.minValue ∧ divisor = .int (-1)

def Machine.TrapsIn (machine : Machine Datum Memory) (frame : Frame Datum Memory) : Instr → Prop
  | .arith _ op _ left right => (op = .sdiv ∨ op = .srem) ∧
      Datum.DivisionTraps (machine.eval frame.registers left) (machine.eval frame.registers right)
  | _ => False

theorem Machine.SameOperands.trapsIn {machine : Machine Datum Memory}
    {frame twin : Frame Datum Memory} {instr : Instr} (h : machine.SameOperands instr frame twin)
    (htraps : machine.TrapsIn frame instr) : machine.TrapsIn twin instr := by
  cases instr with
  | arith target op ty left right =>
      rw [TrapsIn, ← h left (by simp [Instr.operands]), ← h right (by simp [Instr.operands])]
      exact htraps
  | _ => exact htraps

namespace Platform

variable (platform : Platform)

def TrapsAt (func : Func) (arguments : List Datum) (memory : Heap) (count position : Nat)
    (instr : Instr) : Prop :=
  ∃ frame, platform.machine.Executes func arguments memory count position frame instr ∧
    platform.machine.TrapsIn frame instr

def TrapFree (func : Func) (arguments : List Datum) (memory : Heap) : Prop :=
  ∀ (count position : Nat) (instr : Instr),
    ¬platform.TrapsAt func arguments memory count position instr

/-- No instruction of a function traps that stands in another block than it did. -/
def HoistedTrapFree (func next : Func) (arguments : List Datum) (memory : Heap) : Prop :=
  ∀ (count position : Nat) (instr : Instr), ¬func.graph.Holds position instr →
    ¬platform.TrapsAt next arguments memory count position instr

variable {platform} {policy : Policy} {func next : Func} {arguments : List Datum} {memory : Heap}
  {count position : Nat} {instr : Instr}

theorem TrapsAt.moved (hadmits : platform.machine.Admits policy) (site : HoistSite policy func)
    (h : platform.TrapsAt func arguments memory count position instr) :
    ∃ count' position', platform.TrapsAt site.moved arguments memory count' position' instr := by
  obtain ⟨frame, hexecutes, htraps⟩ := h
  obtain ⟨holds, hinvariant, hsteady, hinitial⟩ := hadmits func site arguments memory
  obtain ⟨count', position', twin, hmoved, hsame⟩ :=
    HoistSite.executes_moved hinvariant hsteady hinitial hexecutes
  exact ⟨count', position', twin, hmoved, hsame.trapsIn htraps⟩

theorem TrapsAt.original (hadmits : platform.machine.Admits policy) (site : HoistSite policy func)
    (h : platform.TrapsAt site.moved arguments memory count position instr) :
    (position = site.preheader ∧ instr = site.instr) ∨
      platform.TrapsAt func arguments memory count position instr := by
  obtain ⟨twin, hexecutes, htraps⟩ := h
  obtain ⟨holds, hinvariant, hsteady, hinitial⟩ := hadmits func site arguments memory
  refine (HoistSite.executes_original hinvariant hsteady hinitial hexecutes).imp_right ?_
  rintro ⟨frame, horiginal, hsame⟩
  exact ⟨frame, horiginal, Machine.SameOperands.trapsIn
    (fun operand hoperand => (hsame operand hoperand).symm) htraps⟩

end Platform

/-! ## Along a run of hoisting steps -/

/-- Instructions only go to blocks that dominate the one they came from. -/
theorem Graph.Hoists.holds {policy : Policy} {graph next : Graph}
    (h : Graph.Hoists policy graph next) {position : Nat} {instr : Instr}
    (hholds : next.Holds position instr) :
    ∃ origin, graph.Holds origin instr ∧ graph.Dominates position origin := by
  induction h generalizing position with
  | refl => exact ⟨position, hholds, .refl graph position⟩
  | @tail middle last hmiddle hstep ih =>
      cases hstep with
      | @hoist loop origins preheader source index moved hregion hpre _ hhoistable hinstr =>
          obtain ⟨block, hblock, hmem⟩ := hholds
          rw [Graph.block?_move, Option.map_eq_some_iff] at hblock
          obtain ⟨old, hold, rfl⟩ := hblock
          rcases List.mem_append.mp hmem with hkept | harrived
          · refine ih ⟨old, hold, ?_⟩
            split at hkept
            · exact List.eraseIdx_subset hkept
            · exact hkept
          · split at harrived
            · rename_i hposition
              subst hposition
              cases List.mem_singleton.mp harrived
              obtain ⟨home, hhome, hget⟩ := hinstr
              obtain ⟨origin, horigin, hdominates⟩ :=
                ih ⟨home, hhome, List.mem_of_getElem? hget⟩
              have hup := hregion.preheader_dominates hpre hhoistable.source_mem
              rw [Graph.dominates_iff_of_shape (Graph.Hoists.shape_eq hmiddle)] at hup
              exact ⟨origin, horigin, hup.trans hdominates⟩
            · cases harrived

namespace Func.Hoists

variable {platform : Platform} {policy : Policy} {func : Func} {arguments : List Datum}
  {memory : Heap}

theorem exists_trapsAt (hadmits : platform.machine.Admits policy) (wf : func.graph.WellFormed)
    (ssa : func.StrictSSA) {graph : Graph} (h : Graph.Hoists policy func.graph graph)
    {count position : Nat} {instr : Instr}
    (htraps : platform.TrapsAt func arguments memory count position instr) :
    ∃ count' position',
      platform.TrapsAt { func with graph := graph } arguments memory count' position' instr := by
  induction h with
  | refl => exact ⟨count, position, htraps⟩
  | tail hmiddle hstep ih =>
      obtain ⟨count', position', htraps'⟩ := ih
      obtain ⟨site, hsite⟩ := HoistSite.exists_of_hoistStep
        (Graph.Hoists.wellFormed hmiddle wf) (ssa.hoists hmiddle) hstep
      rw [hsite]
      exact htraps'.moved hadmits site

/-- A trap that is new comes from an instruction that has moved. -/
theorem trapsAt_or_moved (hadmits : platform.machine.Admits policy) (wf : func.graph.WellFormed)
    (ssa : func.StrictSSA) {graph : Graph} (h : Graph.Hoists policy func.graph graph)
    {count position : Nat} {instr : Instr}
    (htraps : platform.TrapsAt { func with graph := graph } arguments memory count position
      instr) :
    platform.TrapsAt func arguments memory count position instr ∨
      ¬func.graph.Holds position instr := by
  induction h with
  | refl => exact .inl htraps
  | tail hmiddle hstep ih =>
      obtain ⟨site, hsite⟩ := HoistSite.exists_of_hoistStep
        (Graph.Hoists.wellFormed hmiddle wf) (ssa.hoists hmiddle) hstep
      rw [hsite] at htraps
      rcases htraps.original hadmits site with ⟨rfl, rfl⟩ | hearlier
      · -- had it stood in the preheader from the start, its block would dominate itself
        refine .inr fun ⟨landing, hlanding, hmem⟩ => site.not_dominates_preheader ?_
        have hholds : Graph.Holds _ site.source site.instr :=
          ⟨site.block, site.defined.block_eq, by rw [site.defined.body_eq]; simp⟩
        obtain ⟨origin, ⟨home, hhome, hinstr⟩, hdominates⟩ :=
          Graph.Hoists.holds hmiddle hholds
        have hdefs : ∀ {block : Block}, site.instr ∈ block.body → site.symbol ∈ block.defs :=
          fun hblock => List.mem_append_right _
            (List.mem_filterMap.mpr ⟨site.instr, hblock, site.defined.write_eq⟩)
        have horigin := ssa.position_eq_of_name hhome hlanding (hdefs hinstr) (hdefs hmem) rfl
        rw [horigin] at hdominates
        exact (Graph.dominates_iff_of_shape (Graph.Hoists.shape_eq hmiddle)).mpr hdominates
      · exact ih hearlier

theorem trapFree_iff (hadmits : platform.machine.Admits policy) {next : Func}
    (wf : func.graph.WellFormed) (ssa : func.StrictSSA) (h : func.Hoists policy next)
    (arguments : List Datum) (memory : Heap) :
    platform.TrapFree next arguments memory ↔ platform.TrapFree func arguments memory ∧
      platform.HoistedTrapFree func next arguments memory := by
  constructor
  · intro hfree
    refine ⟨fun count position instr htraps => ?_, fun count position instr _ =>
      hfree count position instr⟩
    obtain ⟨count', position', htraps'⟩ := exists_trapsAt hadmits wf ssa h.steps htraps
    rw [← h.frame_eq] at htraps'
    exact hfree count' position' instr htraps'
  · rintro ⟨hfree, hhoisted⟩ count position instr htraps
    rw [h.frame_eq] at htraps
    rcases trapsAt_or_moved hadmits wf ssa h.steps htraps with horiginal | hmoved
    · exact hfree count position instr horiginal
    · rw [← h.frame_eq] at htraps
      exact hhoisted count position instr hmoved htraps

end Func.Hoists

/-- Whatever the settings, optimising succeeds, and an optimised run is free of traps
exactly if the original run is and no division traps where it was moved to. -/
theorem Program.trapFree_optimize_iff {text : String} {program : Program}
    (hparse : Program.parse text = .ok program) (ssa : ∀ func ∈ program.funcs, func.StrictSSA)
    (settings : Settings) :
    ∃ optimized rounds, program.optimize settings = .ok (optimized, rounds) ∧
      ∀ (platform : Platform) (arguments : List Datum) (memory : Heap),
        List.Forall₂ (fun func next => platform.TrapFree next arguments memory ↔
          platform.TrapFree func arguments memory ∧
            platform.HoistedTrapFree func next arguments memory)
          program.funcs optimized.funcs := by
  obtain ⟨optimized, rounds, hoptimize, hhoists⟩ :=
    Program.optimize_parsed hparse ssa settings
  refine ⟨optimized, rounds, hoptimize, fun platform arguments memory => hhoists.imp ?_⟩
  rintro func next ⟨⟨wf, strict⟩, hhoisted⟩
  -- the careful policy allows whatever the settings allow
  exact Func.Hoists.trapFree_iff platform.admits_aliasAware wf strict
    ⟨hhoisted.frame_eq, hhoisted.steps.aliasAware⟩ arguments memory

theorem guardedFunc_trapFree_iff : guardedFunc.StrictSSA ∧ ∃ optimized rounds,
    (⟨[guardedFunc]⟩ : Program).optimize ⟨.aliasAware, 8⟩ = .ok (optimized, rounds) ∧
    ∀ (platform : Platform) (arguments : List Datum) (memory : Heap),
      List.Forall₂ (fun func next => platform.TrapFree next arguments memory ↔
        platform.TrapFree func arguments memory ∧
          platform.HoistedTrapFree func next arguments memory)
        [guardedFunc] optimized.funcs :=
  ⟨guardedFunc_strictSSA, Program.trapFree_optimize_iff parse_guardedText
    (List.forall_mem_singleton.mpr guardedFunc_strictSSA) ⟨.aliasAware, 8⟩⟩

/-! ## A guard that is passed over -/

/-- Machine integers, and nothing else that would do harm. -/
def plainPlatform : Platform where
  isTrue
    | .bit value => value
    | _ => false
  arith
    | .add, _, .int left, .int right => .int (left + right)
    | .sdiv, _, .int left, .int right => .int (left / right)
    | _, _, _, _ => .undefined
  compare
    | _, .slt, _, .int left, .int right => .bit (decide (left < right))
    | _, _, _, _, _ => .undefined
  convert _ _ _ _ := .undefined
  distance _ _ := 0
  read _ contents offset := contents offset
  write contents offset datum := Function.update contents offset datum
  readWild _ _ := .undefined
  answer _ heap _ _ _ := (.undefined, heap.contents, 0)

def zeroHeap : Heap := ⟨fun _ _ => .int 0, 0⟩

def guardedDivision : Instr :=
  .arith ⟨"d", .i32, false⟩ .sdiv .i32 (.named ⟨"x", .i32, false⟩) (.named ⟨"y", .i32, false⟩)

theorem Machine.run_of_returned {func : Func} {arguments : List Value} {memory : Memory}
    {count : Nat} {value : Option Value} {frame : Frame Value Memory}
    (h : machine.run func arguments memory count = .returned value frame) (extra : Nat) :
    machine.run func arguments memory (count + extra) = .returned value frame := by
  induction extra with
  | zero => exact h
  | succ extra ih =>
      rw [← Nat.add_assoc, Machine.run, ih]
      rfl

/-- With a bound of zero the test sends the run past the body. -/
theorem guardedFunc_position_ne {count position : Nat} {previous : Option Nat}
    {frame : Frame Datum Heap}
    (h : plainPlatform.machine.run guardedFunc [.int 0, .int 0] zeroHeap count =
      .running position previous frame) : position ≠ 2 := by
  have hreturned : ∃ value last, plainPlatform.machine.run guardedFunc [.int 0, .int 0] zeroHeap 3 =
      .returned value last := ⟨_, _, rfl⟩
  obtain ⟨value, last, hreturned⟩ := hreturned
  match count with
  | 0 =>
      cases h
      decide
  | 1 =>
      cases h
      decide
  | 2 =>
      cases h
      decide
  | extra + 3 =>
      rw [Nat.add_comm, Machine.run_of_returned hreturned extra] at h
      cases h

/-- A function that never divides, because a test guards the division, divides by zero
once it is optimised. -/
theorem guardedFunc_hoisting_traps :
    plainPlatform.TrapFree guardedFunc [.int 0, .int 0] zeroHeap ∧
    ∃ next rounds, (⟨[guardedFunc]⟩ : Program).optimize ⟨.conservative, 8⟩ =
        .ok (⟨[next]⟩, rounds) ∧
      ¬plainPlatform.TrapFree next [.int 0, .int 0] zeroHeap := by
  constructor
  · rintro count position instr
      ⟨frame, ⟨previous, start, block, entered, before, after, hrun, hblock, _, hbody, _⟩, htraps⟩
    have hne := guardedFunc_position_ne hrun
    have hinstr : instr ∈ block.body := by simp [hbody]
    match position with
    | 0 =>
        cases hblock
        cases List.mem_singleton.mp hinstr
        exact htraps
    | 1 =>
        cases hblock
        rcases List.mem_cons.mp hinstr with rfl | hrest
        · exact htraps
        · cases List.mem_singleton.mp hrest
          exact htraps
    | 2 => exact hne rfl
    | 3 =>
        cases hblock
        cases hinstr
    | position + 4 => cases hblock
  · have hoptimize : ((⟨[guardedFunc]⟩ : Program).optimize ⟨.conservative, 8⟩).toOption.map
        Prod.fst = some ⟨[guardedFunc.move 2 0 0 guardedDivision]⟩ := by
      decide +kernel
    obtain ⟨⟨optimized, rounds⟩, hresult, hfuncs⟩ := Option.map_eq_some_iff.mp hoptimize
    cases hfuncs
    refine ⟨_, rounds, eq_ok_of_toOption hresult, fun hfree => hfree 0 0 guardedDivision ?_⟩
    exact ⟨_, ⟨none, _, _, _, [.alloc ⟨"s", .i32Ptr, false⟩ .i32 (.int 1)], [], rfl, rfl, rfl,
      rfl, rfl⟩, .inl rfl, .inl rfl⟩

end LoopHoist
