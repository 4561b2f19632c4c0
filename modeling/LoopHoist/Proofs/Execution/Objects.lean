import LoopHoist.Proofs.Execution.Preservation

/-!
# Hoisting loads keeps behaviour

Memory is made of objects that do not overlap.  Every global is an object, every
execution of an allocation makes a new one, and an element address stays in the
object of its base.  Then a register whose origin is known can only point where
the origin says, so a store elsewhere leaves a load alone.
-/

namespace LoopHoist

/-! ## The memory -/

inductive Object where
  | global (name : String)
  | allocated (serial : Nat)
deriving DecidableEq

inductive Datum where
  | undefined
  | int (value : Int32)
  | float (value : Single)
  | bit (value : Bool)
  | pointer (object : Object) (offset : Int)

abbrev Contents := Int → Datum

/-- The contents of all objects, those to come included, and the serial of the next
one. -/
structure Heap where
  contents : Object → Contents
  next : Nat

/-- What the model of memory leaves open.  A call is answered with a value, with new
contents for every object, and with the number of objects that it made. -/
structure Platform where
  isTrue : Datum → Bool
  arith : ArithOp → Ty → Datum → Datum → Datum
  compare : CompareWord → CompareOp → Ty → Datum → Datum → Datum
  convert : ConvertOp → Ty → Ty → Datum → Datum
  distance : Ty → Datum → Int
  read : Ty → Contents → Int → Datum
  write : Contents → Int → Datum → Contents
  readWild : Ty → Datum → Datum
  answer : List (Event Datum) → Heap → Ty → String → List (Ty × Datum) →
    Datum × (Object → Contents) × Nat

namespace Platform

def element (platform : Platform) (ty : Ty) (base offset : Datum) : Datum :=
  match base with
  | .pointer object start => .pointer object (start + platform.distance ty offset)
  | _ => .undefined

/-- A load through what is no pointer yields something that does not depend on the
memory. -/
def load (platform : Platform) (heap : Heap) (ty : Ty) (address : Datum) : Datum :=
  match address with
  | .pointer object offset => platform.read ty (heap.contents object) offset
  | wild => platform.readWild ty wild

def store (platform : Platform) (heap : Heap) (value address : Datum) : Heap :=
  match address with
  | .pointer object offset =>
      { heap with
        contents := Function.update heap.contents object
          (platform.write (heap.contents object) offset value) }
  | _ => heap

def call (platform : Platform) (trace : List (Event Datum)) (heap : Heap) (ty : Ty)
    (callee : String) (arguments : List (Ty × Datum)) : Datum × Heap :=
  let answer := platform.answer trace heap ty callee arguments
  (answer.1, ⟨answer.2.1, heap.next + answer.2.2⟩)

def machine (platform : Platform) : Machine Datum Heap where
  int := .int
  float := .float
  global name := .pointer (.global name) 0
  undefined := .undefined
  isTrue := platform.isTrue
  arith := platform.arith
  compare := platform.compare
  convert := platform.convert
  element := platform.element
  load := platform.load
  store := platform.store
  alloc heap _ _ := (.pointer (.allocated heap.next) 0, { heap with next := heap.next + 1 })
  call := platform.call

end Platform

/-! ## Where data may point -/

/-- A datum points, if anywhere, where an origin says.  `makers` tells which
allocation made an object. -/
def Datum.Within (makers : Nat → Option Symbol) (datum : Datum) : Origin → Prop
  | .alloc target => ∀ {object : Object} {offset : Int}, datum = .pointer object offset →
      ∃ serial, object = .allocated serial ∧ makers serial = some target
  | .global name => ∀ {object : Object} {offset : Int}, datum = .pointer object offset →
      object = .global name
  | .unknown => True

namespace Datum

variable {makers later : Nat → Option Symbol} {datum : Datum} {origin : Origin}

theorem within_of_not_pointer (h : ∀ object offset, datum ≠ .pointer object offset) :
    datum.Within makers origin := by
  cases origin with
  | alloc target => exact fun heq => absurd heq (h _ _)
  | global name => exact fun heq => absurd heq (h _ _)
  | unknown => trivial

theorem Within.shift {object : Object} {start offset : Int}
    (h : (pointer object start).Within makers origin) :
    (pointer object offset).Within makers origin := by
  cases origin with
  | alloc target =>
      rintro _ _ ⟨⟩
      exact h rfl
  | global name =>
      rintro _ _ ⟨⟩
      exact h rfl
  | unknown => trivial

theorem Within.element (h : datum.Within makers origin) (platform : Platform) (ty : Ty)
    (offset : Datum) : (platform.element ty datum offset).Within makers origin := by
  cases datum with
  | pointer object start => exact h.shift
  | _ => exact within_of_not_pointer (by rintro _ _ ⟨⟩)

theorem Within.mono (h : datum.Within makers origin)
    (hlater : ∀ {serial : Nat} {target : Symbol}, makers serial = some target →
      later serial = some target) : datum.Within later origin := by
  cases origin with
  | alloc target =>
      intro object offset heq
      obtain ⟨serial, hobject, hmaker⟩ := h heq
      exact ⟨serial, hobject, hlater hmaker⟩
  | global name => exact h
  | unknown => trivial

/-- Known origins that do not overlap lie in different objects. -/
theorem Within.object_ne {another : Origin} {object found : Object}
    {offset start : Int} (h : (pointer object offset).Within makers origin)
    (hother : (pointer found start).Within makers another)
    (hoverlap : origin.mayOverlap another = false) : object ≠ found := by
  rintro rfl
  cases origin with
  | unknown => cases another <;> simp [Origin.mayOverlap] at hoverlap
  | alloc target =>
      obtain ⟨serial, rfl, hmaker⟩ := h rfl
      cases another with
      | unknown => simp [Origin.mayOverlap] at hoverlap
      | global name => cases hother rfl
      | alloc second =>
          obtain ⟨_, ⟨⟩, hsecond⟩ := hother rfl
          cases hmaker.symm.trans hsecond
          simp [Origin.mayOverlap] at hoverlap
  | global name =>
      cases h rfl
      cases another with
      | unknown => simp [Origin.mayOverlap] at hoverlap
      | alloc target =>
          obtain ⟨_, ⟨⟩, _⟩ := hother rfl
      | global second =>
          cases hother rfl
          simp [Origin.mayOverlap] at hoverlap

end Datum

/-! ## Provenance -/

/-- Every register points where its origin says, and only objects that exist have
been made. -/
structure Provenance (origins : OriginTable) (makers : Nat → Option Symbol)
    (frame : Frame Datum Heap) : Prop where
  fresh : ∀ {serial : Nat}, frame.memory.next ≤ serial → makers serial = none
  within : ∀ {symbol : Symbol}, symbol.isGlobal = false →
    (frame.registers symbol.name).Within makers (origins.origin (.named symbol))

/-- Some account of which allocation made which object fits the frame. -/
def HasProvenance (origins : OriginTable) (frame : Frame Datum Heap) : Prop :=
  ∃ makers, Provenance origins makers frame

namespace Provenance

variable {origins : OriginTable} {makers later : Nat → Option Symbol} {platform : Platform}
  {frame : Frame Datum Heap} {func : Func}

theorem eval_within (h : Provenance origins makers frame) (platform : Platform)
    (operand : Operand) :
    (platform.machine.eval frame.registers operand).Within makers (origins.origin operand) := by
  cases operand with
  | int value => exact Datum.within_of_not_pointer (by rintro _ _ ⟨⟩)
  | float value => exact Datum.within_of_not_pointer (by rintro _ _ ⟨⟩)
  | named symbol =>
      by_cases hglobal : symbol.isGlobal = true
      · rw [OriginTable.origin, OriginTable.trace, if_pos hglobal, Machine.eval, if_pos hglobal]
        rintro _ _ ⟨⟩
        rfl
      · rw [Machine.eval, if_neg hglobal]
        exact h.within (by simpa using hglobal)

theorem value_within (h : Provenance origins makers frame) (ssa : func.StrictSSA)
    (hdescribes : origins.Describes func.graph.bodies) {instr : Instr}
    (hinstr : instr ∈ func.graph.bodies)
    (hlater : ∀ {serial : Nat} {target : Symbol}, makers serial = some target →
      later serial = some target)
    (halloc : ∀ {target : Symbol} {ty : Ty} {count : Operand}, instr = .alloc target ty count →
      later frame.memory.next = some target)
    {written symbol : Symbol} {value : Datum} (hwrite : instr.write? = some written)
    (hvalue : (platform.machine.effect frame instr).1 = some value)
    (hname : symbol.name = written.name) (hlocal : symbol.isGlobal = false) :
    value.Within later (origins.origin (.named symbol)) := by
  rcases OriginTable.origin_cases hdescribes hlocal with
    hunknown | ⟨ty, count, hmem, horigin⟩ | ⟨ty, base, offset, hmem, horigin⟩
  · rw [hunknown]
    trivial
  · cases ssa.instr_eq_of_write hmem hinstr rfl hwrite hname
    cases hvalue
    rw [horigin]
    rintro _ _ ⟨⟩
    exact ⟨frame.memory.next, rfl, halloc rfl⟩
  · cases ssa.instr_eq_of_write hmem hinstr rfl hwrite hname
    cases hvalue
    rcases horigin with hunknown | horigin
    · rw [hunknown]
      trivial
    · rw [horigin]
      exact ((h.eval_within platform base).mono hlater).element platform ty _

theorem exec (h : Provenance origins makers frame) (ssa : func.StrictSSA)
    (hdescribes : origins.Describes func.graph.bodies) {instr : Instr}
    (hinstr : instr ∈ func.graph.bodies)
    (hlater : ∀ {serial : Nat} {target : Symbol}, makers serial = some target →
      later serial = some target)
    (halloc : ∀ {target : Symbol} {ty : Ty} {count : Operand}, instr = .alloc target ty count →
      later frame.memory.next = some target)
    (hfresh : ∀ {serial : Nat}, (platform.machine.exec frame instr).memory.next ≤ serial →
      later serial = none) :
    Provenance origins later (platform.machine.exec frame instr) := by
  refine ⟨hfresh, fun {symbol} hlocal => ?_⟩
  have hkept := (h.within hlocal).mono hlater
  rw [Machine.exec]
  cases hwrite : instr.write? with
  | none => exact hkept
  | some written =>
      cases hvalue : (platform.machine.effect frame instr).1 with
      | none => exact hkept
      | some value =>
          simp only [Machine.assign, Function.update_apply]
          split
          · rename_i hname
            exact h.value_within ssa hdescribes hinstr hlater halloc hwrite hvalue hname hlocal
          · exact hkept

end Provenance

namespace HasProvenance

variable {origins : OriginTable} {platform : Platform} {frame : Frame Datum Heap} {func : Func}

theorem exec (h : HasProvenance origins frame) (ssa : func.StrictSSA)
    (hdescribes : origins.Describes func.graph.bodies) {instr : Instr}
    (hinstr : instr ∈ func.graph.bodies) :
    HasProvenance origins (platform.machine.exec frame instr) := by
  obtain ⟨makers, h⟩ := h
  by_cases hkind : ∃ target ty count, instr = .alloc target ty count
  · -- the new object is entered under the allocation that made it
    obtain ⟨target, ty, count, rfl⟩ := hkind
    refine ⟨Function.update makers frame.memory.next (some target),
      h.exec ssa hdescribes hinstr ?_ ?_ ?_⟩
    · intro serial maker hmaker
      rw [Function.update_of_ne, hmaker]
      rintro rfl
      rw [h.fresh (Nat.le_refl _)] at hmaker
      cases hmaker
    · rintro _ _ _ ⟨⟩
      exact Function.update_self ..
    · intro serial hserial
      have hlt : frame.memory.next < serial := hserial
      rw [Function.update_of_ne (by omega), h.fresh (by omega)]
  · refine ⟨makers, h.exec ssa hdescribes hinstr (fun hmaker => hmaker)
      (fun heq => absurd ⟨_, _, _, heq⟩ hkind) fun {serial} hserial => h.fresh ?_⟩
    refine Nat.le_trans ?_ hserial
    cases instr with
    | alloc target ty count => exact absurd ⟨_, _, _, rfl⟩ hkind
    | store value address =>
        simp only [Machine.exec, Machine.effect, Platform.machine, Platform.store]
        split <;> exact Nat.le_refl _
    | call target ty callee arguments => exact Nat.le_add_right ..
    | _ => exact Nat.le_refl _

theorem origin_eq_unknown (ssa : func.StrictSSA)
    (hdescribes : origins.Describes func.graph.bodies) {symbol defined : Symbol}
    (hdefined : defined ∈ func.paramSymbols ∨ defined ∈ func.phiTargets)
    (hname : defined.name = symbol.name) (hlocal : symbol.isGlobal = false) :
    origins.origin (.named symbol) = .unknown := by
  rcases OriginTable.origin_cases hdescribes hlocal with
    hunknown | ⟨ty, count, hmem, _⟩ | ⟨ty, base, offset, hmem, _⟩
  · exact hunknown
  · exact absurd hname.symm (ssa.name_ne_of_write hdefined hmem rfl)
  · exact absurd hname.symm (ssa.name_ne_of_write hdefined hmem rfl)

theorem enter (h : HasProvenance origins frame) (ssa : func.StrictSSA)
    (hdescribes : origins.Describes func.graph.bodies) {position : Nat} {block : Block}
    {previous : Option Label} {entered : Frame Datum Heap}
    (hblock : func.graph.block? position = some block)
    (henter : platform.machine.enter? previous block frame = some entered) :
    HasProvenance origins entered := by
  obtain ⟨makers, h⟩ := h
  obtain ⟨hmemory, _, hregisters⟩ := Machine.enter?_eq_some henter
  refine ⟨makers, fun hserial => h.fresh (hmemory ▸ hserial), fun {symbol} hlocal => ?_⟩
  by_cases hphi : ∃ target ∈ block.phis.map Phi.target, target.name = symbol.name
  · obtain ⟨target, htarget, hname⟩ := hphi
    have hmem : target ∈ func.phiTargets :=
      List.mem_flatMap.mpr ⟨block, List.mem_of_getElem? hblock, htarget⟩
    rw [origin_eq_unknown ssa hdescribes (.inr hmem) hname hlocal]
    trivial
  · rw [hregisters fun target htarget hname => hphi ⟨target, htarget, hname⟩]
    exact h.within hlocal

theorem initial (ssa : func.StrictSSA) (hdescribes : origins.Describes func.graph.bodies)
    (arguments : List Datum) (memory : Heap) :
    HasProvenance origins (platform.machine.initial func arguments memory) := by
  refine ⟨fun _ => none, fun _ => rfl, fun {symbol} hlocal => ?_⟩
  by_cases hparam : ∃ param ∈ func.paramSymbols, param.name = symbol.name
  · obtain ⟨param, hmem, hname⟩ := hparam
    rw [origin_eq_unknown ssa hdescribes (.inl hmem) hname hlocal]
    trivial
  · have hundefined : (platform.machine.initial func arguments memory).registers symbol.name =
        .undefined :=
      Machine.assignAll_of_ne fun entry hentry hname =>
        hparam ⟨entry.1, (List.of_mem_zip hentry).1, hname⟩
    rw [hundefined]
    exact Datum.within_of_not_pointer (by rintro _ _ ⟨⟩)

theorem invariant (ssa : func.StrictSSA) (hdescribes : origins.Describes func.graph.bodies) :
    platform.machine.Invariant func.graph (HasProvenance origins) where
  enter hblock h henter := h.enter ssa hdescribes hblock henter
  exec hinstr h := h.exec ssa hdescribes hinstr

end HasProvenance

/-! ## Loads -/

section

variable {platform : Platform} {frame : Frame Datum Heap} {origins : OriginTable}

theorem Platform.load_congr {heap other : Heap} {ty : Ty} {address : Datum}
    (h : ∀ {object : Object} {offset : Int}, address = .pointer object offset →
      other.contents object = heap.contents object) :
    platform.load other ty address = platform.load heap ty address := by
  cases address with
  | pointer object offset => rw [load, load, h rfl]
  | _ => rfl

theorem Platform.contents_store_of_ne {heap : Heap} {value address : Datum} {object : Object}
    (h : ∀ {found : Object} {offset : Int}, address = .pointer found offset → object ≠ found) :
    (platform.store heap value address).contents object = heap.contents object := by
  cases address with
  | pointer found offset => exact Function.update_of_ne (h rfl) ..
  | _ => rfl

/-- An instruction that writes to nothing the address may point to leaves the load
alone. -/
theorem Platform.load_exec (h : HasProvenance origins frame) {other : Instr} {address : Operand}
    (hsteady : ∀ {written : Origin}, LoopSummary.writtenBy origins other = some written →
      (origins.origin address).mayOverlap written = false) (ty : Ty) :
    platform.load (platform.machine.exec frame other).memory ty
        (platform.machine.eval frame.registers address) =
      platform.load frame.memory ty (platform.machine.eval frame.registers address) := by
  cases other with
  | store value target =>
      obtain ⟨makers, h⟩ := h
      refine load_congr fun hobject => contents_store_of_ne fun hfound => ?_
      have haddress := h.eval_within platform address
      have htarget := h.eval_within platform target
      rw [hobject] at haddress
      rw [hfound] at htarget
      exact haddress.object_ne htarget (hsteady rfl)
  | call target ty callee arguments =>
      have hoverlap := hsteady rfl
      cases horigin : origins.origin address <;> simp [horigin, Origin.mayOverlap] at hoverlap
  | alloc target ty count => exact load_congr fun _ => rfl
  | _ => rfl

end

namespace HoistSite

variable {func : Func} {site : HoistSite .aliasAware func} {platform : Platform}

theorem isSteady_of_provenance :
    site.IsSteady platform.machine (HasProvenance site.origins) := by
  rcases site.hoistable.kind with hpure | ⟨_, target, ty, address, hinstr, hload⟩
  · exact isSteady_of_isComputation hpure (HasProvenance site.origins)
  · intro position block other frame hposition hblock hother hframe
    have haddress : platform.machine.eval (platform.machine.exec frame other).registers address =
        platform.machine.eval frame.registers address := by
      refine Machine.eval_operand_congr site.instr (fun hread =>
        registers_steady hread hposition hblock hother) ?_
      rw [hinstr]
      exact List.mem_cons_self
    simp only [Machine.value?, hinstr, Machine.result?, haddress]
    exact congrArg some (Platform.load_exec hframe (hload hposition hblock hother) ty)

end HoistSite

theorem Platform.admits_aliasAware (platform : Platform) :
    platform.machine.Admits .aliasAware := by
  intro func site arguments memory
  exact ⟨HasProvenance site.origins, HasProvenance.invariant site.ssa site.describes,
    HoistSite.isSteady_of_provenance,
    HasProvenance.initial site.ssa site.describes arguments memory⟩

/-- Optimising with an eye on aliases succeeds and keeps, function by function, the
runs on every machine whose memory is made of objects. -/
theorem Program.sameRuns_optimize_aliasAware {text : String} {program : Program}
    (hparse : Program.parse text = .ok program) (ssa : ∀ func ∈ program.funcs, func.StrictSSA)
    (maxRounds : Nat) :
    ∃ optimized rounds, program.optimize ⟨.aliasAware, maxRounds⟩ = .ok (optimized, rounds) ∧
      ∀ platform : Platform,
        List.Forall₂ platform.machine.SameRuns program.funcs optimized.funcs := by
  obtain ⟨optimized, rounds, hoptimize, hhoists⟩ :=
    Program.optimize_parsed hparse ssa ⟨.aliasAware, maxRounds⟩
  refine ⟨optimized, rounds, hoptimize, fun platform => hhoists.imp ?_⟩
  rintro func next ⟨⟨wf, strict⟩, hhoisted⟩
  exact platform.admits_aliasAware.sameRuns wf strict hhoisted

/-- The load of the loop leaves it, unlike under the conservative policy. -/
theorem guardedFunc_sameRuns_aliasAware : ∃ optimized rounds,
    (⟨[guardedFunc]⟩ : Program).optimize ⟨.aliasAware, 8⟩ = .ok (optimized, rounds) ∧
    (⟨[guardedFunc]⟩ : Program).optimize ⟨.conservative, 8⟩ ≠ .ok (optimized, rounds) ∧
    ∀ platform : Platform,
      List.Forall₂ platform.machine.SameRuns [guardedFunc] optimized.funcs := by
  have hdiffers : ((⟨[guardedFunc]⟩ : Program).optimize ⟨.aliasAware, 8⟩).toOption ≠
      ((⟨[guardedFunc]⟩ : Program).optimize ⟨.conservative, 8⟩).toOption := by
    decide +kernel
  obtain ⟨optimized, rounds, hoptimize, hruns⟩ :=
    Program.sameRuns_optimize_aliasAware parse_guardedText
      (List.forall_mem_singleton.mpr guardedFunc_strictSSA) 8
  refine ⟨optimized, rounds, hoptimize, fun hsame => hdiffers ?_, hruns⟩
  rw [hoptimize, hsame]

end LoopHoist
