import LoopHoist.Proofs.Execution.Division
import LoopHoist.Proofs.Source.Acceptance

/-!
# Where pointers point at run time

The table of origins goes by names, while an allocation in a loop makes a new object every time
under the same name.  That an address is nevertheless in the newest object is due to the strict
form.  The definition of an address can be passed only behind that of its base, so wherever the
address can be read, the allocation that it goes back to could be read as well.  When
the allocation is executed once more, it is not available yet, and neither is any address in
the old object.
-/

namespace LoopHoist

/-! ## What is in scope -/

namespace Func

variable {func : Func} {position : Nat} {before : List Instr} {symbol : Symbol} {operand : Operand}

theorem Available.append (h : func.Available position before symbol) (more : List Instr) :
    func.Available position (before ++ more) symbol := by
  rcases h with hparam | ⟨block, hblock, hmem⟩ | hother
  · exact .inl hparam
  · refine .inr (.inl ⟨block, hblock, ?_⟩)
    rw [List.filterMap_append, ← List.append_assoc]
    exact List.mem_append_left _ hmem
  · exact .inr (.inr hother)

theorem Available.of_append_singleton {instr : Instr}
    (h : func.Available position (before ++ [instr]) symbol) :
    func.Available position before symbol ∨ instr.write? = some symbol := by
  rcases h with hparam | ⟨block, hblock, hmem⟩ | hother
  · exact .inl (.inl hparam)
  · rw [List.filterMap_append, ← List.append_assoc, List.mem_append] at hmem
    rcases hmem with hearlier | hwrite
    · exact .inl (.inr (.inl ⟨block, hblock, hearlier⟩))
    · obtain ⟨_, hinstr, hwrite⟩ := List.mem_filterMap.mp hwrite
      exact .inr (List.mem_singleton.mp hinstr ▸ hwrite)
  · exact .inl (.inr (.inr hother))

/-- A place that control can come to: a block and the instructions of it that have been passed.
-/
structure IsPlace (func : Func) (position : Nat) (before : List Instr) : Prop where
  reachable : func.graph.Reachable position
  exists_block : ∃ block after, func.graph.block? position = some block ∧
    block.body = before ++ after

/-- What is available at the definition of a symbol is so wherever the symbol is. -/
theorem DefinedAt.available {other : Nat} {block : Block} {passed after : List Instr}
    {instr : Instr} {used : Symbol}
    (h : func.DefinedAt other block passed after instr symbol) (ssa : func.StrictSSA)
    (hused : func.Available other passed used) (hplace : func.IsPlace position before)
    (hsymbol : func.Available position before symbol) : func.Available position before used := by
  obtain ⟨twin, rest, htwin, hbody⟩ := hplace.exists_block
  by_cases heq : position = other
  · subst heq
    cases htwin.symm.trans h.block_eq
    rcases append_eq_append_cons (hbody.symm.trans h.body_eq) with
      ⟨middle, hpassed, _⟩ | ⟨middle, hbefore, _⟩
    · exact absurd rfl (h.not_available ssa hsymbol hpassed)
    · rw [hbefore]
      exact hused.append _
  · have hdominates := h.dominates_of_available ssa hsymbol rfl htwin hbody heq
    rcases hused with hparam | ⟨found, hfound, hmem⟩ | ⟨source, found, _, hfound, hmem, habove⟩
    · exact .inl hparam
    · cases hfound.symm.trans h.block_eq
      exact .inr (.inr ⟨other, block, Ne.symm heq, h.block_eq,
        mem_defs_of_passed h.body_eq hmem, hdominates⟩)
    · refine .inr (.inr ⟨source, found, ?_, hfound, hmem, habove.trans hdominates⟩)
      rintro rfl
      exact heq (habove.antisymm hdominates (hdominates.reachable hplace.reachable))

/-- An operand can be read at a place: what it names is a global or available. -/
def InScope (func : Func) (position : Nat) (before : List Instr) (operand : Operand) : Prop :=
  ∀ symbol, operand.symbol? = some symbol → symbol.isGlobal = false →
    func.Available position before symbol

theorem Available.inScope (h : func.Available position before symbol) :
    func.InScope position before (.named symbol) := by
  rintro _ ⟨⟩ _
  exact h

/-- An operand is read at a place, by the next instruction, by the jump at the end of the block,
or by a phi of a block that control may go to. -/
inductive Reads (func : Func) : Nat → List Instr → Operand → Prop where
  | body {position : Nat} {block : Block} {before after : List Instr} {instr : Instr}
      {operand : Operand} (hblock : func.graph.block? position = some block)
      (hbody : block.body = before ++ instr :: after) (hoperand : operand ∈ instr.operands) :
      Reads func position before operand
  | jump {position : Nat} {block : Block} {jump : Instr} {operand : Operand}
      (hblock : func.graph.block? position = some block) (hjump : block.jump = some jump)
      (hoperand : operand ∈ jump.operands) : Reads func position block.body operand
  | phi {position next : Nat} {origin block : Block} {phi : Phi} {source : Operand × Label}
      (hblock : func.graph.block? next = some block) (hphi : phi ∈ block.phis)
      (hsource : source ∈ phi.sources) (hfind : func.graph.find? source.2 = some position)
      (horigin : func.graph.block? position = some origin) :
      Reads func position origin.body source.1

theorem Reads.inScope (h : func.Reads position before operand) (ssa : func.StrictSSA) :
    func.InScope position before operand := by
  intro symbol hsymbol hlocal
  cases h with
  | body hblock hbody hoperand =>
      exact ssa.body hblock hbody symbol (List.mem_filterMap.mpr ⟨_, hoperand, hsymbol⟩) hlocal
  | jump hblock hjump hoperand =>
      exact ssa.jump hblock hjump symbol (List.mem_filterMap.mpr ⟨_, hoperand, hsymbol⟩) hlocal
  | phi hblock hphi hsource hfind horigin =>
      obtain ⟨previous, found, hprevious, _, hfound, havailable⟩ :=
        ssa.phi hblock hphi hsource hsymbol hlocal
      cases hfind.symm.trans hprevious
      cases horigin.symm.trans hfound
      exact havailable

end Func

/-! ## Following bases back -/

/-- Going from an element address to its base, some instructions lead back to an origin. -/
inductive LeadsTo (instrs : List Instr) : Operand → Origin → Prop where
  | global {symbol : Symbol} (hglobal : symbol.isGlobal = true) :
      LeadsTo instrs (.named symbol) (.global symbol.name)
  | alloc {symbol : Symbol} {ty : Ty} {count : Operand} (hlocal : symbol.isGlobal = false)
      (hmem : Instr.alloc symbol ty count ∈ instrs) : LeadsTo instrs (.named symbol) (.alloc symbol)
  | element {symbol : Symbol} {ty : Ty} {base offset : Operand} {origin : Origin}
      (hlocal : symbol.isGlobal = false) (hmem : Instr.element symbol ty base offset ∈ instrs)
      (hbase : LeadsTo instrs base origin) : LeadsTo instrs (.named symbol) origin

theorem OriginTable.Describes.leadsTo {table : OriginTable} {instrs : List Instr}
    (h : table.Describes instrs) {operand : Operand} (hknown : table.origin operand ≠ .unknown) :
    LeadsTo instrs operand (table.origin operand) := by
  obtain ⟨allocs, bases⟩ := table
  simp only [origin] at hknown ⊢
  fun_induction trace allocs bases operand with
  | case1 bases symbol hglobal => exact .global hglobal
  | case2 bases symbol hlocal halloc =>
      obtain ⟨ty, count, hmem⟩ := h.alloc halloc
      exact .alloc (by simpa using hlocal) hmem
  | case3 bases symbol hlocal halloc hnone => exact absurd rfl hknown
  | case4 bases symbol hlocal halloc base hbase ih =>
      obtain ⟨ty, offset, hmem⟩ := h.base (mem_of_lookup hbase)
      have hrest : (OriginTable.mk allocs (withoutBase bases symbol)).Describes instrs :=
        ⟨h.alloc, fun hentry => h.base (List.mem_of_mem_filter hentry)⟩
      exact .element (by simpa using hlocal) hmem (ih hrest hknown)
  | case5 bases operand hnot => exact absurd rfl hknown

namespace LeadsTo

variable {func : Func} {position : Nat} {before : List Instr} {operand : Operand}
  {symbol target : Symbol} {origin : Origin} {instrs : List Instr}

theorem exists_write (h : LeadsTo instrs (.named symbol) origin)
    (hlocal : symbol.isGlobal = false) : ∃ instr ∈ instrs, instr.write? = some symbol := by
  cases h with
  | global hglobal => cases hlocal.symm.trans hglobal
  | alloc _ hmem => exact ⟨_, hmem, rfl⟩
  | element _ hmem _ => exact ⟨_, hmem, rfl⟩

theorem exists_alloc (h : LeadsTo instrs operand (.alloc target)) :
    ∃ instr ∈ instrs, instr.write? = some target := by
  generalize heq : Origin.alloc target = origin at h
  induction h with
  | global _ => cases heq
  | alloc _ hmem =>
      cases heq
      exact ⟨_, hmem, rfl⟩
  | element _ _ _ ih => exact ih heq

/-- Wherever an address can be read, the allocation that it goes back to can be read, too. -/
theorem available (h : LeadsTo func.graph.bodies operand (.alloc target)) (ssa : func.StrictSSA)
    (hplace : func.IsPlace position before) (hscope : func.InScope position before operand) :
    func.Available position before target := by
  generalize heq : Origin.alloc target = origin at h
  induction h generalizing position before with
  | global _ => cases heq
  | alloc hlocal _ =>
      cases heq
      exact hscope _ rfl hlocal
  | @element symbol ty base offset _ hlocal hmem _ ih =>
      obtain ⟨other, block, hblock, hinstr⟩ := Graph.mem_bodies_iff.mp hmem
      obtain ⟨passed, after, hbody⟩ := List.append_of_mem hinstr
      have hdefined : func.DefinedAt other block passed after (.element symbol ty base offset)
          symbol := ⟨hblock, hbody, rfl⟩
      have hsymbol := hscope symbol rfl hlocal
      -- the definition of the address has been passed
      have hreach : func.graph.Reachable other := by
        by_cases hne : position = other
        · exact hne ▸ hplace.reachable
        · obtain ⟨twin, rest, htwin, htwin'⟩ := hplace.exists_block
          exact (hdefined.dominates_of_available ssa hsymbol rfl htwin htwin' hne).reachable
            hplace.reachable
      have hbase : func.InScope other passed base :=
        (Func.Reads.body hblock hbody List.mem_cons_self).inScope ssa
      exact hdefined.available ssa (ih ⟨hreach, block, _, hblock, hbody⟩ hbase heq) hplace hsymbol

end LeadsTo

/-! ## Pointers that are up to date -/

theorem Origin.ne_unknown_of_not_mayOverlap {first second : Origin}
    (h : first.mayOverlap second = false) : first ≠ .unknown ∧ second ≠ .unknown := by
  cases first <;> cases second <;> simp_all [mayOverlap]

def Datum.object? : Datum → Option Object
  | .pointer object _ => some object
  | _ => none

/-- A datum points where an origin says, as the registers are now: into the object that the
register of the allocation points into, or into the global. -/
def Datum.LiesIn (registers : String → Datum) (datum : Datum) : Origin → Prop
  | .alloc target => ∃ object, (registers target.name).object? = some object ∧
      datum.object? = some object
  | .global name => datum.object? = some (.global name)
  | .unknown => True

namespace Datum

variable {registers others : String → Datum} {datum other : Datum} {origin : Origin}

theorem object?_eq_some_iff {object : Object} :
    datum.object? = some object ↔ ∃ offset, datum = .pointer object offset := by
  cases datum <;> simp [object?]

@[simp] theorem object?_element (platform : Platform) (ty : Ty) (base offset : Datum) :
    (platform.element ty base offset).object? = base.object? := by
  cases base <;> rfl

theorem LiesIn.congr (h : datum.LiesIn registers origin) (hobject : other.object? = datum.object?)
    (hregisters : ∀ target, origin = .alloc target →
      others target.name = registers target.name) : other.LiesIn others origin := by
  cases origin with
  | alloc target =>
      obtain ⟨object, htarget, hdatum⟩ := h
      exact ⟨object, by rw [hregisters target rfl, htarget], hobject.trans hdatum⟩
  | global name => exact hobject.trans h
  | unknown => trivial

theorem LiesIn.exists_object (h : datum.LiesIn registers origin) (hknown : origin ≠ .unknown) :
    ∃ object, datum.object? = some object := by
  cases origin with
  | alloc target =>
      obtain ⟨object, _, hdatum⟩ := h
      exact ⟨object, hdatum⟩
  | global name => exact ⟨_, h⟩
  | unknown => exact absurd rfl hknown

end Datum

/-- All pointers that are available at a place point where the instructions lead. -/
structure Func.UpToDate (func : Func) (position : Nat) (before : List Instr)
    (frame : Frame Datum Heap) : Prop where
  liesIn : ∀ {symbol : Symbol} {origin : Origin}, symbol.isGlobal = false →
    func.Available position before symbol → LeadsTo func.graph.bodies (.named symbol) origin →
      (frame.registers symbol.name).LiesIn frame.registers origin

namespace Func.UpToDate

variable {func : Func} {position : Nat} {block : Block} {before after : List Instr}
  {platform : Platform} {frame start entered : Frame Datum Heap}

theorem eval (h : func.UpToDate position before frame) (platform : Platform) {operand : Operand}
    {origin : Origin} (hscope : func.InScope position before operand)
    (hleads : LeadsTo func.graph.bodies operand origin) :
    (platform.machine.eval frame.registers operand).LiesIn frame.registers origin := by
  have hregister : ∀ {symbol : Symbol}, operand = .named symbol → symbol.isGlobal = false →
      (platform.machine.eval frame.registers operand).LiesIn frame.registers origin := by
    rintro symbol rfl hlocal
    rw [Machine.eval, if_neg (by simp [hlocal])]
    exact h.liesIn hlocal (hscope symbol rfl hlocal) hleads
  cases hleads with
  | global hglobal =>
      rw [Machine.eval, if_pos hglobal]
      rfl
  | alloc hlocal _ => exact hregister rfl hlocal
  | element hlocal _ _ => exact hregister rfl hlocal

theorem exec {instr : Instr} (h : func.UpToDate position before frame) (ssa : func.StrictSSA)
    (hreach : func.graph.Reachable position) (hblock : func.graph.block? position = some block)
    (hbody : block.body = before ++ instr :: after) (platform : Platform) :
    func.UpToDate position (before ++ [instr]) (platform.machine.exec frame instr) := by
  have hplace : func.IsPlace position before := ⟨hreach, block, _, hblock, hbody⟩
  have hkept : ∀ {symbol : Symbol}, func.Available position before symbol →
      (platform.machine.exec frame instr).registers symbol.name = frame.registers symbol.name := by
    intro symbol havailable
    refine Machine.exec_registers_of_ne fun written hwrite => Ne.symm ?_
    have hdefined : func.DefinedAt position block before after instr written :=
      ⟨hblock, hbody, hwrite⟩
    exact hdefined.not_available ssa havailable (List.append_nil _).symm
  constructor
  intro symbol origin hlocal havailable hleads
  rcases havailable.of_append_singleton with hearlier | hwrite
  · refine (h.liesIn hlocal hearlier hleads).congr (by rw [hkept hearlier]) ?_
    rintro target rfl
    exact hkept (hleads.available ssa hplace hearlier.inScope)
  · have hinstr : instr ∈ func.graph.bodies :=
      Graph.mem_bodies_iff.mpr ⟨position, block, hblock, by simp [hbody]⟩
    cases hleads with
    | global hglobal => cases hlocal.symm.trans hglobal
    | @alloc _ ty count _ hmem =>
        cases ssa.instr_eq_of_write hmem hinstr rfl hwrite rfl
        have hnew : (platform.machine.exec frame (.alloc symbol ty count)).registers symbol.name =
            .pointer (.allocated frame.memory.next) 0 := Function.update_self ..
        exact ⟨.allocated frame.memory.next, by rw [hnew]; rfl, by rw [hnew]; rfl⟩
    | @element _ ty base offset _ _ hmem hbase =>
        cases ssa.instr_eq_of_write hmem hinstr rfl hwrite rfl
        have hnew : (platform.machine.exec frame (.element symbol ty base offset)).registers
            symbol.name = platform.element ty (platform.machine.eval frame.registers base)
              (platform.machine.eval frame.registers offset) := Function.update_self ..
        have hscope : func.InScope position before base :=
          (Func.Reads.body hblock hbody List.mem_cons_self).inScope ssa
        refine (h.eval platform hscope hbase).congr (by rw [hnew, Datum.object?_element]) ?_
        rintro target rfl
        exact hkept (hbase.available ssa hplace hscope)

theorem execAll {more : List Instr} (h : func.UpToDate position before frame)
    (ssa : func.StrictSSA) (hreach : func.graph.Reachable position)
    (hblock : func.graph.block? position = some block)
    (hbody : block.body = before ++ (more ++ after)) (platform : Platform) :
    func.UpToDate position (before ++ more) (platform.machine.execAll frame more) := by
  induction more generalizing before frame with
  | nil =>
      rw [List.append_nil]
      exact h
  | cons instr more ih =>
      have hnext := ih (h.exec ssa hreach hblock hbody platform) (by simpa using hbody)
      rw [List.append_assoc] at hnext
      exact hnext

/-- Coming to a block, nothing is available in it but what was so at the end of the block
before, and what its phis define. -/
theorem enter {previous : Option Nat} {label : Option Label} (ssa : func.StrictSSA)
    (harrives : func.graph.Arrives position previous)
    (hblock : func.graph.block? position = some block)
    (hstart : ∀ {source : Nat} {origin : Block}, previous = some source →
      func.graph.block? source = some origin → func.UpToDate source origin.body start)
    (henter : platform.machine.enter? label block start = some entered) :
    func.UpToDate position [] entered := by
  have hphis : ∀ {target : Symbol}, target ∈ block.phis.map Phi.target → target ∈ func.phiTargets :=
    fun htarget => List.mem_flatMap.mpr ⟨block, List.mem_of_getElem? hblock, htarget⟩
  have hkept : ∀ {symbol : Symbol}, (∃ instr ∈ func.graph.bodies, instr.write? = some symbol) →
      entered.registers symbol.name = start.registers symbol.name := by
    rintro symbol ⟨instr, hinstr, hwrite⟩
    exact (Machine.enter?_eq_some henter).2.2 fun target htarget =>
      (ssa.name_ne_of_write (.inr (hphis htarget)) hinstr hwrite).symm
  constructor
  intro symbol origin hlocal havailable hleads
  obtain ⟨instr, hinstr, hwrite⟩ := hleads.exists_write hlocal
  rcases havailable with hparam | ⟨twin, htwin, hmem⟩ |
    ⟨source, found, hne, hfound, hmem, hdominates⟩
  · exact absurd rfl (ssa.name_ne_of_write (.inl hparam) hinstr hwrite)
  · cases hblock.symm.trans htwin
    rw [List.filterMap_nil, List.append_nil] at hmem
    exact absurd rfl (ssa.name_ne_of_write (.inr (hphis hmem)) hinstr hwrite)
  · cases previous with
    | none =>
        cases harrives
        exact absurd hdominates.eq_zero hne
    | some previous =>
        obtain ⟨_, last, hlast, hnext⟩ := harrives
        have hearlier : func.Available previous last.body symbol := by
          by_cases heq : source = previous
          · subst heq
            cases hfound.symm.trans hlast
            exact .inr (.inl ⟨found, hfound, hmem⟩)
          · exact .inr (.inr ⟨source, found, heq, hfound, hmem,
              hdominates.of_edge hne ⟨last, hlast, hnext⟩⟩)
        refine ((hstart rfl hlast).liesIn hlocal hearlier hleads).congr
          (by rw [hkept ⟨instr, hinstr, hwrite⟩]) ?_
        rintro target rfl
        exact hkept hleads.exists_alloc

end Func.UpToDate

/-! ## Runs -/

namespace Machine

variable {Value Memory : Type} {machine : Machine Value Memory} {func : Func}
  {arguments : List Value} {memory : Memory} {count position : Nat} {previous : Option Nat}
  {before : List Instr} {frame : Frame Value Memory}

/-- At some time a run comes to a place, in some frame. -/
def Reaches (machine : Machine Value Memory) (func : Func) (arguments : List Value)
    (memory : Memory) (position : Nat) (before : List Instr) (frame : Frame Value Memory) : Prop :=
  ∃ count previous start block entered after,
    machine.run func arguments memory count = .running position previous start ∧
    func.graph.block? position = some block ∧
    machine.enter? (func.graph.labelOf previous) block start = some entered ∧
    block.body = before ++ after ∧ frame = machine.execAll entered before

theorem arrives_of_run (wf : func.graph.WellFormed)
    (h : machine.run func arguments memory count = .running position previous frame) :
    func.graph.Arrives position previous := by
  induction count generalizing position previous frame with
  | zero =>
      cases h
      rfl
  | succ count ih =>
      obtain ⟨source, _, _, block, _, hstate, hblock, _, _, rfl, jump, label, hjump, hlabel,
        hfind⟩ := step_eq_running h
      exact ⟨(ih hstate).reachable, wf.edge_of_target hblock hjump hlabel hfind⟩

namespace Invariant

variable {holds : Frame Value Memory → Prop}

theorem run (hinvariant : machine.Invariant func.graph holds)
    (hinitial : holds (machine.initial func arguments memory))
    (h : machine.run func arguments memory count = .running position previous frame) :
    holds frame := by
  induction count generalizing position previous frame with
  | zero =>
      cases h
      exact hinitial
  | succ count ih =>
      obtain ⟨_, _, _, block, entered, hstate, hblock, henter, rfl, _⟩ := step_eq_running h
      exact hinvariant.execAll (Graph.body_subset_bodies hblock)
        (hinvariant.enter hblock (ih hstate) henter)

theorem reaches (hinvariant : machine.Invariant func.graph holds)
    (hinitial : holds (machine.initial func arguments memory))
    (h : machine.Reaches func arguments memory position before frame) : holds frame := by
  obtain ⟨count, previous, start, block, entered, after, hrun, hblock, henter, hbody, rfl⟩ := h
  have hentered := hinvariant.enter hblock (hinvariant.run hinitial hrun) henter
  refine hinvariant.execAll (List.Subset.trans ?_ (Graph.body_subset_bodies hblock)) hentered
  rw [hbody]
  exact List.subset_append_left _ _

end Invariant

end Machine

namespace Func

variable {func : Func} {platform : Platform} {arguments : List Datum} {memory : Heap}
  {count position : Nat} {previous : Option Nat} {before : List Instr}
  {frame start : Frame Datum Heap}

theorem upToDate_of_run (wf : func.graph.WellFormed) (ssa : func.StrictSSA)
    (h : platform.machine.run func arguments memory count = .running position previous start)
    {source : Nat} {origin : Block} (hprevious : previous = some source)
    (horigin : func.graph.block? source = some origin) :
    func.UpToDate source origin.body start := by
  induction count generalizing position previous start source origin with
  | zero =>
      cases h
      cases hprevious
  | succ count ih =>
      obtain ⟨_, _, _, block, entered, hstate, hblock, henter, rfl, rfl, _⟩ :=
        Machine.step_eq_running h
      cases hprevious
      cases hblock.symm.trans horigin
      have harrives := Machine.arrives_of_run wf hstate
      have hentered : func.UpToDate source [] entered :=
        UpToDate.enter ssa harrives hblock (ih hstate) henter
      exact hentered.execAll ssa harrives.reachable hblock (List.append_nil _).symm platform

theorem upToDate_of_reaches (wf : func.graph.WellFormed) (ssa : func.StrictSSA)
    (h : platform.machine.Reaches func arguments memory position before frame) :
    func.UpToDate position before frame := by
  obtain ⟨count, previous, start, block, entered, after, hrun, hblock, henter, hbody, rfl⟩ := h
  have harrives := Machine.arrives_of_run wf hrun
  have hentered : func.UpToDate position [] entered :=
    UpToDate.enter ssa harrives hblock (upToDate_of_run wf ssa hrun) henter
  exact hentered.execAll ssa harrives.reachable hblock hbody platform

end Func

/-- Whatever a run reads is in scope.  Wherever a run comes to, a pointer in scope points
into the object that the register of its origin points into at that time, and pointers whose
origins do not overlap point into different objects. -/
theorem Program.origin_sound {text : String} {program : Program}
    (hparse : Program.parse text = .ok program) {func : Func} (hfunc : func ∈ program.funcs)
    (ssa : func.StrictSSA) {origins : OriginTable}
    (horigins : (Facts.compute func.graph).origins = origins) (platform : Platform)
    {arguments : List Datum} {memory : Heap} {position : Nat} {before : List Instr}
    {frame : Frame Datum Heap}
    (hreaches : platform.machine.Reaches func arguments memory position before frame) :
    (∀ {operand : Operand}, func.Reads position before operand →
      func.InScope position before operand) ∧
    ∀ {first second : Operand}, func.InScope position before first →
      func.InScope position before second →
        (platform.machine.eval frame.registers first).LiesIn frame.registers
          (origins.origin first) ∧
        ((origins.origin first).mayOverlap (origins.origin second) = false →
          ∃ object object', object ≠ object' ∧
            (platform.machine.eval frame.registers first).object? = some object ∧
            (platform.machine.eval frame.registers second).object? = some object') := by
  subst horigins
  have wf := wellFormed_of_parse hparse func hfunc
  have hdescribes := Facts.describes_origins func.graph
  have hframe := Func.upToDate_of_reaches wf ssa hreaches
  have hlies : ∀ {operand : Operand}, func.InScope position before operand →
      (platform.machine.eval frame.registers operand).LiesIn frame.registers
        ((Facts.compute func.graph).origins.origin operand) := by
    intro operand hscope
    by_cases hknown : (Facts.compute func.graph).origins.origin operand = .unknown
    · rw [hknown]
      trivial
    · exact hframe.eval platform hscope (hdescribes.leadsTo hknown)
  refine ⟨fun hreads => hreads.inScope ssa, fun hfirst hsecond => ⟨hlies hfirst, ?_⟩⟩
  intro hoverlap
  obtain ⟨hknown, hknown'⟩ := Origin.ne_unknown_of_not_mayOverlap hoverlap
  obtain ⟨object, hobject⟩ := (hlies hfirst).exists_object hknown
  obtain ⟨object', hobject'⟩ := (hlies hsecond).exists_object hknown'
  refine ⟨object, object', ?_, hobject, hobject'⟩
  obtain ⟨makers, hprovenance⟩ := (HasProvenance.invariant ssa hdescribes).reaches
    (HasProvenance.initial ssa hdescribes arguments memory) hreaches
  have hwithin := hprovenance.eval_within platform
  obtain ⟨offset, hpointer⟩ := Datum.object?_eq_some_iff.mp hobject
  obtain ⟨offset', hpointer'⟩ := Datum.object?_eq_some_iff.mp hobject'
  exact (hpointer ▸ hwithin _).object_ne (hpointer' ▸ hwithin _) hoverlap

/-- In every round there is a new object, and both addresses are computed anew. -/
def renewedText : String :=
  "define i32 @f(i32 %n) \x7b
a:
  br label %b
b:
  %i = phi i32 [0, %a], [%j, %b]
  %s = alloca i32, i32 4
  %p = getelementptr i32, i32* %s, i32 1
  %r = getelementptr i32, i32* %p, i32 1
  %q = getelementptr i32, i32* @g, i32 %i
  %v = call i32 @k(i32* %r, i32* %q)
  %j = add i32 %i, 1
  %c = icmp slt i32 %j, %n
  br i1 %c, label %b, label %e
e:
  ret i32 %v
\x7d
"

def renewedPointer (name : String) : Symbol := .register name .i32Ptr

def renewedAddresses : List Instr :=
  [.alloc (renewedPointer "s") .i32 (.int 4),
    .element (renewedPointer "p") .i32 (.named (renewedPointer "s")) (.int 1),
    .element (renewedPointer "r") .i32 (.named (renewedPointer "p")) (.int 1),
    .element (renewedPointer "q") .i32 (.named (.global "g" .i32Ptr))
      (.named (.register "i" .i32))]

def renewedCall : Instr :=
  .call (some (.register "v" .i32)) .i32 "k"
    [(.i32Ptr, .named (renewedPointer "r")), (.i32Ptr, .named (renewedPointer "q"))]

def renewedFunc : Func :=
  let number (name : String) : Symbol := .register name .i32
  let test : Symbol := .register "c" .i1
  { name := "f"
    returnTy := .i32
    params := [.named (number "n")]
    graph := ⟨[
      { id := 0, label := "a", succ := [1], jump := some (.jump "b") },
      { id := 1, label := "b", prev := [0, 1], succ := [1, 2],
        phis := [⟨number "i", .i32, [(.int 0, "a"), (.named (number "j"), "b")]⟩],
        body := renewedAddresses ++ renewedCall ::
          [.arith (number "j") .add .i32 (.named (number "i")) (.int 1),
            .compare test .icmp .slt .i32 (.named (number "j")) (.named (number "n"))],
        jump := some (.branch .i1 (.named test) "b" "e") },
      { id := 2, label := "e", prev := [1], jump := some (.ret (some (.named (number "v")))) }]⟩ }

theorem parse_renewedText : ∃ program, Program.parse renewedText = .ok program ∧
    program = ⟨[renewedFunc]⟩ ∧ renewedFunc.isStrictSSA = true ∧
    (Facts.compute renewedFunc.graph).origins.origin (.named (renewedPointer "r")) =
      .alloc (renewedPointer "s") ∧
    (Facts.compute renewedFunc.graph).origins.origin (.named (renewedPointer "q")) =
      .global "g" :=
  Program.exists_parse_of_eval (by
    rw [renewedText, String.toList_ofList]
    decide +kernel)

/-- In the second round the call gets an address in the second object. -/
theorem renewedFunc_origin_sound : ∃ frame,
    plainPlatform.machine.Reaches renewedFunc [.int 3] zeroHeap 1 renewedAddresses frame ∧
    (frame.registers "s").object? = some (.allocated 1) ∧
    (plainPlatform.machine.eval frame.registers (.named (renewedPointer "r"))).LiesIn
      frame.registers (.alloc (renewedPointer "s")) ∧
    ∃ object object', object ≠ object' ∧
      (plainPlatform.machine.eval frame.registers (.named (renewedPointer "r"))).object? =
        some object ∧
      (plainPlatform.machine.eval frame.registers (.named (renewedPointer "q"))).object? =
        some object' := by
  obtain ⟨_, hparse, rfl, hstrict, hpointer, hglobal⟩ := parse_renewedText
  have wf := Program.wellFormed_of_parse hparse renewedFunc List.mem_cons_self
  have hreaches : ∃ frame,
      plainPlatform.machine.Reaches renewedFunc [.int 3] zeroHeap 1 renewedAddresses frame ∧
      (frame.registers "s").object? = some (.allocated 1) :=
    ⟨_, ⟨2, some 1, _, _, _, _, rfl, rfl, rfl, rfl, rfl⟩, rfl⟩
  obtain ⟨frame, hreaches, hcurrent⟩ := hreaches
  have hreads : ∀ operand ∈ renewedCall.operands, renewedFunc.Reads 1 renewedAddresses operand :=
    fun operand hoperand => .body rfl rfl hoperand
  obtain ⟨hscope, hsound⟩ := Program.origin_sound hparse List.mem_cons_self
    ((Func.isStrictSSA_iff wf).mp hstrict) rfl plainPlatform hreaches
  obtain ⟨hlies, hdiffer⟩ := hsound (hscope (hreads (.named (renewedPointer "r")) (by decide)))
    (hscope (hreads (.named (renewedPointer "q")) (by decide)))
  rw [hpointer] at hlies hdiffer
  rw [hglobal] at hdiffer
  exact ⟨frame, hreaches, hcurrent, hlies, hdiffer rfl⟩

end LoopHoist
