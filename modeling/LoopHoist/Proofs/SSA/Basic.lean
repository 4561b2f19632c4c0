import LoopHoist.Program
import LoopHoist.Proofs.Graph.Move
import Mathlib.Data.List.Nodup
import Mathlib.Data.List.Perm.Basic

/-!
# Strict single assignment

In a function in strict form every register is defined once, by a parameter, a
phi or an instruction, and every use of it is reached only through that
definition and gives it the type that it is defined with.  A phi uses its sources
at the end of the blocks that their labels name.
-/

namespace LoopHoist.Func

def paramSymbols (func : Func) : List Symbol := func.params.filterMap Operand.symbol?

def definitions (func : Func) : List Symbol :=
  func.paramSymbols ++ func.graph.blocks.flatMap Block.defs

/-- A symbol is defined on every way to the place in a block where some
instructions of the body have been passed: by a parameter, earlier in the block,
or in another block that dominates it. -/
def Available (func : Func) (position : Nat) (before : List Instr) (symbol : Symbol) : Prop :=
  symbol ∈ func.paramSymbols ∨
    (∃ block, func.graph.block? position = some block ∧
      symbol ∈ block.phis.map Phi.target ++ before.filterMap Instr.write?) ∨
    ∃ source block, source ≠ position ∧ func.graph.block? source = some block ∧
      symbol ∈ block.defs ∧ func.graph.Dominates source position

structure StrictSSA (func : Func) : Prop where
  nodup : (func.definitions.map Symbol.name).Nodup
  body : ∀ {position : Nat} {block : Block} {before after : List Instr} {instr : Instr},
    func.graph.block? position = some block → block.body = before ++ instr :: after →
      ∀ symbol ∈ instr.reads, symbol.isGlobal = false → func.Available position before symbol
  jump : ∀ {position : Nat} {block : Block} {jump : Instr},
    func.graph.block? position = some block → block.jump = some jump →
      ∀ symbol ∈ jump.reads, symbol.isGlobal = false →
        func.Available position block.body symbol
  phi : ∀ {position : Nat} {block : Block} {phi : Phi} {source : Operand × Label} {symbol : Symbol},
    func.graph.block? position = some block → phi ∈ block.phis → source ∈ phi.sources →
      source.1.symbol? = some symbol → symbol.isGlobal = false →
        ∃ previous origin, func.graph.find? source.2 = some previous ∧ previous ∈ block.prev ∧
          func.graph.block? previous = some origin ∧ func.Available previous origin.body symbol

variable {func : Func}

/-! ## One definition for every name -/

theorem names_eq (func : Func) : func.definitions.map Symbol.name =
    func.paramSymbols.map Symbol.name ++
      func.graph.blocks.flatMap fun block => block.defs.map Symbol.name := by
  rw [definitions, List.map_append, List.map_flatMap]

namespace StrictSSA

theorem param_name_ne (ssa : func.StrictSSA) {position : Nat} {block : Block}
    {param symbol : Symbol}
    (hblock : func.graph.block? position = some block) (hparam : param ∈ func.paramSymbols)
    (hsymbol : symbol ∈ block.defs) : param.name ≠ symbol.name := by
  have hnodup := ssa.nodup
  rw [names_eq, List.nodup_append] at hnodup
  refine hnodup.2.2 _ (List.mem_map_of_mem hparam) _ (List.mem_flatMap.mpr ⟨block, ?_, ?_⟩)
  · exact List.mem_of_getElem? hblock
  · exact List.mem_map_of_mem hsymbol

theorem position_eq_of_name (ssa : func.StrictSSA) {position other : Nat} {block twin : Block}
    {symbol found : Symbol} (hblock : func.graph.block? position = some block)
    (htwin : func.graph.block? other = some twin) (hsymbol : symbol ∈ block.defs)
    (hfound : found ∈ twin.defs) (hname : symbol.name = found.name) : position = other := by
  have hnodup := ssa.nodup
  rw [names_eq, List.nodup_append] at hnodup
  exact eq_of_nodup_flatMap hnodup.2.1 hblock htwin (List.mem_map_of_mem hsymbol)
    (hname ▸ List.mem_map_of_mem hfound)

theorem nodup_defs (ssa : func.StrictSSA) {position : Nat} {block : Block}
    (hblock : func.graph.block? position = some block) :
    (block.defs.map Symbol.name).Nodup := by
  have hnodup := ssa.nodup
  rw [names_eq, List.nodup_append] at hnodup
  exact (List.nodup_flatMap.mp hnodup.2.1).1 block (List.mem_of_getElem? hblock)

theorem eq_of_name (ssa : func.StrictSSA) {symbol found : Symbol}
    (hsymbol : symbol ∈ func.definitions) (hfound : found ∈ func.definitions)
    (hname : symbol.name = found.name) : symbol = found :=
  List.inj_on_of_nodup_map ssa.nodup hsymbol hfound hname

end StrictSSA

theorem mem_defs_of_passed {block : Block} {before after : List Instr} {symbol : Symbol}
    (hbody : block.body = before ++ after)
    (h : symbol ∈ block.phis.map Phi.target ++ before.filterMap Instr.write?) :
    symbol ∈ block.defs := by
  rw [Block.defs, hbody, List.filterMap_append, ← List.append_assoc]
  exact List.mem_append_left _ h

theorem Available.mem_definitions {position : Nat} {before after : List Instr} {block : Block}
    {symbol : Symbol} (h : func.Available position before symbol)
    (hblock : func.graph.block? position = some block) (hbody : block.body = before ++ after) :
    symbol ∈ func.definitions := by
  rcases h with hparam | ⟨twin, htwin, hmem⟩ | ⟨source, twin, _, htwin, hmem, _⟩
  · exact List.mem_append_left _ hparam
  · cases hblock.symm.trans htwin
    exact List.mem_append_right _ (List.mem_flatMap.mpr
      ⟨block, List.mem_of_getElem? hblock, mem_defs_of_passed hbody hmem⟩)
  · exact List.mem_append_right _ (List.mem_flatMap.mpr ⟨twin, List.mem_of_getElem? htwin, hmem⟩)

/-! ## Kinds of definitions -/

def phiTargets (func : Func) : List Symbol :=
  func.graph.blocks.flatMap fun block => block.phis.map Phi.target

theorem phiTargets_eq (func : Func) : func.phiTargets =
    func.graph.shape.blocks.flatMap fun block => block.phis.map Phi.target := by
  rw [Graph.shape, List.flatMap_map]
  rfl

theorem definitions_perm (func : Func) : func.definitions.Perm
    (func.paramSymbols ++ (func.phiTargets ++ func.graph.bodies.filterMap Instr.write?)) := by
  have hbodies : func.graph.bodies.filterMap Instr.write? =
      func.graph.blocks.flatMap fun block => block.body.filterMap Instr.write? :=
    List.filterMap_flatMap ..
  rw [hbodies]
  exact ((List.flatMap_append_perm ..).symm).append_left func.paramSymbols

namespace StrictSSA

theorem nodup_names (ssa : func.StrictSSA) :
    (func.paramSymbols.map Symbol.name ++ (func.phiTargets.map Symbol.name ++
      (func.graph.bodies.filterMap Instr.write?).map Symbol.name)).Nodup := by
  have hnodup := ((func.definitions_perm.map Symbol.name).nodup_iff).mp ssa.nodup
  rwa [List.map_append, List.map_append] at hnodup

/-- A name that a parameter or a phi defines is written by no instruction. -/
theorem name_ne_of_write (ssa : func.StrictSSA) {symbol written : Symbol} {instr : Instr}
    (hsymbol : symbol ∈ func.paramSymbols ∨ symbol ∈ func.phiTargets)
    (hinstr : instr ∈ func.graph.bodies) (hwrite : instr.write? = some written) :
    written.name ≠ symbol.name := by
  intro hname
  have hmem : written ∈ func.graph.bodies.filterMap Instr.write? :=
    List.mem_filterMap.mpr ⟨instr, hinstr, hwrite⟩
  have hwritten := List.mem_map_of_mem (f := Symbol.name) hmem
  obtain ⟨_, hrest, hparams⟩ := List.nodup_append.mp ssa.nodup_names
  rcases hsymbol with hparam | hphi
  · exact hparams _ (List.mem_map_of_mem hparam) _ (List.mem_append_right _ hwritten) hname.symm
  · exact (List.nodup_append.mp hrest).2.2 _ (List.mem_map_of_mem hphi) _ hwritten hname.symm

theorem instr_eq_of_write (ssa : func.StrictSSA) {instr other : Instr} {symbol found : Symbol}
    (hinstr : instr ∈ func.graph.bodies) (hother : other ∈ func.graph.bodies)
    (hsymbol : instr.write? = some symbol) (hfound : other.write? = some found)
    (hname : symbol.name = found.name) : instr = other := by
  have hnodup := (List.nodup_append.mp (List.nodup_append.mp ssa.nodup_names).2.1).2.1
  rw [List.map_filterMap] at hnodup
  exact eq_of_nodup_filterMap hnodup hinstr hother (by rw [hsymbol]; rfl)
    (by rw [hfound, Option.map_some, hname])

end StrictSSA

/-! ## The one definition of a register -/

/-- An instruction in the body of a block, with what stands before and behind it,
that defines a symbol. -/
structure DefinedAt (func : Func) (position : Nat) (block : Block) (before after : List Instr)
    (instr : Instr) (symbol : Symbol) : Prop where
  block_eq : func.graph.block? position = some block
  body_eq : block.body = before ++ instr :: after
  write_eq : instr.write? = some symbol

namespace DefinedAt

variable {position : Nat} {block : Block} {before after : List Instr} {instr : Instr}
  {symbol : Symbol}

theorem mem_defs (h : func.DefinedAt position block before after instr symbol) :
    symbol ∈ block.defs := by
  refine List.mem_append_right _ (List.mem_filterMap.mpr ⟨instr, ?_, h.write_eq⟩)
  rw [h.body_eq]
  simp

theorem name_ne (h : func.DefinedAt position block before after instr symbol)
    (ssa : func.StrictSSA) {other : Symbol}
    (hother : other ∈ block.phis.map Phi.target ++ before.filterMap Instr.write? ∨
      other ∈ after.filterMap Instr.write?) : other.name ≠ symbol.name := by
  have hnodup := ssa.nodup_defs h.block_eq
  rw [Block.defs, h.body_eq, List.filterMap_append, List.filterMap_cons, h.write_eq,
    ← List.append_assoc, List.map_append, List.map_cons, List.nodup_append] at hnodup
  obtain ⟨_, hbehind, hdisjoint⟩ := hnodup
  rcases hother with hearlier | hlater
  · exact hdisjoint _ (List.mem_map_of_mem hearlier) _ List.mem_cons_self
  · intro hname
    exact (List.nodup_cons.mp hbehind).1 (hname ▸ List.mem_map_of_mem hlater)

theorem dominates_of_available (h : func.DefinedAt position block before after instr symbol)
    (ssa : func.StrictSSA) {other : Nat} {passed rest : List Instr} {twin : Block} {used : Symbol}
    (hused : func.Available other passed used) (hname : used.name = symbol.name)
    (htwin : func.graph.block? other = some twin) (hbody : twin.body = passed ++ rest)
    (hne : other ≠ position) : func.graph.Dominates position other := by
  rcases hused with hparam | ⟨found, hfound, hmem⟩ | ⟨source, found, _, hfound, hmem, hdominates⟩
  · exact absurd hname (ssa.param_name_ne h.block_eq hparam h.mem_defs)
  · cases htwin.symm.trans hfound
    exact absurd (ssa.position_eq_of_name htwin h.block_eq (mem_defs_of_passed hbody hmem)
      h.mem_defs hname) hne
  · rw [ssa.position_eq_of_name h.block_eq hfound h.mem_defs hmem hname.symm]
    exact hdominates

theorem not_available (h : func.DefinedAt position block before after instr symbol)
    (ssa : func.StrictSSA) {passed rest : List Instr} {used : Symbol}
    (hused : func.Available position passed used) (hpassed : before = passed ++ rest) :
    used.name ≠ symbol.name := by
  rcases hused with hparam | ⟨found, hfound, hmem⟩ | ⟨source, found, hne, hfound, hmem, _⟩
  · exact ssa.param_name_ne h.block_eq hparam h.mem_defs
  · cases h.block_eq.symm.trans hfound
    refine h.name_ne ssa (.inl ?_)
    rw [hpassed, List.filterMap_append, ← List.append_assoc]
    exact List.mem_append_left _ hmem
  · intro hname
    exact hne (ssa.position_eq_of_name hfound h.block_eq hmem h.mem_defs hname)

end DefinedAt

end LoopHoist.Func
