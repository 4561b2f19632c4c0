import LoopHoist.Proofs.Execution.Agree
import LoopHoist.Proofs.SSA.Hoist

/-!
# The site of a hoisting step

A `HoistSite` is an instruction of a loop, fit to leave it, together with where it
stands and the register it defines.  From strict form follows who can read that
register: only what its block dominates.
-/

namespace LoopHoist

theorem Instr.exists_write {instr : Instr} (h : instr.isComputation = true) :
    ∃ symbol, instr.write? = some symbol := by
  cases instr <;> simp_all [isComputation, write?]

/-- An instruction that a hoisting step may move, cut out of its block. -/
structure HoistSite (policy : Policy) (func : Func) where
  loop : NaturalLoop
  origins : OriginTable
  preheader : Nat
  source : Nat
  block : Block
  before : List Instr
  after : List Instr
  instr : Instr
  symbol : Symbol
  wf : func.graph.WellFormed
  ssa : func.StrictSSA
  region : loop.IsRegion func.graph
  isPreheader : loop.IsPreheader func.graph preheader
  describes : origins.Describes func.graph.bodies
  hoistable : func.graph.Hoistable loop origins policy source instr
  defined : func.DefinedAt source block before after instr symbol

namespace HoistSite

variable {policy : Policy} {func : Func}

def moved (site : HoistSite policy func) : Func :=
  func.move site.source site.before.length site.preheader site.instr

theorem exists_of_hoistStep {next : Graph} (wf : func.graph.WellFormed) (ssa : func.StrictSSA)
    (h : Graph.HoistStep policy func.graph next) :
    ∃ site : HoistSite policy func, { func with graph := next } = site.moved := by
  generalize hgraph : func.graph = graph at h
  cases h with
  | @hoist loop origins preheader source index instr hregion hpre horigins hhoistable hinstr =>
      subst hgraph
      obtain ⟨block, before, after, hblock, hbody, rfl, _⟩ := hinstr.split
      obtain ⟨symbol, hwrite⟩ : ∃ symbol, instr.write? = some symbol := by
        rcases hhoistable.kind with hpure | ⟨_, target, ty, address, rfl, _⟩
        · exact Instr.exists_write hpure
        · exact ⟨target, rfl⟩
      exact ⟨⟨loop, origins, preheader, source, block, before, after, instr, symbol, wf, ssa,
        hregion, hpre, horigins, hhoistable, ⟨hblock, hbody, hwrite⟩⟩, rfl⟩

variable (site : HoistSite policy func)

theorem source_ne_preheader : site.source ≠ site.preheader :=
  fun heq => site.isPreheader.not_mem (heq ▸ site.hoistable.source_mem)

theorem not_dominates_preheader : ¬func.graph.Dominates site.source site.preheader :=
  site.region.not_dominates_preheader site.isPreheader site.hoistable.source_mem

/-! ## Blocks of the moved function -/

theorem shape_moved : site.moved.graph.shape = func.graph.shape := Graph.shape_move ..

theorem block?_moved {position : Nat} {block : Block}
    (hblock : func.graph.block? position = some block)
    (hsource : position ≠ site.source) (hpre : position ≠ site.preheader) :
    site.moved.graph.block? position = some block := by
  simp [moved, Func.move, Graph.block?_move, hblock, Ne.symm hsource, Ne.symm hpre]

theorem block?_moved_preheader {block : Block}
    (hblock : func.graph.block? site.preheader = some block) :
    site.moved.graph.block? site.preheader =
      some { block with body := block.body ++ [site.instr] } := by
  simp [moved, Func.move, Graph.block?_move, hblock, site.source_ne_preheader]

theorem block?_moved_source : site.moved.graph.block? site.source =
    some { site.block with body := site.before ++ site.after } := by
  simp [moved, Func.move, Graph.block?_move, site.defined.block_eq, site.defined.body_eq,
    Ne.symm site.source_ne_preheader, List.eraseIdx_append_of_length_le]

/-! ## Who reads and writes what -/

theorem name_ne_of_reads {name : String} (hread : site.instr.ReadsName name) {position : Nat}
    {block : Block} (hposition : position ∈ site.loop.blocks)
    (hblock : func.graph.block? position = some block) {other : Symbol}
    (hother : other ∈ block.defs) : other.name ≠ name := by
  obtain ⟨symbol, hmem, hlocal, rfl⟩ := hread
  intro hname
  have havailable := site.ssa.body site.defined.block_eq site.defined.body_eq symbol hmem hlocal
  have hsymbol : symbol ∈ func.definitions :=
    havailable.mem_definitions site.defined.block_eq site.defined.body_eq
  have hdefined : other ∈ func.definitions := List.mem_append_right _
    (List.mem_flatMap.mpr ⟨block, List.mem_of_getElem? hblock, hother⟩)
  have heq := site.ssa.eq_of_name hdefined hsymbol hname
  exact site.hoistable.operands hposition hblock hmem (heq ▸ hother)

theorem name_ne_of_mem_defs {position : Nat} {block : Block}
    (hblock : func.graph.block? position = some block) (hne : position ≠ site.source)
    {other : Symbol} (hother : other ∈ block.defs) : other.name ≠ site.symbol.name :=
  fun hname => hne (site.ssa.position_eq_of_name hblock site.defined.block_eq hother
    site.defined.mem_defs hname)

theorem dominates_of_reads {position : Nat} {block : Block} {passed rest : List Instr}
    {other : Instr} (hblock : func.graph.block? position = some block)
    (hbody : block.body = passed ++ other :: rest) (hne : position ≠ site.source)
    (hread : other.ReadsName site.symbol.name) :
    func.graph.Dominates site.source position := by
  obtain ⟨symbol, hmem, hlocal, hname⟩ := hread
  exact site.defined.dominates_of_available site.ssa
    (site.ssa.body hblock hbody symbol hmem hlocal) hname hblock hbody hne

theorem dominates_of_jump_reads {position : Nat} {block : Block} {jump : Instr}
    (hblock : func.graph.block? position = some block) (hjump : block.jump = some jump)
    (hread : jump.ReadsName site.symbol.name) :
    func.graph.Dominates site.source position := by
  by_cases hne : position = site.source
  · rw [hne]
    exact .refl func.graph site.source
  · obtain ⟨symbol, hmem, hlocal, hname⟩ := hread
    exact site.defined.dominates_of_available site.ssa
      (site.ssa.jump hblock hjump symbol hmem hlocal) hname hblock
      (List.append_nil _).symm hne

/-- A phi selects the register only when it comes from a dominated block. -/
theorem dominates_of_phi {position previous : Nat} {block origin : Block} {phi : Phi}
    {source : Operand × Label} {symbol : Symbol}
    (hblock : func.graph.block? position = some block) (hphi : phi ∈ block.phis)
    (hsource : source ∈ phi.sources) (hsymbol : source.1.symbol? = some symbol)
    (hlocal : symbol.isGlobal = false) (hname : symbol.name = site.symbol.name)
    (horigin : func.graph.block? previous = some origin) (hlabel : source.2 = origin.label) :
    func.graph.Dominates site.source previous := by
  obtain ⟨found, twin, hfind, _, htwin, havailable⟩ :=
    site.ssa.phi hblock hphi hsource hsymbol hlocal
  rw [hlabel, site.wf.find?_label horigin] at hfind
  cases hfind
  by_cases hne : previous = site.source
  · rw [hne]
    exact .refl func.graph site.source
  · exact site.defined.dominates_of_available site.ssa havailable hname htwin
      (List.append_nil _).symm hne

theorem not_reads_before {passed rest : List Instr} {other : Instr}
    (hbefore : site.before = passed ++ other :: rest) : ¬other.ReadsName site.symbol.name := by
  rintro ⟨symbol, hmem, hlocal, hname⟩
  have hbody : site.block.body = passed ++ other :: (rest ++ site.instr :: site.after) := by
    rw [site.defined.body_eq, hbefore]
    simp
  exact site.defined.not_available site.ssa
    (site.ssa.body site.defined.block_eq hbody symbol hmem hlocal) hbefore hname

end HoistSite

end LoopHoist
