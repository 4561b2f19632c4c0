import LoopHoist.Proofs.Flow.Dominance
import LoopHoist.Proofs.SSA.Basic

/-!
# Checking strict form

Whether a function is in strict form can be computed: a block dominates what can
no longer be reached when it is left out, and all else is a matter of looking
through the instructions.
-/

namespace LoopHoist

theorem Graph.mem_zipIdx_blocks_iff {graph : Graph} {position : Nat} {block : Block} :
    (block, position) ∈ graph.blocks.zipIdx ↔ graph.block? position = some block :=
  List.mem_zipIdx_iff_getElem?

namespace Func

variable {func : Func}

def isAvailable (func : Func) (position : Nat) (before : List Instr) (symbol : Symbol) : Bool :=
  decide (symbol ∈ func.paramSymbols)
    || (func.graph.block? position).any (fun block =>
      decide (symbol ∈ block.phis.map Phi.target ++ before.filterMap Instr.write?))
    || func.graph.blocks.zipIdx.any fun (block, source) =>
      source != position && decide (symbol ∈ block.defs)
        && decide ((position : Int) ∉ func.graph.reachable (some (source : Int)))

/-- Whether a list of symbols can be read where some instructions of the body of a
block have been passed. -/
def canRead (func : Func) (position : Nat) (before : List Instr) (symbols : List Symbol) : Bool :=
  symbols.all fun symbol => symbol.isGlobal || func.isAvailable position before symbol

def checksSource (func : Func) (block : Block) (source : Operand × Label) : Bool :=
  match source.1.symbol? with
  | none => true
  | some symbol => symbol.isGlobal || (func.graph.find? source.2).any fun previous =>
      decide (previous ∈ block.prev) && (func.graph.block? previous).any fun origin =>
        func.isAvailable previous origin.body symbol

def checksBlock (func : Func) (position : Nat) (block : Block) : Bool :=
  (block.body.zipIdx.all fun (instr, index) =>
      func.canRead position (block.body.take index) instr.reads)
    && block.jump.all (fun jump => func.canRead position block.body jump.reads)
    && block.phis.all fun phi => phi.sources.all (func.checksSource block)

def isStrictSSA (func : Func) : Bool :=
  decide (func.definitions.map Symbol.name).Nodup
    && func.graph.blocks.zipIdx.all fun (block, position) => func.checksBlock position block

theorem isAvailable_iff (wf : func.graph.WellFormed) {position : Nat} {before : List Instr}
    {symbol : Symbol} :
    func.isAvailable position before symbol = true ↔ func.Available position before symbol := by
  simp only [isAvailable, Bool.or_eq_true, decide_eq_true_eq, Option.any_eq_true,
    List.any_eq_true, Bool.and_eq_true, bne_iff_ne, Prod.exists, Graph.mem_zipIdx_blocks_iff,
    wf.mem_reachable_some_iff, not_not, Available, or_assoc]
  refine or_congr_right (or_congr_right ?_)
  constructor
  · rintro ⟨block, source, hblock, ⟨hne, hmem⟩, hdominates⟩
    exact ⟨source, block, hne, hblock, hmem, hdominates⟩
  · rintro ⟨source, block, hne, hblock, hmem, hdominates⟩
    exact ⟨block, source, hblock, ⟨hne, hmem⟩, hdominates⟩

theorem canRead_iff (wf : func.graph.WellFormed) {position : Nat} {before : List Instr}
    {symbols : List Symbol} :
    func.canRead position before symbols = true ↔
      ∀ symbol ∈ symbols, symbol.isGlobal = false → func.Available position before symbol := by
  simp only [canRead, List.all_eq_true, Bool.or_eq_true, isAvailable_iff wf,
    or_iff_not_imp_left, Bool.not_eq_true]

theorem checksSource_iff (wf : func.graph.WellFormed) {block : Block} {source : Operand × Label} :
    func.checksSource block source = true ↔
      ∀ {symbol : Symbol}, source.1.symbol? = some symbol → symbol.isGlobal = false →
        ∃ previous origin, func.graph.find? source.2 = some previous ∧ previous ∈ block.prev ∧
          func.graph.block? previous = some origin ∧
          func.Available previous origin.body symbol := by
  unfold checksSource
  split
  · simp_all
  · rename_i symbol hsymbol
    simp only [hsymbol, Option.some.injEq, forall_eq', Bool.or_eq_true, or_iff_not_imp_left,
      Bool.not_eq_true, Option.any_eq_true, Bool.and_eq_true, decide_eq_true_eq,
      isAvailable_iff wf]
    refine imp_congr_right fun _ => ?_
    constructor
    · rintro ⟨previous, hfind, hprev, origin, horigin, havailable⟩
      exact ⟨previous, origin, hfind, hprev, horigin, havailable⟩
    · rintro ⟨previous, origin, hfind, hprev, horigin, havailable⟩
      exact ⟨previous, hfind, hprev, origin, horigin, havailable⟩

theorem isStrictSSA_iff (wf : func.graph.WellFormed) :
    func.isStrictSSA = true ↔ func.StrictSSA := by
  simp only [isStrictSSA, checksBlock, Bool.and_eq_true, decide_eq_true_eq, List.all_eq_true,
    Prod.forall, Graph.mem_zipIdx_blocks_iff, Option.all_eq_true, canRead_iff wf,
    checksSource_iff wf]
  let holds (position : Nat) (before : List Instr) (instr : Instr) : Prop :=
    ∀ symbol ∈ instr.reads, symbol.isGlobal = false → func.Available position before symbol
  constructor
  · rintro ⟨hnodup, hblocks⟩
    refine ⟨hnodup, ?_, ?_, ?_⟩
    · intro position block before after instr hblock
      exact (all_zipIdx_iff (holds position)).mp (hblocks block position hblock).1.1
    · intro position block jump hblock hjump
      exact (hblocks block position hblock).1.2 jump hjump
    · intro position block phi source symbol hblock hphi hsource
      exact (hblocks block position hblock).2 phi hphi source.1 source.2 hsource
  · intro ssa
    refine ⟨ssa.nodup, ?_⟩
    intro block position hblock
    refine ⟨⟨(all_zipIdx_iff (holds position)).mpr (ssa.body hblock), ?_⟩, ?_⟩
    · exact fun jump hjump => ssa.jump hblock hjump
    · exact fun phi hphi operand label hsource => ssa.phi hblock hphi hsource

end Func

end LoopHoist
