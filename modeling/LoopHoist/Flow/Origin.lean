import LoopHoist.Graph.Basic

/-!
# Where pointers come from

An `OriginTable` lists the allocations of a graph and, for every element
address, the pointer it was computed from.  Following these steps back from an
operand ends at an allocation, at a global, or at something that cannot be seen
through: a parameter, a phi, a loaded value, or a circle of element
addresses.  Different known origins never overlap; an unknown one overlaps
everything.
-/

namespace LoopHoist

inductive Origin where
  | alloc (target : Symbol)
  | global (name : String)
  | unknown
deriving DecidableEq, Repr

def Origin.mayOverlap : Origin → Origin → Bool
  | unknown, _ | _, unknown => true
  | a, b => decide (a = b)

/-- The later one of two bases of one symbol stands first. -/
structure OriginTable where
  allocs : List Symbol
  bases : List (Symbol × Operand)
deriving DecidableEq, Repr

namespace OriginTable

/-- Enters one instruction of a body. -/
def note (table : OriginTable) : Instr → OriginTable
  | .alloc target _ _ => { table with allocs := target :: table.allocs }
  | .element target _ base _ => { table with bases := (target, base) :: table.bases }
  | _ => table

def ofGraph (graph : Graph) : OriginTable :=
  (graph.blocks.flatMap Block.body).foldl note ⟨[], []⟩

def withoutBase (bases : List (Symbol × Operand)) (symbol : Symbol) : List (Symbol × Operand) :=
  bases.filter fun entry => entry.1 != symbol

theorem length_withoutBase_lt {bases : List (Symbol × Operand)} {symbol : Symbol} {base : Operand}
    (h : bases.lookup symbol = some base) : (withoutBase bases symbol).length < bases.length := by
  induction bases with
  | nil => simp at h
  | cons entry bases ih =>
      obtain ⟨target, operand⟩ := entry
      by_cases heq : target = symbol
      · have hle := List.length_filter_le (fun entry => entry.1 != symbol) bases
        simp only [withoutBase, List.filter_cons, heq, bne_self_eq_false,
          Bool.false_eq_true, if_false, List.length_cons]
        omega
      · have hne : (symbol == target) = false := by simpa using fun h => heq h.symm
        have hrest := ih (by simpa [List.lookup_cons, hne] using h)
        unfold withoutBase at hrest ⊢
        simp only [List.filter_cons, bne_iff_ne, ne_eq, heq, not_false_eq_true, if_true,
          List.length_cons]
        omega

/-- Follows element addresses back.  A base that was used is not used again, so a
circle ends. -/
def trace (allocs : List Symbol) (bases : List (Symbol × Operand)) : Operand → Origin
  | .named symbol =>
      if symbol.isGlobal then .global symbol.name
      else if symbol ∈ allocs then .alloc symbol
      else
        match _hbase : bases.lookup symbol with
        | none => .unknown
        | some base => trace allocs (withoutBase bases symbol) base
  | _ => .unknown
termination_by bases.length
decreasing_by exact length_withoutBase_lt _hbase

def origin (table : OriginTable) (operand : Operand) : Origin :=
  trace table.allocs table.bases operand

end OriginTable

end LoopHoist
