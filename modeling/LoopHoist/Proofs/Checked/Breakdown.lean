import LoopHoist.Proofs.Attempt
import LoopHoist.Ty

/-!
# Requests that may find nothing

Reading, analysing and hoisting ask for things that they take to be there: an item of a
list, the row of a block in a table, a part of a tree, a count that is not used up.  In
the modules beside this one every such request is made openly and can break down, and the
checked computations are compared with those that run.
-/

namespace LoopHoist

/-- What was asked for and is not there. -/
inductive Breakdown where
  | fault (fault : Fault)
  | noSuchItem (index : Nat)
  | noSuchRow (id : Int)
  | noCountLeft (index : Nat)
  | noEnd
  | unknownWord (word : String)
  | unexpectedNode
  | noJump
deriving DecidableEq, Repr

abbrev Checked (α : Type) := Except Breakdown α

namespace Checked

variable {α β : Type}

def demand (breakdown : Breakdown) : Option α → Checked α
  | some value => .ok value
  | none => .error breakdown

theorem demand_eq_ok {breakdown : Breakdown} {found : Option α} {value : α}
    (h : found = some value) : demand breakdown found = .ok value := by
  rw [h]
  rfl

def item (items : List α) (index : Nat) : Checked α := demand (.noSuchItem index) items[index]?

def filter (test : α → Checked Bool) : List α → Checked (List α)
  | [] => .ok []
  | item :: items => do
      let passes ← test item
      let rest ← filter test items
      return if passes then item :: rest else rest

theorem filter_eq_ok {test : α → Checked Bool} {passes : α → Bool} {items : List α}
    (h : ∀ item ∈ items, test item = .ok (passes item)) :
    filter test items = .ok (items.filter passes) := by
  induction items with
  | nil => rfl
  | cons item items ih =>
      rw [List.forall_mem_cons] at h
      rw [filter, h.1, ih h.2, List.filter_cons]
      rfl

/-! ## Faults -/

def ofFault : Except Fault α → Checked α
  | .ok value => .ok value
  | .error fault => .error (.fault fault)

theorem ofFault_ok (value : α) : ofFault (.ok value) = .ok value := rfl

theorem ofFault_bind (first : Except Fault α) (next : α → Except Fault β) :
    ofFault (first >>= next) = ofFault first >>= fun value => ofFault (next value) := by
  cases first <;> rfl

theorem ofFault_mapM {f : α → Except Fault β} {g : α → Checked β} (items : List α)
    (h : ∀ item ∈ items, g item = ofFault (f item)) :
    items.mapM g = ofFault (items.mapM f) := by
  induction items with
  | nil => rfl
  | cons item items ih =>
      rw [List.forall_mem_cons] at h
      simp only [List.mapM_cons, h.1, ih h.2, ofFault_bind]
      rfl

end Checked

end LoopHoist
