import LoopHoist.Operand

/-!
# The order of hoisted instructions

Instructions that move together are put in an order in which producers stand
before their consumers. Among those that may come next the first one is taken,
so nothing changes places without need. Instructions on a circle of
dependencies, and those behind one, keep their order at the end.
-/

namespace LoopHoist

structure Access where
  write : Option Symbol
  reads : List Symbol
deriving DecidableEq, Repr

namespace Access

/-- The index of the last item that writes a symbol. -/
def producer? (items : List Access) (symbol : Symbol) : Option Nat :=
  (items.zipIdx.reverse.find? fun item => item.1.write = some symbol).map Prod.snd

/-- The indices of the other items whose results an item reads. -/
def needs (items : List Access) (index : Nat) (item : Access) : List Nat :=
  (item.reads.filterMap (producer? items)).filter fun producer => producer != index

/-- Places, one by one, the first waiting item whose needs are placed. -/
def schedule (placed : List Nat) (waiting : List (Nat × List Nat)) : List Nat :=
  match _hready : waiting.find? fun item => item.2.all placed.contains with
  | none => placed ++ waiting.map Prod.fst
  | some item => schedule (placed ++ [item.1]) (waiting.erase item)
termination_by waiting.length
decreasing_by
  have hmem := List.mem_of_find?_eq_some _hready
  have hpos := List.length_pos_of_mem hmem
  rw [List.length_erase_of_mem hmem]
  omega

def order (items : List Access) : List Nat :=
  schedule [] (items.zipIdx.map fun (item, index) => (index, needs items index item))

end Access

end LoopHoist
