import LoopHoist.Instr.Basic

/-!
# Source trees

What a text says once its grammar is known, before literals get their values
and names their types. Types stand where the text writes them, and numbers as
they are written.
-/

namespace LoopHoist.Source

inductive Atom where
  | int (numeral : IntNumeral)
  | float (numeral : FloatNumeral)
  | register (name : String)
  | global (name : String)
deriving DecidableEq, Repr

/-- One constructor for each form of instruction.  Registers and labels are given
by name. -/
inductive Instr where
  | phi (target : String) (ty : Ty) (sources : List (Atom × String))
  | arith (target : String) (op : ArithOp) (ty : Ty) (left right : Atom)
  | compare (target : String) (word : CompareWord) (op : CompareOp) (ty : Ty) (left right : Atom)
  | convert (target : String) (op : ConvertOp) (sourceTy : Ty) (value : Atom) (resultTy : Ty)
  | alloc (target : String) (ty : Ty) (count : Atom)
  | load (target : String) (ty : Ty) (addressTy : Ty) (address : Atom)
  | element (target : String) (ty : Ty) (baseTy : Ty) (base offset : Atom)
  | call (target : Option String) (ty : Ty) (callee : String) (arguments : List (Ty × Atom))
  | store (valueTy : Ty) (value : Atom) (addressTy : Ty) (address : Atom)
  | jump (label : String)
  | branch (ty : Ty) (condition : Atom) (ifTrue ifFalse : String)
  | retVoid
  | ret (ty : Ty) (value : Atom)
deriving DecidableEq, Repr

structure Block where
  label : String
  instrs : List Instr
deriving DecidableEq, Repr

structure Func where
  returnTy : Ty
  name : String
  params : List (Ty × String)
  blocks : List Block
deriving DecidableEq, Repr

structure Program where
  funcs : List Func
deriving DecidableEq, Repr

end LoopHoist.Source
