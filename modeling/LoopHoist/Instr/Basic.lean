import LoopHoist.Operand

/-!
# Instructions

One type holds every instruction: computations, memory accesses, calls, phis,
and the three kinds that end a block.  The functions here say what an
instruction reads and writes, which effects it may have and where control may
go after it.
-/

namespace LoopHoist

/-! ## Operators -/

inductive ArithOp where
  | add
  | sub
  | mul
  | sdiv
  | srem
  | fadd
  | fsub
  | fmul
  | fdiv
  | frem
  | shl
  | lshr
  | ashr
  | and
  | or
  | xor
deriving DecidableEq, Repr

namespace ArithOp

def all : List ArithOp :=
  [add, sub, mul, sdiv, srem, fadd, fsub, fmul, fdiv, frem, shl, lshr, ashr, and, or, xor]

def text : ArithOp → String
  | add => "add"
  | sub => "sub"
  | mul => "mul"
  | sdiv => "sdiv"
  | srem => "srem"
  | fadd => "fadd"
  | fsub => "fsub"
  | fmul => "fmul"
  | fdiv => "fdiv"
  | frem => "frem"
  | shl => "shl"
  | lshr => "lshr"
  | ashr => "ashr"
  | and => "and"
  | or => "or"
  | xor => "xor"

def operandTy : ArithOp → Ty
  | fadd | fsub | fmul | fdiv | frem => .float
  | _ => .i32

end ArithOp

/-- The word that opens a comparison.  It does not fix the type of the operands.
-/
inductive CompareWord where
  | icmp
  | fcmp
deriving DecidableEq, Repr

namespace CompareWord

def all : List CompareWord := [icmp, fcmp]

def text : CompareWord → String
  | icmp => "icmp"
  | fcmp => "fcmp"

end CompareWord

inductive CompareOp where
  | eq
  | ne
  | sgt
  | sge
  | slt
  | sle
  | oeq
  | one
  | ogt
  | oge
  | olt
  | ole
deriving DecidableEq, Repr

namespace CompareOp

def all : List CompareOp := [eq, ne, sgt, sge, slt, sle, oeq, one, ogt, oge, olt, ole]

def text : CompareOp → String
  | eq => "eq"
  | ne => "ne"
  | sgt => "sgt"
  | sge => "sge"
  | slt => "slt"
  | sle => "sle"
  | oeq => "oeq"
  | one => "one"
  | ogt => "ogt"
  | oge => "oge"
  | olt => "olt"
  | ole => "ole"

def operandTy : CompareOp → Ty
  | eq | ne | sgt | sge | slt | sle => .i32
  | oeq | one | ogt | oge | olt | ole => .float

end CompareOp

inductive ConvertOp where
  | sitofp
  | fptosi
deriving DecidableEq, Repr

namespace ConvertOp

def all : List ConvertOp := [sitofp, fptosi]

def text : ConvertOp → String
  | sitofp => "sitofp"
  | fptosi => "fptosi"

def operandTy : ConvertOp → Ty
  | sitofp => .i32
  | fptosi => .float

def resultTy : ConvertOp → Ty
  | sitofp => .float
  | fptosi => .i32

end ConvertOp

/-! ## The instruction type -/

/-- Selects one of its sources by the block that control came from. -/
structure Phi where
  target : Symbol
  ty : Ty
  sources : List (Operand × Label)
deriving DecidableEq, Repr

inductive Instr where
  | arith (target : Symbol) (op : ArithOp) (ty : Ty) (left right : Operand)
  | compare (target : Symbol) (word : CompareWord) (op : CompareOp) (ty : Ty) (left right : Operand)
  | convert (target : Symbol) (op : ConvertOp) (sourceTy : Ty) (value : Operand) (resultTy : Ty)
  | phi (node : Phi)
  | alloc (target : Symbol) (ty : Ty) (count : Operand)
  | load (target : Symbol) (ty : Ty) (address : Operand)
  | store (value address : Operand)
  | element (target : Symbol) (ty : Ty) (base offset : Operand)
  | call (target : Option Symbol) (ty : Ty) (callee : String) (arguments : List (Ty × Operand))
  | jump (label : Label)
  | branch (ty : Ty) (condition : Operand) (ifTrue ifFalse : Label)
  | ret (value : Option Operand)
deriving DecidableEq, Repr

namespace Instr

/-! ## Reads and writes -/

def operands : Instr → List Operand
  | arith _ _ _ left right => [left, right]
  | compare _ _ _ _ left right => [left, right]
  | convert _ _ _ value _ => [value]
  | phi node => node.sources.map Prod.fst
  | alloc _ _ count => [count]
  | load _ _ address => [address]
  | store value address => [value, address]
  | element _ _ base offset => [base, offset]
  | call _ _ _ arguments => arguments.map Prod.snd
  | jump _ => []
  | branch _ condition _ _ => [condition]
  | ret value => value.toList

def reads (instr : Instr) : List Symbol := instr.operands.filterMap Operand.symbol?

def write? : Instr → Option Symbol
  | arith target _ _ _ _ => some target
  | compare target _ _ _ _ _ => some target
  | convert target _ _ _ _ => some target
  | phi node => some node.target
  | alloc target _ _ => some target
  | load target _ _ => some target
  | element target _ _ _ => some target
  | call target _ _ _ => target
  | store _ _ | jump _ | branch _ _ _ _ | ret _ => none

/-! ## Effects -/

/-- Every execution of an allocation makes a new object, and a call may do
anything. -/
def hasSideEffect : Instr → Bool
  | alloc _ _ _ | store _ _ | call _ _ _ _ => true
  | _ => false

def readsMemory : Instr → Bool
  | load _ _ _ | call _ _ _ _ => true
  | _ => false

def writesMemory : Instr → Bool
  | store _ _ | call _ _ _ _ => true
  | _ => false

def accessesMemory (instr : Instr) : Bool := instr.readsMemory || instr.writesMemory

/-! ## Control -/

def isTerminator : Instr → Bool
  | jump _ | branch _ _ _ _ | ret _ => true
  | _ => false

def isPhi : Instr → Bool
  | phi _ => true
  | _ => false

def isRet : Instr → Bool
  | ret _ => true
  | _ => false

def targets : Instr → List Label
  | jump label => [label]
  | branch _ _ ifTrue ifFalse => [ifTrue, ifFalse]
  | _ => []

end Instr

end LoopHoist
