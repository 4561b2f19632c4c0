import LoopHoist.Single.Printer
import LoopHoist.Ty

/-!
# Symbols and operands

A `Symbol` is a name with its type: a register of the enclosing function, or a
global.  Two symbols of one name and different types are different symbols.  An
`Operand` is a symbol or a literal.
-/

namespace LoopHoist

abbrev Label := String

structure Symbol where
  name : String
  ty : Ty
  isGlobal : Bool
deriving DecidableEq, Repr

namespace Symbol

def register (name : String) (ty : Ty) : Symbol := ⟨name, ty, false⟩

def global (name : String) (ty : Ty) : Symbol := ⟨name, ty, true⟩

def text (symbol : Symbol) : String := (if symbol.isGlobal then "@" else "%") ++ symbol.name

end Symbol

inductive Operand where
  | int (value : Int32)
  | float (value : Single)
  | named (symbol : Symbol)
deriving DecidableEq, Repr

namespace Operand

def ty : Operand → Ty
  | int _ => .i32
  | float _ => .float
  | named symbol => symbol.ty

def text : Operand → String
  | int value => (IntNumeral.ofInt value.toInt).text
  | float value => value.text
  | named symbol => symbol.text

def symbol? : Operand → Option Symbol
  | named symbol => some symbol
  | _ => none

end Operand

end LoopHoist
