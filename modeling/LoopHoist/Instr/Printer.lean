import LoopHoist.Instr.Basic

/-!
# Printing instructions

A type in front of an operand is the one the instruction carries; stores,
addresses and returned values carry none and show the type of the operand
itself.
-/

namespace LoopHoist

def commaSeparated (items : List String) : String := ", ".intercalate items

def Operand.typedText (operand : Operand) : String := operand.ty.text ++ " " ++ operand.text

namespace Phi

def sourceText (source : Operand × Label) : String :=
  "[" ++ source.1.text ++ ", %" ++ source.2 ++ "]"

def text (phi : Phi) : String :=
  phi.target.text ++ " = phi " ++ phi.ty.text ++ " " ++ commaSeparated (phi.sources.map sourceText)

end Phi

namespace Instr

def argumentText (argument : Ty × Operand) : String :=
  argument.1.text ++ " " ++ argument.2.text

def text : Instr → String
  | arith target op ty left right =>
      target.text ++ " = " ++ op.text ++ " " ++ ty.text ++ " " ++ left.text ++ ", " ++ right.text
  | compare target word op ty left right =>
      target.text ++ " = " ++ word.text ++ " " ++ op.text ++ " " ++ ty.text ++ " " ++ left.text
        ++ ", " ++ right.text
  | convert target op sourceTy value resultTy =>
      target.text ++ " = " ++ op.text ++ " " ++ sourceTy.text ++ " " ++ value.text ++ " to "
        ++ resultTy.text
  | phi node => node.text
  | alloc target ty count => target.text ++ " = alloca " ++ ty.text ++ ", i32 " ++ count.text
  | load target ty address =>
      target.text ++ " = load " ++ ty.text ++ ", " ++ address.typedText
  | store value address => "store " ++ value.typedText ++ ", " ++ address.typedText
  | element target ty base offset =>
      target.text ++ " = getelementptr " ++ ty.text ++ ", " ++ base.typedText ++ ", i32 "
        ++ offset.text
  | call target ty callee arguments =>
      (match target with
        | none => ""
        | some target => target.text ++ " = ")
        ++ "call " ++ ty.text ++ " @" ++ callee ++ "("
        ++ commaSeparated (arguments.map argumentText) ++ ")"
  | jump label => "br label %" ++ label
  | branch ty condition ifTrue ifFalse =>
      "br " ++ ty.text ++ " " ++ condition.text ++ ", label %" ++ ifTrue ++ ", label %" ++ ifFalse
  | ret none => "ret void"
  | ret (some value) => "ret " ++ value.typedText

end Instr

end LoopHoist
