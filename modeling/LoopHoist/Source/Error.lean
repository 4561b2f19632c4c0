import LoopHoist.Instr.Printer

/-!
# Why a text is no program

Either the text does not match the grammar, or a literal does not fit, or the
program it describes is malformed.  Each cause has its constructor;
`ReadError.message` words it.
-/

namespace LoopHoist

inductive ReadError where
  | grammar
  | tooLarge (numeral : IntNumeral)
  | tooSmall (numeral : IntNumeral)
  | misplacedFloat (numeral : FloatNumeral) (ty : Ty)
  | illTyped (instr : Instr)
  | afterTerminator (instr : Instr) (label : Label)
  | latePhi (instr : Instr) (label : Label)
  | noTerminator (label : Label)
  | duplicateLabel (label : Label) (func : String)
  | unknownLabel (label : Label) (func : String)
  | entryTarget (func : String)
  | fault (fault : Fault)
deriving DecidableEq, Repr

namespace ReadError

/-- Whether the text itself is at fault, or else what it says. -/
def isSyntaxError : ReadError → Bool
  | grammar | tooLarge _ | tooSmall _ => true
  | _ => false

def detail : ReadError → String
  | grammar => "the text does not match the grammar"
  | tooLarge numeral => numeral.text ++ ": number too large to fit in target type"
  | tooSmall numeral => numeral.text ++ ": number too small to fit in target type"
  | misplacedFloat numeral ty => "float literal " ++ numeral.text ++ " used as " ++ ty.text
  | illTyped instr => "ill-typed instruction `" ++ instr.text ++ "`"
  | afterTerminator instr label =>
      "`" ++ instr.text ++ "` follows the terminator of block " ++ label
  | latePhi instr label => "phi `" ++ instr.text ++ "` is not at the start of block " ++ label
  | noTerminator label => "block " ++ label ++ " has no terminator"
  | duplicateLabel label func => "duplicate label " ++ label ++ " in function " ++ func
  | unknownLabel label func => "unknown label " ++ label ++ " in function " ++ func
  | entryTarget func => "entry block of " ++ func ++ " cannot be a branch target"
  | fault _ => "no such type"

def message (error : ReadError) : String :=
  (if error.isSyntaxError then "syntax error in llvm ir: " else "malformed llvm ir: ")
    ++ error.detail

end ReadError

end LoopHoist
