import LoopHoist.Source.Reader
import LoopHoist.Source.Tree

/-!
# The grammar

One reader for every rule of the grammar.  No word is reserved: a rule takes the
characters that it names wherever they stand, so words, numbers and names may
touch each other.
-/

namespace LoopHoist.Source

open Reader

/-! ## Names and types -/

def isIdentChar (c : Char) : Bool := c.isAlphanum || c = '_' || c = '.'

def ident : Reader String := do
  let chars ← span1 isIdentChar
  return String.ofList chars

def registerName : Reader String := token do
  word "%"
  ident

def globalName : Reader String := token do
  word "@"
  ident

def labelDefinition : Reader String := token do
  let label ← ident
  word ":"
  return label

/-- A pointer type comes before the type that it starts with. -/
def ty : Reader Ty :=
  token (firstWord Ty.text [.i32Ptr, .i32, .floatPtr, .float, .i1, .void])

/-- The types of which there are arrays. -/
def elementTy : Reader Ty := token (firstWord Ty.text [.i32, .float])

/-! ## Literals and operands -/

def minus : Reader Bool := (do word "-"; return true) <|> pure false

def digits : Reader (List Char) := span1 Char.isDigit

def exponentSign : Reader ExponentSign :=
  (do word "+"; return .plus) <|> (do word "-"; return .minus) <|> pure .bare

def exponentPart : Reader ExponentPart := do
  let mark ← satisfying fun c => c = 'e' || c = 'E'
  let sign ← exponentSign
  let digits ← digits
  return ⟨mark, sign, digits⟩

/-- Digits with a point among or behind them, and perhaps an exponent. -/
def pointNumeral : Reader FloatNumeral := do
  let negative ← minus
  let whole ← digits
  word "."
  let fraction ← span Char.isDigit
  let exponent ← (some <$> exponentPart) <|> pure none
  return ⟨negative, whole, some fraction, exponent⟩

def scaledNumeral : Reader FloatNumeral := do
  let negative ← minus
  let whole ← digits
  let exponent ← exponentPart
  return ⟨negative, whole, none, some exponent⟩

def floatNumeral : Reader FloatNumeral := pointNumeral <|> scaledNumeral

def intNumeral : Reader IntNumeral := do
  let negative ← minus
  let digits ← digits
  return ⟨negative, digits⟩

def atom : Reader Atom :=
  token (Atom.float <$> floatNumeral)
    <|> token (Atom.int <$> intNumeral)
    <|> Atom.register <$> registerName
    <|> Atom.global <$> globalName

/-! ## Instructions -/

def assignment : Reader String := do
  let target ← registerName
  tokenWord "="
  return target

def phiSource : Reader (Atom × String) := do
  tokenWord "["
  let value ← atom
  tokenWord ","
  let label ← registerName
  tokenWord "]"
  return (value, label)

def phi : Reader Instr := do
  let target ← assignment
  tokenWord "phi"
  let ty ← ty
  let sources ← commaList phiSource
  return .phi target ty sources

def arith : Reader Instr := do
  let target ← assignment
  let op ← token (firstWord ArithOp.text ArithOp.all)
  let ty ← ty
  let left ← atom
  tokenWord ","
  let right ← atom
  return .arith target op ty left right

def compare : Reader Instr := do
  let target ← assignment
  let compareWord ← token (firstWord CompareWord.text CompareWord.all)
  let op ← token (firstWord CompareOp.text CompareOp.all)
  let ty ← ty
  let left ← atom
  tokenWord ","
  let right ← atom
  return .compare target compareWord op ty left right

def convert : Reader Instr := do
  let target ← assignment
  let op ← token (firstWord ConvertOp.text ConvertOp.all)
  let sourceTy ← ty
  let value ← atom
  tokenWord "to"
  let resultTy ← ty
  return .convert target op sourceTy value resultTy

def alloc : Reader Instr := do
  let target ← assignment
  tokenWord "alloca"
  let ty ← elementTy
  tokenWord ","
  tokenWord "i32"
  let count ← atom
  return .alloc target ty count

def load : Reader Instr := do
  let target ← assignment
  tokenWord "load"
  let resultTy ← ty
  tokenWord ","
  let addressTy ← ty
  let address ← atom
  return .load target resultTy addressTy address

def element : Reader Instr := do
  let target ← assignment
  tokenWord "getelementptr"
  let elementTy ← elementTy
  tokenWord ","
  let baseTy ← ty
  let base ← atom
  tokenWord ","
  tokenWord "i32"
  let offset ← atom
  return .element target elementTy baseTy base offset

def argument : Reader (Ty × Atom) := do
  let ty ← ty
  let value ← atom
  return (ty, value)

def call : Reader Instr := do
  let target ← (some <$> assignment) <|> pure none
  tokenWord "call"
  let ty ← ty
  let callee ← globalName
  tokenWord "("
  let arguments ← commaListOrNone argument
  tokenWord ")"
  return .call target ty callee arguments

def store : Reader Instr := do
  tokenWord "store"
  let valueTy ← ty
  let value ← atom
  tokenWord ","
  let addressTy ← ty
  let address ← atom
  return .store valueTy value addressTy address

def targetLabel : Reader String := do
  tokenWord "label"
  registerName

def jump : Reader Instr := do
  tokenWord "br"
  let label ← targetLabel
  return .jump label

def branch : Reader Instr := do
  tokenWord "br"
  let ty ← ty
  let condition ← atom
  tokenWord ","
  let ifTrue ← targetLabel
  tokenWord ","
  let ifFalse ← targetLabel
  return .branch ty condition ifTrue ifFalse

def retVoid : Reader Instr := do
  tokenWord "ret"
  tokenWord "void"
  return .retVoid

def ret : Reader Instr := do
  tokenWord "ret"
  let ty ← ty
  let value ← atom
  return .ret ty value

def instr : Reader Instr :=
  phi <|> arith <|> compare <|> convert <|> alloc <|> load <|> element <|> call
    <|> store <|> jump <|> branch <|> retVoid <|> ret

/-! ## Blocks, functions, programs -/

def block : Reader Block := do
  let label ← labelDefinition
  let instrs ← many instr
  return ⟨label, instrs⟩

def param : Reader (Ty × String) := do
  let ty ← ty
  let name ← registerName
  return (ty, name)

def func : Reader Func := do
  tokenWord "define"
  let returnTy ← ty
  let name ← globalName
  tokenWord "("
  let params ← commaListOrNone param
  tokenWord ")"
  tokenWord "\x7b"
  let blocks ← many1 block
  tokenWord "\x7d"
  return ⟨returnTy, name, params, blocks⟩

def program : Reader Program := do
  gap
  let funcs ← many func
  atEnd
  return ⟨funcs⟩

/-- The tree of a text that matches the grammar. -/
def Program.read? (text : String) : Option Program :=
  (StateT.run program text.toList).map Prod.fst

end LoopHoist.Source
