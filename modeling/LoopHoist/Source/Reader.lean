/-!
# Readers

A reader takes something off the front of a list of characters, or
fails.  Choice is ordered: the second reader is tried, from the same place, only
if the first fails, and a reader that has succeeded is never asked again.

Blanks and comments may stand between any two tokens and may be missing between
them.  A comment runs from a semicolon to the end of its line.  `token` takes the
gap behind what it reads.
-/

namespace LoopHoist.Source

abbrev Reader (α : Type) := StateT (List Char) Option α

namespace Reader

/-! ## Readers in sequence and in choice -/

theorem pure_apply {α : Type} (item : α) (input : List Char) :
    (pure item : Reader α) input = some (item, input) := rfl

theorem bind_apply {α β : Type} (reader : Reader α) (next : α → Reader β) (input : List Char) :
    (reader >>= next) input = (reader input).bind fun result => next result.1 result.2 := rfl

theorem orElse_apply {α : Type} (first second : Reader α) (input : List Char) :
    (first <|> second) input = (first input).or (second input) := by
  change Option.orElse (first input) (fun _ => second input) = _
  cases first input <;> rfl

/-! ## Characters and words -/

def satisfying (test : Char → Bool) : Reader Char
  | [] => none
  | c :: rest => if test c then some (c, rest) else none

/-- The longest run of characters that pass a test. -/
def span (test : Char → Bool) : Reader (List Char)
  | input => some (input.takeWhile test, input.dropWhile test)

/-- The longest run, which must not be empty. -/
def span1 (test : Char → Bool) : Reader (List Char) := do
  let first ← satisfying test
  let rest ← span test
  return first :: rest

def word (text : String) : Reader Unit
  | input => (text.toList.isPrefixOf? input).map ((), ·)

/-- The first item of a list whose word can be read. -/
def firstWord {α : Type} (text : α → String) : List α → Reader α
  | [] => failure
  | item :: items => (do word (text item); return item) <|> firstWord text items

/-! ## Gaps and tokens -/

def isBlank (c : Char) : Bool := c = ' ' || c = '\t' || c = '\r' || c = '\n'

/-- Drops blanks and comments; the flag tells whether the front is inside a
comment. -/
def dropGap : Bool → List Char → List Char
  | _, [] => []
  | true, c :: rest => dropGap (c != '\n') rest
  | false, c :: rest =>
      if isBlank c then dropGap false rest
      else if c = ';' then dropGap true rest
      else c :: rest

def gap : Reader Unit
  | input => some ((), dropGap false input)

def token {α : Type} (reader : Reader α) : Reader α := do
  let result ← reader
  gap
  return result

def tokenWord (text : String) : Reader Unit := token (word text)

/-! ## Repetition -/

/-- Reads as many items as there are.  An item that takes nothing ends the
repetition. -/
def manyFrom {α : Type} (reader : Reader α) (input : List Char) : List α × List Char :=
  match reader input with
  | none => ([], input)
  | some (item, rest) =>
      if rest.length < input.length then
        let (items, last) := manyFrom reader rest
        (item :: items, last)
      else ([], input)
termination_by input.length

def many {α : Type} (reader : Reader α) : Reader (List α)
  | input => some (manyFrom reader input)

def many1 {α : Type} (reader : Reader α) : Reader (List α) := do
  let first ← reader
  let rest ← many reader
  return first :: rest

def commaList {α : Type} (reader : Reader α) : Reader (List α) := do
  let first ← reader
  let rest ← many do
    tokenWord ","
    reader
  return first :: rest

def commaListOrNone {α : Type} (reader : Reader α) : Reader (List α) :=
  commaList reader <|> pure []

def atEnd : Reader Unit
  | [] => some ((), [])
  | _ :: _ => none

end Reader

end LoopHoist.Source
