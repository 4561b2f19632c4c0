/-!
# Written numbers

An `IntNumeral` or a `FloatNumeral` is a number as it stands in a text, digit
by digit.  Both can be turned back into their text and into the number they
denote; for a float numeral this is a `Decimal`, an integer times a power of
ten, so nothing is rounded here.
-/

namespace LoopHoist

/-- The number `coefficient * 10 ^ exponent`. -/
structure Decimal where
  coefficient : Nat
  exponent : Int
deriving DecidableEq, Repr

/-! ## Digits -/

def digitsOf (n : Nat) : List Char := Nat.toDigits 10 n

def digitsValue (digits : List Char) : Nat := Nat.ofDigitChars 10 digits 0

theorem digitsValue_digitsOf (n : Nat) : digitsValue (digitsOf n) = n :=
  Nat.ofDigitChars_toDigits (by decide) (by decide)

namespace Decimal

/-- Moves trailing zeros of the coefficient into the exponent. -/
def trim (number : Decimal) : Decimal :=
  if 0 < number.coefficient ∧ number.coefficient % 10 = 0 then
    trim ⟨number.coefficient / 10, number.exponent + 1⟩
  else
    number
termination_by number.coefficient
decreasing_by exact Nat.div_lt_self (by omega) (by decide)

end Decimal

/-! ## Integers -/

/-- Decimal digits after an optional minus sign. -/
structure IntNumeral where
  negative : Bool
  digits : List Char
deriving DecidableEq, Repr

namespace IntNumeral

def ofInt (n : Int) : IntNumeral := ⟨decide (n < 0), digitsOf n.natAbs⟩

def value (numeral : IntNumeral) : Int :=
  if numeral.negative then -(digitsValue numeral.digits : Int)
  else digitsValue numeral.digits

def text (numeral : IntNumeral) : String :=
  (if numeral.negative then "-" else "") ++ String.ofList numeral.digits

theorem value_ofInt (n : Int) : (ofInt n).value = n := by
  simp only [ofInt, value, digitsValue_digitsOf, decide_eq_true_eq]
  split <;> omega

end IntNumeral

/-! ## Fractions and exponents -/

inductive ExponentSign where
  | bare
  | plus
  | minus
deriving DecidableEq, Repr

def ExponentSign.text : ExponentSign → String
  | bare => ""
  | plus => "+"
  | minus => "-"

/-- The part of a float numeral that scales it: its mark is `e` or `E`. -/
structure ExponentPart where
  mark : Char
  sign : ExponentSign
  digits : List Char
deriving DecidableEq, Repr

namespace ExponentPart

def ofInt (n : Int) : ExponentPart :=
  ⟨'e', if n < 0 then .minus else .bare, digitsOf n.natAbs⟩

def value (part : ExponentPart) : Int :=
  match part.sign with
  | .minus => -(digitsValue part.digits : Int)
  | _ => digitsValue part.digits

def text (part : ExponentPart) : String :=
  String.singleton part.mark ++ part.sign.text ++ String.ofList part.digits

theorem value_ofInt (n : Int) : (ofInt n).value = n := by
  by_cases hneg : n < 0
  · simp only [ofInt, value, digitsValue_digitsOf, if_pos hneg]
    omega
  · simp only [ofInt, value, digitsValue_digitsOf, if_neg hneg]
    omega

end ExponentPart

/-- `fraction` is missing when no point is written; after a point it may be
empty. -/
structure FloatNumeral where
  negative : Bool
  whole : List Char
  fraction : Option (List Char)
  exponent : Option ExponentPart
deriving DecidableEq, Repr

namespace FloatNumeral

/-- The denoted number without its sign. -/
def magnitude (numeral : FloatNumeral) : Decimal :=
  let fraction := numeral.fraction.getD []
  ⟨digitsValue (numeral.whole ++ fraction),
    (numeral.exponent.map ExponentPart.value).getD 0 - fraction.length⟩

def text (numeral : FloatNumeral) : String :=
  (if numeral.negative then "-" else "")
    ++ String.ofList numeral.whole
    ++ (match numeral.fraction with
        | none => ""
        | some digits => "." ++ String.ofList digits)
    ++ (match numeral.exponent with
        | none => ""
        | some part => part.text)

end FloatNumeral

end LoopHoist
