import LoopHoist.Single.Shortest

/-!
# Printing single precision numbers

A finite number is printed with its shortest digits: positionally, with at
least one digit after the point, or, far from one, with an exponent.
-/

namespace LoopHoist.Single

/-- Which exponents of the leading digit are written positionally: from
`plainFrom` up to, and without, `plainBelow`. -/
structure Layout where
  plainFrom : Int
  plainBelow : Int

/-- Numbers from `10 ^ (-4)` up to `10 ^ 16` are written positionally. -/
def layout : Layout := ⟨-4, 16⟩

/-- Digits followed by a power of ten, written positionally. -/
def plainNumeral (negative : Bool) (digits : List Char) (exponent : Int) : FloatNumeral :=
  if 0 ≤ exponent then
    ⟨negative, digits ++ List.replicate exponent.toNat '0', some ['0'], none⟩
  else
    let places := (-exponent).toNat
    let padded := List.replicate (places + 1 - digits.length) '0' ++ digits
    let point := padded.length - places
    ⟨negative, padded.take point, some (padded.drop point), none⟩

/-- Digits with the point after the first of them, scaled by an exponent. -/
def scaledNumeral (negative : Bool) (digits : List Char) (leading : Int) : FloatNumeral :=
  let rest := digits.drop 1
  ⟨negative, digits.take 1, if rest.isEmpty then none else some rest, some (.ofInt leading)⟩

def numeral (x : Single) : FloatNumeral :=
  if x.magnitude = 0 then ⟨x.negative, ['0'], some ['0'], none⟩
  else
    let number := x.shortest
    let digits := digitsOf number.coefficient
    let leading := number.exponent + digits.length - 1
    if layout.plainFrom ≤ leading ∧ leading < layout.plainBelow then
      plainNumeral x.negative digits number.exponent
    else scaledNumeral x.negative digits leading

def text (x : Single) : String :=
  if x.isNaN then "NaN"
  else if x.isInfinite then (if x.negative then "-inf" else "inf")
  else x.numeral.text

end LoopHoist.Single
