import LoopHoist.Numeral

/-!
# Single precision numbers

A `Single` is a binary32 number, held as its 32 bits: a sign, eight exponent
bits and twenty-three fraction bits.  Numbers are rounded to the nearest
`Single`, a tie going to the even one, in exact arithmetic on `Nat`.

Read without their sign, the bits count the singles from zero
upwards.  `nearestMagnitude` works on that count: it divides in units of the
last place and adds the binades below.
-/

namespace LoopHoist

structure Single where
  bits : UInt32
deriving DecidableEq, Repr

namespace Single

def negative (x : Single) : Bool := decide (Nat.pow 2 31 ≤ x.bits.toNat)

/-- The bits without the sign. -/
def magnitude (x : Single) : Nat := x.bits.toNat % Nat.pow 2 31

/-- The magnitude of infinity; above it stand the NaNs. -/
def infiniteMagnitude : Nat := 255 * Nat.pow 2 23

def isNaN (x : Single) : Bool := decide (infiniteMagnitude < x.magnitude)

def isInfinite (x : Single) : Bool := decide (x.magnitude = infiniteMagnitude)

def isFinite (x : Single) : Bool := decide (x.magnitude < infiniteMagnitude)

/-- The NaN that stands for all of them. -/
def quietNaN : Single := ⟨0x7fc00000⟩

/-- Replaces every NaN by `quietNaN`. -/
def canonical (x : Single) : Single := if x.isNaN then quietNaN else x

def ofMagnitude (negative : Bool) (magnitude : Nat) : Single :=
  ⟨UInt32.ofNat ((if negative then Nat.pow 2 31 else 0) + magnitude)⟩

/-! ## The exact value -/

/-- For a finite number, `m` and `q` such that its value is `m * 2 ^ (q - 149)`
up to sign. -/
def significand (x : Single) : Nat × Nat :=
  let binade := x.magnitude / Nat.pow 2 23
  let fraction := x.magnitude % Nat.pow 2 23
  if binade = 0 then (fraction, 0) else (Nat.pow 2 23 + fraction, binade - 1)

/-- The value of a finite number up to sign, as a decimal without rounding. -/
def exact (x : Single) : Decimal :=
  let (m, q) := x.significand
  if 149 ≤ q then ⟨m * Nat.pow 2 (q - 149), 0⟩
  else ⟨m * Nat.pow 5 (149 - q), (q : Int) - 149⟩

/-! ## Rounding -/

/-- The quotient rounded to the nearest integer, a half going to the even one.
-/
def divideRounded (numerator denominator : Nat) : Nat :=
  let quotient := numerator / denominator
  let remainder := numerator % denominator
  if 2 * remainder < denominator then quotient
  else if denominator < 2 * remainder then quotient + 1
  else quotient + quotient % 2

/-- The magnitude of the single nearest to `numerator / denominator`. -/
def nearestMagnitude (numerator denominator : Nat) : Nat :=
  let units := numerator * Nat.pow 2 149
  let binade := Nat.log2 (units / denominator) - 23
  let rounded := divideRounded units (denominator * Nat.pow 2 binade)
  min (binade * Nat.pow 2 23 + rounded) infiniteMagnitude

/-- The magnitude of the single nearest to a decimal.  A number of at least `10 ^
39` is infinite and one below `10 ^ (-46)` is zero, so no power of ten outside
this range is formed. -/
def decimalMagnitude (number : Decimal) : Nat :=
  let width : Int := (digitsOf number.coefficient).length + number.exponent
  if number.coefficient = 0 then 0
  else if 39 < width then infiniteMagnitude
  else if width < -45 then 0
  else if 0 ≤ number.exponent then
    nearestMagnitude (number.coefficient * Nat.pow 10 number.exponent.toNat) 1
  else nearestMagnitude number.coefficient (Nat.pow 10 (-number.exponent).toNat)

/-- The single nearest to a decimal with the given sign. -/
def ofDecimal (negative : Bool) (number : Decimal) : Single :=
  ofMagnitude negative (decimalMagnitude number)

def ofInt (n : Int) : Single := ofDecimal (decide (n < 0)) ⟨n.natAbs, 0⟩

def ofNumeral (numeral : FloatNumeral) : Single :=
  ofDecimal numeral.negative numeral.magnitude

end Single

end LoopHoist
