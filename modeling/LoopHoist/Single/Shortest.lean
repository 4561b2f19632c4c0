import LoopHoist.Single.Basic

/-!
# Shortest decimals

The decimal with the fewest digits that reads back as a given finite number.  A
decimal of `n` digits that does so exists only if one of the two neighbours of
the number on the grid of `n` digits does, so the grids of one, two, … nine
digits are tried in turn.  Of two neighbours that read back the nearer one is
taken, and the upper one when both are equally near.
-/

namespace LoopHoist.Single

def readsBack (x : Single) (number : Decimal) : Bool := decide (ofDecimal x.negative number = x)

/-- The two neighbours of a decimal on the grid of `count` digits, the nearer
one first. -/
def neighbours (number : Decimal) (count : Nat) : List Decimal :=
  let dropped := (digitsOf number.coefficient).length - count
  let unit := Nat.pow 10 dropped
  let lower : Decimal := ⟨number.coefficient / unit, number.exponent + dropped⟩
  let upper : Decimal := ⟨number.coefficient / unit + 1, number.exponent + dropped⟩
  if 2 * (number.coefficient % unit) < unit then [lower, upper] else [upper, lower]

/-- The shortest decimal that reads back, without trailing zeros.  Nine digits
always suffice; the exact value stands behind them. -/
def shortest (x : Single) : Decimal :=
  let found := (List.range' 1 9).findSome? fun count =>
    (neighbours x.exact count).find? x.readsBack
  (found.getD x.exact).trim

end LoopHoist.Single
