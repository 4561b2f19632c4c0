import LoopHoist.Single.Printer
import Mathlib.Data.Nat.Log
import Mathlib.Tactic.Ring

/-!
# Printed numbers read back

The single nearest to a decimal depends on the value of the decimal alone, so zeros
may move between its coefficient and its exponent.  The decimal that is printed
reads back by the way it was found, and the exact value, which stands behind the
search, reads back because it is not rounded.
-/

namespace LoopHoist.Single

/-! ## The nearest single depends on the value -/

theorem divideRounded_mul_right {scale : Nat} (hscale : 0 < scale) (numerator denominator : Nat) :
    divideRounded (numerator * scale) (denominator * scale) =
      divideRounded numerator denominator := by
  have htwice : 2 * (numerator % denominator * scale) = 2 * (numerator % denominator) * scale := by
    ring
  simp only [divideRounded, Nat.mul_div_mul_right _ _ hscale, Nat.mul_mod_mul_right, htwice,
    Nat.mul_lt_mul_right hscale]

theorem nearestMagnitude_mul_right {scale : Nat} (hscale : 0 < scale)
    (numerator denominator : Nat) :
    nearestMagnitude (numerator * scale) (denominator * scale) =
      nearestMagnitude numerator denominator := by
  have hunits : numerator * scale * Nat.pow 2 149 = numerator * Nat.pow 2 149 * scale := by ring
  have hbinade : ∀ binade, denominator * scale * Nat.pow 2 binade =
      denominator * Nat.pow 2 binade * scale := fun binade => by ring
  simp only [nearestMagnitude, hunits, hbinade, Nat.mul_div_mul_right _ _ hscale,
    divideRounded_mul_right hscale]

theorem digitsOf_mul_ten {n : Nat} (hn : 0 < n) : digitsOf (n * 10) = digitsOf n ++ ['0'] := by
  have h := Nat.toDigits_append_toDigits (b := 10) (by decide) hn (d := 0) (by decide)
  rw [Nat.toDigits_zero, Nat.add_zero, Nat.mul_comm] at h
  exact h.symm

theorem decimalMagnitude_mul_ten (coefficient : Nat) (exponent : Int) :
    decimalMagnitude ⟨coefficient * 10, exponent⟩ =
      decimalMagnitude ⟨coefficient, exponent + 1⟩ := by
  by_cases hzero : coefficient = 0
  · simp [decimalMagnitude, hzero]
  · have hpos : 0 < coefficient := Nat.pos_of_ne_zero hzero
    have hwidth : (((digitsOf coefficient ++ ['0']).length : Nat) : Int) + exponent =
        (digitsOf coefficient).length + (exponent + 1) := by
      simp
      omega
    have hne : coefficient * 10 ≠ 0 := by omega
    simp only [decimalMagnitude, digitsOf_mul_ten hpos, hwidth, hzero, hne, if_false]
    split
    · rfl
    · split
      · rfl
      · rcases lt_trichotomy exponent (-1) with hlt | rfl | hgt
        · have hnot : ¬0 ≤ exponent := by omega
          have hnot' : ¬0 ≤ exponent + 1 := by omega
          have hpow : (-exponent).toNat = (-(exponent + 1)).toNat + 1 := by omega
          rw [if_neg hnot, if_neg hnot', hpow]
          exact nearestMagnitude_mul_right (by decide) _ _
        · have hunit : coefficient * Nat.pow 10 (-1 + 1 : Int).toNat = coefficient :=
            Nat.mul_one coefficient
          rw [if_neg (by decide), if_pos (by decide), hunit]
          exact nearestMagnitude_mul_right (by decide) coefficient 1
        · have hnot : 0 ≤ exponent := by omega
          have hnot' : 0 ≤ exponent + 1 := by omega
          have hpow : (exponent + 1).toNat = exponent.toNat + 1 := by omega
          rw [if_pos hnot, if_pos hnot', hpow]
          congr 1
          simp only [Nat.pow_eq, Nat.pow_succ]
          ring

theorem decimalMagnitude_mul_pow (coefficient places : Nat) (exponent : Int) :
    decimalMagnitude ⟨coefficient * 10 ^ places, exponent⟩ =
      decimalMagnitude ⟨coefficient, exponent + places⟩ := by
  induction places generalizing exponent with
  | zero => simp
  | succ places ih =>
      rw [Nat.pow_succ, ← Nat.mul_assoc, decimalMagnitude_mul_ten, ih]
      congr 2
      push_cast
      ring

theorem decimalMagnitude_trim (number : Decimal) :
    decimalMagnitude number.trim = decimalMagnitude number := by
  fun_induction Decimal.trim number with
  | case1 number h ih =>
      obtain ⟨coefficient, exponent⟩ := number
      have hten : coefficient / 10 * 10 = coefficient :=
        Nat.div_mul_cancel (Nat.dvd_of_mod_eq_zero h.2)
      rw [ih, ← decimalMagnitude_mul_ten, hten]
  | case2 => rfl

/-! ## The exact value is not rounded -/

theorem divideRounded_mul_self (quotient : Nat) {denominator : Nat} (h : 0 < denominator) :
    divideRounded (quotient * denominator) denominator = quotient := by
  simp [divideRounded, Nat.mul_div_cancel _ h, h]

/-- What the significand is, without the cases of its definition. -/
theorem significand_eq {x : Single} {m q : Nat} (h : x.significand = (m, q)) :
    x.magnitude = q * 2 ^ 23 + m ∧ m < 2 ^ 24 ∧ (q = 0 ∨ 2 ^ 23 ≤ m) := by
  have hmod : x.magnitude % 2 ^ 23 < 2 ^ 23 := Nat.mod_lt _ (by decide)
  have hdiv := Nat.div_add_mod x.magnitude (2 ^ 23)
  simp only [significand, Nat.pow_eq] at h
  split at h <;> cases h
  · omega
  · omega

theorem binade_eq {m q : Nat} (hm : m < 2 ^ 24) (hq : q = 0 ∨ 2 ^ 23 ≤ m) :
    Nat.log2 (m * 2 ^ q) - 23 = q := by
  rcases hq with rfl | hm'
  · by_cases hzero : m = 0
    · simp [hzero]
    · have hlog : m.log2 < 24 := (Nat.log2_lt hzero).mpr hm
      simp only [Nat.pow_zero, Nat.mul_one]
      omega
  · have hpos := Nat.two_pow_pos q
    have hne : m * 2 ^ q ≠ 0 := Nat.mul_ne_zero (by omega) (by omega)
    have hlog : Nat.log2 (m * 2 ^ q) = 23 + q := by
      rw [Nat.log2_eq_iff hne, Nat.pow_add, Nat.add_right_comm, Nat.pow_add]
      exact ⟨Nat.mul_le_mul_right _ hm', Nat.mul_lt_mul_of_pos_right hm hpos⟩
    omega

/-- A quotient that is a single is not rounded. -/
theorem nearestMagnitude_eq {x : Single} (hfinite : x.isFinite = true) {m q : Nat}
    (hsignificand : x.significand = (m, q)) {numerator denominator : Nat} (hpos : 0 < denominator)
    (h : numerator * 2 ^ 149 = m * 2 ^ q * denominator) :
    nearestMagnitude numerator denominator = x.magnitude := by
  obtain ⟨hmagnitude, hm, hq⟩ := significand_eq hsignificand
  have hlt : x.magnitude < infiniteMagnitude := of_decide_eq_true hfinite
  have hunits : numerator * Nat.pow 2 149 = m * (denominator * 2 ^ q) := by
    rw [Nat.pow_eq, h]
    ring
  have hquotient : m * (denominator * 2 ^ q) / denominator = m * 2 ^ q := by
    rw [show m * (denominator * 2 ^ q) = m * 2 ^ q * denominator by ring,
      Nat.mul_div_cancel _ hpos]
  simp only [nearestMagnitude, hunits, hquotient, binade_eq hm hq]
  simp only [Nat.pow_eq, divideRounded_mul_self _ (Nat.mul_pos hpos (Nat.two_pow_pos q)),
    ← hmagnitude]
  exact Nat.min_eq_left hlt.le

theorem length_digitsOf_le_iff {n count : Nat} (hcount : 0 < count) :
    (digitsOf n).length ≤ count ↔ n < 10 ^ count :=
  Nat.length_toDigits_le_iff (by decide) hcount

/-- The exact value lies in the range in which powers of ten are formed. -/
theorem width_exact {m q : Nat} (hpos : 0 < m) (hm : m < 2 ^ 24) (hq : q < 254) :
    (149 ≤ q → (digitsOf (m * 2 ^ (q - 149))).length ≤ 39) ∧
    (q < 149 → (digitsOf (m * 5 ^ (149 - q))).length ≤ 39 + (149 - q) ∧
      149 - q ≤ (digitsOf (m * 5 ^ (149 - q))).length + 45) := by
  refine ⟨fun hlarge => ?_, fun hsmall => ⟨?_, ?_⟩⟩
  · rw [length_digitsOf_le_iff (by decide)]
    calc m * 2 ^ (q - 149) ≤ 2 ^ 24 * 2 ^ 104 :=
          Nat.mul_le_mul hm.le (Nat.pow_le_pow_right (by decide) (by omega))
      _ < 10 ^ 39 := by decide
  · rw [length_digitsOf_le_iff (by omega), Nat.pow_add]
    calc m * 5 ^ (149 - q) < 10 ^ 39 * 5 ^ (149 - q) :=
          Nat.mul_lt_mul_of_pos_right (hm.trans (by decide)) (Nat.pow_pos (by decide))
      _ ≤ 10 ^ 39 * 10 ^ (149 - q) :=
          Nat.mul_le_mul_left _ (Nat.pow_le_pow_left (by decide) _)
  · by_contra hshort
    obtain ⟨places, hplaces⟩ : ∃ places, 149 - q = places + 46 := ⟨149 - q - 46, by omega⟩
    have hdigits : 0 < (digitsOf (m * 5 ^ (149 - q))).length := Nat.length_toDigits_pos
    have hlt : m * 5 ^ (149 - q) < 10 ^ places :=
      (length_digitsOf_le_iff (by omega)).mp (by omega)
    refine absurd hlt (Nat.not_lt.mpr ?_)
    calc 10 ^ places = 5 ^ places * 2 ^ places := by rw [← Nat.mul_pow]
      _ ≤ 5 ^ places * 2 ^ 103 :=
          Nat.mul_le_mul_left _ (Nat.pow_le_pow_right (by decide) (by omega))
      _ ≤ 5 ^ places * 5 ^ 46 := Nat.mul_le_mul_left _ (by decide)
      _ = 5 ^ (149 - q) := by rw [hplaces, Nat.pow_add]
      _ ≤ m * 5 ^ (149 - q) := Nat.le_mul_of_pos_left _ hpos

theorem decimalMagnitude_exact {x : Single} (hfinite : x.isFinite = true) :
    decimalMagnitude x.exact = x.magnitude := by
  rcases hsignificand : x.significand with ⟨m, q⟩
  obtain ⟨hmagnitude, hm, hq⟩ := significand_eq hsignificand
  have hlt : x.magnitude < 255 * 2 ^ 23 := of_decide_eq_true hfinite
  simp only [exact, hsignificand, Nat.pow_eq]
  by_cases hzero : m = 0
  · have hnone : x.magnitude = 0 := by omega
    split <;> simp [decimalMagnitude, hzero, hnone]
  · obtain ⟨hlarge, hsmall⟩ := width_exact (Nat.pos_of_ne_zero hzero) hm (q := q) (by omega)
    split
    · rename_i hle
      have hwidth := hlarge hle
      have hne : m * 2 ^ (q - 149) ≠ 0 := Nat.mul_ne_zero hzero (Nat.pow_pos (by decide)).ne'
      have hpow : 2 ^ (q - 149) * 2 ^ 149 = 2 ^ q := by
        rw [← Nat.pow_add, Nat.sub_add_cancel hle]
      simp only [decimalMagnitude]
      rw [if_neg hne, if_neg (by omega), if_neg (by omega), if_pos (by decide)]
      apply nearestMagnitude_eq hfinite hsignificand Nat.one_pos
      rw [Int.toNat_zero, Nat.pow_eq, Nat.pow_zero, Nat.mul_one, Nat.mul_one, Nat.mul_assoc, hpow]
    · rename_i hgt
      obtain ⟨hupper, hlower⟩ := hsmall (by omega)
      have hne : m * 5 ^ (149 - q) ≠ 0 := Nat.mul_ne_zero hzero (Nat.pow_pos (by decide)).ne'
      have hplaces : (-((q : Int) - 149)).toNat = 149 - q := by omega
      have hpow : 2 ^ q * 2 ^ (149 - q) = 2 ^ 149 := by
        rw [← Nat.pow_add, Nat.add_sub_cancel' (by omega)]
      simp only [decimalMagnitude]
      rw [if_neg hne, if_neg (by omega), if_neg (by omega), if_neg (by omega)]
      apply nearestMagnitude_eq hfinite hsignificand (Nat.pow_pos (by decide))
      rw [hplaces, ← hpow, show 10 = 2 * 5 from rfl, Nat.mul_pow]
      ring

/-! ## What is found reads back -/

theorem ofMagnitude_magnitude (x : Single) : ofMagnitude x.negative x.magnitude = x := by
  obtain ⟨bits⟩ := x
  have hlt := bits.toNat_lt
  rw [ofMagnitude, mk.injEq, ← UInt32.toNat_inj, UInt32.toNat_ofNat']
  simp only [negative, magnitude, Nat.pow_eq, decide_eq_true_eq]
  split <;> omega

theorem ofDecimal_shortest {x : Single} (hfinite : x.isFinite = true) :
    ofDecimal x.negative x.shortest = x := by
  rw [shortest, ofDecimal, decimalMagnitude_trim, ← ofDecimal]
  cases hfound : (List.range' 1 9).findSome? fun count =>
      (neighbours x.exact count).find? x.readsBack with
  | none =>
      rw [Option.getD_none, ofDecimal, decimalMagnitude_exact hfinite, ofMagnitude_magnitude]
  | some number =>
      obtain ⟨_, _, hcount⟩ := List.exists_of_findSome?_eq_some hfound
      have hreads : x.readsBack number = true := List.find?_some hcount
      exact of_decide_eq_true hreads

/-! ## What is written denotes what was found -/

theorem digitsValue_append (front back : List Char) :
    digitsValue (front ++ back) = digitsValue front * 10 ^ back.length + digitsValue back := by
  rw [digitsValue, Nat.ofDigitChars_append, Nat.ofDigitChars_eq_ofDigitChars_zero, Nat.mul_comm]
  rfl

theorem digitsValue_replicate_zero (count : Nat) : digitsValue (List.replicate count '0') = 0 := by
  rw [digitsValue, Nat.ofDigitChars_replicate_zero, Nat.mul_zero]

theorem ofNumeral_plainNumeral (negative : Bool) (number : Decimal) :
    ofNumeral (plainNumeral negative (digitsOf number.coefficient) number.exponent) =
      ofDecimal negative number := by
  obtain ⟨coefficient, exponent⟩ := number
  simp only [plainNumeral]
  split
  · rename_i hexponent
    have hvalue : digitsValue ((digitsOf coefficient ++ List.replicate exponent.toNat '0') ++ ['0'])
        = coefficient * 10 ^ (exponent.toNat + 1) := by
      rw [List.append_assoc, ← List.replicate_succ', digitsValue_append, digitsValue_replicate_zero,
        digitsValue_digitsOf, List.length_replicate, Nat.add_zero]
    simp only [ofNumeral, FloatNumeral.magnitude, Option.getD_some, Option.map_none,
      Option.getD_none, ofDecimal, hvalue, decimalMagnitude_mul_pow]
    congr 3
    simp
    omega
  · rename_i hexponent
    simp only [ofNumeral, FloatNumeral.magnitude, Option.getD_some, Option.map_none,
      Option.getD_none, ofDecimal, List.take_append_drop, digitsValue_append,
      digitsValue_replicate_zero, digitsValue_digitsOf]
    congr 3
    · simp
    · simp only [List.length_drop, List.length_append, List.length_replicate]
      omega

theorem ofNumeral_scaledNumeral (negative : Bool) (number : Decimal) :
    ofNumeral (scaledNumeral negative (digitsOf number.coefficient)
      (number.exponent + (digitsOf number.coefficient).length - 1)) =
        ofDecimal negative number := by
  obtain ⟨coefficient, exponent⟩ := number
  have hlength : 0 < (digitsOf coefficient).length := Nat.length_toDigits_pos
  have hfraction : ((if ((digitsOf coefficient).drop 1).isEmpty then none
      else some ((digitsOf coefficient).drop 1) : Option (List Char))).getD [] =
        (digitsOf coefficient).drop 1 := by
    split
    · rename_i hempty
      simp_all
    · rfl
  simp only [ofNumeral, scaledNumeral, FloatNumeral.magnitude, hfraction, Option.map_some,
    Option.getD_some, ExponentPart.value_ofInt, List.take_append_drop, digitsValue_digitsOf]
  congr 2
  simp
  omega

/-- A finite number is read back from the numeral that it is written as. -/
theorem ofNumeral_numeral {x : Single} (hfinite : x.isFinite = true) :
    ofNumeral x.numeral = x := by
  simp only [numeral]
  split
  · rename_i hzero
    have hmagnitude : ofMagnitude x.negative 0 = x := by
      rw [← hzero, ofMagnitude_magnitude]
    exact hmagnitude
  · split
    · rw [ofNumeral_plainNumeral, ofDecimal_shortest hfinite]
    · rw [ofNumeral_scaledNumeral, ofDecimal_shortest hfinite]

end LoopHoist.Single
