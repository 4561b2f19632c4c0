import LoopHoist.Proofs.Single.RoundTrip
import Mathlib.Data.Nat.Dist

/-!
# Rounding to the nearest single

The singles that are at least as large as the first of a binade are multiples of its unit in the
last place, and all others lie below that one.  So the multiple that is nearest to a number of the
binade is the nearest of all singles.
-/

namespace LoopHoist.Single

/-- The value up to sign, in units of `2 ^ (-149)`. -/
def units (x : Single) : Nat := x.significand.1 * 2 ^ x.significand.2

/-- The value in units of `2 ^ (-149)`. -/
def scaled (x : Single) : Int := if x.negative then -x.units else x.units

theorem dist_divideRounded_le (numerator quotient : Nat) {denominator : Nat}
    (hpos : 0 < denominator) :
    Nat.dist (divideRounded numerator denominator * denominator) numerator ≤
      Nat.dist (quotient * denominator) numerator := by
  have hdiv := Nat.div_add_mod' numerator denominator
  have hmod := Nat.mod_lt numerator hpos
  have hside : quotient * denominator ≤ numerator / denominator * denominator ∨
      numerator / denominator * denominator + denominator ≤ quotient * denominator := by
    rcases Nat.lt_or_ge (numerator / denominator) quotient with hlt | hge
    · right
      rw [← Nat.succ_mul]
      exact Nat.mul_le_mul_right _ hlt
    · exact .inl (Nat.mul_le_mul_right _ hge)
  have hround : divideRounded numerator denominator * denominator =
      numerator / denominator * denominator ∧ 2 * (numerator % denominator) ≤ denominator ∨
      divideRounded numerator denominator * denominator =
        numerator / denominator * denominator + denominator ∧
          denominator ≤ 2 * (numerator % denominator) := by
    simp only [divideRounded]
    split
    · exact .inl ⟨rfl, by omega⟩
    · split
      · exact .inr ⟨Nat.succ_mul .., by omega⟩
      · rcases Nat.mod_two_eq_zero_or_one (numerator / denominator) with heven | hodd
        · exact .inl ⟨by rw [heven, Nat.add_zero], by omega⟩
        · exact .inr ⟨by rw [hodd, Nat.succ_mul], by omega⟩
  simp only [Nat.dist]
  omega

theorem exists_cut (x : Single) : ∃ m q, x.units = m * 2 ^ q ∧ x.magnitude = q * 2 ^ 23 + m ∧
    m < 2 ^ 24 ∧ (q = 0 ∨ 2 ^ 23 ≤ m) :=
  ⟨_, _, rfl, significand_eq rfl⟩

/-- The rounded number of units may be that of the first single of the next binade. -/
theorem units_eq {x : Single} {binade rounded : Nat}
    (hmagnitude : x.magnitude = binade * 2 ^ 23 + rounded) (hle : rounded ≤ 2 ^ 24)
    (hbinade : binade = 0 ∨ 2 ^ 23 ≤ rounded) : x.units = rounded * 2 ^ binade := by
  obtain ⟨m, q, hunits, hcut, hm, hq⟩ := x.exists_cut
  have hcases : q = binade ∧ m = rounded ∨ q = binade + 1 ∧ m = 2 ^ 23 ∧ rounded = 2 ^ 24 := by
    omega
  rcases hcases with ⟨rfl, rfl⟩ | ⟨rfl, rfl, rfl⟩
  · exact hunits
  · rw [hunits, Nat.pow_succ]
    ring

theorem exists_mul_or_lt (x : Single) (binade : Nat) :
    (∃ multiple, x.units = multiple * 2 ^ binade) ∨ x.units < 2 ^ 23 * 2 ^ binade := by
  obtain ⟨m, q, hunits, _, hm, _⟩ := x.exists_cut
  rcases Nat.lt_or_ge q binade with hlt | hge
  · right
    calc x.units = m * 2 ^ q := hunits
      _ < 2 ^ 24 * 2 ^ q := Nat.mul_lt_mul_of_pos_right hm (Nat.two_pow_pos q)
      _ = 2 ^ 23 * 2 ^ (q + 1) := by ring
      _ ≤ 2 ^ 23 * 2 ^ binade := Nat.mul_le_mul_left _ (Nat.pow_le_pow_right (by decide) hlt)
  · refine .inl ⟨m * 2 ^ (q - binade), ?_⟩
    rw [hunits, Nat.mul_assoc, ← Nat.pow_add, Nat.sub_add_cancel hge]

/-- What is rounded has the leading digit of its binade, unless it lies below all others. -/
theorem binade_bounds {number denominator binade : Nat} (hpos : 0 < denominator)
    (h : binade = Nat.log2 (number / denominator) - 23) :
    number < denominator * 2 ^ binade * 2 ^ 24 ∧
      (binade = 0 ∨ denominator * 2 ^ binade * 2 ^ 23 ≤ number) := by
  have hlt : number / denominator < 2 ^ (binade + 24) :=
    Nat.lt_log2_self.trans_le (Nat.pow_le_pow_right (by decide) (by omega))
  refine ⟨?_, ?_⟩
  · rw [Nat.mul_assoc, ← Nat.pow_add, Nat.mul_comm]
    exact (Nat.div_lt_iff_lt_mul hpos).mp hlt
  · rcases Nat.eq_zero_or_pos binade with hzero | hbinade
    · exact .inl hzero
    · right
      have hne : number / denominator ≠ 0 := by
        intro hzero
        simp [h, hzero] at hbinade
      have hle : 2 ^ (binade + 23) ≤ number / denominator :=
        (Nat.pow_le_pow_right (by decide) (by omega)).trans (Nat.log2_self_le hne)
      rw [Nat.mul_assoc, ← Nat.pow_add, Nat.mul_comm]
      exact (Nat.le_div_iff_mul_le hpos).mp hle

theorem divideRounded_mono {first second denominator : Nat} (hpos : 0 < denominator)
    (h : first ≤ second) : divideRounded first denominator ≤ divideRounded second denominator := by
  by_contra hlt
  have hfirst := dist_divideRounded_le first (divideRounded second denominator) hpos
  have hsecond := dist_divideRounded_le second (divideRounded first denominator) hpos
  have hfar := Nat.mul_le_mul_right denominator (Nat.lt_of_not_le hlt)
  rw [Nat.succ_mul] at hfar
  simp only [Nat.dist] at hfirst hsecond
  -- each is nearer to its own multiple, so both lie in the middle
  have heq : first = second := by omega
  exact hlt (heq ▸ le_rfl)

theorem divideRounded_le {numerator denominator bound : Nat} (hpos : 0 < denominator)
    (h : numerator ≤ denominator * bound) : divideRounded numerator denominator ≤ bound := by
  have hle := divideRounded_mono hpos h
  rwa [Nat.mul_comm, divideRounded_mul_self bound hpos] at hle

theorem le_divideRounded {numerator denominator bound : Nat} (hpos : 0 < denominator)
    (h : denominator * bound ≤ numerator) : bound ≤ divideRounded numerator denominator := by
  have hle := divideRounded_mono hpos h
  rwa [Nat.mul_comm, divideRounded_mul_self bound hpos] at hle

/-- Rounding to a multiple of the unit of a binade is rounding to a single. -/
theorem dist_units_le {number denominator binade : Nat} (hpos : 0 < denominator)
    (hbelow : number < denominator * 2 ^ binade * 2 ^ 24)
    (habove : binade = 0 ∨ denominator * 2 ^ binade * 2 ^ 23 ≤ number) {x : Single}
    (hx : x.magnitude = binade * 2 ^ 23 + divideRounded number (denominator * 2 ^ binade))
    (y : Single) :
    Nat.dist (x.units * denominator) number ≤ Nat.dist (y.units * denominator) number := by
  have hunit : 0 < denominator * 2 ^ binade := Nat.mul_pos hpos (Nat.two_pow_pos binade)
  have hunits : x.units = divideRounded number (denominator * 2 ^ binade) * 2 ^ binade :=
    units_eq hx (divideRounded_le hunit hbelow.le) (habove.imp_right (le_divideRounded hunit))
  have hmultiple : ∀ multiple, Nat.dist (x.units * denominator) number ≤
      Nat.dist (multiple * 2 ^ binade * denominator) number := by
    intro multiple
    rw [hunits, Nat.mul_assoc, Nat.mul_assoc, Nat.mul_comm (2 ^ binade)]
    exact dist_divideRounded_le number multiple hunit
  rcases y.exists_mul_or_lt binade with ⟨multiple, hy⟩ | hlt
  · rw [hy]
    exact hmultiple multiple
  · rcases habove with rfl | hfirst
    · have hself := hmultiple y.units
      rwa [Nat.pow_zero, Nat.mul_one] at hself
    · -- below the binade, its first single is nearer
      refine (hmultiple (2 ^ 23)).trans ?_
      have hside := Nat.mul_lt_mul_of_pos_right hlt hpos
      rw [show denominator * 2 ^ binade * 2 ^ 23 = 2 ^ 23 * 2 ^ binade * denominator by ring]
        at hfirst
      simp only [Nat.dist]
      omega

/-- No single is nearer to a quotient than the one whose magnitude is computed. -/
theorem dist_nearestMagnitude_le {numerator denominator : Nat} (hpos : 0 < denominator)
    {x : Single} (hx : x.magnitude = nearestMagnitude numerator denominator)
    (hfinite : x.isFinite = true) (y : Single) :
    Nat.dist (x.units * denominator) (numerator * 2 ^ 149) ≤
      Nat.dist (y.units * denominator) (numerator * 2 ^ 149) := by
  obtain ⟨hbelow, habove⟩ := binade_bounds hpos rfl
  refine dist_units_le hpos hbelow habove ?_ y
  have hlt : x.magnitude < infiniteMagnitude := of_decide_eq_true hfinite
  rw [hx] at hlt ⊢
  exact Nat.min_eq_left ((min_lt_iff.mp hlt).resolve_right (lt_irrefl _)).le

/-! ## Integers -/

theorem ofMagnitude_spec {magnitude : Nat} (h : magnitude < 2 ^ 31) (negative : Bool) :
    (ofMagnitude negative magnitude).magnitude = magnitude ∧
      (ofMagnitude negative magnitude).negative = negative := by
  simp only [ofMagnitude, Single.magnitude, Single.negative, UInt32.toNat_ofNat', Nat.pow_eq]
  cases negative with
  | false =>
      simp only [Bool.false_eq_true, if_false, decide_eq_false_iff_not]
      omega
  | true =>
      simp only [if_true, decide_eq_true_eq]
      omega

theorem decimalMagnitude_integer {n : Nat} (hn : n < 2 ^ 64) :
    decimalMagnitude ⟨n, 0⟩ = nearestMagnitude n 1 := by
  by_cases hzero : n = 0
  · subst hzero
    decide
  · have hdigits : (digitsOf n).length ≤ 39 :=
      (length_digitsOf_le_iff (by decide)).mpr (hn.trans (by decide))
    have hwide : ¬39 < ((digitsOf n).length : Int) + 0 := by omega
    have hnarrow : ¬((digitsOf n).length : Int) + 0 < -45 := by omega
    simp only [decimalMagnitude, if_neg hzero, if_neg hwide, if_neg hnarrow, le_refl, if_true]
    exact congrArg (nearestMagnitude · 1) (Nat.mul_one n)

theorem log2_shift_lt {n bits : Nat} (hn : n < 2 ^ bits) (hbits : 0 < bits) (places : Nat) :
    Nat.log2 (n * 2 ^ places) < bits + places := by
  by_cases hzero : n = 0
  · simp [hzero]
    omega
  · have hne : n * 2 ^ places ≠ 0 := Nat.mul_ne_zero hzero (Nat.two_pow_pos places).ne'
    rw [Nat.log2_lt hne, Nat.pow_add]
    exact Nat.mul_lt_mul_of_pos_right hn (Nat.two_pow_pos places)

/-- How an integer is rounded: the binade, and the number of its units. -/
theorem exists_rounding {n bits : Nat} (hn : n < 2 ^ bits) (hpos : 0 < bits) (hbits : bits ≤ 64) :
    ∃ binade rounded, divideRounded (n * 2 ^ 149) (1 * 2 ^ binade) = rounded ∧
      nearestMagnitude n 1 = binade * 2 ^ 23 + rounded ∧ binade < bits + 126 ∧
      rounded ≤ 2 ^ 24 ∧ (binade = 0 ∨ 2 ^ 23 ≤ rounded) := by
  have hlog := log2_shift_lt hn hpos 149
  obtain ⟨binade, hbinade⟩ : ∃ binade, binade = Nat.log2 (n * 2 ^ 149) - 23 := ⟨_, rfl⟩
  have hsmall : binade < bits + 126 := by omega
  obtain ⟨hbelow, habove⟩ := binade_bounds Nat.one_pos (hbinade.trans (by rw [Nat.div_one]))
  have hunit : 0 < 1 * 2 ^ binade := Nat.mul_pos Nat.one_pos (Nat.two_pow_pos binade)
  have hle := divideRounded_le hunit hbelow.le
  refine ⟨binade, _, rfl, ?_, hsmall, hle, habove.imp_right (le_divideRounded hunit)⟩
  have hmin : nearestMagnitude n 1 =
      min (binade * 2 ^ 23 + divideRounded (n * 2 ^ 149) (1 * 2 ^ binade)) infiniteMagnitude := by
    rw [hbinade]
    simp only [nearestMagnitude, Nat.div_one]
    rfl
  rw [hmin]
  refine Nat.min_eq_left (le_trans (Nat.add_le_add_left hle _) ?_)
  have hinfinite : infiniteMagnitude = 255 * 2 ^ 23 := rfl
  omega

theorem nearestMagnitude_lt {n : Nat} (hn : n < 2 ^ 64) :
    nearestMagnitude n 1 < infiniteMagnitude := by
  obtain ⟨binade, rounded, _, heq, hbinade, hle, _⟩ := exists_rounding hn (by decide) le_rfl
  have hinfinite : infiniteMagnitude = 255 * 2 ^ 23 := rfl
  omega

theorem ofInt_spec {n : Int} (hn : n.natAbs < 2 ^ 64) :
    (ofInt n).magnitude = nearestMagnitude n.natAbs 1 ∧ (ofInt n).negative = decide (n < 0) := by
  rw [ofInt, ofDecimal, decimalMagnitude_integer hn]
  exact ofMagnitude_spec ((nearestMagnitude_lt hn).trans (by decide)) _

theorem dist_units_ofInt_le {n : Int} (hn : n.natAbs < 2 ^ 64) (x : Single) :
    Nat.dist (ofInt n).units (n.natAbs * 2 ^ 149) ≤ Nat.dist x.units (n.natAbs * 2 ^ 149) := by
  obtain ⟨hmagnitude, _⟩ := ofInt_spec hn
  have hfinite : (ofInt n).isFinite = true := decide_eq_true (hmagnitude ▸ nearestMagnitude_lt hn)
  have hnear := dist_nearestMagnitude_le Nat.one_pos hmagnitude hfinite x
  rwa [Nat.mul_one, Nat.mul_one] at hnear

theorem mul_eq_ite (n : Int) : n * 2 ^ 149 =
    if n < 0 then -((n.natAbs * 2 ^ 149 : Nat) : Int) else (n.natAbs * 2 ^ 149 : Nat) := by
  split
  · omega
  · omega

/-- An integer that fits into 64 bits becomes a single to which none is nearer. -/
theorem natAbs_scaled_ofInt_le {n : Int} (hn : n.natAbs < 2 ^ 64) (x : Single) :
    ((ofInt n).scaled - n * 2 ^ 149).natAbs ≤ (x.scaled - n * 2 ^ 149).natAbs := by
  have hnear := dist_units_ofInt_le hn x
  simp only [Nat.dist] at hnear
  rw [scaled, scaled, (ofInt_spec hn).2, mul_eq_ite]
  generalize n.natAbs * 2 ^ 149 = number at hnear ⊢
  by_cases hneg : n < 0
  · simp only [hneg, decide_true, if_true]
    split <;> omega
  · simp only [hneg, decide_false, Bool.false_eq_true, if_false]
    split <;> omega

/-- Integers of at most 24 bits are not rounded. -/
theorem scaled_ofInt {n : Int} (hn : n.natAbs < 2 ^ 24) : (ofInt n).scaled = n * 2 ^ 149 := by
  obtain ⟨binade, rounded, hrounded, heq, hbinade, hle, habove⟩ :=
    exists_rounding hn (by decide) (by decide)
  obtain ⟨hmagnitude, hnegative⟩ := ofInt_spec (hn.trans (by decide))
  have hunits := units_eq (hmagnitude.trans heq) hle habove
  obtain ⟨places, hplaces⟩ : ∃ places, 149 = places + binade := ⟨149 - binade, by omega⟩
  have hmultiple : n.natAbs * 2 ^ 149 = n.natAbs * 2 ^ places * (1 * 2 ^ binade) := by
    rw [hplaces, Nat.pow_add]
    ring
  rw [hmultiple, divideRounded_mul_self _ (by simp)] at hrounded
  rw [← hrounded, ← Nat.one_mul (2 ^ binade), ← hmultiple] at hunits
  simp only [scaled, hunits, hnegative, mul_eq_ite, decide_eq_true_eq]

example : ofInt 16777217 = ofInt 16777216 := by decide

end LoopHoist.Single
