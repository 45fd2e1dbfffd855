import Calculator.Proofs.WholeNumbers
import Mathlib.Data.List.DropRight

namespace Calculator

/-- The nearest whole number, the one farther from zero if two are equally near. -/
def roundHalfAway (x : ℚ) : ℤ := if 0 ≤ x then ⌊x + 1 / 2⌋ else ⌈x - 1 / 2⌉

/-- A number rounded to some places and written in full, but for zeros at the end of the places and
a point that nothing would follow. -/
def decimalForm (x : ℚ) (places : ℕ) : List Char :=
  let n := roundHalfAway (x * 10 ^ places)
  let fraction := (Decimal.lastDigits n.natAbs places).rdropWhile (· == '0')
  Binary64.sign (n < 0) ++ Nat.toDigits 10 (n.natAbs / 10 ^ places) ++
    if fraction = [] then [] else '.' :: fraction

theorem roundHalfUp_cast {x : ℚ} (hx : 0 ≤ x) : (roundHalfUp x : ℤ) = ⌊x + 1 / 2⌋ := by
  rw [roundHalfUp, Int.natCast_floor_eq_floor (by linarith)]

/-- Rounding does not depend on the sign. -/
theorem roundHalfAway_signed (negative : Bool) {x : ℚ} (hx : 0 ≤ x) :
    roundHalfAway (if negative then -x else x) = Binary64.signed negative (roundHalfUp x) := by
  cases negative with
  | false =>
    simp only [Bool.false_eq_true, if_false, Binary64.signed]
    rw [roundHalfAway, if_pos hx, roundHalfUp_cast hx]
  | true =>
    simp only [if_true, Binary64.signed]
    rw [roundHalfUp_cast hx, ← Int.ceil_neg, roundHalfAway, neg_add']
    split
    · rename_i h
      obtain rfl : x = 0 := by linarith
      norm_num
    · rfl

namespace Scaled

/-- Numbers that need no more than 28 places and no larger coefficient than fits are converted
without loss. The halvings that do not divide by two multiply by five, and the product does not get
larger than the coefficient. -/
theorem convert_decimal {m e c k : ℕ} (hk : k ≤ 28) (hc : c < coefficientBound)
    (h : m * 10 ^ k = c * 2 ^ e) : (halveTimes e ⟨m, 0⟩).cap.toRat = (m : ℚ) / 2 ^ e := by
  have hten : m * 10 ^ k = m * 5 ^ k * 2 ^ k := by
    rw [mul_assoc, ← mul_pow, show 5 * 2 = 10 from rfl]
  rw [hten] at h
  rcases Nat.le_total e k with he | he
  · -- all halvings may multiply by five
    have hle : 5 ^ e * m ≤ c := by
      refine Nat.le_of_mul_le_mul_right ?_ (Nat.two_pow_pos e)
      rw [← h, mul_comm _ m]
      have hfive : 5 ^ e ≤ 5 ^ k := Nat.pow_le_pow_right (by decide) he
      have htwo : 2 ^ e ≤ 2 ^ k := Nat.pow_le_pow_right (by decide) he
      exact Nat.mul_le_mul (Nat.mul_le_mul_left m hfive) htwo
    have hx := convert_exact (i := 0) (j := e) (hle.trans_lt hc) (by omega)
    rwa [pow_zero, one_mul, Nat.zero_add] at hx
  · -- the others find an even number
    obtain ⟨i, rfl⟩ := Nat.exists_eq_add_of_le' he
    have hodd : m * 5 ^ k = c * 2 ^ i := by
      refine Nat.eq_of_mul_eq_mul_right (Nat.two_pow_pos k) ?_
      rw [h, pow_add, mul_assoc]
    have hdvd : 2 ^ i ∣ m := by
      have hcop : Nat.Coprime (2 ^ i) (5 ^ k) := Nat.Coprime.pow i k (by decide)
      exact hcop.dvd_of_dvd_mul_right ⟨c, by rw [hodd, mul_comm]⟩
    obtain ⟨c', rfl⟩ := hdvd
    have hc' : 5 ^ k * c' = c := by
      refine Nat.eq_of_mul_eq_mul_right (Nat.two_pow_pos i) ?_
      rw [← hodd]
      ring
    exact convert_exact (hc'.trans_lt hc) hk

theorem toRat_ofUnits_eq {units k : ℕ} (h : Representable units)
    (hv : (units : ℚ) / unitsPerOne = k) :
    (ofUnits units).toRat = (units : ℚ) / unitsPerOne := by
  have hU : (unitsPerOne : ℚ) ≠ 0 := by exact_mod_cast unitsPerOne_pos.ne'
  have hwhole : units = k * unitsPerOne := by
    rw [div_eq_iff hU] at hv
    exact_mod_cast hv
  rw [hv]
  rw [hwhole] at h ⊢
  exact toRat_ofUnits_whole h

theorem toRat_ofUnits_decimal {units c k : ℕ} (h : Representable units) (hk : k ≤ 28)
    (hc : c < coefficientBound) (hv : (units : ℚ) / unitsPerOne = c / 10 ^ k) :
    (ofUnits units).toRat = (units : ℚ) / unitsPerOne := by
  refine ofUnits_cases h (P := fun x y => y = c / 10 ^ k → x = y) (fun x _ => rfl) ?_ hv
  intro m e _ _ hm
  refine convert_decimal hk hc ?_
  have hten : (10 : ℚ) ^ k ≠ 0 := by positivity
  have htwo : (2 : ℚ) ^ e ≠ 0 := by positivity
  rw [div_eq_div_iff htwo hten] at hm
  exact_mod_cast hm

end Scaled

namespace Binary64

variable {negative : Bool} {units decimals : ℕ} {fits : Representable units} {x : Binary64}

theorem signed_lt_zero (negative : Bool) (n : ℕ) :
    decide (signed negative n < 0) = (negative && n != 0) := by
  cases negative with
  | false => simp [signed]
  | true =>
    rw [Bool.true_and, Bool.eq_iff_iff, decide_eq_true_iff, bne_iff_ne]
    simp only [signed, if_true]
    omega

theorem toRat_finite (negative : Bool) (fits : Representable units) :
    toRat (.finite negative units fits) =
      if negative then -((units : ℚ) / unitsPerOne) else (units : ℚ) / unitsPerOne := by
  rw [toRat, signed]
  split
  · rw [Int.cast_neg, Int.cast_natCast, neg_div]
  · rw [Int.cast_natCast]

theorem exact_nonneg (units : ℕ) : 0 ≤ (units : ℚ) / unitsPerOne :=
  div_nonneg (Nat.cast_nonneg units) (Nat.cast_nonneg unitsPerOne)

theorem abs_toRat_finite (negative : Bool) (fits : Representable units) :
    |toRat (.finite negative units fits)| = (units : ℚ) / unitsPerOne := by
  rw [toRat_finite]
  split
  · rw [abs_neg, abs_of_nonneg (exact_nonneg units)]
  · rw [abs_of_nonneg (exact_nonneg units)]

/-- If the conversion is not seen in what is rounded, a result is the decimal form of its exact
value. -/
theorem fixed_eq_decimalForm
    (h : roundHalfUp ((Scaled.ofUnits units).toRat * 10 ^ min decimals 28) =
      roundHalfUp ((units : ℚ) / unitsPerOne * 10 ^ min decimals 28)) :
    fixed decimals (.finite negative units fits) =
      decimalForm (toRat (.finite negative units fits)) (min decimals 28) := by
  have hpos : 0 ≤ (units : ℚ) / unitsPerOne * 10 ^ min decimals 28 :=
    mul_nonneg (exact_nonneg units) (by positivity)
  have hn := roundHalfAway_signed negative hpos
  have hx : toRat (.finite negative units fits) * 10 ^ min decimals 28 =
      if negative then -((units : ℚ) / unitsPerOne * 10 ^ min decimals 28)
      else (units : ℚ) / unitsPerOne * 10 ^ min decimals 28 := by
    rw [toRat_finite, ite_mul, neg_mul]
  generalize roundHalfUp ((units : ℚ) / unitsPerOne * 10 ^ min decimals 28) = n at h hn
  have hzero : ((⟨n, min decimals 28⟩ : Scaled).trim.coefficient != 0) = (n != 0) := by
    rw [Bool.eq_iff_iff, bne_iff_ne, bne_iff_ne, Ne, Scaled.coefficient_trim_eq_zero_iff]
  simp only [fixed_finite, Scaled.trim_round, h, hzero, decimalForm, hx, hn,
    natAbs_signed, signed_lt_zero, List.append_assoc]
  rw [Scaled.trim, Scaled.text_trimFrom]

end Binary64

/-- A result is its exact value rounded once, half away from zero, if at most six places are asked
for, if it is whole, or if it has at most 28 places and its digits make a number below 2^96. -/
theorem fixed_is_exact_value_rounded {x : Binary64} (decimals : ℕ) (hx : x.isFinite = true)
    (h : min decimals 28 ≤ 6 ∨ (∃ n : ℤ, x.toRat = n) ∨
      ∃ (c : ℤ) (k : ℕ), |c| < 2 ^ 96 ∧ k ≤ 28 ∧ x.toRat = c / 10 ^ k) :
    x.fixed decimals = decimalForm x.toRat (min decimals 28) := by
  obtain ⟨negative, units, fits, rfl⟩ := Binary64.exists_of_isFinite hx
  have habs := Binary64.abs_toRat_finite negative fits
  apply Binary64.fixed_eq_decimalForm
  rcases h with h | ⟨n, hn⟩ | ⟨c, k, hc, hk, hv⟩
  · exact Scaled.round_ofUnits fits h
  · rw [hn, ← Int.cast_abs, Int.abs_eq_natAbs, Int.cast_natCast] at habs
    rw [Scaled.toRat_ofUnits_eq fits habs.symm]
  · have hnat : c.natAbs < Scaled.coefficientBound := by
      rw [Int.abs_eq_natAbs] at hc
      exact_mod_cast hc
    rw [hv, abs_div, ← Int.cast_abs, Int.abs_eq_natAbs, Int.cast_natCast,
      abs_of_pos (by positivity)] at habs
    rw [Scaled.toRat_ofUnits_decimal fits hk hnat habs.symm]

/-- Minus the tenth power of one half, whose tenth and last place is a five. -/
theorem fixed_to_nine_of_ten_places :
    let x := Binary64.ofBits 0xbf50000000000000
    x.isFinite = true ∧ x.toRat = (-9765625 : ℤ) / 10 ^ 10 ∧
    x.fixed 9 = decimalForm x.toRat 9 ∧
    x.fixed 9 = ['-', '0', '.', '0', '0', '0', '9', '7', '6', '5', '6', '3'] := by
  intro x
  have hx : x.toRat = (-9765625 : ℤ) / 10 ^ 10 := by decide +kernel
  have hfinite : x.isFinite = true := by decide +kernel
  refine ⟨hfinite, hx, fixed_is_exact_value_rounded 9 hfinite (.inr (.inr ⟨_, 10, ?_, ?_, hx⟩)), ?_⟩
  · decide
  · decide
  · decide +kernel

/-- The number 2^96 is out of bounds, though a division by five would take it back into them. -/
example : Scaled.ofUnits? (2 ^ 96 * unitsPerOne) = none ∧
    Binary64.fixed 6 (.ofBits 0x45f0000000000000) = "79228162514264337593543950336".toList := by
  decide +kernel

end Calculator
