import Calculator.Proofs.PointedNumeral
import Calculator.Proofs.Rereading
import Calculator.Proofs.Scanning

namespace Calculator

namespace Binary64

/-- The number that a finite value stands for. -/
def toRat : Binary64 → ℚ
  | .finite negative units _ => (signed negative units : ℚ) / unitsPerOne
  | _ => 0

theorem neg_ofDecimal (n places : ℕ) :
    -ofDecimal false n places = ofDecimal true n places := by
  simp only [ofDecimal, ofRatio]
  split
  · rfl
  · rfl

theorem ofDecimal_of_representable {negative : Bool} {n places : ℕ}
    (h : Representable (nearestUnits (n * unitsPerOne) (10 ^ places))) :
    ofDecimal negative n places = .finite negative _ h := by
  rw [ofDecimal, ofRatio, dif_pos h.1]

theorem nearestUnits_zero {d : ℕ} (hd : 0 < d) : nearestUnits 0 d = 0 := by
  have hg : 0 < d * 2 ^ spacing (0 / d) := Nat.mul_pos hd (Nat.two_pow_pos _)
  have he := nearestEven_mul_self 0 _ hg
  rw [Nat.zero_mul] at he
  rw [nearestUnits, he, Nat.zero_mul]

/-- Numbers of one sign are as far apart as their sizes, and so is a zero of any sign. -/
theorem toRat_distance {s t : Bool} {u w : ℕ} (hu : Representable u) (hw : Representable w)
    (h : s = t ∨ w = 0) : |(finite s w hw).toRat - (finite t u hu).toRat| =
      |(w : ℚ) / unitsPerOne - u / unitsPerOne| := by
  simp only [toRat]
  generalize (unitsPerOne : ℚ) = one
  rcases h with rfl | rfl
  · cases s with
    | false => simp [signed]
    | true =>
      simp only [signed, ↓reduceIte, Int.cast_neg, Int.cast_natCast, neg_div]
      rw [← neg_sub', abs_neg]
  · cases t with
    | false => simp [signed]
    | true => simp [signed, neg_div]

end Binary64

/-- A numeral with or without a minus is an expression, if it is not too long. -/
theorem Formula.value_sign_pointed (negative : Bool) {n places : ℕ}
    (hl : (Decimal.pointed n places).length < maxLength) :
    value (String.ofList (Binary64.sign negative ++ Decimal.pointed n places)) =
      .ok (.ofDecimal negative n places) := by
  have h := denotes_pointed n places
  cases negative with
  | false => exact value_number h hl.le
  | true =>
    rw [← Binary64.neg_ofDecimal]
    exact value_minus_number h hl

theorem nearestUp_le (n d : ℕ) : nearestUp n d ≤ n + 1 := by
  have hq := Nat.div_le_self n d
  rw [nearestUp]
  split
  · omega
  · omega

theorem rounded_lt {units d k : ℕ} (h : Representable units) (hk : 2098 + d < k) :
    nearestUp (units * 10 ^ d) unitsPerOne < 10 ^ k := by
  have hu : units + 1 ≤ 10 ^ 2098 := by
    have hlt := h.1
    unfold unitsBound at hlt
    generalize 2098 = bits at hlt ⊢
    exact Nat.le_trans hlt (Nat.pow_le_pow_left (by decide) bits)
  have hten : 1 ≤ 10 ^ d := Nat.one_le_pow _ _ (by decide)
  have hn := nearestUp_le (units * 10 ^ d) unitsPerOne
  generalize 2098 = bits at hu hk
  have hle : units * 10 ^ d + 1 ≤ 10 ^ (bits + d) := by
    rw [pow_add]
    calc units * 10 ^ d + 1 ≤ (units + 1) * 10 ^ d := by rw [Nat.succ_mul]; omega
      _ ≤ 10 ^ bits * 10 ^ d := Nat.mul_le_mul_right _ hu
  exact lt_of_le_of_lt (hn.trans hle) (Nat.pow_lt_pow_right (by decide) hk)

/-- The bound on the digits is crude, but far below the length that a text may have. -/
theorem length_rounded_lt {units d : ℕ} {s : Scaled} (h : Representable units) (hd : d ≤ 6)
    (hs : (⟨nearestUp (units * 10 ^ d) unitsPerOne, d⟩ : Scaled).trim = s) :
    s.text.length < Formula.maxLength := by
  have hp := Scaled.places_trim_le ⟨nearestUp (units * 10 ^ d) unitsPerOne, d⟩
  have hc := Scaled.coefficient_trim_le ⟨nearestUp (units * 10 ^ d) unitsPerOne, d⟩
  simp only [hs] at hp hc
  obtain ⟨k, hk⟩ : ∃ k, k = 2098 + d + 1 := ⟨_, rfl⟩
  have hlt : s.coefficient < 10 ^ k := Nat.lt_of_le_of_lt hc (rounded_lt h (by omega))
  have hdigits : (Nat.toDigits 10 s.coefficient).length ≤ k :=
    (Nat.length_toDigits_le_iff (by decide) (by omega)).mpr hlt
  have hl := length_pointed_le s.coefficient s.places
  rw [Scaled.text, Formula.maxLength]
  omega

/-- Within one place of a number that is in range, no number is out of range. -/
theorem lt_unitsBound_of_near {u w d : ℕ} (hu : Representable u)
    (h : |(w : ℚ) / unitsPerOne - u / unitsPerOne| < 1 / 10 ^ d) : w < unitsBound := by
  have hU : (0 : ℚ) < unitsPerOne := by exact_mod_cast unitsPerOne_pos
  have hplace : (1 : ℚ) / 10 ^ d ≤ 1 := by
    rw [div_le_one (by positivity)]
    exact one_le_pow₀ (by norm_num)
  have hlt : (w : ℚ) / unitsPerOne - u / unitsPerOne < 1 :=
    (le_abs_self _).trans_lt (h.trans_le hplace)
  rw [← sub_div, div_lt_one hU] at hlt
  have hw : w < u + unitsPerOne := by
    have hc : (w : ℚ) < u + unitsPerOne := by linarith
    exact_mod_cast hc
  exact hw.trans_le hu.add_one_le

/-- A result of up to six places is an expression that is near to the number and is shown alike. -/
theorem fixed_value_near_and_alike (x : Binary64) (d : ℕ) (hx : x.isFinite = true) (hd : d ≤ 6) :
    ∃ r, Formula.value (String.ofList (x.fixed d)) = .ok r ∧ r.isFinite = true ∧
      |r.toRat - x.toRat| < 1 / 10 ^ d ∧ r.fixed d = x.fixed d := by
  cases x with
  | nan => cases hx
  | infinite negative => cases hx
  | finite negative units h =>
    have hfix := Binary64.fixed_eq negative h hd
    have hs : (⟨nearestUp (units * 10 ^ d) unitsPerOne, d⟩ : Scaled).trim.toRat =
        (nearestUp (units * 10 ^ d) unitsPerOne : ℚ) / 10 ^ d := by
      rw [Scaled.toRat_trim, Scaled.toRat]
    simp only at hfix
    generalize htrim : (⟨nearestUp (units * 10 ^ d) unitsPerOne, d⟩ : Scaled).trim = s at hfix hs
    obtain ⟨hnear, halike⟩ := reread h hs
    have hvalue := Formula.value_sign_pointed (negative && s.coefficient != 0)
      (length_rounded_lt h hd htrim)
    have hw : Representable (Binary64.nearestUnits (s.coefficient * unitsPerOne) (10 ^ s.places)) :=
      ⟨lt_unitsBound_of_near h hnear, Binary64.nearestUnits_fits _ _⟩
    rw [Binary64.ofDecimal_of_representable hw] at hvalue
    refine ⟨_, hfix ▸ hvalue, rfl, ?_, ?_⟩
    · rw [Binary64.toRat_distance]
      · exact hnear
      · -- only a number that is shown as zero may lose its sign
        by_cases hc : s.coefficient = 0
        · right
          rw [hc, Nat.zero_mul, Binary64.nearestUnits_zero (Nat.pow_pos (by decide))]
        · left
          simp [hc]
    · rw [hfix, Binary64.fixed_eq _ _ hd, halike]
      simp only [htrim, Bool.and_assoc, Bool.and_self]

/-- The sum of a tenth and two tenths. -/
theorem fixed_value_of_three_tenths :
    let x := Binary64.ofBits 0x3fd3333333333334
    x.isFinite = true ∧ x.fixed 6 = ['0', '.', '3'] ∧
    ∃ r, Formula.value (String.ofList (x.fixed 6)) = .ok r ∧ r.isFinite = true ∧
      |r.toRat - x.toRat| < 1 / 10 ^ 6 ∧ r.fixed 6 = x.fixed 6 :=
  ⟨by decide +kernel, by decide +kernel,
    fixed_value_near_and_alike _ _ (by decide +kernel) (by decide)⟩

end Calculator
