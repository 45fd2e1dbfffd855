import Calculator.Proofs.Midpoints
import Calculator.Proofs.OutOfBounds

namespace Calculator

/-- A significand that is a multiple of enough powers of two is halved without loss, if what the
other halvings multiply by is not too much. -/
theorem Scaled.convert_exact {i j c : ℕ} (hc : 5 ^ j * c < coefficientBound) (hj : j ≤ 28) :
    ((halveTimes (i + j) ⟨2 ^ i * c, 0⟩).cap).toRat = ((2 ^ i * c : ℕ) : ℚ) / 2 ^ (i + j) := by
  have hp := places_halveTimes_le j ⟨c, 0⟩
  simp only [Nat.zero_add] at hp
  rw [halveTimes_add, halveTimes_two_pow, cap_of_places_le (by omega),
    halveTimes_exact hc, toRat, pow_add]
  push_cast
  field_simp

theorem Scaled.five_pow_mul_lt {j c : ℕ} (hc : c < 2 ^ 53) (hj : j ≤ 18) :
    5 ^ j * c < coefficientBound := by
  calc 5 ^ j * c ≤ 5 ^ 18 * c := Nat.mul_le_mul_right c (Nat.pow_le_pow_right (by norm_num) hj)
    _ < 5 ^ 18 * 2 ^ 53 := Nat.mul_lt_mul_of_pos_left hc (by norm_num)
    _ ≤ coefficientBound := by norm_num [coefficientBound]

/-- Conversion loses less than one part in 2^83 and two units of the place 28. -/
theorem Scaled.convert_error {k : ℕ} (hk : k ≤ 1074) (m : ℕ) :
    |((halveTimes k ⟨m, 0⟩).cap).toRat - (m : ℚ) / 2 ^ k| ≤
      (m : ℚ) / 2 ^ k / 2 ^ 83 + 2 / 10 ^ 28 := by
  have hm : (⟨m, 0⟩ : Scaled).toRat = m := by simp [toRat]
  have hl := halveTimes_loss hk ⟨m, 0⟩
  have hu := (halveTimes_bounds k ⟨m, 0⟩).2
  have hc := abs_le.mp (halveTimes k ⟨m, 0⟩).cap_error
  rw [hm] at hl hu
  rw [abs_le]
  constructor
  · linarith
  · have h0 : (0 : ℚ) ≤ (m : ℚ) / 2 ^ k / 2 ^ 83 := by positivity
    linarith

/-- A number is rounded alike with everything that is nearer to it than any half is. -/
theorem roundHalfUp_stable {x y e : ℚ} (hx : 0 ≤ x) (hy : 0 ≤ y) (h : |y - x| ≤ e)
    (hgap : ∀ j : ℤ, e < |x - (j - 1 / 2)|) : roundHalfUp y = roundHalfUp x := by
  obtain ⟨hl, hu⟩ := (roundHalfUp_eq_iff hx _).mp rfl
  obtain ⟨hyl, hyu⟩ := abs_le.mp h
  have hbelow := hgap (roundHalfUp x : ℤ)
  have habove := hgap ((roundHalfUp x : ℤ) + 1)
  push_cast at hbelow habove
  rw [abs_of_nonneg (by linarith)] at hbelow
  rw [abs_of_neg (by linarith)] at habove
  rw [roundHalfUp_eq_iff hy]
  exact ⟨by linarith, by linarith⟩

theorem ten_pow_eq (d : ℕ) : (10 : ℚ) ^ d = 2 ^ d * 5 ^ d := by
  rw [← mul_pow]
  norm_num

/-- The distance of a halved significand from a half of its last place. -/
theorem half_distance (m d i : ℕ) (j : ℤ) :
    |(m : ℚ) / 2 ^ (d + (i + 1)) * 10 ^ d - (j - 1 / 2)| =
      |(midpointOffset m d i j : ℚ)| / 2 ^ (i + 1) := by
  have hp : (0 : ℚ) < 2 ^ (i + 1) := by positivity
  have hval : (m : ℚ) / 2 ^ (d + (i + 1)) * 10 ^ d - (j - 1 / 2) =
      (midpointOffset m d i j : ℚ) / 2 ^ (i + 1) := by
    rw [ten_pow_eq, midpointOffset, pow_add, pow_succ]
    push_cast
    field_simp
  rw [hval, abs_div, abs_of_pos hp]

/-- Up to ten places, the error of the conversion is within what midpoints allow. -/
theorem convert_error_le_allowance {m d : ℕ} (i : ℕ) (hm : m < 2 ^ 53) (hd : d ≤ 10) :
    ((m : ℚ) / 2 ^ (d + (i + 1)) / 2 ^ 83 + 2 / 10 ^ 28) * 10 ^ d ≤
      allowance d i / 2 ^ (i + 1) := by
  have hmq : (m : ℚ) ≤ 2 ^ 53 := by exact_mod_cast hm.le
  have hfive : (5 : ℚ) ^ d ≤ 5 ^ 10 := pow_le_pow_right₀ (by norm_num) hd
  rw [le_div_iff₀ (by positivity)]
  calc ((m : ℚ) / 2 ^ (d + (i + 1)) / 2 ^ 83 + 2 / 10 ^ 28) * 10 ^ d * 2 ^ (i + 1)
      = m * 5 ^ d / 2 ^ 83 + 4 * 10 ^ d * 2 ^ i / 10 ^ 28 := by
        rw [add_mul, add_mul, pow_add, pow_succ (2 : ℚ) i]
        congr 1
        · rw [ten_pow_eq]
          field_simp
        · ring
    _ ≤ 2 ^ 53 * 5 ^ 10 / 2 ^ 83 + 4 * 10 ^ d * 2 ^ i / 10 ^ 28 := by gcongr
    _ ≤ allowance d i := by
      have hsmall : (2 : ℚ) ^ 53 * 5 ^ 10 / 2 ^ 83 ≤ 1 / 2 ^ 6 := by norm_num
      rw [allowance]
      linarith

/-- Up to ten places, the conversion to decimals is not seen in what is rounded. -/
theorem Scaled.round_convert {m k d : ℕ} (hm : m < 2 ^ 53) (hk : k ≤ 1074) (hd : d ≤ 10) :
    roundHalfUp (((halveTimes k ⟨m, 0⟩).cap).toRat * 10 ^ d) =
      roundHalfUp ((m : ℚ) / 2 ^ k * 10 ^ d) := by
  rcases Nat.lt_or_ge k 19 with hfew | hmany
  · have hx := convert_exact (i := 0) (j := k) (five_pow_mul_lt hm (by omega)) (by omega)
    simp only [pow_zero, one_mul, Nat.zero_add] at hx
    rw [hx]
  -- the exact value is a half only if enough halvings are exact, and then all of them are
  obtain ⟨i, rfl⟩ : ∃ i, k = d + (i + 1) := ⟨k - d - 1, by omega⟩
  by_cases hdvd : 2 ^ i ∣ m
  · obtain ⟨c, rfl⟩ := hdvd
    have hc : c < 2 ^ 53 := lt_of_le_of_lt (Nat.le_mul_of_pos_left c (Nat.two_pow_pos i)) hm
    have hx := convert_exact (i := i) (j := d + 1) (five_pow_mul_lt hc (by omega)) (by omega)
    have hik : i + (d + 1) = d + (i + 1) := by omega
    rw [hik] at hx
    rw [hx]
  · have hy0 := toRat_nonneg (halveTimes (d + (i + 1)) ⟨m, 0⟩).cap
    refine roundHalfUp_stable (e := allowance d i / 2 ^ (i + 1)) (by positivity) (by positivity)
      ?_ ?_
    · refine le_trans ?_ (convert_error_le_allowance i hm hd)
      rw [← sub_mul, abs_mul, abs_of_pos (by positivity : (0 : ℚ) < 10 ^ d)]
      exact mul_le_mul_of_nonneg_right (convert_error hk m) (by positivity)
    · intro j
      rw [half_distance]
      exact div_lt_div_of_pos_right (allowance_lt_midpointOffset hd hm hdvd j) (by positivity)

/-- With a smaller spacing, a number is its significand halved so many times. -/
theorem Representable.exact_eq {units : ℕ} (h : Representable units)
    (hs : Binary64.spacing units ≤ 1074) : (units : ℚ) / unitsPerOne =
      (Binary64.significand units : ℚ) / 2 ^ (1074 - Binary64.spacing units) := by
  have hpow : (2 : ℚ) ^ 1074 =
      2 ^ Binary64.spacing units * 2 ^ (1074 - Binary64.spacing units) := by
    rw [← pow_add, Nat.add_sub_cancel' hs]
  have hu : (units : ℚ) = Binary64.significand units * 2 ^ Binary64.spacing units := by
    exact_mod_cast h.significand_mul.symm
  rw [unitsPerOne_cast, hpow, hu]
  field_simp

/-- The number is known as soon as it is known for a whole one and for halved significands. -/
theorem Scaled.ofUnits_cases {units : ℕ} (h : Representable units) {P : ℚ → ℚ → Prop}
    (hwhole : ∀ x, P x x)
    (hhalved : ∀ m k, m < 2 ^ 53 → k ≤ 1074 → P (halveTimes k ⟨m, 0⟩).cap.toRat (m / 2 ^ k)) :
    P (ofUnits units).toRat (units / unitsPerOne) := by
  rcases Nat.lt_or_ge 1074 (Binary64.spacing units) with hs | hs
  · rw [toRat_ofUnits_of_lt_spacing h hs]
    exact hwhole _
  · rw [ofUnits_halved hs, h.exact_eq hs]
    exact hhalved _ _ (Binary64.significand_lt units) (Nat.sub_le _ _)

/-- Up to ten places, a number is rounded as its exact value is. -/
theorem Scaled.round_ofUnits_le_ten {units d : ℕ} (h : Representable units) (hd : d ≤ 10) :
    roundHalfUp ((ofUnits units).toRat * 10 ^ d) =
      roundHalfUp ((units : ℚ) / unitsPerOne * 10 ^ d) :=
  ofUnits_cases h (P := fun x y => roundHalfUp (x * 10 ^ d) = roundHalfUp (y * 10 ^ d))
    (fun _ => rfl) (fun _ _ hm hk => round_convert hm hk hd)

/-- The six places that are shown unless more are asked for are rounded so. -/
theorem Scaled.round_ofUnits {units d : ℕ} (h : Representable units) (hd : d ≤ 6) :
    roundHalfUp ((ofUnits units).toRat * 10 ^ d) =
      roundHalfUp ((units : ℚ) / unitsPerOne * 10 ^ d) :=
  round_ofUnits_le_ten h (hd.trans (by decide))

/-- Up to six places, a result shows the multiple of the last place nearest to its exact value. -/
theorem Binary64.fixed_eq (negative : Bool) {units d : ℕ} (h : Representable units)
    (hd : d ≤ 6) :
    Binary64.fixed d (.finite negative units h) =
      let s := (⟨nearestUp (units * 10 ^ d) unitsPerOne, d⟩ : Scaled).trim
      sign (negative && s.coefficient != 0) ++ s.text := by
  have hmin : min d 28 = d := Nat.min_eq_left (by omega)
  rw [fixed_finite, hmin, Scaled.trim_round, Scaled.round_ofUnits h hd,
    nearestUp_eq_roundHalfUp _ _ unitsPerOne_pos]
  push_cast
  rw [div_mul_eq_mul_div]

end Calculator
