import Calculator.Proofs.ShownOrder

namespace Calculator

/-- A middle between two whole numbers lies between the two values. Values that reach it are rounded
up. -/
def CrossesMiddle (before after : ℚ) : Prop :=
  ∃ n : ℕ, before < n + 1 / 2 ∧ (n : ℚ) + 1 / 2 ≤ after ∨
    after < n + 1 / 2 ∧ (n : ℚ) + 1 / 2 < before

/-- A value is rounded to a nearest whole number of another one unless a middle is between them. -/
theorem abs_roundHalfUp_sub_le_iff {before after : ℚ} (hb : 0 ≤ before) (ha : 0 ≤ after) :
    |roundHalfUp after - before| ≤ 1 / 2 ↔ ¬ CrossesMiddle before after := by
  obtain ⟨hl, hu⟩ := (roundHalfUp_eq_iff ha _).mp rfl
  generalize roundHalfUp after = r at hl hu
  rw [abs_le]
  constructor
  · rintro ⟨hlow, hhigh⟩ ⟨n, ⟨hbefore, hafter⟩ | ⟨hafter, hbefore⟩⟩
    · have hn : n < r := by
        have hq : (n : ℚ) < r := by linarith
        exact_mod_cast hq
      have hq : (n : ℚ) + 1 ≤ r := by exact_mod_cast hn
      linarith
    · have hn : r < n + 1 := by
        have hq : (r : ℚ) < n + 1 := by linarith
        exact_mod_cast hq
      have hq : (r : ℚ) ≤ n := by exact_mod_cast Nat.le_of_lt_succ hn
      linarith
  · intro h
    constructor
    · by_contra hlow
      exact h ⟨r, .inr ⟨hu, by linarith⟩⟩
    · by_contra hhigh
      cases r with
      | zero =>
        push_cast at hhigh
        linarith
      | succ r =>
        push_cast at hhigh hl
        exact h ⟨r, .inl ⟨by linarith, by linarith⟩⟩

/-- Rounding is off by at most half of a unit. -/
theorem abs_roundHalfUp_sub_le {x : ℚ} (hx : 0 ≤ x) : |roundHalfUp x - x| ≤ 1 / 2 := by
  obtain ⟨hl, hu⟩ := (roundHalfUp_eq_iff hx _).mp rfl
  rw [abs_le]
  exact ⟨by linarith, by linarith⟩

/-- Conversion loses no more than one part in 2^83 and two units of the place 28. -/
theorem Scaled.ofUnits_error {units : ℕ} (h : Representable units) :
    |(ofUnits units).toRat - (units : ℚ) / unitsPerOne| ≤
      (units : ℚ) / unitsPerOne / 2 ^ 83 + 2 / 10 ^ 28 := by
  refine ofUnits_cases h (P := fun x y => 0 ≤ y → |x - y| ≤ y / 2 ^ 83 + 2 / 10 ^ 28) ?_ ?_
    (Binary64.exact_nonneg units)
  · intro x hx
    rw [sub_self, abs_zero]
    positivity
  · intro m k _ hk _
    exact convert_error hk m

namespace Binary64

variable {x : Binary64}

/-- The size of a number after its conversion to decimals. -/
def converted : Binary64 → ℚ
  | .finite _ units _ => (Scaled.ofUnits units).toRat
  | _ => 0

theorem converted_nonneg (x : Binary64) : 0 ≤ x.converted := by
  cases x with
  | finite negative units fits => exact Scaled.toRat_nonneg _
  | infinite negative => exact le_refl _
  | nan => exact le_refl _

theorem converted_error (hx : x.isFinite = true) :
    |(x.converted - |x.toRat|)| ≤ |x.toRat| / 2 ^ 83 + 2 / 10 ^ 28 := by
  obtain ⟨negative, units, fits, rfl⟩ := exists_of_isFinite hx
  rw [abs_toRat_finite]
  exact Scaled.ofUnits_error fits

/-- How far a result is from the number does not depend on the sign. -/
theorem abs_denoted_fixed_sub (hx : x.isFinite = true) (d : ℕ) :
    |denoted (x.fixed d) - x.toRat| =
      |roundHalfUp (x.converted * 10 ^ min d 28) - |x.toRat| * 10 ^ min d 28| /
        10 ^ min d 28 := by
  obtain ⟨negative, units, fits, rfl⟩ := exists_of_isFinite hx
  have hp : (0 : ℚ) < 10 ^ min d 28 := by positivity
  have hscaled : shown d units - (units : ℚ) / unitsPerOne =
      (roundHalfUp ((Scaled.ofUnits units).toRat * 10 ^ min d 28) -
        (units : ℚ) / unitsPerOne * 10 ^ min d 28) / 10 ^ min d 28 := by
    rw [shown, sub_div, mul_div_cancel_right₀ _ hp.ne']
  rw [abs_toRat_finite, converted, denoted_fixed, toRat_finite, ← abs_of_pos hp, ← abs_div,
    abs_of_pos hp, ← hscaled]
  cases negative with
  | false => rfl
  | true => rw [if_pos rfl, if_pos rfl, ← neg_sub', abs_neg]

theorem fixed_min (d : ℕ) (x : Binary64) : x.fixed (min d 28) = x.fixed d := by
  cases x with
  | finite negative units fits => rw [fixed_finite, fixed_finite, min_assoc, min_self]
  | infinite negative => rfl
  | nan => rfl

/-- A result is within half of its last place unless conversion crosses a middle. -/
theorem error_le_half_iff (hx : x.isFinite = true) (d : ℕ) :
    |denoted (x.fixed d) - x.toRat| ≤ 1 / 2 / 10 ^ min d 28 ↔
      ¬ CrossesMiddle (|x.toRat| * 10 ^ min d 28) (x.converted * 10 ^ min d 28) := by
  have hp : (0 : ℚ) < 10 ^ min d 28 := by positivity
  have hconverted := mul_nonneg x.converted_nonneg hp.le
  rw [abs_denoted_fixed_sub hx, div_le_div_iff_of_pos_right hp]
  exact abs_roundHalfUp_sub_le_iff (by positivity) hconverted

/-- The errors of both roundings add up to no more than this. -/
theorem error_le (hx : x.isFinite = true) (d : ℕ) : |denoted (x.fixed d) - x.toRat| ≤
    1 / 2 / 10 ^ min d 28 + (|x.toRat| / 2 ^ 83 + 2 / 10 ^ 28) := by
  have hp : (0 : ℚ) < 10 ^ min d 28 := by positivity
  have hround := abs_roundHalfUp_sub_le (mul_nonneg x.converted_nonneg hp.le)
  have hconvert : |x.converted * 10 ^ min d 28 - |x.toRat| * 10 ^ min d 28| ≤
      (|x.toRat| / 2 ^ 83 + 2 / 10 ^ 28) * 10 ^ min d 28 := by
    rw [← sub_mul, abs_mul, abs_of_pos hp]
    exact mul_le_mul_of_nonneg_right (converted_error hx) hp.le
  rw [abs_denoted_fixed_sub hx, div_le_iff₀ hp, add_mul, div_mul_cancel₀ _ hp.ne']
  exact (abs_sub_le _ _ _).trans (add_le_add hround hconvert)

/-- Up to ten places, conversion is not seen in what is shown. -/
theorem error_le_half (hx : x.isFinite = true) {d : ℕ} (hd : d ≤ 10) :
    |denoted (x.fixed d) - x.toRat| ≤ 1 / 2 / 10 ^ min d 28 := by
  have hmin : min d 28 = d := Nat.min_eq_left (by omega)
  have hround : roundHalfUp (x.converted * 10 ^ d) = roundHalfUp (|x.toRat| * 10 ^ d) := by
    obtain ⟨negative, units, fits, rfl⟩ := exists_of_isFinite hx
    rw [abs_toRat_finite]
    exact Scaled.round_ofUnits_le_ten fits hd
  rw [abs_denoted_fixed_sub hx, hmin, hround, div_le_div_iff_of_pos_right (by positivity)]
  exact abs_roundHalfUp_sub_le (by positivity)

/-- For each number of places from eleven to 28, a number below a middle that conversion takes it
to, or over. -/
def belowMiddle : List UInt64 :=
  [0x3eb19b96f36ec68b, 0x3efd1f1e30afc14f, 0x3efd30609bcc0430, 0x3ed09acebf59a700,
    0x3ec09acebf59a700, 0x3eebe83265fbf000, 0x3ea868eb7fcc0000, 0x3e5125c699080000,
    0x3eb6a98c7ac00000, 0x3ea4427a5e000000, 0x3e7a6e5460000000, 0x3e3610e000000000,
    0x3e7780d800000000, 0x3e333e0000000000, 0x3e514c0000000000, 0x3e4ee00000000000,
    0x3e3b000000000000, 0x3c52000000000000]

theorem belowMiddle_is_off : ∀ d < 29, 10 < d →
    let x := ofBits (belowMiddle.getD (d - 11) 0)
    x.isFinite = true ∧ |x.toRat| * 10 ^ d < 2 ^ 96 ∧
    ¬ |denoted (x.fixed d) - x.toRat| ≤ 1 / 2 / 10 ^ d := by
  decide +kernel

end Binary64

/-- A result is a nearest one of its places unless the conversion to decimals crosses the middle
between two of them, and it is always as near but for what that conversion loses. All numbers whose
digits fit into 96 bits are shown as a nearest result if no more than ten places are asked for, and
only then. -/
theorem fixed_is_nearest_to_ten_places (d : ℕ) :
    let places := min d 28
    let half : ℚ := 1 / 2 / 10 ^ places
    (∀ x : Binary64, x.isFinite = true →
      (|denoted (x.fixed d) - x.toRat| ≤ half ↔
        ¬ CrossesMiddle (|x.toRat| * 10 ^ places) (x.converted * 10 ^ places)) ∧
      |denoted (x.fixed d) - x.toRat| ≤ half + (|x.toRat| / 2 ^ 83 + 2 / 10 ^ 28)) ∧
    ((∀ x : Binary64, x.isFinite = true → |x.toRat| * 10 ^ places < 2 ^ 96 →
      |denoted (x.fixed d) - x.toRat| ≤ half) ↔ d ≤ 10) := by
  intro places half
  refine ⟨fun x hx => ⟨Binary64.error_le_half_iff hx d, Binary64.error_le hx d⟩, ?_, ?_⟩
  · intro h
    by_contra hd
    obtain ⟨hx, hrange, hfar⟩ := Binary64.belowMiddle_is_off places (by omega) (by omega)
    rw [Binary64.fixed_min] at hfar
    exact hfar (h _ hx hrange)
  · intro hd x hx _
    exact Binary64.error_le_half hx hd

/-- A number just below the middle of its last two results is shown as the upper one. -/
theorem fixed_to_eleven_places_is_off :
    let x := Binary64.ofBits 0x3eb19b96f36ec68b
    x.isFinite = true ∧ |x.toRat| * 10 ^ 11 < 2 ^ 96 ∧
    x.fixed 11 = "0.00000104951".toList ∧ x.toRat < 1049505 / 10 ^ 12 ∧
    ¬ |denoted (x.fixed 11) - x.toRat| ≤ 1 / 2 / 10 ^ 11 := by
  decide +kernel

end Calculator
