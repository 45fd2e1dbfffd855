import Mathlib.Data.Int.ModEq
import Mathlib.Data.Rat.Cast.Order
import Mathlib.Tactic.FieldSimp
import Mathlib.Tactic.Linarith
import Mathlib.Tactic.Positivity
import Mathlib.Tactic.Ring

namespace Calculator

/-- How far `m / 2 ^ (d + i + 1)` is from the middle below the `j`-th number of `d` places, in parts
of `10 ^ d * 2 ^ (i + 1)`. -/
def midpointOffset (m d i : ℕ) (j : ℤ) : ℤ := m * 5 ^ d - (2 * j - 1) * 2 ^ i

/-- An error that conversion to decimals keeps below, in the same parts. -/
def allowance (d i : ℕ) : ℚ := 1 / 2 ^ 6 + 4 * 10 ^ d * 2 ^ i / 10 ^ 28

variable {m d i : ℕ} {r s : ℤ}

theorem midpointOffset_ne_zero (h : ¬ 2 ^ i ∣ m) (j : ℤ) : midpointOffset m d i j ≠ 0 := by
  intro hz
  unfold midpointOffset at hz
  refine h (Nat.Coprime.dvd_of_dvd_mul_right (k := 2 ^ i) (n := 5 ^ d) ?_ ?_)
  · exact Nat.Coprime.pow _ _ (by decide)
  · have hd : ((2 ^ i : ℕ) : ℤ) ∣ ((m * 5 ^ d : ℕ) : ℤ) := by
      push_cast
      exact ⟨2 * j - 1, by linarith⟩
    exact_mod_cast hd

/-- A multiplier that takes `5 ^ d` to a remainder so small that the offset of a midpoint cannot be
small as well. -/
def Clears (d i : ℕ) (r s : ℤ) : Prop :=
  r % 2 = 1 ∧ 2 ^ (i + 1) ∣ r * 5 ^ d - s ∧
    2 ^ 6 * 10 ^ 28 * 2 ^ 53 * |s| + |r| * (10 ^ 28 + 2 ^ 8 * 10 ^ d * 2 ^ i) <
      2 ^ 6 * 10 ^ 28 * 2 ^ i

instance (d i : ℕ) (r s : ℤ) : Decidable (Clears d i r s) :=
  inferInstanceAs (Decidable (_ ∧ _ ∧ _))

/-- An odd multiplier leaves an odd multiple of `2 ^ i`, which is not zero. -/
theorem two_pow_le_multiplied (hr : r % 2 = 1) (hs : 2 ^ (i + 1) ∣ r * 5 ^ d - s) (j : ℤ) :
    2 ^ i ≤ |s| * m + |r| * |midpointOffset m d i j| := by
  obtain ⟨q, hq⟩ := hs
  have hodd : r * (2 * j - 1) - 2 * q * m ≠ 0 := by
    have hmod : (r * (2 * j - 1) - 2 * q * m) % 2 = 1 := by
      have hsplit : r * (2 * j - 1) - 2 * q * m = 2 * (r * (j - 1) - q * m) + r := by ring
      rw [hsplit]
      omega
    intro hz
    rw [hz] at hmod
    cases hmod
  have hval : s * m - r * midpointOffset m d i j = 2 ^ i * (r * (2 * j - 1) - 2 * q * m) := by
    have hs : s = r * 5 ^ d - 2 ^ (i + 1) * q := by linarith
    rw [hs, midpointOffset, pow_succ]
    ring
  have hpow : (0 : ℤ) < 2 ^ i := by positivity
  calc (2 : ℤ) ^ i = 2 ^ i * 1 := (mul_one _).symm
    _ ≤ 2 ^ i * |r * (2 * j - 1) - 2 * q * m| :=
      mul_le_mul_of_nonneg_left (Int.one_le_abs hodd) hpow.le
    _ = |s * m - r * midpointOffset m d i j| := by rw [hval, abs_mul, abs_of_pos hpow]
    _ ≤ |s * m| + |r * midpointOffset m d i j| := abs_sub _ _
    _ = |s| * m + |r| * |midpointOffset m d i j| := by rw [abs_mul, abs_mul, Nat.abs_cast]

theorem Clears.allowance_lt (h : Clears d i r s) (hm : m < 2 ^ 53) (j : ℤ) :
    allowance d i < |(midpointOffset m d i j : ℚ)| := by
  obtain ⟨hr, hs, hlt⟩ := h
  have hle := two_pow_le_multiplied (m := m) hr hs j
  have hr0 : 0 < |r| := abs_pos.mpr (by omega)
  have hsm : |s| * m ≤ |s| * 2 ^ 53 := by
    have hmz : (m : ℤ) ≤ 2 ^ 53 := by exact_mod_cast hm.le
    exact mul_le_mul_of_nonneg_left hmz (abs_nonneg s)
  have hscaled : |r| * (10 ^ 28 + 2 ^ 8 * 10 ^ d * 2 ^ i) <
      |r| * (2 ^ 6 * 10 ^ 28 * |midpointOffset m d i j|) := by
    linarith
  have hoffset : ((10 ^ 28 + 2 ^ 8 * 10 ^ d * 2 ^ i : ℤ) : ℚ) <
      ((2 ^ 6 * 10 ^ 28 * |midpointOffset m d i j| : ℤ) : ℚ) := by
    exact_mod_cast lt_of_mul_lt_mul_left hscaled hr0.le
  push_cast at hoffset
  rw [allowance]
  linarith

/-- The multipliers for seven to ten places. The first one is for numbers below half of a place. -/
def multipliers : List ℤ :=
  [1, 7888240972985455365, 3106939356409596979, 1491209998494645087, 851083777008698939,
    6503820208951183, 37788376595922901, 56396389485022451, 11726580450261903,
    150873942287905721, 139268254419605281]

theorem exists_multiplier_of_lt : ∀ d < 11, ∀ i < 77, 63 * 10 ^ 28 ≤ 2 ^ 8 * 10 ^ d * 2 ^ i →
    ∃ r ∈ multipliers, Clears d i r ((r * 5 ^ d).bmod (2 ^ (i + 1))) := by
  decide +kernel

/-- Up to ten places there is a multiplier wherever one is needed. -/
theorem exists_multiplier (hd : d ≤ 10) (h : 1 ≤ allowance d i) : ∃ r s, Clears d i r s := by
  rcases Nat.lt_or_ge i 77 with hi | hi
  · have hneed : (63 * 10 ^ 28 : ℚ) ≤ 2 ^ 8 * 10 ^ d * 2 ^ i := by
      rw [allowance] at h
      linarith
    obtain ⟨r, _, hr⟩ := exists_multiplier_of_lt d (by omega) i hi (by exact_mod_cast hneed)
    exact ⟨r, _, hr⟩
  · -- not even the first midpoint is in reach of 53 bits
    refine ⟨1, 5 ^ d, by decide, by simp, ?_⟩
    have hfive : (5 : ℤ) ^ d ≤ 5 ^ 10 := pow_le_pow_right₀ (by decide) hd
    have hten : (10 : ℤ) ^ d ≤ 10 ^ 10 := pow_le_pow_right₀ (by decide) hd
    have htwo : (2 : ℤ) ^ 77 ≤ 2 ^ i := pow_le_pow_right₀ (by decide) hi
    have hprod : (10 : ℤ) ^ d * 2 ^ i ≤ 10 ^ 10 * 2 ^ i :=
      mul_le_mul_of_nonneg_right hten (by positivity)
    rw [abs_of_pos (by positivity), abs_one]
    linarith

/-- Up to ten places, a number that the powers of two do not make a midpoint is not near one. -/
theorem allowance_lt_midpointOffset (hd : d ≤ 10) (hm : m < 2 ^ 53) (h : ¬ 2 ^ i ∣ m) (j : ℤ) :
    allowance d i < |(midpointOffset m d i j : ℚ)| := by
  rcases lt_or_ge (allowance d i) 1 with hone | hone
  · refine hone.trans_le ?_
    exact_mod_cast Int.one_le_abs (midpointOffset_ne_zero h j)
  · obtain ⟨r, s, hr⟩ := exists_multiplier hd hone
    exact hr.allowance_lt hm j

end Calculator
