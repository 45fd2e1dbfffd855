import Calculator.Decimal.Scaled
import Calculator.Proofs.NearestNumber
import Mathlib.Algebra.Order.Ring.Pow

namespace Calculator.Scaled

def toRat (s : Scaled) : ℚ := s.coefficient / 10 ^ s.places

/-- The largest part of a number that halving it once may lose. -/
def halvingLoss : ℚ := 5 / 2 ^ 96

theorem toRat_nonneg (s : Scaled) : 0 ≤ s.toRat := by
  rw [toRat]
  positivity

theorem halve_even {s : Scaled} (h : s.coefficient % 2 = 0) : s.halve.toRat = s.toRat / 2 := by
  obtain ⟨k, hk⟩ := Nat.dvd_of_mod_eq_zero h
  rw [halve, if_pos h, toRat, toRat, hk, Nat.mul_div_cancel_left k two_pos]
  push_cast
  ring

theorem halve_odd {s : Scaled} (ho : s.coefficient % 2 ≠ 0)
    (h : 5 * s.coefficient < coefficientBound) : s.halve.toRat = s.toRat / 2 := by
  rw [halve, if_neg ho, if_pos h, toRat, toRat, pow_succ]
  push_cast
  field_simp
  ring

/-- An odd coefficient that is too large for one more place loses half a unit of its last place. -/
theorem halve_large {s : Scaled} (ho : s.coefficient % 2 ≠ 0)
    (h : ¬ 5 * s.coefficient < coefficientBound) :
    s.halve.toRat = s.toRat / 2 - 1 / 2 / 10 ^ s.places := by
  have hc : (s.coefficient : ℚ) = 2 * (s.coefficient / 2 : ℕ) + 1 := by
    have hm : s.coefficient = 2 * (s.coefficient / 2) + 1 := by omega
    exact_mod_cast hm
  rw [halve, if_neg ho, if_neg h, toRat, toRat, hc]
  field_simp
  simp

/-- Half a unit of the last place is a small part of a large number. -/
theorem half_place_le {s : Scaled} (h : ¬ 5 * s.coefficient < coefficientBound) :
    1 / 2 / 10 ^ s.places ≤ s.toRat / 2 * halvingLoss := by
  have hp : (0 : ℚ) < 10 ^ s.places := by positivity
  have hb : (2 ^ 96 : ℚ) ≤ 5 * s.coefficient := by
    rw [coefficientBound] at h
    exact_mod_cast Nat.le_of_not_lt h
  rw [toRat, halvingLoss, div_le_iff₀ hp]
  field_simp
  linarith

theorem halve_bounds (s : Scaled) :
    s.toRat / 2 * (1 - halvingLoss) ≤ s.halve.toRat ∧ s.halve.toRat ≤ s.toRat / 2 := by
  have hs := s.toRat_nonneg
  have hl : 0 ≤ s.toRat / 2 * halvingLoss := by
    rw [halvingLoss]
    positivity
  by_cases he : s.coefficient % 2 = 0
  · rw [halve_even he]
    exact ⟨by linarith, le_refl _⟩
  · by_cases h : 5 * s.coefficient < coefficientBound
    · rw [halve_odd he h]
      exact ⟨by linarith, le_refl _⟩
    · have hu := half_place_le h
      have h0 : (0 : ℚ) ≤ 1 / 2 / 10 ^ s.places := by positivity
      rw [halve_large he h]
      exact ⟨by linarith, by linarith⟩

theorem halvingLoss_le_one : halvingLoss ≤ 1 := by
  norm_num [halvingLoss]

theorem halveTimes_bounds (k : ℕ) (s : Scaled) :
    s.toRat / 2 ^ k * (1 - halvingLoss) ^ k ≤ (halveTimes k s).toRat ∧
    (halveTimes k s).toRat ≤ s.toRat / 2 ^ k := by
  induction k generalizing s with
  | zero => simp [halveTimes]
  | succ k ih =>
    obtain ⟨hl, hu⟩ := s.halve_bounds
    obtain ⟨ihl, ihu⟩ := ih s.halve
    have hp : (0 : ℚ) < 2 ^ k := by positivity
    have hf : 0 ≤ (1 - halvingLoss) ^ k := pow_nonneg (by linarith [halvingLoss_le_one]) k
    constructor
    · refine le_trans ?_ ihl
      have hm := mul_le_mul_of_nonneg_right (div_le_div_of_nonneg_right hl hp.le) hf
      calc s.toRat / 2 ^ (k + 1) * (1 - halvingLoss) ^ (k + 1)
          = s.toRat / 2 * (1 - halvingLoss) / 2 ^ k * (1 - halvingLoss) ^ k := by
            rw [pow_succ, pow_succ]
            field_simp
        _ ≤ _ := hm
    · apply ihu.trans
      have hm := div_le_div_of_nonneg_right hu hp.le
      calc s.halve.toRat / 2 ^ k ≤ s.toRat / 2 / 2 ^ k := hm
        _ = s.toRat / 2 ^ (k + 1) := by
          rw [pow_succ]
          field_simp

/-- No more than 1074 halvings together lose less than one part in 2^83. -/
theorem halveTimes_loss {k : ℕ} (hk : k ≤ 1074) (s : Scaled) :
    s.toRat / 2 ^ k * (1 - 1 / 2 ^ 83) ≤ (halveTimes k s).toRat := by
  refine le_trans ?_ (halveTimes_bounds k s).1
  have hs := s.toRat_nonneg
  refine mul_le_mul_of_nonneg_left ?_ (by positivity)
  have hb := one_add_mul_le_pow (a := -halvingLoss) (by linarith [halvingLoss_le_one]) k
  have hkq : (k : ℚ) ≤ 1074 := by exact_mod_cast hk
  have hloss : (k : ℚ) * halvingLoss ≤ 1 / 2 ^ 83 := by
    calc (k : ℚ) * halvingLoss ≤ 1074 * halvingLoss :=
          mul_le_mul_of_nonneg_right hkq (by norm_num [halvingLoss])
      _ ≤ 1 / 2 ^ 83 := by norm_num [halvingLoss]
  rw [← sub_eq_add_neg] at hb
  linarith

theorem coefficient_halve_le (s : Scaled) : s.halve.coefficient ≤ 5 * s.coefficient := by
  rw [halve]
  split
  · simp only
    omega
  · split
    · exact le_refl _
    · simp only
      omega

theorem places_halve_le (s : Scaled) : s.halve.places ≤ s.places + 1 := by
  rw [halve]
  split
  · exact Nat.le_succ _
  · split
    · exact le_refl _
    · exact Nat.le_succ _

theorem places_halveTimes_le (k : ℕ) (s : Scaled) : (halveTimes k s).places ≤ s.places + k := by
  induction k generalizing s with
  | zero => exact le_refl _
  | succ k ih =>
    have h := ih s.halve
    have hp := s.places_halve_le
    rw [halveTimes]
    omega

/-- Halvings lose nothing while all of them could be multiplications by five. -/
theorem halveTimes_exact {k : ℕ} {s : Scaled} (h : 5 ^ k * s.coefficient < coefficientBound) :
    (halveTimes k s).toRat = s.toRat / 2 ^ k := by
  induction k generalizing s with
  | zero => simp [halveTimes]
  | succ k ih =>
    rw [pow_succ, mul_assoc] at h
    have hfive : 5 * s.coefficient < coefficientBound :=
      lt_of_le_of_lt (Nat.le_mul_of_pos_left _ (Nat.pow_pos (by norm_num))) h
    have hnext := ih (lt_of_le_of_lt (Nat.mul_le_mul_left _ s.coefficient_halve_le) h)
    have hhalf : s.halve.toRat = s.toRat / 2 := by
      by_cases he : s.coefficient % 2 = 0
      · exact halve_even he
      · exact halve_odd he hfive
    rw [halveTimes, hnext, hhalf, pow_succ]
    field_simp

theorem halveTimes_add (j k : ℕ) (s : Scaled) :
    halveTimes (j + k) s = halveTimes k (halveTimes j s) := by
  induction j generalizing s with
  | zero => rw [Nat.zero_add, halveTimes]
  | succ j ih => rw [Nat.add_right_comm, halveTimes, ih, halveTimes]

/-- Factors of two are divided out first. -/
theorem halveTimes_two_pow (j c places : ℕ) :
    halveTimes j ⟨2 ^ j * c, places⟩ = ⟨c, places⟩ := by
  induction j with
  | zero => rw [pow_zero, one_mul, halveTimes]
  | succ j ih =>
    have hc : 2 ^ (j + 1) * c = 2 ^ j * c * 2 := by ring
    rw [halveTimes, halve, if_pos (by simp only; omega), hc]
    simp only [Nat.mul_div_cancel _ two_pos]
    exact ih

/-- A place is dropped at the cost of less than one unit of the place before. -/
theorem dropPlace_error {s : Scaled} {p : ℕ} (hp : s.places = p + 1) :
    |s.dropPlace.toRat - s.toRat| ≤ 1 / 10 ^ p := by
  have hu : (0 : ℚ) < 10 ^ p := by positivity
  have hs : s.toRat = (s.coefficient : ℚ) / 10 / 10 ^ p := by
    rw [toRat, hp, pow_succ]
    field_simp
  by_cases hc : s.coefficient < 10
  · have hlt : (s.coefficient : ℚ) ≤ 10 := by exact_mod_cast hc.le
    have h0 := s.toRat_nonneg
    rw [dropPlace, if_pos hc, abs_sub_comm, abs_of_nonneg (by simp [toRat] at h0 ⊢; exact h0)]
    simp only [toRat, Nat.cast_zero, zero_div, sub_zero]
    rw [← toRat, hs]
    refine div_le_div_of_nonneg_right ?_ hu.le
    linarith
  · have hr := (roundHalfUp_eq_iff (x := (s.coefficient : ℚ) / (10 : ℕ)) (by positivity) _).mp
      (nearestUp_eq_roundHalfUp s.coefficient 10 (by norm_num)).symm
    push_cast at hr
    rw [dropPlace, if_neg hc, hs, toRat, hp, Nat.add_sub_cancel, ← sub_div, abs_div,
      abs_of_pos hu]
    refine div_le_div_of_nonneg_right ?_ hu.le
    rw [abs_le]
    exact ⟨by linarith, by linarith⟩

theorem dropTimes_nothing (k : ℕ) : dropTimes k ⟨0, 0⟩ = ⟨0, 0⟩ := by
  induction k with
  | zero => rfl
  | succ k ih => exact ih

theorem dropTimes_error {k p : ℕ} {s : Scaled} (hp : s.places = p + k) :
    |(dropTimes k s).toRat - s.toRat| ≤ 2 / 10 ^ p - 2 / 10 ^ (p + k) := by
  induction k generalizing s with
  | zero => simp [dropTimes]
  | succ k ih =>
    have hd := dropPlace_error (s := s) (p := p + k) hp
    have hu : (0 : ℚ) < 1 / 10 ^ (p + k) := by positivity
    have hpow : (2 : ℚ) / 10 ^ (p + (k + 1)) ≤ 1 / 10 ^ (p + k) := by
      rw [← add_assoc, pow_succ, div_mul_eq_div_div_swap]
      refine div_le_div_of_nonneg_right (by norm_num) (by positivity)
    have hle : (2 : ℚ) / 10 ^ (p + k) ≤ 2 / 10 ^ p :=
      div_le_div_of_nonneg_left (by norm_num) (by positivity)
        (pow_le_pow_right₀ (by norm_num) (Nat.le_add_right p k))
    have htwo : (2 : ℚ) / 10 ^ (p + k) = 2 * (1 / 10 ^ (p + k)) := by ring
    have hrest : |(dropTimes k s.dropPlace).toRat - s.dropPlace.toRat| ≤
        2 / 10 ^ p - 2 / 10 ^ (p + k) := by
      by_cases hc : s.coefficient < 10
      · rw [dropPlace, if_pos hc, dropTimes_nothing, sub_self, abs_zero]
        linarith
      · apply ih
        rw [dropPlace, if_neg hc, hp]
        simp
    have htri := abs_sub_le (dropTimes k s.dropPlace).toRat s.dropPlace.toRat s.toRat
    rw [dropTimes]
    linarith

/-- Keeping to 28 places costs less than two units of the last of them. -/
theorem cap_error (s : Scaled) : |s.cap.toRat - s.toRat| ≤ 2 / 10 ^ 28 := by
  rw [cap, maxPlaces]
  by_cases h : s.places ≤ 28
  · rw [Nat.sub_eq_zero_of_le h, dropTimes, sub_self, abs_zero]
    positivity
  · have hd := dropTimes_error (s := s) (p := 28) (k := s.places - 28) (by omega)
    have hu : (0 : ℚ) < 2 / 10 ^ (28 + (s.places - 28)) := by positivity
    linarith

theorem cap_of_places_le {s : Scaled} (h : s.places ≤ 28) : s.cap = s := by
  rw [cap, maxPlaces, Nat.sub_eq_zero_of_le h, dropTimes]

/-- Rounding gives the nearest multiple of the last place that is kept, whether places are dropped
or not. -/
theorem toRat_round (d : ℕ) (s : Scaled) :
    (s.round d).toRat = roundHalfUp (s.toRat * 10 ^ d) / 10 ^ d := by
  have hd : (0 : ℚ) < 10 ^ d := by positivity
  rw [round]
  split
  · rename_i h
    have hs : s.toRat * 10 ^ d = (s.coefficient : ℚ) / (10 ^ (s.places - d) : ℕ) := by
      have hp : (10 : ℚ) ^ s.places = 10 ^ (s.places - d) * 10 ^ d := by
        rw [← pow_add, Nat.sub_add_cancel h.le]
      rw [toRat, hp]
      push_cast
      field_simp
    rw [hs, ← nearestUp_eq_roundHalfUp _ _ (Nat.pow_pos (by norm_num)), toRat]
  · rename_i h
    have hs : s.toRat * 10 ^ d = ((s.coefficient * 10 ^ (d - s.places) : ℕ) : ℚ) := by
      have hp : (10 : ℚ) ^ d = 10 ^ (d - s.places) * 10 ^ s.places := by
        rw [← pow_add, Nat.sub_add_cancel (Nat.le_of_not_lt h)]
      rw [toRat, hp]
      push_cast
      field_simp
    have hr : roundHalfUp (s.toRat * 10 ^ d) = s.coefficient * 10 ^ (d - s.places) := by
      rw [roundHalfUp_eq_iff (by rw [hs]; positivity), hs]
      exact ⟨by linarith, by linarith⟩
    rw [hr, ← hs]
    field_simp

/-- No trailing zero follows the point. -/
def IsTrimmed (s : Scaled) : Prop := s.places = 0 ∨ s.coefficient % 10 ≠ 0

theorem trimFrom_spec (c places : ℕ) :
    (trimFrom c places).IsTrimmed ∧ (trimFrom c places).toRat = (⟨c, places⟩ : Scaled).toRat ∧
    (trimFrom c places).places ≤ places := by
  induction places generalizing c with
  | zero => exact ⟨.inl rfl, rfl, le_refl _⟩
  | succ places ih =>
    rw [trimFrom]
    split
    · rename_i h
      obtain ⟨ht, hv, hp⟩ := ih (c / 10)
      refine ⟨ht, ?_, Nat.le_succ_of_le hp⟩
      obtain ⟨k, rfl⟩ := Nat.dvd_of_mod_eq_zero h
      rw [hv, Nat.mul_div_cancel_left k (by norm_num), toRat, toRat, pow_succ]
      push_cast
      field_simp
    · rename_i h
      exact ⟨.inr h, rfl, le_refl _⟩

theorem toRat_trim (s : Scaled) : s.trim.toRat = s.toRat := (trimFrom_spec _ _).2.1

theorem places_trim_le (s : Scaled) : s.trim.places ≤ s.places := (trimFrom_spec _ _).2.2

theorem coefficient_trimFrom_le (c places : ℕ) : (trimFrom c places).coefficient ≤ c := by
  induction places generalizing c with
  | zero => exact le_refl _
  | succ places ih =>
    rw [trimFrom]
    split
    · exact (ih (c / 10)).trans (Nat.div_le_self c 10)
    · exact le_refl _

theorem coefficient_trim_le (s : Scaled) : s.trim.coefficient ≤ s.coefficient :=
  coefficient_trimFrom_le _ _

/-- A number is written in one way only without trailing zeros. -/
theorem IsTrimmed.unique {s t : Scaled} (hs : s.IsTrimmed) (ht : t.IsTrimmed)
    (h : s.toRat = t.toRat) : s = t := by
  wlog hle : s.places ≤ t.places generalizing s t
  · exact (this ht hs h.symm (Nat.le_of_not_le hle)).symm
  have hc : s.coefficient * 10 ^ (t.places - s.places) = t.coefficient := by
    have hpow : (10 : ℚ) ^ t.places = 10 ^ (t.places - s.places) * 10 ^ s.places := by
      rw [← pow_add, Nat.sub_add_cancel hle]
    rw [toRat, toRat, hpow] at h
    field_simp at h
    exact_mod_cast h
  have hp : t.places - s.places = 0 := by
    by_contra hne
    obtain ⟨k, hk⟩ := Nat.exists_eq_succ_of_ne_zero hne
    rcases ht with ht | ht
    · omega
    · rw [hk, pow_succ, ← mul_assoc] at hc
      omega
  obtain ⟨c, p⟩ := s
  obtain ⟨c', p'⟩ := t
  simp only at hp hc hle
  rw [hp, pow_zero, mul_one] at hc
  have hpp : p = p' := by omega
  rw [hc, hpp]

/-- Trimming depends on nothing but the exact value. -/
theorem trim_congr {s t : Scaled} (h : s.toRat = t.toRat) : s.trim = t.trim :=
  (trimFrom_spec _ _).1.unique (trimFrom_spec _ _).1
    (s.toRat_trim.trans (h.trans t.toRat_trim.symm))

theorem trim_round (d : ℕ) (s : Scaled) :
    (s.round d).trim = (⟨roundHalfUp (s.toRat * 10 ^ d), d⟩ : Scaled).trim :=
  trim_congr (s.toRat_round d)

theorem toRat_eq_zero_iff (s : Scaled) : s.toRat = 0 ↔ s.coefficient = 0 := by
  have hp : (10 : ℚ) ^ s.places ≠ 0 := by positivity
  rw [toRat, div_eq_zero_iff, or_iff_left hp, Nat.cast_eq_zero]

theorem coefficient_trim_eq_zero_iff (s : Scaled) :
    s.trim.coefficient = 0 ↔ s.coefficient = 0 := by
  rw [← toRat_eq_zero_iff, toRat_trim, toRat_eq_zero_iff]

end Calculator.Scaled
