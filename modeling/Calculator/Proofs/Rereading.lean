import Calculator.Proofs.DecimalRounding
import Mathlib.Data.Nat.Prime.Basic

namespace Calculator

theorem ten_pow_dvd_two_pow {d k : ℕ} (h : 10 ^ d ∣ 2 ^ k) : d = 0 := by
  by_contra hd
  have h5 : 5 ∣ 2 ^ k := Dvd.dvd.trans (Dvd.dvd.trans ⟨2, rfl⟩ (dvd_pow_self 10 hd)) h
  have h52 : 5 ∣ 2 := Nat.prime_five.dvd_of_dvd_pow h5
  omega

theorem exists_unitsPerOne_eq : ∃ k, unitsPerOne = 2 * 2 ^ k := by
  unfold unitsPerOne
  obtain ⟨k, hk⟩ : ∃ k, 1074 = k + 1 := ⟨1073, rfl⟩
  exact ⟨k, by rw [hk, Nat.pow_succ']⟩

/-- An odd multiple of a power of two that is representable has few bits. -/
theorem Representable.odd_lt {j k : ℕ} (h : Representable ((2 * j + 1) * 2 ^ k)) :
    2 * j + 1 < 2 ^ 53 := by
  obtain ⟨_, m, e, hm, he⟩ := h
  have hle : e ≤ k := by
    by_contra hlt
    obtain ⟨i, rfl⟩ : ∃ i, e = i + 1 + k := ⟨e - k - 1, by omega⟩
    rw [pow_add, ← mul_assoc] at he
    have hc := Nat.eq_of_mul_eq_mul_right (Nat.two_pow_pos k) he
    rw [pow_succ, ← mul_assoc] at hc
    omega
  have hk : 2 ^ k = 2 ^ (k - e) * 2 ^ e := by rw [← pow_add, Nat.sub_add_cancel hle]
  rw [hk, ← mul_assoc] at he
  have hc := Nat.eq_of_mul_eq_mul_right (Nat.two_pow_pos e) he
  calc 2 * j + 1 ≤ (2 * j + 1) * 2 ^ (k - e) := Nat.le_mul_of_pos_right _ (Nat.two_pow_pos _)
    _ = m := hc
    _ < 2 ^ 53 := hm

theorem add_two_pow_le {m e k n : ℕ} (hm : m < 2 ^ 53) (hlt : m * 2 ^ e < 2 ^ n)
    (hk : k + 54 ≤ n) : m * 2 ^ e + 2 ^ k ≤ 2 ^ n := by
  rcases Nat.lt_or_ge e k with he | he
  · calc m * 2 ^ e + 2 ^ k ≤ 2 ^ 53 * 2 ^ k + 2 ^ k := by
          have hp : 2 ^ e ≤ 2 ^ k := Nat.pow_le_pow_right two_pos he.le
          exact Nat.add_le_add_right (Nat.mul_le_mul hm.le hp) _
      _ ≤ 2 ^ 54 * 2 ^ k := by omega
      _ = 2 ^ (k + 54) := by rw [pow_add, mul_comm]
      _ ≤ 2 ^ n := Nat.pow_le_pow_right two_pos hk
  · have hme : m * 2 ^ e = m * 2 ^ (e - k) * 2 ^ k := by
      rw [mul_assoc, ← pow_add, Nat.sub_add_cancel he]
    have hn : 2 ^ n = 2 ^ (n - k) * 2 ^ k := by rw [← pow_add, Nat.sub_add_cancel (by omega)]
    rw [hme, hn] at hlt ⊢
    have hc := Nat.lt_of_mul_lt_mul_right hlt
    calc m * 2 ^ (e - k) * 2 ^ k + 2 ^ k = (m * 2 ^ (e - k) + 1) * 2 ^ k := by ring
      _ ≤ 2 ^ (n - k) * 2 ^ k := Nat.mul_le_mul_right _ hc

/-- A number that is one larger than a representable one is not beyond the range. -/
theorem Representable.add_one_le {units : ℕ} (h : Representable units) :
    units + unitsPerOne ≤ unitsBound := by
  obtain ⟨hlt, m, e, hm, rfl⟩ := h
  unfold unitsBound at hlt ⊢
  unfold unitsPerOne
  generalize hn : 2098 = n at hlt ⊢
  generalize hk : 1074 = k
  exact add_two_pow_le hm hlt (by omega)

variable {u w R d : ℕ}

/-- Two binary numbers are a decimal place apart only if it is the place of ones. -/
theorem eq_zero_of_one_place_apart (h : w * 10 ^ d = u * 10 ^ d + unitsPerOne) : d = 0 := by
  have hdvd : 10 ^ d ∣ unitsPerOne := by
    apply (Nat.dvd_add_right (Nat.dvd_mul_left (10 ^ d) u)).mp
    rw [← h]
    exact Nat.dvd_mul_left (10 ^ d) w
  unfold unitsPerOne at hdvd
  generalize 1074 = k at hdvd
  exact ten_pow_dvd_two_pow hdvd

/-- The whole numbers that a representable number can be half of one below. -/
theorem Representable.lt_of_half_below (hu : Representable u)
    (h : 2 * u + unitsPerOne = 2 * R * unitsPerOne) : R < 2 ^ 53 := by
  obtain ⟨k, hk⟩ := exists_unitsPerOne_eq
  cases R with
  | zero => exact Nat.two_pow_pos 53
  | succ j =>
    have huj : u = (2 * j + 1) * 2 ^ k := by
      rw [hk] at h
      ring_nf at h ⊢
      omega
    rw [huj] at hu
    have hj := hu.odd_lt
    omega

/-- The original and what is read are not half a place below and above the rounded number. They
would be one place apart, so the place would be that of ones, and a whole number that small is read
as itself. -/
theorem not_half_below_and_above (hu : Representable u)
    (hw : ∀ v, HasSignificand v → |(w : ℚ) - R * unitsPerOne / 10 ^ d| ≤
      |(v : ℚ) - R * unitsPerOne / 10 ^ d|)
    (hbelow : 2 * u * 10 ^ d + unitsPerOne = 2 * R * unitsPerOne)
    (habove : 2 * w * 10 ^ d = 2 * R * unitsPerOne + unitsPerOne) : False := by
  have hpos := unitsPerOne_pos
  have hapart : w * 10 ^ d = u * 10 ^ d + unitsPerOne := by
    rw [mul_assoc] at hbelow habove
    omega
  have hd := eq_zero_of_one_place_apart hapart
  subst hd
  simp only [pow_zero, mul_one, div_one] at hbelow habove hw
  obtain ⟨k, hk⟩ := exists_unitsPerOne_eq
  have hself := hw _ ⟨R, k + 1, hu.lt_of_half_below hbelow, rfl⟩
  have hone : ((R * 2 ^ (k + 1) : ℕ) : ℚ) = R * unitsPerOne := by
    rw [pow_succ', ← hk]
    exact Nat.cast_mul R unitsPerOne
  rw [hone, sub_self, abs_zero] at hself
  have heq : w = R * unitsPerOne := by
    have hz := abs_nonpos_iff.mp hself
    have hq := sub_eq_zero.mp hz
    exact_mod_cast hq
  rw [heq, ← mul_assoc] at habove
  omega

/-- A number at least as near to a rounded number as the original is rounded alike, unless the two
are half a place away on either side. -/
theorem roundHalfUp_alike {a b : ℚ} (ha : 0 ≤ a) (hb : 0 ≤ b)
    (hnear : |b - roundHalfUp a| ≤ |a - roundHalfUp a|)
    (hne : ¬ (a = roundHalfUp a - 1 / 2 ∧ b = roundHalfUp a + 1 / 2)) :
    |b - a| < 1 ∧ roundHalfUp b = roundHalfUp a := by
  obtain ⟨hl, hu⟩ := (roundHalfUp_eq_iff ha _).mp rfl
  have hhalf : |a - roundHalfUp a| ≤ 1 / 2 := abs_le.mpr ⟨by linarith, by linarith⟩
  obtain ⟨hbl, hbu⟩ := abs_le.mp (hnear.trans hhalf)
  have hlt : b < roundHalfUp a + 1 / 2 := by
    by_contra hge
    have hb' : b = roundHalfUp a + 1 / 2 := by linarith
    have hfar : 1 / 2 ≤ |a - roundHalfUp a| := by
      refine le_trans ?_ hnear
      rw [hb', add_sub_cancel_left]
      exact le_abs_self _
    rcases le_abs.mp hfar with h | h
    · linarith
    · exact hne ⟨by linarith, hb'⟩
  rw [roundHalfUp_eq_iff hb, abs_lt]
  exact ⟨⟨by linarith, by linarith⟩, by linarith, hlt⟩

theorem distance_in_places (x R : ℚ) {U N : ℚ} (hU : 0 < U) (hN : 0 < N) :
    |x - R * U / N| = |x * N / U - R| * (U / N) := by
  have hp : 0 < U / N := div_pos hU hN
  have hx : x - R * U / N = (x * N / U - R) * (U / N) := by
    field_simp
  rw [hx, abs_mul, abs_of_pos hp]

theorem nearestUp_units (x d : ℕ) :
    nearestUp (x * 10 ^ d) unitsPerOne = roundHalfUp ((x : ℚ) * 10 ^ d / unitsPerOne) := by
  rw [nearestUp_eq_roundHalfUp _ _ unitsPerOne_pos, Nat.cast_mul, Nat.cast_pow, Nat.cast_ofNat]

/-- What a rounded number is read as is as near to it as a number can be. -/
theorem reread_nearest {s : Scaled} (hs : s.toRat = (R : ℚ) / 10 ^ d) {v : ℕ}
    (hv : HasSignificand v) :
    |(Binary64.nearestUnits (s.coefficient * unitsPerOne) (10 ^ s.places) : ℚ) -
      R * unitsPerOne / 10 ^ d| ≤ |(v : ℚ) - R * unitsPerOne / 10 ^ d| := by
  have htarget : ((s.coefficient * unitsPerOne : ℕ) : ℚ) / (10 ^ s.places : ℕ) =
      R * unitsPerOne / 10 ^ d := by
    rw [Scaled.toRat] at hs
    rw [Nat.cast_mul, Nat.cast_pow, Nat.cast_ofNat, mul_div_right_comm, hs, mul_div_right_comm]
  rw [← htarget]
  exact Binary64.nearestUnits_nearest _ (Nat.pow_pos (by norm_num)) hv

/-- What a rounded number is read as is less than one place away from the original, and is rounded
to the same number. -/
theorem reread {s : Scaled} (hu : Representable u)
    (hs : s.toRat = (nearestUp (u * 10 ^ d) unitsPerOne : ℚ) / 10 ^ d) :
    let w := Binary64.nearestUnits (s.coefficient * unitsPerOne) (10 ^ s.places)
    |(w : ℚ) / unitsPerOne - u / unitsPerOne| < 1 / 10 ^ d ∧
    nearestUp (w * 10 ^ d) unitsPerOne = nearestUp (u * 10 ^ d) unitsPerOne := by
  intro w
  have hU : (0 : ℚ) < unitsPerOne := by exact_mod_cast unitsPerOne_pos
  have hN : (0 : ℚ) < 10 ^ d := by positivity
  rw [nearestUp_units] at hs ⊢
  rw [nearestUp_units]
  -- from here on both numbers are measured in units of the last place
  obtain ⟨a, ha⟩ : ∃ a : ℚ, a = (u : ℚ) * 10 ^ d / unitsPerOne := ⟨_, rfl⟩
  rw [← ha] at hs ⊢
  have ha0 : 0 ≤ a := by
    rw [ha]
    exact div_nonneg (mul_nonneg (Nat.cast_nonneg u) hN.le) hU.le
  have hb0 : 0 ≤ (w : ℚ) * 10 ^ d / unitsPerOne :=
    div_nonneg (mul_nonneg (Nat.cast_nonneg w) hN.le) hU.le
  have hclose := reread_nearest hs hu.hasSignificand
  rw [distance_in_places _ _ hU hN, distance_in_places _ _ hU hN, ← ha] at hclose
  have hne : ¬ (a = roundHalfUp a - 1 / 2 ∧
      (w : ℚ) * 10 ^ d / unitsPerOne = roundHalfUp a + 1 / 2) := by
    intro h
    obtain ⟨hbelow, habove⟩ := h
    have hua : (u : ℚ) * 10 ^ d = a * unitsPerOne := by rw [ha, div_mul_cancel₀ _ hU.ne']
    rw [div_eq_iff hU.ne'] at habove
    rw [hbelow] at hua
    refine not_half_below_and_above hu (fun v hv => reread_nearest hs hv) ?_ ?_
    · have hq : 2 * (u : ℚ) * 10 ^ d + unitsPerOne = 2 * roundHalfUp a * unitsPerOne := by
        linarith
      exact_mod_cast hq
    · have hq : 2 * (w : ℚ) * 10 ^ d = 2 * roundHalfUp a * unitsPerOne + unitsPerOne := by
        linarith
      exact_mod_cast hq
  obtain ⟨hdiff, hsame⟩ :=
    roundHalfUp_alike ha0 hb0 (le_of_mul_le_mul_right hclose (div_pos hU hN)) hne
  refine ⟨?_, hsame⟩
  have hx : (w : ℚ) / unitsPerOne - u / unitsPerOne =
      ((w : ℚ) * 10 ^ d / unitsPerOne - a) / 10 ^ d := by
    rw [ha]
    field_simp
  rw [hx, abs_div, abs_of_pos hN]
  exact div_lt_div_of_pos_right hdiff hN

end Calculator
