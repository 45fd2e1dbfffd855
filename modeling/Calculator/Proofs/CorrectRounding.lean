import Calculator.Proofs.DecimalForm
import Calculator.Proofs.NumberRange
import Calculator.Proofs.SignBit

namespace Calculator

variable {n d k u v w : ℕ}

/-- Off the middle a whole number is nearer than one half. -/
theorem nearestEven_error_lt (hd : 0 < d) (h : 2 * (n % d) ≠ d) :
    |(nearestEven n d : ℚ) - (n : ℚ) / d| < 1 / 2 := by
  have hs := quotient_split n d hd
  obtain ⟨h0, hr⟩ := remainder_bounds n d hd
  have hc := remainder_compare n d hd
  rw [hs, abs_lt, nearestEven]
  rcases Nat.lt_or_gt_of_ne h with hlt | hgt
  · have hlow := hc.1.mp hlt
    rw [if_pos hlt]
    exact ⟨by linarith, by linarith⟩
  · have hhigh := hc.2.mp hgt
    rw [if_neg (not_lt_of_gt hgt), if_pos hgt]
    push_cast
    exact ⟨by linarith, by linarith⟩

/-- If another whole number is equally near, the rounded one is even. -/
theorem nearestEven_even (hd : 0 < d) (hne : k ≠ nearestEven n d)
    (h : |(nearestEven n d : ℚ) - (n : ℚ) / d| = |(k : ℚ) - (n : ℚ) / d|) :
    nearestEven n d % 2 = 0 := by
  have hmiddle : 2 * (n % d) = d := by
    by_contra hoff
    have hlt := nearestEven_error_lt hd hoff
    have hstep := one_le_distance hne
    have htri := abs_sub_le (k : ℚ) ((n : ℚ) / d) (nearestEven n d)
    rw [abs_sub_comm ((n : ℚ) / d)] at htri
    linarith
  rw [nearestEven, if_neg (by omega), if_neg (by omega)]
  omega

namespace Binary64

/-- The last bit of a count that is even in any way to write it with 53 bits. -/
theorem significand_even {m e : ℕ} (hm : m < 2 ^ 53) (h : m % 2 = 0) :
    significand (m * 2 ^ e) % 2 = 0 := by
  have hsig : HasSignificand (m * 2 ^ e) := ⟨m, e, hm, rfl⟩
  have hmul := hsig.significand_mul
  have hle : spacing (m * 2 ^ e) ≤ e := spacing_le hm
  generalize significand (m * 2 ^ e) = sig at hmul ⊢
  generalize spacing (m * 2 ^ e) = s at hmul hle
  obtain ⟨i, rfl⟩ := Nat.exists_eq_add_of_le hle
  rw [pow_add, mul_left_comm, mul_comm (2 ^ s)] at hmul
  rw [Nat.eq_of_mul_eq_mul_right (Nat.two_pow_pos s) hmul, Nat.mul_mod, h, Nat.zero_mul,
    Nat.zero_mod]

/-- A count that is as near as the rounded one is a multiple of the same spacing. -/
theorem exists_multiple_of_tie (hd : 0 < d) (hv : HasSignificand v)
    (h : |(nearestUnits n d : ℚ) - (n : ℚ) / d| = |(v : ℚ) - (n : ℚ) / d|) :
    ∃ k, v = k * 2 ^ spacing (n / d) := by
  rcases multiple_or_before n hd hv with hk | ⟨hbefore, hle⟩
  · exact hk
  · -- the count with which the spacing begins would be nearer if it were another one
    refine ⟨2 ^ 52, ?_⟩
    have hnear := nearestUnits_nearest n hd ⟨2 ^ 52, spacing (n / d), by decide, rfl⟩
    rw [h, abs_of_nonpos (sub_nonpos.mpr (hbefore.trans hle)),
      abs_of_nonpos (sub_nonpos.mpr hle)] at hnear
    have heq := le_antisymm hbefore (by linarith)
    exact_mod_cast heq

/-- If another count is equally near, the last bit of the rounded one is zero. -/
theorem significand_nearestUnits_even (hd : 0 < d) (hv : HasSignificand v)
    (hne : v ≠ nearestUnits n d)
    (h : |(nearestUnits n d : ℚ) - (n : ℚ) / d| = |(v : ℚ) - (n : ℚ) / d|) :
    significand (nearestUnits n d) % 2 = 0 := by
  obtain ⟨k, rfl⟩ := exists_multiple_of_tie hd hv h
  have hcarry := nearestEven_le_succ n (d * 2 ^ spacing (n / d))
  have hlt := quotient_lt n d
  rw [nearestUnits] at hne h ⊢
  generalize spacing (n / d) = s at *
  have hds : 0 < d * 2 ^ s := Nat.mul_pos hd (Nat.two_pow_pos s)
  rw [distance_in_spacings n hd, distance_in_spacings n hd] at h
  have hpow : (2 : ℚ) ^ s ≠ 0 := by positivity
  have heven := nearestEven_even hds (fun hk => hne (by rw [hk])) (mul_right_cancel₀ hpow h)
  rcases (hcarry.trans hlt).lt_or_eq with hm | hm
  · exact significand_even hm heven
  · have hcarried : nearestEven n (d * 2 ^ s) * 2 ^ s = 2 ^ 52 * 2 ^ (s + 1) := by
      rw [hm]
      ring
    rw [hcarried]
    exact significand_even (by decide) (by decide)

/-- The nearest finite number to an exact value. If another one is equally near, the last bit of
this one is zero. -/
structure IsNearest (x : Binary64) (q : ℚ) : Prop where
  isFinite : x.isFinite = true
  nearest : ∀ y : Binary64, y.isFinite = true → |x.toRat - q| ≤ |y.toRat - q|
  even : ∀ y : Binary64, y.isFinite = true → |x.toRat - q| = |y.toRat - q| →
    y.toRat = x.toRat ∨ x.toBits.toNat % 2 = 0

/-- An exact value rounded as binary64 rounds: to the nearest finite number before the bound, and to
the infinity of its sign from there on. -/
def IsRounded (x : Binary64) (q : ℚ) : Prop :=
  if |q| < overflowBound then x.IsNearest q else x = .infinite (q < 0)

/-- An exact value of a size and a sign. -/
def withSign (negative : Bool) (size : ℚ) : ℚ := if negative then -size else size

variable {negative : Bool} {size : ℚ} {x : Binary64}

theorem abs_withSign (h : 0 ≤ size) : |withSign negative size| = size := by
  cases negative <;> simp [withSign, abs_of_nonneg h]

theorem withSign_lt_zero (h : 0 < size) : decide (withSign negative size < 0) = negative := by
  cases negative <;> simp [withSign, h, h.le]

theorem toRat_eq_withSign (negative : Bool) (fits : Representable u) :
    toRat (.finite negative u fits) = withSign negative (u / unitsPerOne) :=
  toRat_finite negative fits

theorem distance_same (negative : Bool) (a b : ℚ) :
    |withSign negative a - withSign negative b| = |a - b| := by
  cases negative with
  | false => rfl
  | true =>
    rw [withSign, withSign, if_pos rfl, if_pos rfl, ← neg_sub', abs_neg]

/-- Numbers of different signs are as far apart as both are from zero. -/
theorem distance_opposite (negative : Bool) {a b : ℚ} (ha : 0 ≤ a) (hb : 0 ≤ b) :
    |withSign (!negative) a - withSign negative b| = a + b := by
  cases negative with
  | false =>
    rw [withSign, withSign, Bool.not_false, if_pos rfl, if_neg Bool.false_ne_true, ← neg_add',
      abs_neg, abs_of_nonneg (add_nonneg ha hb)]
  | true =>
    rw [withSign, withSign, Bool.not_true, if_pos rfl, if_neg Bool.false_ne_true, sub_neg_eq_add,
      abs_of_nonneg (add_nonneg ha hb)]

theorem toNat_toBits_mod_two (negative : Bool) (fits : Representable u) :
    (toBits (.finite negative u fits)).toNat % 2 = significand u % 2 := by
  obtain ⟨_, hbits⟩ := toNat_toBits negative fits
  rw [hbits]
  rcases signBit_cases negative with ⟨_, h⟩ | ⟨_, h⟩
  · omega
  · omega

/-- Measured in ones instead of units, the rounded count still is nearest. -/
theorem size_nearest (n : ℕ) (hd : 0 < d) (hv : HasSignificand v) :
    |(nearestUnits n d : ℚ) / unitsPerOne - (n : ℚ) / d / unitsPerOne| ≤
      |(v : ℚ) / unitsPerOne - (n : ℚ) / d / unitsPerOne| := by
  rw [← sub_div, ← sub_div, abs_div, abs_div]
  exact div_le_div_of_nonneg_right (nearestUnits_nearest n hd hv) (abs_nonneg _)

theorem size_even (hd : 0 < d) (hv : HasSignificand v)
    (h : |(nearestUnits n d : ℚ) / unitsPerOne - (n : ℚ) / d / unitsPerOne| =
      |(v : ℚ) / unitsPerOne - (n : ℚ) / d / unitsPerOne|) :
    v = nearestUnits n d ∨ significand (nearestUnits n d) % 2 = 0 := by
  have hU : |(unitsPerOne : ℚ)| ≠ 0 := abs_ne_zero.mpr (Nat.cast_ne_zero.mpr unitsPerOne_pos.ne')
  rw [← sub_div, ← sub_div, abs_div, abs_div, div_left_inj' hU] at h
  by_cases hne : v = nearestUnits n d
  · exact .inl hne
  · exact .inr (significand_nearestUnits_even hd hv hne h)

/-- A count that is rounded to a finite number is rounded to the nearest one. A number of the other
sign is no nearer than zero. -/
theorem isNearest_finite (negative : Bool) (hd : 0 < d)
    (fits : Representable (nearestUnits n d)) :
    IsNearest (.finite negative _ fits) (withSign negative ((n : ℚ) / d / unitsPerOne)) := by
  have hsize : 0 ≤ (n : ℚ) / d / unitsPerOne :=
    div_nonneg (div_nonneg (Nat.cast_nonneg n) (Nat.cast_nonneg d)) (Nat.cast_nonneg _)
  have hzero := representable_zero.hasSignificand
  have hnear := fun {w : ℕ} => @size_nearest d w n hd
  have heven := fun {w : ℕ} => @size_even n d w hd
  generalize (n : ℚ) / d / unitsPerOne = size at hsize hnear heven ⊢
  have hfar : |((0 : ℕ) : ℚ) / unitsPerOne - size| = size := by
    rw [Nat.cast_zero, zero_div, zero_sub, abs_neg, abs_of_nonneg hsize]
  have hnot_farther := hnear hzero
  rw [hfar] at hnot_farther
  have hcases : ∀ t, t = negative ∨ t = !negative := by
    intro t
    cases t <;> cases negative <;> simp
  refine ⟨rfl, fun y hy => ?_, fun y hy htie => ?_⟩
  · obtain ⟨t, w, hw, rfl⟩ := exists_of_isFinite hy
    rw [toRat_eq_withSign, toRat_eq_withSign, distance_same]
    rcases hcases t with rfl | rfl
    · rw [distance_same]
      exact hnear hw.hasSignificand
    · rw [distance_opposite negative (exact_nonneg w) hsize]
      linarith [exact_nonneg w]
  · obtain ⟨t, w, hw, rfl⟩ := exists_of_isFinite hy
    rw [toNat_toBits_mod_two]
    rw [toRat_eq_withSign, toRat_eq_withSign] at htie ⊢
    rw [distance_same] at htie
    rcases hcases t with rfl | rfl
    · rw [distance_same] at htie
      refine (heven hw.hasSignificand htie).imp_left ?_
      rintro rfl
      rfl
    · rw [distance_opposite negative (exact_nonneg w) hsize] at htie
      have hw0 : (w : ℚ) / unitsPerOne = 0 := by linarith [exact_nonneg w]
      refine (heven hzero (by linarith)).imp_left ?_
      intro h0
      rw [hw0, ← h0, Nat.cast_zero, zero_div]
      cases negative <;> simp [withSign]

/-- A quotient of counts of units is rounded correctly, whatever its sign. -/
theorem isRounded_ofRatio (negative : Bool) (n : ℕ) (hd : 0 < d) :
    (ofRatio negative n d).IsRounded (withSign negative ((n : ℚ) / d / unitsPerOne)) := by
  have hU : (0 : ℚ) < unitsPerOne := Nat.cast_pos.mpr unitsPerOne_pos
  have hdq : (0 : ℚ) < d := Nat.cast_pos.mpr hd
  have hsize : 0 ≤ (n : ℚ) / d / unitsPerOne :=
    div_nonneg (div_nonneg (Nat.cast_nonneg n) hdq.le) hU.le
  have hrange : (n : ℚ) / d / unitsPerOne < overflowBound ↔ nearestUnits n d < unitsBound := by
    rw [← isFinite_ofRatio_iff negative, isFinite_ofRatio_iff_lt negative n hd, div_lt_iff₀ hU,
      div_lt_iff₀ hdq]
    exact_mod_cast Iff.rfl
  rw [IsRounded, abs_withSign hsize]
  by_cases h : nearestUnits n d < unitsBound
  · rw [if_pos (hrange.mpr h), ofRatio_eq_finite negative ⟨h, nearestUnits_fits n d⟩ rfl]
    exact isNearest_finite negative hd _
  · have hbound : (0 : ℚ) < overflowBound := Nat.cast_pos.mpr (by decide +kernel)
    have hfar := mt hrange.mp h
    rw [if_neg hfar, withSign_lt_zero (hbound.trans_le (not_lt.mp hfar)), ofRatio, dif_neg h]

theorem IsRounded.isFinite_iff {q : ℚ} (h : x.IsRounded q) :
    x.isFinite = true ↔ |q| < overflowBound := by
  rw [IsRounded] at h
  split at h
  · rename_i hq
    exact iff_of_true h.isFinite hq
  · rename_i hq
    rw [h]
    exact iff_of_false Bool.false_ne_true hq

theorem IsRounded.ne_nan {q : ℚ} (h : x.IsRounded q) : x ≠ .nan := by
  rintro rfl
  rw [IsRounded] at h
  split at h
  · cases h.isFinite
  · cases h

/-- Between two counts whose last bits are zero lies the one with the last bit of the smaller one
set. -/
theorem exists_between_even (hu : HasSignificand u) (hv : HasSignificand v) (h : u < v)
    (hue : significand u % 2 = 0) (hve : significand v % 2 = 0) :
    ∃ w, HasSignificand w ∧ u < w ∧ w < v := by
  have hlt := significand_lt u
  have hlow := @two_pow_mul_spacing_le u
  have hmu := hu.significand_mul
  have hmv := hv.significand_mul
  have hsv := significand_lt v
  generalize significand u = a at *
  generalize significand v = b at *
  generalize spacing u = s at *
  generalize spacing v = t at *
  subst hmu hmv
  have hle : s ≤ t := by
    by_contra hts
    exact absurd h (not_lt.mpr ((finer_le hsv (not_le.mp hts)).trans (hlow (by omega))))
  obtain ⟨i, rfl⟩ := Nat.exists_eq_add_of_le hle
  have hb : b * 2 ^ (s + i) = b * 2 ^ i * 2 ^ s := by ring
  have heven : b * 2 ^ i % 2 = 0 := by rw [Nat.mul_mod, hve, Nat.zero_mul, Nat.zero_mod]
  rw [hb] at h ⊢
  have hab := Nat.lt_of_mul_lt_mul_right h
  refine ⟨(a + 1) * 2 ^ s, ⟨a + 1, s, by omega, rfl⟩, ?_, ?_⟩
  · exact Nat.mul_lt_mul_of_pos_right (Nat.lt_succ_self a) (Nat.two_pow_pos s)
  · exact Nat.mul_lt_mul_of_pos_right (by omega) (Nat.two_pow_pos s)

/-- What lies between two numbers that are equally far from a third one is nearer to it. -/
theorem nearer_of_between {a b c z : ℚ} (hac : a < c) (hcb : c < b) (h : |a - z| = |b - z|) :
    |c - z| < |a - z| := by
  have hmiddle : a + b = 2 * z := by
    have hl := middle_le_of_nearer (hac.trans hcb) h.ge
    have hr := le_middle_of_nearer (hac.trans hcb) h.le
    linarith
  have ha : a - z < 0 := by linarith
  rw [abs_of_neg ha, abs_lt]
  exact ⟨by linarith, by linarith⟩

theorem exists_unsigned (hx : x.isFinite = true) (h : x.toBits.toNat < 2 ^ 63) :
    ∃ u fits, x = .finite false u fits := by
  obtain ⟨negative, u, fits, rfl⟩ := exists_of_isFinite hx
  obtain ⟨_, hbits⟩ := toNat_toBits negative fits
  rcases signBit_cases negative with ⟨rfl, _⟩ | ⟨_, hsign⟩
  · exact ⟨u, fits, rfl⟩
  · omega

theorem toRat_unsigned (fits : Representable u) :
    toRat (.finite false u fits) = (u : ℚ) / unitsPerOne :=
  toRat_finite false fits

theorem toRat_unsigned_lt (hu : Representable u) (hv : Representable v) (h : u < v) :
    toRat (.finite false u hu) < toRat (.finite false v hv) := by
  rw [toRat_unsigned, toRat_unsigned]
  exact div_lt_div_of_pos_right (Nat.cast_lt.mpr h) (Nat.cast_pos.mpr unitsPerOne_pos)

/-- Only one of two numbers is nearest. In a tie the last bit of both would be zero, and then a
number between them would be nearer. -/
theorem IsNearest.not_lt {q : ℚ} {hu : Representable u} {hv : Representable v}
    (hx : IsNearest (.finite false u hu) q) (hy : IsNearest (.finite false v hv) q) : ¬ u < v := by
  intro h
  have hdist := le_antisymm (hx.nearest _ hy.isFinite) (hy.nearest _ hx.isFinite)
  have hlt := toRat_unsigned_lt hu hv h
  have hue := (hx.even _ hy.isFinite hdist).resolve_left hlt.ne'
  have hve := (hy.even _ hx.isFinite hdist.symm).resolve_left hlt.ne
  rw [toNat_toBits_mod_two] at hue hve
  obtain ⟨w, hw, huw, hwv⟩ := exists_between_even hu.hasSignificand hv.hasSignificand h hue hve
  have hfits : Representable w := ⟨hwv.trans hv.1, hw⟩
  have hcloser := nearer_of_between (toRat_unsigned_lt hu hfits huw)
    (toRat_unsigned_lt hfits hv hwv) hdist
  exact absurd (hx.nearest (.finite false w hfits) rfl) (not_le.mpr hcloser)

/-- An exact value is rounded to one unsigned number only. -/
theorem IsRounded.unique {y : Binary64} {q : ℚ} (hx : x.IsRounded q) (hy : y.IsRounded q)
    (hsx : x.toBits.toNat < 2 ^ 63) (hsy : y.toBits.toNat < 2 ^ 63) : x = y := by
  rw [IsRounded] at hx hy
  split at hx
  · rename_i hq
    rw [if_pos hq] at hy
    obtain ⟨u, hu, rfl⟩ := exists_unsigned hx.isFinite hsx
    obtain ⟨v, hv, rfl⟩ := exists_unsigned hy.isFinite hsy
    exact finite_congr (le_antisymm (not_lt.mp (hy.not_lt hx)) (not_lt.mp (hx.not_lt hy)))
  · rename_i hq
    rw [if_neg hq] at hy
    rw [hx, hy]

end Binary64

end Calculator
