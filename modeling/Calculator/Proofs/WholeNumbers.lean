import Calculator.Proofs.FormattedRoundTrip
import Calculator.Proofs.ShortestText

namespace Calculator

theorem representable_whole {n : ℕ} (h : n ≤ 2 ^ 53) : Representable (n * unitsPerOne) := by
  constructor
  · have hbits : 53 < 1024 := by decide
    rw [unitsBound_eq]
    generalize 1024 = bits at hbits ⊢
    exact Nat.mul_lt_mul_of_pos_right (h.trans_lt (Nat.pow_lt_pow_right (by decide) hbits))
      unitsPerOne_pos
  · rcases h.lt_or_eq with hlt | rfl
    · exact ⟨n, 1074, hlt, by rw [unitsPerOne]⟩
    · obtain ⟨k, hk⟩ := exists_unitsPerOne_eq
      refine ⟨2 ^ 52, k + 2, by decide, ?_⟩
      rw [hk]
      ring

namespace Binary64

variable {negative s t : Bool} {units a d : ℕ} {fits : Representable units} {x y : Binary64}
  {m n q : ℤ}

theorem natAbs_signed (negative : Bool) (units : ℕ) : (signed negative units).natAbs = units := by
  cases negative <;> simp [signed]

theorem signed_mul (s t : Bool) (u v : ℕ) : signed (s ^^ t) (u * v) = signed s u * signed t v := by
  cases s <;> cases t <;> simp [signed]

theorem signed_mul_self (s : Bool) (u v : ℕ) : signed s u * signed s v = u * v := by
  cases s <;> simp [signed]

theorem signed_natAbs (z : ℤ) : signed (z < 0) z.natAbs = z := by
  rw [signed]
  split
  · rename_i h
    have hz := of_decide_eq_true h
    omega
  · rename_i h
    have hz := of_decide_eq_false (Bool.not_eq_true _ ▸ h)
    omega

/-- The whole number that a number is, if it is one. A zero of either sign is zero. -/
structure IsWhole (x : Binary64) (n : ℤ) : Prop where
  isFinite : x.isFinite = true
  toRat : x.toRat = n

theorem isWhole_finite_iff :
    IsWhole (.finite negative units fits) n ↔ signed negative units = n * unitsPerOne := by
  have hU : (unitsPerOne : ℚ) ≠ 0 := by exact_mod_cast unitsPerOne_pos.ne'
  constructor
  · intro h
    have ht := h.toRat
    rw [Binary64.toRat, div_eq_iff hU] at ht
    exact_mod_cast ht
  · intro h
    refine ⟨rfl, ?_⟩
    rw [Binary64.toRat, div_eq_iff hU]
    exact_mod_cast h

theorem exists_of_isFinite (h : x.isFinite = true) : ∃ negative units fits,
    x = .finite negative units fits := by
  cases x with
  | nan => cases h
  | infinite negative => cases h
  | finite negative units fits => exact ⟨negative, units, fits, rfl⟩

theorem IsWhole.exists_finite (h : x.IsWhole n) : ∃ negative units fits,
    x = .finite negative units fits ∧ signed negative units = n * unitsPerOne := by
  obtain ⟨negative, units, fits, rfl⟩ := exists_of_isFinite h.isFinite
  exact ⟨negative, units, fits, rfl, isWhole_finite_iff.mp h⟩

/-- A quotient that is a whole number is rounded to this number. -/
theorem isWhole_ofRatio (hd : 0 < d) (h : signed negative a = q * unitsPerOne * d)
    (hq : |q| ≤ 2 ^ 53) : (ofRatio negative a d).IsWhole q := by
  have hle : q.natAbs ≤ 2 ^ 53 := by
    rw [Int.abs_eq_natAbs] at hq
    exact_mod_cast hq
  have hfits := representable_whole hle
  have ha : a = q.natAbs * unitsPerOne * d := by
    have habs := congrArg Int.natAbs h
    rwa [natAbs_signed, Int.natAbs_mul, Int.natAbs_mul, Int.natAbs_natCast,
      Int.natAbs_natCast] at habs
  have hx : ofRatio negative a d = .finite negative _ hfits := by
    rw [ha, ← ofRatio_one negative hfits, ← ofRatio_mul negative _ 1 hd, one_mul]
  rw [hx, isWhole_finite_iff]
  have hdz : (d : ℤ) ≠ 0 := by exact_mod_cast hd.ne'
  refine mul_right_cancel₀ hdz ?_
  rw [← h, ha, signed, signed]
  split
  · push_cast
    ring
  · push_cast
    ring

theorem IsWhole.neg (h : x.IsWhole m) : (-x).IsWhole (-m) := by
  obtain ⟨s, u, hu, rfl, hs⟩ := h.exists_finite
  refine isWhole_finite_iff.mpr ?_
  rw [neg_mul, ← hs]
  cases s <;> simp [signed]

theorem IsWhole.add (hx : x.IsWhole m) (hy : y.IsWhole n) (h : |m + n| ≤ 2 ^ 53) :
    (x + y).IsWhole (m + n) := by
  obtain ⟨s, u, hu, rfl, hs⟩ := hx.exists_finite
  obtain ⟨t, v, hv, rfl, ht⟩ := hy.exists_finite
  change IsWhole (if signed s u + signed t v = 0 then _ else _) _
  have hsum : signed s u + signed t v = (m + n) * unitsPerOne := by rw [hs, ht, add_mul]
  split
  · rename_i hz
    refine isWhole_finite_iff.mpr ?_
    rw [← hsum, hz, signed]
    exact ite_self 0
  · refine isWhole_ofRatio Nat.one_pos ?_ h
    rw [signed_natAbs, hsum, Nat.cast_one, mul_one]

theorem IsWhole.sub (hx : x.IsWhole m) (hy : y.IsWhole n) (h : |m - n| ≤ 2 ^ 53) :
    (x - y).IsWhole (m - n) := by
  rw [sub_eq_add_neg] at h ⊢
  exact hx.add hy.neg h

theorem IsWhole.mul (hx : x.IsWhole m) (hy : y.IsWhole n) (h : |m * n| ≤ 2 ^ 53) :
    (x * y).IsWhole (m * n) := by
  obtain ⟨s, u, hu, rfl, hs⟩ := hx.exists_finite
  obtain ⟨t, v, hv, rfl, ht⟩ := hy.exists_finite
  change (mul _ _).IsWhole (m * n)
  rw [mul]
  refine isWhole_ofRatio unitsPerOne_pos ?_ h
  rw [signed_mul, hs, ht]
  ring

theorem IsWhole.isZero_iff (h : x.IsWhole n) : x.isZero = true ↔ n = 0 := by
  obtain ⟨s, u, hu, rfl, hs⟩ := h.exists_finite
  have hU : (unitsPerOne : ℤ) ≠ 0 := by exact_mod_cast unitsPerOne_pos.ne'
  have habs := congrArg Int.natAbs hs
  rw [natAbs_signed] at habs
  rw [isZero, beq_iff_eq, habs, Int.natAbs_eq_zero, mul_eq_zero_iff_right hU]

/-- The dividend is given by the divisor and the quotient. -/
theorem IsWhole.div (hx : x.IsWhole (q * n)) (hy : y.IsWhole n) (hn : n ≠ 0) (h : |q| ≤ 2 ^ 53) :
    (x / y).IsWhole q := by
  have hz := mt hy.isZero_iff.mp hn
  obtain ⟨s, u, hu, rfl, hs⟩ := hx.exists_finite
  obtain ⟨t, v, hv, rfl, ht⟩ := hy.exists_finite
  rw [isZero, beq_iff_eq] at hz
  change IsWhole (if v = 0 then _ else _) _
  rw [if_neg hz]
  refine isWhole_ofRatio (Nat.pos_of_ne_zero hz) ?_ h
  -- the sign of the divisor cancels, so it may as well be on the unit
  rw [signed_mul, hs, mul_assoc q n, ← ht, mul_assoc, mul_assoc, ← signed_mul_self t,
    mul_comm (signed t v)]

/-- The sign is that of the whole number, but for a zero. -/
theorem sign_of_signed (h : signed negative units = n * unitsPerOne) :
    (negative && n.natAbs != 0) = decide (n < 0) := by
  have hU : (0 : ℤ) < unitsPerOne := by exact_mod_cast unitsPerOne_pos
  cases negative with
  | false =>
    have hn : 0 ≤ n := by
      refine nonneg_of_mul_nonneg_left ?_ hU
      rw [← h]
      exact Int.natCast_nonneg units
    simp [hn]
  | true =>
    have hn : n ≤ 0 := by
      refine nonpos_of_mul_nonpos_left ?_ hU
      rw [← h]
      exact Int.neg_nonpos_of_nonneg (Int.natCast_nonneg units)
    rw [Bool.true_and, Bool.eq_iff_iff, bne_iff_ne, Int.natAbs_ne_zero, decide_eq_true_iff]
    exact ⟨lt_of_le_of_ne hn, ne_of_lt⟩

end Binary64

namespace Scaled

/-- The conversion takes all factors of two out of a whole number before it multiplies by five. -/
theorem toRat_ofUnits_whole {k : ℕ} (h : Representable (k * unitsPerOne)) :
    (ofUnits (k * unitsPerOne)).toRat = k := by
  rcases Nat.lt_or_ge 1074 (Binary64.spacing (k * unitsPerOne)) with hs | hs
  · rw [ofUnits_whole h hs, toRat, Nat.mul_div_cancel k unitsPerOne_pos, pow_zero, div_one]
  · rw [ofUnits_halved hs]
    have hsig := h.significand_mul
    generalize Binary64.spacing (k * unitsPerOne) = spacing at hs hsig ⊢
    have hc : Binary64.significand (k * unitsPerOne) = 2 ^ (1074 - spacing) * k := by
      refine Nat.eq_of_mul_eq_mul_right (Nat.two_pow_pos spacing) (hsig.trans ?_)
      rw [unitsPerOne]
      generalize 1074 = places at hs ⊢
      obtain ⟨j, rfl⟩ := Nat.exists_eq_add_of_le hs
      rw [Nat.add_sub_cancel_left]
      ring
    rw [hc, halveTimes_two_pow, cap_of_places_le (Nat.zero_le _), toRat, pow_zero, div_one]

end Scaled

theorem roundHalfUp_natCast (k : ℕ) : roundHalfUp (k : ℚ) = k := by
  rw [roundHalfUp_eq_iff (Nat.cast_nonneg k)]
  exact ⟨by linarith, by linarith⟩

/-- A whole number needs no place, however many there are. -/
theorem Scaled.trim_round_whole {s : Scaled} {k : ℕ} (h : s.toRat = k) (d : ℕ) :
    (s.round d).trim = ⟨k, 0⟩ := by
  have hk : (k : ℚ) * 10 ^ d = ((k * 10 ^ d : ℕ) : ℚ) := by push_cast; rfl
  have hr : (⟨k * 10 ^ d, d⟩ : Scaled).toRat = (⟨k, 0⟩ : Scaled).toRat := by
    rw [toRat, ← hk, toRat, pow_zero, div_one, mul_div_cancel_right₀ _ (by positivity)]
  rw [trim_round, h, hk, roundHalfUp_natCast]
  exact trim_congr hr

theorem pointed_zero (k : ℕ) : Decimal.pointed k 0 = Nat.toDigits 10 k := by
  have hpos : 1 ≤ (Nat.toDigits 10 k).length := Nat.length_toDigits_pos
  rw [Decimal.pointed, List.leftpad, Nat.sub_eq_zero_of_le hpos]
  simp

theorem ofList_sign_toDigits (z : ℤ) :
    String.ofList (Binary64.sign (z < 0) ++ Nat.toDigits 10 z.natAbs) = toString z := by
  cases z with
  | ofNat k => rfl
  | negSucc k =>
    rw [decide_eq_true (Int.negSucc_lt_zero k)]
    exact String.ofList_append

/-- A whole number is shown as such, with no point and with a minus only if it is negative. -/
theorem Binary64.IsWhole.fixed {x : Binary64} {n : ℤ} (h : x.IsWhole n) (decimals : ℕ) :
    String.ofList (x.fixed decimals) = toString n := by
  obtain ⟨negative, units, fits, rfl, hs⟩ := h.exists_finite
  have hunits : units = n.natAbs * unitsPerOne := by
    have habs := congrArg Int.natAbs hs
    rwa [natAbs_signed, Int.natAbs_mul, Int.natAbs_natCast] at habs
  have hrat : (Scaled.ofUnits units).toRat = n.natAbs := by
    rw [hunits] at fits ⊢
    exact Scaled.toRat_ofUnits_whole fits
  have htrim := Scaled.trim_round_whole hrat (min decimals 28)
  simp only [Binary64.fixed_finite, htrim, Scaled.text, pointed_zero, sign_of_signed hs]
  exact ofList_sign_toDigits n

end Calculator
