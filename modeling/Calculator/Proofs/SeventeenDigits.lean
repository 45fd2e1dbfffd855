import Calculator.Proofs.ShortestText

namespace Calculator

theorem ten_zpow (e : ℤ) : (10 : ℚ) ^ e = 10 ^ e.toNat / 10 ^ (-e).toNat := by
  rw [← zpow_natCast, ← zpow_natCast, ← zpow_sub₀ (by norm_num), Int.toNat_sub_toNat_neg]

theorem Representable.lt_ten_pow {units : ℕ} (h : Representable units) :
    units < 10 ^ 1024 * unitsPerOne := by
  have hlt := h.1
  rw [unitsBound_eq] at hlt
  generalize 1024 = bits at hlt ⊢
  exact hlt.trans_le (Nat.mul_le_mul_right _ (Nat.pow_le_pow_left (by decide) bits))

theorem unitsPerOne_le_ten_pow : unitsPerOne ≤ 10 ^ 1074 := by
  unfold unitsPerOne
  generalize 1074 = bits
  exact Nat.pow_le_pow_left (by decide) bits

namespace Decimal

variable {tie : Tie} {units : ℕ} {d : Decimal}

theorem digitCount_le_iff {n k : ℕ} (hk : 0 < k) : digitCount n ≤ k ↔ n < 10 ^ k :=
  Nat.length_toDigits_le_iff (by decide) hk

theorem digitCount_pos (n : ℕ) : 0 < digitCount n :=
  Nat.length_toDigits_pos

theorem lt_ten_pow_digitCount (n : ℕ) : n < 10 ^ digitCount n :=
  (digitCount_le_iff (digitCount_pos n)).mp (le_refl _)

theorem ten_pow_le_of_pos {n k : ℕ} (hn : 0 < n) (hk : digitCount n = k + 1) : 10 ^ k ≤ n := by
  rcases Nat.eq_zero_or_pos k with rfl | hpos
  · exact hn
  · by_contra hlt
    have hle := (digitCount_le_iff hpos).mpr (Nat.lt_of_not_le hlt)
    omega

theorem digitCount_div_ten {n : ℕ} (h : 10 ≤ n) : digitCount (n / 10) + 1 = digitCount n := by
  rw [digitCount, digitCount, Nat.toDigits_of_base_le (by decide) h, List.length_append,
    List.length_singleton]

/-- The first digit of a number is not zero. -/
theorem leadingExponent_spec (hu : 0 < units) :
    (10 : ℚ) ^ leadingExponent units ≤ (units : ℚ) / unitsPerOne ∧
    (units : ℚ) / unitsPerOne < 10 ^ (leadingExponent units + 1) := by
  have hU : (0 : ℚ) < unitsPerOne := by exact_mod_cast unitsPerOne_pos
  rw [leadingExponent]
  split
  · rename_i h
    have hq : 0 < units / unitsPerOne := Nat.div_pos h unitsPerOne_pos
    obtain ⟨k, hk⟩ : ∃ k, digitCount (units / unitsPerOne) = k + 1 :=
      Nat.exists_eq_add_one.mpr (digitCount_pos _)
    have hlow := ten_pow_le_of_pos hq hk
    have hhigh := lt_ten_pow_digitCount (units / unitsPerOne)
    rw [Nat.le_div_iff_mul_le unitsPerOne_pos] at hlow
    rw [Nat.div_lt_iff_lt_mul unitsPerOne_pos] at hhigh
    rw [hk] at hhigh ⊢
    push_cast
    rw [add_sub_cancel_right, le_div_iff₀ hU, div_lt_iff₀ hU]
    exact ⟨by exact_mod_cast hlow, by exact_mod_cast hhigh⟩
  · rename_i h
    have hq : 0 < (unitsPerOne - 1) / units := Nat.div_pos (by omega) hu
    obtain ⟨k, hk⟩ : ∃ k, digitCount ((unitsPerOne - 1) / units) = k + 1 :=
      Nat.exists_eq_add_one.mpr (digitCount_pos _)
    have hlow := ten_pow_le_of_pos hq hk
    have hhigh := lt_ten_pow_digitCount ((unitsPerOne - 1) / units)
    rw [Nat.le_div_iff_mul_le hu] at hlow
    rw [Nat.div_lt_iff_lt_mul hu] at hhigh
    have hpos := unitsPerOne_pos
    have hbelow : 10 ^ k * units < unitsPerOne := by omega
    have habove : unitsPerOne ≤ 10 ^ (k + 1) * units := by
      rw [hk] at hhigh
      omega
    have hexp : -((k + 1 : ℕ) : ℤ) + 1 = -(k : ℤ) := by omega
    have hk0 : (0 : ℚ) < 10 ^ k := by positivity
    have hk1 : (0 : ℚ) < 10 ^ (k + 1) := by positivity
    rw [hk, hexp, zpow_neg, zpow_neg, zpow_natCast, zpow_natCast, ← one_div, ← one_div,
      div_le_div_iff₀ hk1 hU, div_lt_div_iff₀ hU hk0, one_mul, mul_comm (units : ℚ),
      mul_comm (units : ℚ)]
    exact ⟨by exact_mod_cast habove, by exact_mod_cast hbelow⟩

theorem grid_quotient (units : ℕ) (exponent : ℤ) : (units : ℚ) / unitsPerOne / 10 ^ exponent =
    ((units * 10 ^ (-exponent).toNat : ℕ) : ℚ) / (unitsPerOne * 10 ^ exponent.toNat : ℕ) := by
  rw [ten_zpow]
  generalize unitsPerOne = u
  push_cast
  field_simp

/-- The nearest multiple of a power of ten is tried before any other. -/
theorem neighbours_eq_cons (tie : Tie) (units : ℕ) (exponent : ℤ) : ∃ d ds,
    neighbours tie units exponent = d :: ds ∧ d.exponent = exponent ∧
    |(d.significand : ℚ) - units / unitsPerOne / 10 ^ exponent| ≤ 1 / 2 := by
  have hd : 0 < unitsPerOne * 10 ^ exponent.toNat :=
    Nat.mul_pos unitsPerOne_pos (Nat.pow_pos (by decide))
  have hs := quotient_split (units * 10 ^ (-exponent).toNat) _ hd
  obtain ⟨h0, h1⟩ := remainder_bounds (units * 10 ^ (-exponent).toNat) _ hd
  obtain ⟨hlt, hgt⟩ := remainder_compare (units * 10 ^ (-exponent).toNat) _ hd
  rw [grid_quotient, hs, neighbours]
  generalize units * 10 ^ (-exponent).toNat = n at h0 h1 hlt hgt ⊢
  generalize unitsPerOne * 10 ^ exponent.toNat = q at h0 h1 hlt hgt ⊢
  split
  · rename_i h
    refine ⟨_, _, rfl, rfl, ?_⟩
    have hle : ((n % q : ℕ) : ℚ) / q ≤ 1 / 2 := by
      by_contra hmore
      have := hgt.mpr (not_le.mp hmore)
      simp at h
      omega
    rw [sub_add_cancel_left, abs_neg, abs_of_nonneg h0]
    exact hle
  · rename_i h
    refine ⟨_, _, rfl, rfl, ?_⟩
    have hge : 1 / 2 ≤ ((n % q : ℕ) : ℚ) / q := by
      by_contra hless
      have := hlt.mpr (not_le.mp hless)
      simp [this] at h
    push_cast
    rw [add_sub_add_left_eq_sub, abs_of_nonneg (by linarith)]
    linarith

/-- What is at most half of a digit away reads back, if that is the seventeenth digit or a later
one. -/
theorem readsBack_of_near (h : Representable units) (hu : 0 < units)
    (hd : |(d.significand : ℚ) - units / unitsPerOne / 10 ^ d.exponent| ≤ 1 / 2)
    (he : d.exponent ≤ leadingExponent units - 16) : readsBack units d = true := by
  have hU : (0 : ℚ) < unitsPerOne := by exact_mod_cast unitsPerOne_pos
  have hq : (0 : ℚ) < units := by exact_mod_cast hu
  have hgrid : (0 : ℚ) < 10 ^ d.exponent := zpow_pos (by norm_num) _
  have hsmall : 10 ^ d.exponent * unitsPerOne * 10 ^ 16 ≤ (units : ℚ) := by
    have hlead := (leadingExponent_spec hu).1
    have hmono : (10 : ℚ) ^ d.exponent ≤ 10 ^ (leadingExponent units - 16) :=
      zpow_le_zpow_right₀ (by norm_num) he
    rw [zpow_sub₀ (by norm_num), le_div_iff₀ (by norm_num)] at hmono
    rw [le_div_iff₀ hU] at hlead
    have hmul := mul_le_mul_of_nonneg_right hmono hU.le
    generalize (unitsPerOne : ℚ) = u at hlead hmul ⊢
    norm_num at hmul
    linarith
  have hnear : Binary64.nearestUnits (d.significand * 10 ^ d.exponent.toNat * unitsPerOne)
      (10 ^ (-d.exponent).toNat) = units := by
    refine Binary64.nearestUnits_eq_of_near (Nat.pow_pos (by decide)) h.hasSignificand ?_
    have hquot : ((d.significand * 10 ^ d.exponent.toNat * unitsPerOne : ℕ) : ℚ) /
        (10 ^ (-d.exponent).toNat : ℕ) = d.significand * (10 ^ d.exponent * unitsPerOne) := by
      rw [ten_zpow]
      generalize unitsPerOne = u
      push_cast
      field_simp
    have hdiff : d.significand * (10 ^ d.exponent * unitsPerOne) - (units : ℚ) =
        (d.significand - units / unitsPerOne / 10 ^ d.exponent) *
          (10 ^ d.exponent * unitsPerOne) := by
      generalize (unitsPerOne : ℚ) = u at hU
      field_simp
    have hg : 0 < 10 ^ d.exponent * (unitsPerOne : ℚ) := mul_pos hgrid hU
    rw [hquot, hdiff, abs_mul, abs_of_pos hg]
    have hmul := mul_le_mul_of_nonneg_right hd hg.le
    linarith
  rw [readsBack, Binary64.ofScientific_eq_ofRatio, Binary64.ofRatio_eq_finite false h hnear]
  exact beq_self_eq_true units

/-- The search ends with a hit, on one of the grids that it tries. -/
theorem exists_found (tie : Tie) (h : Representable units) (hu : 0 < units) :
    ∃ (k : ℕ) (d : Decimal), k < 17 ∧ d ∈ neighbours tie units (leadingExponent units - k) ∧
      readsBack units d = true ∧ shortest tie units = d.trim := by
  obtain ⟨d, ds, hcons, he, hd⟩ := neighbours_eq_cons tie units (leadingExponent units - 16)
  have hback : readsBack units d = true := by
    rw [← he] at hd
    exact readsBack_of_near h hu hd he.le
  have hhit : ((neighbours tie units (leadingExponent units - (16 : ℕ))).find?
      (readsBack units)).isSome = true := by
    rw [List.find?_isSome]
    refine ⟨d, ?_, hback⟩
    rw [Nat.cast_ofNat, hcons]
    exact List.mem_cons_self
  rw [shortest, if_neg hu.ne']
  simp only
  generalize hf : List.findSome? _ _ = found
  cases found with
  | none =>
    have hnone := List.findSome?_eq_none_iff.mp hf (leadingExponent units - (16 : ℕ))
      (List.mem_map.mpr ⟨16, List.mem_range.mpr (by decide), rfl⟩)
    rw [hnone] at hhit
    cases hhit
  | some d =>
    obtain ⟨exponent, hm, hfind⟩ := List.exists_of_findSome?_eq_some hf
    obtain ⟨k, hk, rfl⟩ := List.mem_map.mp hm
    exact ⟨k, d, List.mem_range.mp hk, List.mem_of_find?_eq_some hfind, List.find?_some hfind, rfl⟩

theorem leadingExponent_bounds (h : Representable units) :
    -1074 ≤ leadingExponent units ∧ leadingExponent units < 1024 := by
  rw [leadingExponent]
  split
  · have hlt : units / unitsPerOne < 10 ^ 1024 :=
      (Nat.div_lt_iff_lt_mul unitsPerOne_pos).mpr h.lt_ten_pow
    have hc := (digitCount_le_iff (by decide)).mpr hlt
    have hpos := digitCount_pos (units / unitsPerOne)
    omega
  · have hlt : (unitsPerOne - 1) / units < 10 ^ 1074 :=
      (Nat.div_le_self _ _).trans_lt (Nat.sub_one_lt_of_le unitsPerOne_pos unitsPerOne_le_ten_pow)
    have hc := (digitCount_le_iff (by decide)).mpr hlt
    omega

theorem mem_neighbours {exponent : ℤ} (h : d ∈ neighbours tie units exponent) :
    d.exponent = exponent ∧
      d.significand ≤ units * 10 ^ (-exponent).toNat / (unitsPerOne * 10 ^ exponent.toNat) + 1 := by
  rw [neighbours] at h
  split at h
  · rcases List.mem_pair.mp h with rfl | rfl
    · exact ⟨rfl, Nat.le_succ _⟩
    · exact ⟨rfl, le_refl _⟩
  · rcases List.mem_pair.mp h with rfl | rfl
    · exact ⟨rfl, le_refl _⟩
    · exact ⟨rfl, Nat.le_succ _⟩

/-- With `k` digits behind the first one, what is tried has no more digits, or is the next power of
ten. -/
theorem neighbour_bounds {k : ℕ} (hu : 0 < units)
    (hd : d ∈ neighbours tie units (leadingExponent units - k)) :
    d.exponent = leadingExponent units - k ∧ d.significand ≤ 10 ^ (k + 1) := by
  obtain ⟨he, hle⟩ := mem_neighbours hd
  have hq : 0 < unitsPerOne * 10 ^ (leadingExponent units - k).toNat :=
    Nat.mul_pos unitsPerOne_pos (Nat.pow_pos (by decide))
  have hlt : (units : ℚ) / unitsPerOne / 10 ^ (leadingExponent units - k) < 10 ^ (k + 1) := by
    have hexp : ((k + 1 : ℕ) : ℤ) + (leadingExponent units - k) = leadingExponent units + 1 := by
      omega
    rw [div_lt_iff₀ (zpow_pos (by norm_num) _), ← zpow_natCast, ← zpow_add₀ (by norm_num), hexp]
    exact (leadingExponent_spec hu).2
  rw [grid_quotient, div_lt_iff₀ (by exact_mod_cast hq)] at hlt
  refine ⟨he, hle.trans ?_⟩
  rw [Nat.succ_le_iff, Nat.div_lt_iff_lt_mul hq]
  exact_mod_cast hlt

theorem significand_trim_le (d : Decimal) : d.trim.significand ≤ d.significand := by
  fun_induction trim d with
  | case1 d h ih => exact ih.trans (Nat.div_le_self _ _)
  | case2 d h => exact le_refl _

theorem significand_shortest_le (tie : Tie) (h : Representable units) :
    (shortest tie units).significand ≤ 10 ^ 17 := by
  rcases Nat.eq_zero_or_pos units with rfl | hu
  · exact Nat.zero_le _
  · obtain ⟨k, d, hk, hd, _, hs⟩ := exists_found tie h hu
    rw [hs]
    refine (significand_trim_le d).trans ((neighbour_bounds hu hd).2.trans ?_)
    exact Nat.pow_le_pow_right (by decide) hk

/-- The digits of the significand and the places that the exponent moves them by. -/
def extent (d : Decimal) : ℕ := digitCount d.significand + d.exponent.natAbs

theorem extent_trim_le (d : Decimal) : d.trim.extent ≤ d.extent := by
  fun_induction trim d with
  | case1 d h ih =>
    have hc := digitCount_div_ten (n := d.significand) (by omega)
    refine ih.trans ?_
    simp only [extent]
    omega
  | case2 d h => exact le_refl _

/-- The digits and zeros are far fewer than the characters that a text may have. -/
theorem extent_shortest_le (tie : Tie) (h : Representable units) :
    (shortest tie units).extent ≤ 1108 := by
  rcases Nat.eq_zero_or_pos units with rfl | hu
  · exact (by decide : (⟨0, 0⟩ : Decimal).extent ≤ 1108)
  · obtain ⟨k, d, hk, hd, _, hs⟩ := exists_found tie h hu
    obtain ⟨he, hsig⟩ := neighbour_bounds hu hd
    have hlead := leadingExponent_bounds h
    have hcount : digitCount d.significand ≤ 18 := by
      rw [digitCount_le_iff (by decide)]
      exact hsig.trans_lt (Nat.pow_lt_pow_right (by decide) (by omega))
    rw [hs]
    refine (extent_trim_le d).trans ?_
    rw [extent]
    omega

end Decimal

end Calculator
