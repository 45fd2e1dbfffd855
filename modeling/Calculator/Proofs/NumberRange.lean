import Calculator.Json.Number
import Calculator.Proofs.SeventeenDigits

namespace Calculator

namespace Binary64

variable {m m' n n' : ℕ} {x y : Binary64}

theorem isFinite_ofRatio_iff (negative : Bool) (n d : ℕ) :
    (ofRatio negative n d).isFinite = true ↔ nearestUnits n d < unitsBound := by
  rw [ofRatio]
  split
  · rename_i h
    exact iff_of_true rfl h
  · rename_i h
    exact iff_of_false Bool.false_ne_true h

/-- A product is finite only if both of its factors are. -/
theorem isFinite_of_isFinite_mul (h : (x * y).isFinite = true) :
    x.isFinite = true ∧ y.isFinite = true := by
  change (mul x y).isFinite = true at h
  cases x with
  | nan =>
    rw [mul] at h
    cases h
  | infinite s =>
    cases y with
    | nan => cases h
    | infinite t => cases h
    | finite t v hv =>
      rw [mul] at h
      split at h <;> cases h
  | finite s u hu =>
    cases y with
    | nan => cases h
    | infinite t =>
      rw [mul] at h
      split at h <;> cases h
    | finite t v hv => exact ⟨rfl, rfl⟩

theorem ofNat_eq_ofRatio (n : ℕ) : ofNat n = ofRatio false (n * unitsPerOne) 1 := by
  rw [ofNat, ofDecimal, pow_zero]

theorem finite_mul_finite (s t : Bool) {u v : ℕ} (hu : Representable u) (hv : Representable v) :
    finite s u hu * finite t v hv = ofRatio (s ^^ t) (u * v) unitsPerOne := by
  change mul _ _ = _
  rw [mul]

theorem ofNat_mul_ofNat (hm : nearestUnits (m * unitsPerOne) 1 < unitsBound)
    (hn : nearestUnits (n * unitsPerOne) 1 < unitsBound) : ofNat m * ofNat n = ofRatio false
      (nearestUnits (m * unitsPerOne) 1 * nearestUnits (n * unitsPerOne) 1) unitsPerOne := by
  have hu : Representable (nearestUnits (m * unitsPerOne) 1) := ⟨hm, nearestUnits_fits _ _⟩
  have hv : Representable (nearestUnits (n * unitsPerOne) 1) := ⟨hn, nearestUnits_fits _ _⟩
  rw [ofNat_eq_ofRatio, ofNat_eq_ofRatio, ofRatio_eq_finite false hu rfl,
    ofRatio_eq_finite false hv rfl, finite_mul_finite, Bool.xor_false]

theorem isFinite_ofNat_mul_iff : (ofNat m * ofNat n).isFinite = true ↔
    nearestUnits (m * unitsPerOne) 1 < unitsBound ∧ nearestUnits (n * unitsPerOne) 1 < unitsBound ∧
    nearestUnits (nearestUnits (m * unitsPerOne) 1 * nearestUnits (n * unitsPerOne) 1) unitsPerOne <
      unitsBound := by
  constructor
  · intro h
    obtain ⟨hm, hn⟩ := isFinite_of_isFinite_mul h
    rw [ofNat_eq_ofRatio, isFinite_ofRatio_iff] at hm hn
    rw [ofNat_mul_ofNat hm hn, isFinite_ofRatio_iff] at h
    exact ⟨hm, hn, h⟩
  · intro h
    obtain ⟨hm, hn, h⟩ := h
    rwa [ofNat_mul_ofNat hm hn, isFinite_ofRatio_iff]

/-- Smaller factors have a smaller product, whatever the three roundings are. -/
theorem isFinite_ofNat_mul_mono (hm : m ≤ m') (hn : n ≤ n')
    (h : (ofNat m' * ofNat n').isFinite = true) : (ofNat m * ofNat n).isFinite = true := by
  rw [isFinite_ofNat_mul_iff] at h ⊢
  have hm' := nearestUnits_mono one_pos (Nat.mul_le_mul_right unitsPerOne hm)
  have hn' := nearestUnits_mono one_pos (Nat.mul_le_mul_right unitsPerOne hn)
  have hmn := nearestUnits_mono unitsPerOne_pos (Nat.mul_le_mul hm' hn')
  exact ⟨hm'.trans_lt h.1, hn'.trans_lt h.2.1, hmn.trans_lt h.2.2⟩

/-- The middle between the largest number and 2^1024, from which on all numbers are rounded to
infinity. -/
def overflowBound : ℕ := 2 ^ 1024 - 2 ^ 970

/-- The largest number, with all 53 bits and the largest spacing. -/
def largestUnits : ℕ := (2 ^ 1024 - 2 ^ 971) * unitsPerOne

theorem hasSignificand_largestUnits : HasSignificand largestUnits := by
  have hbits : 2 ^ 1024 - 2 ^ 971 = (2 ^ 53 - 1) * 2 ^ 971 := by decide +kernel
  refine ⟨2 ^ 53 - 1, 971 + 1074, by decide, ?_⟩
  rw [largestUnits, hbits, unitsPerOne]
  generalize 971 = i
  generalize 1074 = j
  rw [mul_assoc, pow_add]

/-- The bound is the middle between the largest number and the end of the range. -/
theorem two_mul_overflowBound :
    largestUnits + unitsBound = 2 * (overflowBound * unitsPerOne) := by
  have hmiddle : 2 ^ 1024 - 2 ^ 971 + 2 ^ 1024 = 2 * overflowBound := by decide +kernel
  rw [largestUnits, unitsBound_eq, ← Nat.add_mul, hmiddle, mul_assoc]

theorem largestUnits_lt : largestUnits < unitsBound := by
  rw [largestUnits, unitsBound_eq]
  exact Nat.mul_lt_mul_of_pos_right (by decide +kernel) unitsPerOne_pos

/-- What is below the bound is nearer to the largest number than to the end of the range. -/
theorem nearestUnits_lt_unitsBound {d : ℕ} (hd : 0 < d)
    (h : n < overflowBound * unitsPerOne * d) : nearestUnits n d < unitsBound := by
  by_contra hge
  have hlt : largestUnits < nearestUnits n d := largestUnits_lt.trans_le (not_lt.mp hge)
  have hnear := nearestUnits_nearest n hd hasSignificand_largestUnits
  have hmiddle := middle_le_of_nearer (Nat.cast_lt.mpr hlt) hnear
  have hsum : largestUnits + unitsBound ≤ largestUnits + nearestUnits n d :=
    Nat.add_le_add_left (not_lt.mp hge) _
  rw [← Nat.cast_add] at hmiddle
  rw [two_mul_overflowBound] at hsum
  generalize overflowBound * unitsPerOne = bound at h hsum
  generalize largestUnits + nearestUnits n d = sum at hsum hmiddle
  have hbound : ((2 * bound : ℕ) : ℚ) ≤ sum := Nat.cast_le.mpr hsum
  push_cast at hbound
  have hle : (bound : ℚ) ≤ n / d := by linarith
  rw [le_div_iff₀ (Nat.cast_pos.mpr hd)] at hle
  exact absurd h (not_lt.mpr (by exact_mod_cast hle))

/-- A quotient is rounded to a finite number exactly if it is below the bound. -/
theorem isFinite_ofRatio_iff_lt (negative : Bool) (n : ℕ) {d : ℕ} (hd : 0 < d) :
    (ofRatio negative n d).isFinite = true ↔ n < overflowBound * unitsPerOne * d := by
  rw [isFinite_ofRatio_iff]
  constructor
  · intro h
    by_contra hle
    have hbound : (ofRatio negative (overflowBound * unitsPerOne) 1).isFinite = false := by
      cases negative <;> decide +kernel
    have hmono := (nearestUnits_mono hd (not_lt.mp hle)).trans_lt h
    rw [← ofRatio_mul negative _ 1 hd, one_mul,
      (isFinite_ofRatio_iff negative _ d).mpr hmono] at hbound
    cases hbound
  · exact nearestUnits_lt_unitsBound hd

theorem lt_overflowBound (h : (ofNat n).isFinite = true) : n < overflowBound := by
  rw [ofNat_eq_ofRatio, isFinite_ofRatio_iff_lt false _ one_pos] at h
  generalize overflowBound = bound at h ⊢
  generalize unitsPerOne = one at h
  rw [mul_one] at h
  exact Nat.lt_of_mul_lt_mul_right h

end Binary64

namespace Json

open Binary64 (ofNat)

variable {n e : ℕ}

theorem isTooLarge_of_neg {d : Decimal} (h : d.exponent < 0) : isTooLarge d = false := by
  rw [isTooLarge, decide_eq_false (not_le.mpr h), Bool.and_false, Bool.false_and]

theorem isTooLarge_of_isFinite (he : e ≤ maxPower)
    (h : (ofNat n * ofNat (10 ^ e)).isFinite = true) : isTooLarge ⟨n, e⟩ = false := by
  have hpower : ¬ ((maxPower : ℤ) < (e : ℤ)) := by exact_mod_cast not_lt.mpr he
  rw [isTooLarge, Int.toNat_natCast, h, decide_eq_false hpower, Bool.not_true, Bool.or_false,
    Bool.and_false]

/-- The largest significand that a finite number has with this exponent. -/
def largest (e : ℕ) : ℕ := (Binary64.overflowBound - 1) / 10 ^ e

theorem le_largest (h : (ofNat (n * 10 ^ e)).isFinite = true) : n ≤ largest e := by
  have hlt := Binary64.lt_overflowBound h
  rw [largest, Nat.le_div_iff_mul_le (Nat.pow_pos (by decide))]
  exact Nat.le_sub_one_of_lt hlt

/-- With more than 292 zeros the largest significands are not too large. -/
theorem isFinite_largest : ∀ k < 16,
    (ofNat (largest (293 + k)) * ofNat (10 ^ (293 + k))).isFinite = true := by
  decide +kernel

theorem exponent_le_of_largest (h : 0 < largest e) : e ≤ maxPower := by
  by_contra hlt
  have hgt : maxPower + 1 ≤ e := not_le.mp hlt
  have hpow : 10 ^ (maxPower + 1) ≤ 10 ^ e := pow_le_pow_right₀ (by decide) hgt
  have hall : Binary64.overflowBound - 1 < 10 ^ (maxPower + 1) := by decide +kernel
  rw [largest, Nat.div_eq_of_lt (hall.trans_le hpow)] at h
  cases h

variable {units : ℕ}

theorem ofNat_of_shortest (h : Representable units)
    (hs : Decimal.shortest .even units = ⟨n, e⟩) : ofNat (n * 10 ^ e) = .finite false units h := by
  have hback := Decimal.rounded_shortest .even h
  rwa [hs, Decimal.rounded, Binary64.ofScientific, if_pos (Int.natCast_nonneg e),
    Int.toNat_natCast] at hback

/-- The largest significand before 292 zeros stands for the largest number, but the nearest of its
shortest digits are others. -/
theorem not_shortest (h : Representable units) :
    Decimal.shortest .even units ≠ ⟨largest 292, (292 : ℕ)⟩ := by
  intro hs
  have hunits : Binary64.nearestUnits (largest 292 * 10 ^ 292 * unitsPerOne) 1 =
      2 ^ 2098 - 2 ^ 2045 := by
    decide +kernel
  have hlast : Decimal.shortest .even (2 ^ 2098 - 2 ^ 2045) ≠ ⟨largest 292, (292 : ℕ)⟩ := by
    decide +kernel
  have hback := ofNat_of_shortest h hs
  rw [Binary64.ofNat_eq_ofRatio] at hback
  rw [← hunits, Binary64.nearestUnits_of_ofRatio hback] at hlast
  exact hlast hs

/-- The significand and the power of ten of the shortest digits have a finite product. With less
than 292 zeros seventeen digits are too few to reach the range, and with more zeros the largest
significand is harmless. -/
theorem isFinite_of_shortest (h : Representable units)
    (hs : Decimal.shortest .even units = ⟨n, e⟩) (hn : n ≤ largest e) (he : e ≤ maxPower) :
    (ofNat n * ofNat (10 ^ e)).isFinite = true := by
  have hsig : n ≤ 10 ^ 17 := by
    have hle := Decimal.significand_shortest_le .even h
    rwa [hs] at hle
  rcases lt_trichotomy e 292 with hlt | rfl | hgt
  · have hall : (ofNat (10 ^ 17) * ofNat (10 ^ 291)).isFinite = true := by decide +kernel
    refine Binary64.isFinite_ofNat_mul_mono hsig ?_ hall
    exact pow_le_pow_right₀ (by decide) (Nat.le_of_lt_succ hlt)
  · have hall : (ofNat (largest 292 - 1) * ofNat (10 ^ 292)).isFinite = true := by decide +kernel
    have hlt : n < largest 292 := by
      refine hn.lt_of_ne ?_
      intro heq
      rw [heq] at hs
      exact not_shortest h hs
    generalize largest 292 = last at hall hlt
    exact Binary64.isFinite_ofNat_mul_mono (Nat.le_sub_one_of_lt hlt) (le_refl _) hall
  · obtain ⟨k, rfl⟩ := Nat.exists_eq_add_of_le hgt
    have hk : k < 16 := by
      rw [maxPower] at he
      omega
    exact Binary64.isFinite_ofNat_mul_mono hn (le_refl _) (isFinite_largest k hk)

/-- No number is too large to be read from its shortest digits. -/
theorem isTooLarge_shortest (h : Representable units) :
    isTooLarge (.shortest .even units) = false := by
  rcases hs : Decimal.shortest .even units with ⟨n, e | e⟩
  · rcases Nat.eq_zero_or_pos n with rfl | hpos
    · rfl
    · have hfinite : (ofNat (n * 10 ^ e)).isFinite = true := by
        rw [ofNat_of_shortest h hs]
        rfl
      have hn := le_largest hfinite
      have he := exponent_le_of_largest (hpos.trans_le hn)
      exact isTooLarge_of_isFinite he (isFinite_of_shortest h hs hn he)
  · exact isTooLarge_of_neg (Int.negSucc_lt_zero e)

end Json

end Calculator
