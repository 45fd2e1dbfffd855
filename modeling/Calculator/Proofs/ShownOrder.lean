import Calculator.Proofs.DecimalForm

namespace Calculator

/-- A number without its last digit, rounded as when a place is dropped. -/
def dropDigit (n : ℕ) : ℕ := if n < 10 then 0 else nearestUp n 10

theorem nearestUp_ten (n : ℕ) : nearestUp n 10 = (n + 5) / 10 := by
  rw [nearestUp]
  split
  · omega
  · omega

theorem dropDigit_mono : Monotone dropDigit := by
  intro m n h
  rw [dropDigit, dropDigit, nearestUp_ten, nearestUp_ten]
  split
  · exact Nat.zero_le _
  · rw [if_neg (by omega)]
    omega

theorem dropDigit_mul_ten (n : ℕ) : dropDigit (n * 10) = n := by
  rcases Nat.eq_zero_or_pos n with rfl | hn
  · rfl
  · rw [dropDigit, if_neg (by omega), nearestUp, if_pos (by omega),
      Nat.mul_div_cancel n (by decide)]

/-- Zeros at the end are dropped without a trace. -/
theorem iterate_dropDigit_mul (k n : ℕ) : dropDigit^[k] (n * 10 ^ k) = n := by
  induction k with
  | zero => exact Nat.mul_one n
  | succ k ih => rw [Function.iterate_succ_apply, pow_succ, ← mul_assoc, dropDigit_mul_ten, ih]

namespace Scaled

variable {s t : Scaled} {u v d : ℕ}

theorem toRat_dropTimes (k n p : ℕ) :
    (dropTimes k ⟨n, p + k⟩).toRat = (dropDigit^[k] n : ℕ) / 10 ^ p := by
  induction k generalizing n with
  | zero => rfl
  | succ k ih =>
    rw [dropTimes, dropPlace, Function.iterate_succ_apply, dropDigit]
    split
    · have hzero : dropDigit^[k] 0 = 0 := Function.iterate_fixed rfl k
      rw [dropTimes_nothing, hzero, toRat, Nat.cast_zero, zero_div, zero_div]
    · exact ih _

/-- What is kept of a number can be told from its digits with any number of places. -/
theorem toRat_cap {k : ℕ} (h : s.places ≤ 28 + k) : s.cap.toRat =
    (dropDigit^[k] (s.coefficient * 10 ^ (28 + k - s.places)) : ℕ) / 10 ^ 28 := by
  obtain ⟨c, p⟩ := s
  simp only at h ⊢
  rcases Nat.le_total p 28 with hp | hp
  · have hpow : c * 10 ^ (28 + k - p) = c * 10 ^ (28 - p) * 10 ^ k := by
      rw [mul_assoc, ← pow_add, Nat.sub_add_comm hp]
    have hten : (10 : ℚ) ^ 28 = 10 ^ (28 - p) * 10 ^ p := by rw [← pow_add, Nat.sub_add_cancel hp]
    rw [cap_of_places_le hp, hpow, iterate_dropDigit_mul, toRat, hten]
    push_cast
    field_simp
  · obtain ⟨j, rfl⟩ := Nat.exists_eq_add_of_le hp
    obtain ⟨i, rfl⟩ : ∃ i, k = j + i := Nat.exists_eq_add_of_le (by omega)
    have hi : 28 + (j + i) - (28 + j) = i := by omega
    rw [hi, Function.iterate_add_apply, iterate_dropDigit_mul, cap, maxPlaces,
      Nat.add_sub_cancel_left, toRat_dropTimes]

theorem cast_shift (s : Scaled) {q : ℕ} (h : s.places ≤ q) :
    ((s.coefficient * 10 ^ (q - s.places) : ℕ) : ℚ) = s.toRat * 10 ^ q := by
  have hpow : (10 : ℚ) ^ q = 10 ^ (q - s.places) * 10 ^ s.places := by
    rw [← pow_add, Nat.sub_add_cancel h]
  rw [toRat, hpow]
  push_cast
  field_simp

/-- Keeping to 28 places keeps the order, whatever number of places there were. -/
theorem cap_mono (h : s.toRat ≤ t.toRat) : s.cap.toRat ≤ t.cap.toRat := by
  have hs : s.places ≤ 28 + (s.places + t.places) := by omega
  have ht : t.places ≤ 28 + (s.places + t.places) := by omega
  have hshift : s.coefficient * 10 ^ (28 + (s.places + t.places) - s.places) ≤
      t.coefficient * 10 ^ (28 + (s.places + t.places) - t.places) := by
    have hq : s.toRat * 10 ^ (28 + (s.places + t.places)) ≤
        t.toRat * 10 ^ (28 + (s.places + t.places)) :=
      mul_le_mul_of_nonneg_right h (by positivity)
    rw [← cast_shift s hs, ← cast_shift t ht] at hq
    exact_mod_cast hq
  rw [toRat_cap hs, toRat_cap ht]
  gcongr
  exact dropDigit_mono.iterate _ hshift

/-- What a number is before it is kept to 28 places is less than it by no more than one part in
2^83. -/
theorem exists_uncapped (h : Representable u) : ∃ s : Scaled, ofUnits u = s.cap ∧
    (u : ℚ) / unitsPerOne * (1 - 1 / 2 ^ 83) ≤ s.toRat ∧ s.toRat ≤ (u : ℚ) / unitsPerOne := by
  have hpos := Binary64.exact_nonneg u
  rcases Nat.lt_or_ge 1074 (Binary64.spacing u) with hs | hs
  · have hplaces : (ofUnits u).places ≤ 28 := by
      rw [ofUnits_whole h hs]
      exact Nat.zero_le _
    refine ⟨ofUnits u, (cap_of_places_le hplaces).symm, ?_⟩
    rw [toRat_ofUnits_of_lt_spacing h hs]
    constructor
    · linarith
    · exact le_refl _
  · have hm : (⟨Binary64.significand u, 0⟩ : Scaled).toRat = Binary64.significand u := by
      simp [toRat]
    refine ⟨_, ofUnits_halved hs, ?_⟩
    rw [h.exact_eq hs, ← hm]
    exact ⟨halveTimes_loss (Nat.sub_le _ _) _, (halveTimes_bounds _ _).2⟩

/-- Numbers are so far apart that what halving loses does not turn them round. -/
theorem toRat_ofUnits_mono (hu : Representable u) (hv : Representable v) (h : u ≤ v) :
    (ofUnits u).toRat ≤ (ofUnits v).toRat := by
  rcases h.eq_or_lt with rfl | hlt
  · exact le_refl _
  · obtain ⟨s, hs, _, hsu⟩ := exists_uncapped hu
    obtain ⟨t, ht, hvt, _⟩ := exists_uncapped hv
    rw [hs, ht]
    refine cap_mono (hsu.trans (le_trans ?_ hvt))
    have hgap := hu.hasSignificand.gap hv.hasSignificand hlt
    have hq : (v : ℚ) ≤ 2 ^ 53 * (v - u) := by
      rw [← Nat.cast_sub h]
      exact_mod_cast hgap
    have hloss : (u : ℚ) ≤ v * (1 - 1 / 2 ^ 83) := by linarith
    rw [div_mul_eq_mul_div]
    exact div_le_div_of_nonneg_right hloss (Nat.cast_nonneg _)

end Scaled

/-- The number that a run of digits with at most one point stands for. -/
def Numeral.exact (run : List Char) : ℚ := digits run / 10 ^ places run

/-- The number that a text in fixed notation stands for. -/
def denoted : List Char → ℚ
  | '-' :: run => -Numeral.exact run
  | run => Numeral.exact run

theorem Numeral.exact_pointed (n places : ℕ) :
    exact (Decimal.pointed n places) = (n : ℚ) / 10 ^ places := by
  rw [exact, digits_pointed, places_pointed]

theorem denoted_sign_pointed (negative : Bool) (n places : ℕ) :
    denoted (Binary64.sign negative ++ Decimal.pointed n places) =
      if negative then -((n : ℚ) / 10 ^ places) else n / 10 ^ places := by
  rw [← Numeral.exact_pointed]
  cases negative with
  | true => rfl
  | false =>
    obtain ⟨whole, fraction, hne, hd, _, _, _, hp⟩ := exists_pointed_parts n places
    obtain ⟨first, others, rfl⟩ := List.exists_cons_of_ne_nil hne
    have hfirst : first ≠ '-' := by
      rintro rfl
      exact absurd (hd '-' (List.mem_append_left _ List.mem_cons_self)) (by decide)
    rw [hp]
    simp only [Binary64.sign, Bool.false_eq_true, if_false, List.nil_append, List.cons_append]
    rw [denoted]
    intro run h
    exact hfirst (List.head_eq_of_cons_eq h)

namespace Binary64

/-- The number that is shown for a count of units. -/
def shown (decimals units : ℕ) : ℚ :=
  roundHalfUp ((Scaled.ofUnits units).toRat * 10 ^ min decimals 28) / 10 ^ min decimals 28

theorem denoted_fixed (negative : Bool) {units : ℕ} (fits : Representable units) (decimals : ℕ) :
    denoted (fixed decimals (.finite negative units fits)) =
      if negative then -shown decimals units else shown decimals units := by
  have hs : ((Scaled.ofUnits units).round (min decimals 28)).trim.toRat = shown decimals units := by
    rw [Scaled.toRat_trim, Scaled.toRat_round, shown]
  rw [fixed_finite]
  generalize ((Scaled.ofUnits units).round (min decimals 28)).trim = s at hs
  simp only [Scaled.text, denoted_sign_pointed]
  rw [← hs, Scaled.toRat]
  -- a zero has no sign to show
  rcases Nat.eq_zero_or_pos s.coefficient with hc | hc
  · simp [hc]
  · simp [hc.ne']

theorem shown_nonneg (decimals units : ℕ) : 0 ≤ shown decimals units := by
  rw [shown]
  positivity

theorem shown_mono {u v : ℕ} (hu : Representable u) (hv : Representable v) (h : u ≤ v)
    (decimals : ℕ) : shown decimals u ≤ shown decimals v := by
  have hle := Scaled.toRat_ofUnits_mono hu hv h
  rw [shown, shown, roundHalfUp, roundHalfUp]
  gcongr

theorem shown_zero (decimals : ℕ) : shown decimals 0 = 0 := by
  have hzero : ((0 : ℕ) : ℚ) / unitsPerOne = (0 : ℕ) := by rw [Nat.cast_zero, zero_div]
  have hround := roundHalfUp_natCast 0
  rw [Nat.cast_zero] at hround
  rw [shown, Scaled.toRat_ofUnits_eq representable_zero hzero, hzero, Nat.cast_zero, zero_mul,
    hround, Nat.cast_zero, zero_div]

theorem exact_le_exact_iff {u v : ℕ} :
    (u : ℚ) / unitsPerOne ≤ (v : ℚ) / unitsPerOne ↔ u ≤ v := by
  have hU : (0 : ℚ) < unitsPerOne := by exact_mod_cast unitsPerOne_pos
  rw [div_le_div_iff_of_pos_right hU, Nat.cast_le]

theorem exact_le_zero_iff {u : ℕ} : (u : ℚ) / unitsPerOne ≤ 0 ↔ u = 0 := by
  have h := @exact_le_exact_iff u 0
  rwa [Nat.cast_zero, zero_div, Nat.le_zero] at h

/-- What is shown of numbers is in their order. -/
theorem denoted_fixed_mono {x y : Binary64} (hx : x.isFinite = true) (hy : y.isFinite = true)
    (h : x.toRat ≤ y.toRat) (decimals : ℕ) :
    denoted (x.fixed decimals) ≤ denoted (y.fixed decimals) := by
  obtain ⟨s, u, hu, rfl⟩ := exists_of_isFinite hx
  obtain ⟨t, v, hv, rfl⟩ := exists_of_isFinite hy
  rw [toRat_finite, toRat_finite] at h
  rw [denoted_fixed, denoted_fixed]
  cases s with
  | false =>
    cases t with
    | false => exact shown_mono hu hv (exact_le_exact_iff.mp h) decimals
    | true =>
      -- a number that is not above another one of the other sign is zero, and so is that one
      have hu0 := exact_nonneg u
      have hv0 := exact_nonneg v
      simp only [Bool.false_eq_true, if_false, if_true] at h ⊢
      have huz : u = 0 := exact_le_zero_iff.mp (by linarith)
      have hvz : v = 0 := exact_le_zero_iff.mp (by linarith)
      rw [huz, hvz, shown_zero, neg_zero]
  | true =>
    have hu0 := shown_nonneg decimals u
    have hv0 := shown_nonneg decimals v
    cases t with
    | false => exact (neg_nonpos.mpr hu0).trans hv0
    | true =>
      have hvu := exact_le_exact_iff.mp (neg_le_neg_iff.mp h)
      exact neg_le_neg (shown_mono hv hu hvu decimals)

end Binary64

end Calculator
