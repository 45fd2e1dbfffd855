import Calculator.Binary64.Encoding
import Calculator.Decimal.Numeral
import Mathlib.Data.Rat.Floor
import Mathlib.Tactic.FieldSimp
import Mathlib.Tactic.Linarith
import Mathlib.Tactic.Positivity
import Mathlib.Tactic.Ring

namespace Calculator

/-- The whole number nearest to a number that is not negative, the larger of two equally near. -/
def roundHalfUp (x : ℚ) : ℕ := ⌊x + 1 / 2⌋₊

theorem roundHalfUp_eq_iff {x : ℚ} (hx : 0 ≤ x) (n : ℕ) :
    roundHalfUp x = n ↔ (n : ℚ) - 1 / 2 ≤ x ∧ x < n + 1 / 2 := by
  rw [roundHalfUp, Nat.floor_eq_iff (by linarith)]
  constructor
  · intro h
    obtain ⟨hl, hu⟩ := h
    exact ⟨by linarith, by linarith⟩
  · intro h
    obtain ⟨hl, hu⟩ := h
    exact ⟨by linarith, by linarith⟩

theorem quotient_split (n d : ℕ) (hd : 0 < d) :
    (n : ℚ) / d = (n / d : ℕ) + ((n % d : ℕ) : ℚ) / d := by
  have hq : (0 : ℚ) < d := by exact_mod_cast hd
  have hn : (n : ℚ) = d * (n / d : ℕ) + (n % d : ℕ) := by exact_mod_cast (Nat.div_add_mod n d).symm
  field_simp
  linarith

theorem remainder_bounds (n d : ℕ) (hd : 0 < d) :
    (0 : ℚ) ≤ ((n % d : ℕ) : ℚ) / d ∧ ((n % d : ℕ) : ℚ) / d < 1 := by
  constructor
  · positivity
  · rw [div_lt_one (by exact_mod_cast hd)]
    exact_mod_cast Nat.mod_lt n hd

/-- Which half of the way to the next whole number a quotient lies in. -/
theorem remainder_compare (n d : ℕ) (hd : 0 < d) :
    (2 * (n % d) < d ↔ ((n % d : ℕ) : ℚ) / d < 1 / 2) ∧
    (d < 2 * (n % d) ↔ 1 / 2 < ((n % d : ℕ) : ℚ) / d) := by
  have hq : (0 : ℚ) < d := by exact_mod_cast hd
  rw [div_lt_div_iff₀ hq two_pos, div_lt_div_iff₀ two_pos hq, one_mul, mul_comm _ (2 : ℚ)]
  exact ⟨by norm_cast, by norm_cast⟩

theorem nearestUp_eq_roundHalfUp (n d : ℕ) (hd : 0 < d) :
    nearestUp n d = roundHalfUp ((n : ℚ) / d) := by
  have hs := quotient_split n d hd
  obtain ⟨h0, hr⟩ := remainder_bounds n d hd
  symm
  rw [roundHalfUp_eq_iff (by positivity), hs, nearestUp]
  split
  · rename_i h
    have hlt := (remainder_compare n d hd).1.mp h
    exact ⟨by linarith, by linarith⟩
  · rename_i h
    have hge := mt (remainder_compare n d hd).1.mpr h
    push_cast
    exact ⟨by linarith, by linarith⟩

theorem nearestEven_error (n d : ℕ) (hd : 0 < d) :
    |(nearestEven n d : ℚ) - (n : ℚ) / d| ≤ 1 / 2 := by
  have hs := quotient_split n d hd
  obtain ⟨h0, hr⟩ := remainder_bounds n d hd
  have hc := remainder_compare n d hd
  rw [hs, abs_le, nearestEven]
  split
  · rename_i h
    have hlt := hc.1.mp h
    exact ⟨by linarith, by linarith⟩
  · rename_i h
    have hge := mt hc.1.mpr h
    split
    · push_cast
      exact ⟨by linarith, by linarith⟩
    · rename_i h'
      have hle := mt hc.2.mpr h'
      have he : n / d % 2 = 0 ∨ n / d % 2 = 1 := by omega
      rcases he with he | he
      · rw [he]
        push_cast
        exact ⟨by linarith, by linarith⟩
      · rw [he]
        push_cast
        exact ⟨by linarith, by linarith⟩

theorem one_le_distance {a k : ℕ} (h : k ≠ a) : (1 : ℚ) ≤ |(k : ℚ) - a| := by
  have hi : (1 : ℤ) ≤ |(k : ℤ) - a| := Int.one_le_abs (by omega)
  exact_mod_cast hi

/-- No whole number is nearer than one that is at most one half away. -/
theorem nearest_of_half {a k : ℕ} {x : ℚ} (h : |(a : ℚ) - x| ≤ 1 / 2) :
    |(a : ℚ) - x| ≤ |(k : ℚ) - x| := by
  rcases eq_or_ne k a with rfl | hne
  · exact le_refl _
  · have hstep := one_le_distance hne
    have htri := abs_sub_le (k : ℚ) x a
    rw [abs_sub_comm x] at htri
    linarith

theorem unitsPerOne_cast : (unitsPerOne : ℚ) = 2 ^ 1074 := by
  unfold unitsPerOne
  generalize 1074 = k
  push_cast
  rfl

theorem unitsPerOne_pos : 0 < unitsPerOne := by
  unfold unitsPerOne
  generalize 1074 = k
  exact Nat.two_pow_pos k

theorem unitsBound_eq : unitsBound = 2 ^ 1024 * unitsPerOne := by
  unfold unitsBound unitsPerOne
  generalize hb : 1074 = b
  generalize ha : 1024 = a
  have hbits : 2098 = a + b := by omega
  rw [hbits]
  exact Nat.pow_add 2 a b

/-- The spacing of a count is no coarser than any way to write it with 53 bits. -/
theorem spacing_le {significand exponent : ℕ} (hm : significand < 2 ^ 53) :
    Binary64.spacing (significand * 2 ^ exponent) ≤ exponent := by
  rcases Nat.eq_zero_or_pos significand with rfl | hpos
  · simp [Binary64.spacing]
  · have hne : significand * 2 ^ exponent ≠ 0 :=
      Nat.ne_of_gt (Nat.mul_pos hpos (Nat.two_pow_pos exponent))
    have hlt : (significand * 2 ^ exponent).log2 < 53 + exponent := by
      rw [Nat.log2_lt hne, pow_add]
      exact Nat.mul_lt_mul_of_pos_right hm (Nat.two_pow_pos exponent)
    simp only [Binary64.spacing]
    omega

/-- A count of units that a significand of 53 bits can hold, within the range or not. -/
def HasSignificand (units : ℕ) : Prop :=
  ∃ significand exponent, significand < 2 ^ 53 ∧ units = significand * 2 ^ exponent

theorem Representable.hasSignificand {units : ℕ} (h : Representable units) :
    HasSignificand units :=
  h.2

/-- Such a count is its significand times its spacing. -/
theorem HasSignificand.significand_mul {units : ℕ} (h : HasSignificand units) :
    Binary64.significand units * 2 ^ Binary64.spacing units = units := by
  obtain ⟨m, e, hm, rfl⟩ := h
  exact Nat.div_mul_cancel (Dvd.dvd.mul_left (pow_dvd_pow 2 (spacing_le hm)) m)

theorem Representable.significand_mul {units : ℕ} (h : Representable units) :
    Binary64.significand units * 2 ^ Binary64.spacing units = units :=
  h.hasSignificand.significand_mul

theorem Binary64.significand_lt (units : ℕ) : significand units < 2 ^ 53 := by
  simpa [significand] using quotient_lt units 1

namespace Binary64

/-- A count that is spaced has all of its 53 bits. -/
theorem two_pow_mul_spacing_le {units : ℕ} (h : 0 < spacing units) :
    2 ^ 52 * 2 ^ spacing units ≤ units := by
  have hlog : 52 + spacing units = units.log2 := by
    simp only [spacing] at h ⊢
    omega
  rw [← pow_add, hlog]
  apply Nat.log2_self_le
  intro h0
  rw [h0, Nat.log2_zero] at hlog
  omega

/-- A count with a finer spacing is smaller. -/
theorem finer_le {significand exponent s : ℕ} (hm : significand < 2 ^ 53) (he : exponent < s) :
    significand * 2 ^ exponent ≤ 2 ^ 52 * 2 ^ s := by
  have hexp : 2 ^ exponent ≤ 2 ^ (s - 1) := Nat.pow_le_pow_right two_pos (by omega)
  calc significand * 2 ^ exponent ≤ 2 ^ 53 * 2 ^ (s - 1) := Nat.mul_le_mul hm.le hexp
    _ = 2 ^ 52 * 2 ^ s := by
      rw [← pow_add, ← pow_add]
      congr 1
      omega

theorem hasSignificand_nearestUnits (n d : ℕ) : HasSignificand (nearestUnits n d) :=
  nearestUnits_fits n d

variable {n n' d u v : ℕ}

/-- The distance of a multiple of a spacing, measured in spacings. -/
theorem distance_in_spacings (n : ℕ) (hd : 0 < d) (s k : ℕ) :
    |((k * 2 ^ s : ℕ) : ℚ) - (n : ℚ) / d| =
      |(k : ℚ) - (n : ℚ) / (d * 2 ^ s : ℕ)| * 2 ^ s := by
  have hdq : (0 : ℚ) < d := by exact_mod_cast hd
  have hg : (0 : ℚ) < 2 ^ s := by positivity
  have hx : (n : ℚ) / d = (n : ℚ) / (d * 2 ^ s : ℕ) * 2 ^ s := by
    push_cast
    field_simp
  rw [hx, ← abs_of_pos hg, ← abs_mul, abs_of_pos hg, sub_mul]
  push_cast
  rfl

/-- A count is a multiple of the spacing of a quotient, or it is finer and comes before the count
with which this spacing begins, and the quotient does not. -/
theorem multiple_or_before (n : ℕ) (hd : 0 < d) (hv : HasSignificand v) :
    (∃ k, v = k * 2 ^ spacing (n / d)) ∨
      (v : ℚ) ≤ (2 ^ 52 * 2 ^ spacing (n / d) : ℕ) ∧
      ((2 ^ 52 * 2 ^ spacing (n / d) : ℕ) : ℚ) ≤ (n : ℚ) / d := by
  obtain ⟨significand, exponent, hm, rfl⟩ := hv
  set s := spacing (n / d) with hs
  by_cases he : s ≤ exponent
  · left
    refine ⟨significand * 2 ^ (exponent - s), ?_⟩
    rw [mul_assoc, ← pow_add, Nat.sub_add_cancel he]
  · right
    have hq : 2 ^ 52 * 2 ^ s ≤ n / d := two_pow_mul_spacing_le (by omega)
    constructor
    · exact_mod_cast finer_le hm (Nat.lt_of_not_le he)
    · rw [le_div_iff₀ (by exact_mod_cast hd)]
      exact_mod_cast (Nat.le_div_iff_mul_le hd).mp hq

/-- Among all counts of units that have a significand of 53 bits, the rounded one is nearest. -/
theorem nearestUnits_nearest (n : ℕ) (hd : 0 < d) (hv : HasSignificand v) :
    |(nearestUnits n d : ℚ) - (n : ℚ) / d| ≤ |(v : ℚ) - (n : ℚ) / d| := by
  have hmul : ∀ k : ℕ, |(nearestUnits n d : ℚ) - (n : ℚ) / d| ≤
      |((k * 2 ^ spacing (n / d) : ℕ) : ℚ) - (n : ℚ) / d| := by
    intro k
    have herr := nearestEven_error n (d * 2 ^ spacing (n / d))
      (Nat.mul_pos hd (Nat.two_pow_pos _))
    rw [nearestUnits, distance_in_spacings n hd, distance_in_spacings n hd]
    exact mul_le_mul_of_nonneg_right (nearest_of_half herr) (by positivity)
  rcases multiple_or_before n hd hv with ⟨k, rfl⟩ | ⟨hv, hle⟩
  · exact hmul k
  · apply (hmul (2 ^ 52)).trans
    rw [abs_of_nonpos (sub_nonpos.mpr hle), abs_of_nonpos (sub_nonpos.mpr (hv.trans hle))]
    exact neg_le_neg (sub_le_sub_right hv _)

end Binary64

variable {n n' d u v : ℕ}

/-- Two counts with significands of 53 bits are at least one part in 2^53 of the larger one
apart. -/
theorem HasSignificand.gap (hu : HasSignificand u) (hv : HasSignificand v) (h : u < v) :
    v ≤ 2 ^ 53 * (v - u) := by
  obtain ⟨m, e, hm, rfl⟩ := hu
  have hsig := Binary64.significand_lt v
  have hmul := hv.significand_mul
  have hlow := @Binary64.two_pow_mul_spacing_le v
  generalize Binary64.significand v = sig at hsig hmul
  generalize Binary64.spacing v = s at hmul hlow
  subst hmul
  rcases Nat.lt_or_ge e s with he | he
  · -- the smaller one is finer, and the larger one has all of its bits
    obtain ⟨k, rfl⟩ : ∃ k, s = k + 1 := ⟨s - 1, by omega⟩
    have hfull : 2 ^ 52 ≤ sig := Nat.le_of_mul_le_mul_right (hlow (by omega)) (Nat.two_pow_pos _)
    have hfine : m * 2 ^ e ≤ (2 ^ 53 - 1) * 2 ^ k :=
      Nat.mul_le_mul (by omega) (Nat.pow_le_pow_right two_pos (by omega))
    rw [pow_succ', ← mul_assoc] at h ⊢
    calc sig * 2 * 2 ^ k ≤ 2 ^ 53 * (sig * 2 - (2 ^ 53 - 1)) * 2 ^ k :=
          Nat.mul_le_mul_right _ (by omega)
      _ = 2 ^ 53 * (sig * 2 * 2 ^ k - (2 ^ 53 - 1) * 2 ^ k) := by rw [mul_assoc, Nat.sub_mul]
      _ ≤ 2 ^ 53 * (sig * 2 * 2 ^ k - m * 2 ^ e) :=
          Nat.mul_le_mul_left _ (Nat.sub_le_sub_left hfine _)
  · -- both are multiples of the spacing
    have hm' : m * 2 ^ e = m * 2 ^ (e - s) * 2 ^ s := by
      rw [mul_assoc, ← pow_add, Nat.sub_add_cancel he]
    rw [hm'] at h ⊢
    have hlt : m * 2 ^ (e - s) < sig := Nat.lt_of_mul_lt_mul_right h
    rw [← Nat.sub_mul, ← mul_assoc]
    exact Nat.mul_le_mul_right _ (by omega)

theorem HasSignificand.le_distance (hu : HasSignificand u) (hv : HasSignificand v) (h : v ≠ u) :
    (u : ℚ) ≤ 2 ^ 53 * |(v : ℚ) - u| := by
  rcases Nat.lt_or_gt_of_ne h with hlt | hlt
  · have hgap : ((u : ℕ) : ℚ) ≤ ((2 ^ 53 * (u - v) : ℕ) : ℚ) := by exact_mod_cast hv.gap hu hlt
    rw [Nat.cast_mul, Nat.cast_sub hlt.le, Nat.cast_pow, Nat.cast_ofNat] at hgap
    rwa [abs_sub_comm, abs_of_pos (by simpa using hlt)]
  · have hgap : ((v : ℕ) : ℚ) ≤ ((2 ^ 53 * (v - u) : ℕ) : ℚ) := by exact_mod_cast hu.gap hv hlt
    rw [Nat.cast_mul, Nat.cast_sub hlt.le, Nat.cast_pow, Nat.cast_ofNat] at hgap
    rw [abs_of_pos (by simpa using hlt)]
    exact le_trans (by exact_mod_cast hlt.le) hgap

/-- What is nearer to the larger of two numbers lies above their middle. -/
theorem middle_le_of_nearer {a b x : ℚ} (hab : a < b) (h : |b - x| ≤ |a - x|) : a + b ≤ 2 * x := by
  rcases abs_cases (b - x) with hb | hb
  · rcases abs_cases (a - x) with ha | ha
    · linarith
    · linarith
  · rcases abs_cases (a - x) with ha | ha
    · linarith
    · linarith

theorem le_middle_of_nearer {a b x : ℚ} (hab : a < b) (h : |a - x| ≤ |b - x|) : 2 * x ≤ a + b := by
  have hneg := middle_le_of_nearer (neg_lt_neg hab) (x := -x)
    (by rwa [← neg_sub', abs_neg, ← neg_sub', abs_neg])
  linarith

namespace Binary64

/-- Rounding keeps the order. -/
theorem nearestUnits_mono (hd : 0 < d) (h : n ≤ n') : nearestUnits n d ≤ nearestUnits n' d := by
  by_contra hlt
  have hab : (nearestUnits n' d : ℚ) < nearestUnits n d := by exact_mod_cast not_le.mp hlt
  have hx := middle_le_of_nearer hab (nearestUnits_nearest n hd (hasSignificand_nearestUnits n' d))
  have hy := le_middle_of_nearer hab (nearestUnits_nearest n' hd (hasSignificand_nearestUnits n d))
  -- both are the middle, so they are equal and are rounded alike
  have hle : (n' : ℚ) / d ≤ n / d := by linarith
  rw [div_le_div_iff_of_pos_right (by exact_mod_cast hd)] at hle
  have heq : n = n' := Nat.le_antisymm h (by exact_mod_cast hle)
  exact hlt (heq ▸ le_refl _)

/-- A count is what everything is rounded to that is nearer to it than half of the smallest gap. -/
theorem nearestUnits_eq_of_near (hd : 0 < d) (hu : HasSignificand u)
    (h : 2 ^ 54 * |(n : ℚ) / d - u| < u) : nearestUnits n d = u := by
  by_contra hne
  have hnear := nearestUnits_nearest n hd hu
  have hgap := hu.le_distance (hasSignificand_nearestUnits n d) hne
  have htri := abs_sub_le (nearestUnits n d : ℚ) ((n : ℚ) / d) u
  rw [abs_sub_comm (u : ℚ)] at hnear
  linarith

end Binary64

end Calculator
