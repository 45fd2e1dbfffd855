import Calculator.Proofs.NearestNumber
import Calculator.Proofs.PointedNumeral

namespace Calculator

theorem nearestEven_mul {k : ℕ} (n d : ℕ) (hk : 0 < k) :
    nearestEven (n * k) (d * k) = nearestEven n d := by
  have hlt : 2 * (n % d * k) < d * k ↔ 2 * (n % d) < d := by
    rw [← mul_assoc]
    exact Nat.mul_lt_mul_right hk
  have hgt : d * k < 2 * (n % d * k) ↔ d < 2 * (n % d) := by
    rw [← mul_assoc]
    exact Nat.mul_lt_mul_right hk
  simp only [nearestEven, Nat.mul_mod_mul_right, Nat.mul_div_mul_right n d hk, hlt, hgt]

namespace Binary64

/-- Rounding depends on the quotient alone. -/
theorem nearestUnits_mul {k : ℕ} (n d : ℕ) (hk : 0 < k) :
    nearestUnits (n * k) (d * k) = nearestUnits n d := by
  rw [nearestUnits, nearestUnits, Nat.mul_div_mul_right n d hk, mul_right_comm,
    nearestEven_mul _ _ hk]

theorem ofRatio_mul {k : ℕ} (negative : Bool) (n d : ℕ) (hk : 0 < k) :
    ofRatio negative (n * k) (d * k) = ofRatio negative n d := by
  simp only [ofRatio, nearestUnits_mul n d hk]

/-- A representable count is its own nearest count. -/
theorem nearestUnits_one {units : ℕ} (h : Representable units) : nearestUnits units 1 = units := by
  have hself := nearestEven_mul_self (significand units) (2 ^ spacing units) (Nat.two_pow_pos _)
  rw [h.significand_mul] at hself
  rw [nearestUnits, Nat.div_one, one_mul, hself, h.significand_mul]

theorem ofRatio_eq_finite {n d units : ℕ} (negative : Bool) (h : Representable units)
    (hn : nearestUnits n d = units) : ofRatio negative n d = .finite negative units h := by
  subst hn
  exact dif_pos h.1

theorem nearestUnits_of_ofRatio {negative s : Bool} {n d units : ℕ} {h : Representable units}
    (hx : ofRatio negative n d = .finite s units h) : nearestUnits n d = units := by
  rw [ofRatio] at hx
  split at hx
  · cases hx
    rfl
  · cases hx

theorem ofRatio_one (negative : Bool) {units : ℕ} (h : Representable units) :
    ofRatio negative units 1 = .finite negative units h :=
  ofRatio_eq_finite negative h (nearestUnits_one h)

theorem ofScientific_eq_ofRatio (negative : Bool) (n : ℕ) (exponent : ℤ) :
    ofScientific negative n exponent =
      ofRatio negative (n * 10 ^ exponent.toNat * unitsPerOne) (10 ^ (-exponent).toNat) := by
  rw [ofScientific]
  split
  · rename_i h
    rw [ofDecimal, Int.toNat_of_nonpos (Int.neg_nonpos_of_nonneg h)]
  · rename_i h
    rw [ofDecimal, Int.toNat_of_nonpos (Int.le_of_not_le h), pow_zero, mul_one]

theorem sign_of_ofScientific {negative s : Bool} {n units : ℕ} {exponent : ℤ}
    {h : Representable units} (hx : ofScientific negative n exponent = .finite s units h) :
    negative = s := by
  rw [ofScientific_eq_ofRatio, ofRatio] at hx
  split at hx
  · cases hx
    rfl
  · cases hx

/-- A trailing zero may as well be part of the exponent. -/
theorem ofScientific_ten_mul (negative : Bool) (n : ℕ) (exponent : ℤ) :
    ofScientific negative (n * 10) exponent = ofScientific negative n (exponent + 1) := by
  rw [ofScientific_eq_ofRatio, ofScientific_eq_ofRatio]
  rcases lt_or_ge exponent 0 with h | h
  · have hp : (-exponent).toNat = (-(exponent + 1)).toNat + 1 := by omega
    have hz : exponent.toNat = 0 ∧ (exponent + 1).toNat = 0 := by omega
    rw [hp, hz.1, hz.2, pow_succ, pow_zero, mul_one, mul_one, mul_right_comm]
    exact ofRatio_mul negative _ _ (by decide)
  · have hp : (exponent + 1).toNat = exponent.toNat + 1 := by omega
    have hz : (-exponent).toNat = 0 ∧ (-(exponent + 1)).toNat = 0 := by omega
    rw [hp, hz.1, hz.2, pow_succ', mul_assoc n]

end Binary64

namespace Decimal

/-- The number that is read for a decimal number without a sign. -/
def rounded (d : Decimal) : Binary64 := .ofScientific false d.significand d.exponent

theorem rounded_trim (d : Decimal) : d.trim.rounded = d.rounded := by
  fun_induction trim d with
  | case1 d h ih =>
    have hten : d.significand / 10 * 10 = d.significand :=
      Nat.div_mul_cancel (Nat.dvd_of_mod_eq_zero h.2)
    rw [ih, rounded, ← Binary64.ofScientific_ten_mul, hten, rounded]
  | case2 d h => rfl

theorem rounded_exact {units : ℕ} (h : Representable units) :
    (exact units).rounded = .finite false units h := by
  have hone : (1074 : ℤ).toNat = 1074 ∧ (-1074 : ℤ).toNat = 0 := by decide
  rw [rounded, Binary64.ofScientific_eq_ofRatio, exact, neg_neg, hone.1, hone.2, unitsPerOne]
  generalize 1074 = k
  have hten : units * 5 ^ k * 10 ^ 0 * 2 ^ k = units * 10 ^ k := by
    rw [pow_zero, mul_one, mul_assoc, ← mul_pow, show 5 * 2 = 10 from rfl]
  rw [hten, ← Binary64.ofRatio_one false h, ← Binary64.ofRatio_mul false units 1 (k := 10 ^ k)
    (Nat.pow_pos (by decide)), one_mul]

theorem rounded_of_readsBack {units : ℕ} {d : Decimal} (h : Representable units)
    (hd : readsBack units d = true) : d.rounded = .finite false units h := by
  rw [readsBack, ← rounded] at hd
  cases hx : d.rounded with
  | nan => simp [hx] at hd
  | infinite negative => simp [hx] at hd
  | finite negative v fits =>
    have hs := Binary64.sign_of_ofScientific hx
    simp only [hx, beq_iff_eq] at hd
    subst hs hd
    rfl

/-- The search is for digits that are read back, and so are the exact digits. -/
theorem rounded_shortest (tie : Tie) {units : ℕ} (h : Representable units) :
    (shortest tie units).rounded = .finite false units h := by
  rw [shortest]
  split
  · rename_i hz
    subst hz
    rw [rounded, Binary64.ofScientific_eq_ofRatio]
    simpa using Binary64.ofRatio_one false h
  · rw [rounded_trim]
    generalize hf : List.findSome? _ _ = found
    cases found with
    | none => exact rounded_exact h
    | some d =>
      obtain ⟨exponent, _, hfind⟩ := List.exists_of_findSome?_eq_some hf
      exact rounded_of_readsBack h (List.find?_some hfind)

/-- The digits stand for the number with either sign. -/
theorem ofScientific_shortest (negative : Bool) (tie : Tie) {units : ℕ} (h : Representable units) :
    Binary64.ofScientific negative (shortest tie units).significand (shortest tie units).exponent =
      .finite negative units h := by
  have hback := rounded_shortest tie h
  rw [rounded, Binary64.ofScientific_eq_ofRatio] at hback
  rw [Binary64.ofScientific_eq_ofRatio]
  exact Binary64.ofRatio_eq_finite negative h (Binary64.nearestUnits_of_ofRatio hback)

end Decimal

namespace Layout

/-- In plain layout all decimal numbers are in fixed notation, which is a numeral. -/
theorem denotes_plain (d : Decimal) : Numeral.Denotes (plain.write d) d.rounded := by
  rw [write, plain, Decimal.positional, Decimal.rounded, Binary64.ofScientific]
  simp only [ite_self, List.append_nil, ↓reduceIte]
  split
  · exact denotes_pointed _ 0
  · exact denotes_pointed _ _

/-- The shortest digits of a number in plain layout are a numeral of this number. -/
theorem denotes_shortest (tie : Tie) {units : ℕ} (h : Representable units) :
    Numeral.Denotes (plain.write (.shortest tie units)) (.finite false units h) := by
  rw [← Decimal.rounded_shortest tie h]
  exact denotes_plain _

end Layout

end Calculator
