import Calculator.Proofs.CorrectRounding
import Calculator.Proofs.ExactArithmetic
import Calculator.Proofs.ZeroDivisors

namespace Calculator

namespace Binary64

variable {a b : Binary64}

theorem withSign_natAbs (z : ℤ) (d : ℚ) :
    withSign (z < 0) ((z.natAbs : ℚ) / d) = (z : ℚ) / d := by
  rcases lt_or_ge z 0 with hz | hz
  · have habs : (z.natAbs : ℚ) = -z := by
      rw [Nat.cast_natAbs, abs_of_neg hz, Int.cast_neg]
    simp [withSign, hz, habs, neg_div]
  · have habs : (z.natAbs : ℚ) = z := by rw [Nat.cast_natAbs, abs_of_nonneg hz]
    simp [withSign, not_lt.mpr hz, habs]

theorem withSign_zero (negative : Bool) : withSign negative 0 = 0 := by
  cases negative <;> simp [withSign]

theorem withSign_not (negative : Bool) (size : ℚ) :
    withSign (!negative) size = -withSign negative size := by
  cases negative <;> simp [withSign]

theorem toRat_zero (negative : Bool) : (zero negative).toRat = 0 := by
  rw [zero, toRat_eq_withSign, Nat.cast_zero, zero_div, withSign_zero]

theorem isRounded_zero (negative : Bool) {q : ℚ} (hq : q = 0) : (zero negative).IsRounded q := by
  have hratio : ofRatio negative 0 1 = zero negative := ofRatio_one negative representable_zero
  have hzero : withSign negative (((0 : ℕ) : ℚ) / (1 : ℕ) / unitsPerOne) = q := by
    rw [Nat.cast_zero, zero_div, zero_div, withSign_zero, hq]
  have hround := isRounded_ofRatio negative 0 Nat.one_pos
  rwa [hratio, hzero] at hround

/-- The sum of finite numbers is the exact sum, rounded once. -/
theorem isRounded_add (ha : a.isFinite = true) (hb : b.isFinite = true) :
    (a + b).IsRounded (a.toRat + b.toRat) := by
  obtain ⟨s, u, hu, rfl⟩ := exists_of_isFinite ha
  obtain ⟨t, v, hv, rfl⟩ := exists_of_isFinite hb
  change IsRounded (if signed s u + signed t v = 0 then _ else _) _
  rw [toRat, toRat, ← add_div, ← Int.cast_add]
  generalize signed s u + signed t v = sum
  by_cases hsum : sum = 0
  · have hzero : (sum : ℚ) / unitsPerOne = 0 := by
      rw [hsum, Int.cast_zero, zero_div]
    rw [if_pos hsum]
    exact isRounded_zero (s && t) hzero
  · rw [if_neg hsum]
    have hround := isRounded_ofRatio (sum < 0) sum.natAbs Nat.one_pos
    rwa [Nat.cast_one, div_one, withSign_natAbs] at hround

theorem toRat_neg (x : Binary64) : (-x).toRat = -x.toRat := by
  cases x with
  | finite negative units fits =>
    change toRat (.finite (!negative) units fits) = _
    rw [toRat_eq_withSign, toRat_eq_withSign, withSign_not]
  | infinite negative => exact neg_zero.symm
  | nan => exact neg_zero.symm

theorem isFinite_neg (x : Binary64) : (-x).isFinite = x.isFinite := by
  cases x <;> rfl

/-- The difference of finite numbers is the exact difference, rounded once. -/
theorem isRounded_sub (ha : a.isFinite = true) (hb : b.isFinite = true) :
    (a - b).IsRounded (a.toRat - b.toRat) := by
  have hneg : (-b).isFinite = true := by rw [isFinite_neg, hb]
  rw [sub_eq_add_neg, ← toRat_neg]
  exact isRounded_add ha hneg

theorem withSign_mul (s t : Bool) (x y : ℚ) :
    withSign s x * withSign t y = withSign (s ^^ t) (x * y) := by
  cases s <;> cases t <;> simp [withSign]

/-- The product of finite numbers is the exact product, rounded once. -/
theorem isRounded_mul (ha : a.isFinite = true) (hb : b.isFinite = true) :
    (a * b).IsRounded (a.toRat * b.toRat) := by
  obtain ⟨s, u, hu, rfl⟩ := exists_of_isFinite ha
  obtain ⟨t, v, hv, rfl⟩ := exists_of_isFinite hb
  have hround := isRounded_ofRatio (s ^^ t) (u * v) unitsPerOne_pos
  change (mul _ _).IsRounded _
  rw [mul, toRat_eq_withSign, toRat_eq_withSign, withSign_mul, div_mul_div_comm, ← div_div,
    ← Nat.cast_mul]
  exact hround

theorem withSign_div (s t : Bool) (x y : ℚ) :
    withSign s x / withSign t y = withSign (s ^^ t) (x / y) := by
  cases s <;> cases t <;> simp [withSign, neg_div, div_neg]

/-- The quotient of finite numbers is the exact quotient, rounded once. -/
theorem isRounded_div (ha : a.isFinite = true) (hb : b.isFinite = true) (h : b.isZero = false) :
    (a / b).IsRounded (a.toRat / b.toRat) := by
  obtain ⟨s, u, hu, rfl⟩ := exists_of_isFinite ha
  obtain ⟨t, v, hv, rfl⟩ := exists_of_isFinite hb
  have hne : v ≠ 0 := beq_eq_false_iff_ne.mp h
  have hround := isRounded_ofRatio (s ^^ t) (u * unitsPerOne) (Nat.pos_of_ne_zero hne)
  have hU : (unitsPerOne : ℚ) ≠ 0 := Nat.cast_ne_zero.mpr unitsPerOne_pos.ne'
  change (div _ _).IsRounded _
  rw [div, if_neg hne, toRat_eq_withSign, toRat_eq_withSign, withSign_div,
    div_div_div_cancel_right₀ hU]
  rwa [Nat.cast_mul, div_right_comm, mul_div_cancel_right₀ _ hU] at hround

theorem isZero_eq_false (h : b.toRat ≠ 0) : b.isZero = false := by
  apply Bool.eq_false_iff.mpr
  intro hz
  apply h
  rcases b.isZero_iff.mp hz with rfl | rfl
  · exact toRat_zero false
  · exact toRat_zero true

end Binary64

/-- An operation on finite numbers that has an exact result gives this result, rounded once. -/
theorem Operation.isRounded_result {op : Operation} {a b : Binary64} {q : ℚ}
    (ha : a.isFinite = true) (hb : b.isFinite = true)
    (h : op.applyExact a.toRat b.toRat = some q) : (op.result a b).IsRounded q := by
  cases op with
  | add =>
    cases h
    exact Binary64.isRounded_add ha hb
  | subtract =>
    cases h
    exact Binary64.isRounded_sub ha hb
  | multiply =>
    cases h
    exact Binary64.isRounded_mul ha hb
  | divide =>
    rw [applyExact] at h
    split at h
    · cases h
    · rename_i hb0
      obtain rfl := Option.some.inj h
      exact Binary64.isRounded_div ha hb (Binary64.isZero_eq_false hb0)

theorem Operation.ne_zero_of_applyExact {op : Operation} {a b : Binary64} {q : ℚ}
    (h : op.applyExact a.toRat b.toRat = some q) :
    op = .divide → b ≠ .zero false ∧ b ≠ .zero true := by
  rintro rfl
  rw [applyExact] at h
  split at h
  · cases h
  · rename_i hb
    have hz := mt b.isZero_iff.mpr (Bool.eq_false_iff.mp (Binary64.isZero_eq_false hb))
    exact not_or.mp hz

/-- A node whose operands come to finite numbers comes to the exact result, rounded once. There is
no exact result of a division by zero only. -/
theorem Expr.exists_rounded_value {op : Operation} {left right : Expr} {a b : Binary64} {q : ℚ}
    (hl : left.value = .ok a) (hr : right.value = .ok b) (ha : a.isFinite = true)
    (hb : b.isFinite = true) (h : op.applyExact a.toRat b.toRat = some q) :
    ∃ x, (binary op left right).value = .ok x ∧ x.IsRounded q := by
  refine ⟨op.result a b, ?_, Operation.isRounded_result ha hb h⟩
  rw [value_binary, hl, hr]
  exact Operation.apply_eq_result (Operation.ne_zero_of_applyExact h)

/-- A division of two numbers fails if the second one is a zero, and has the rounded quotient as its
value if not. -/
theorem Expr.value_quotient {left right : Expr} {a b : Binary64} (hl : left.value = .ok a)
    (hr : right.value = .ok b) : (binary .divide left right).value =
      if b.isZero then .error .divisionByZero else .ok (a / b) := by
  rw [value_binary, hl, hr]
  rfl

theorem Expr.value_negate_number (x : Binary64) : (negate (number x)).value = .ok (-x) := by
  rw [value_negate, value_number]
  rfl

/-- A division of finite numbers, wherever it stands in an expression, fails by a zero and leaves
the whole expression without a value. By any other number it has a value, and this is the exact
quotient rounded: never what is not a number, and an infinity only from the overflow bound on. -/
theorem quotient_of_finite_is_rounded (e : Expr) : ∀ left right a b,
    .binary .divide left right ∈ e.parts → left.value = .ok a → right.value = .ok b →
    a.isFinite = true → b.isFinite = true →
    (b = .zero false ∨ b = .zero true →
      (Expr.binary .divide left right).value = .error .divisionByZero ∧
        e.value = .error .divisionByZero) ∧
    (¬ (b = .zero false ∨ b = .zero true) →
      ∃ x, (Expr.binary .divide left right).value = .ok x ∧ x ≠ .nan ∧
        (x.isFinite = true ↔ |a.toRat / b.toRat| < (Binary64.overflowBound : ℚ)) ∧
        x.IsRounded (a.toRat / b.toRat)) := by
  intro left right a b hmem hl hr ha hb
  have hvalue := Expr.value_quotient hl hr
  constructor
  · intro hz
    rw [if_pos (b.isZero_iff.mpr hz)] at hvalue
    exact ⟨hvalue, Expr.value_of_part_fails hmem hvalue⟩
  · intro hz
    have hne : b.isZero = false := Bool.eq_false_iff.mpr (mt b.isZero_iff.mp hz)
    rw [hne, if_neg Bool.false_ne_true] at hvalue
    have hround := Binary64.isRounded_div ha hb hne
    exact ⟨a / b, hvalue, hround.ne_nan, hround.isFinite_iff, hround⟩

/-- Divisors on either side of the bound: 2^1023 by the negative of one half and by that of the next
larger number. -/
theorem quotients_around_bound :
    let a := Binary64.ofBits 0x7fe0000000000000
    let half := Binary64.ofBits 0x3fe0000000000000
    let next := Binary64.ofBits 0x3fe0000000000001
    let quotient := fun b => Expr.binary .divide (.number a) (.negate (.number b))
    (quotient half).value = .ok (.infinite true) ∧
    ∃ x, (quotient next).value = .ok x ∧ x.isFinite = true := by
  intro a half next quotient
  have hhalf := quotient_of_finite_is_rounded (quotient half) (.number a) (.negate (.number half)) a
    (-half) (Expr.mem_parts_self _) (Expr.value_number a) (Expr.value_negate_number half)
    (by decide +kernel) (by decide +kernel)
  have hnext := quotient_of_finite_is_rounded (quotient next) (.number a) (.negate (.number next)) a
    (-next) (Expr.mem_parts_self _) (Expr.value_number a) (Expr.value_negate_number next)
    (by decide +kernel) (by decide +kernel)
  obtain ⟨x, hx, _, _, hround⟩ := hhalf.2 (by decide +kernel)
  obtain ⟨y, hy, _, hfinite, _⟩ := hnext.2 (by decide +kernel)
  constructor
  · rw [Binary64.IsRounded, if_neg (by decide +kernel)] at hround
    rw [hx, hround]
    decide +kernel
  · exact ⟨y, hy, hfinite.mpr (by decide +kernel)⟩

/-- The quotient of 10^308 by one tenth is infinite, though both are finite and the divisor is not
zero. -/
theorem quotient_of_finite_is_infinite :
    let a := Binary64.ofNat (10 ^ 308)
    let b := Binary64.ofDecimal false 1 1
    let e := Expr.binary .divide (.number a) (.number b)
    a.isFinite = true ∧ b.isFinite = true ∧ e.value = .ok (.infinite false) ∧
    ¬ (e.value = .error .divisionByZero ∨ ∃ x, e.value = .ok x ∧ x.isFinite = true) := by
  intro a b e
  have hvalue : e.value = .ok (.infinite false) := by decide +kernel
  refine ⟨by decide +kernel, by decide +kernel, hvalue, ?_⟩
  rw [hvalue]
  rintro (h | ⟨x, h, hx⟩)
  · cases h
  · cases h
    cases hx

end Calculator
