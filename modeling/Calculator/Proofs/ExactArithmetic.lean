import Calculator.Proofs.Evaluation
import Calculator.Proofs.WholeNumbers

namespace Calculator

/-- The operation on exact numbers. There is no quotient by zero. -/
def Operation.applyExact (op : Operation) (a b : ℚ) : Option ℚ :=
  match op with
  | .add => some (a + b)
  | .subtract => some (a - b)
  | .multiply => some (a * b)
  | .divide => if b = 0 then none else some (a / b)

/-- A whole result of an operation on whole numbers is the result in binary64 too. -/
theorem Operation.apply_isWhole {op : Operation} {x y : Binary64} {m n q : ℤ} (hx : x.IsWhole m)
    (hy : y.IsWhole n) (h : op.applyExact m n = some ↑q) (hq : |q| ≤ 2 ^ 53) :
    ∃ z, op.apply x y = .ok z ∧ z.IsWhole q := by
  cases op with
  | add =>
    obtain rfl : m + n = q := by exact_mod_cast Option.some.inj h
    exact ⟨x + y, rfl, hx.add hy hq⟩
  | subtract =>
    obtain rfl : m - n = q := by exact_mod_cast Option.some.inj h
    exact ⟨x - y, rfl, hx.sub hy hq⟩
  | multiply =>
    obtain rfl : m * n = q := by exact_mod_cast Option.some.inj h
    exact ⟨x * y, rfl, hx.mul hy hq⟩
  | divide =>
    rw [applyExact] at h
    split at h
    · cases h
    · rename_i hn
      have hn' : n ≠ 0 := by exact_mod_cast hn
      obtain rfl : m = q * n := by
        have hm := (div_eq_iff hn).mp (Option.some.inj h)
        exact_mod_cast hm
      exact ⟨x / y, if_neg (mt hy.isZero_iff.mp hn'), hx.div hy hn' hq⟩

namespace Expr

variable {e left right : Expr} {op : Operation}

/-- The value of an expression if nothing is ever rounded. -/
def exactValue : Expr → Option ℚ
  | .number x => if x.isFinite then some x.toRat else none
  | .negate e => e.exactValue.map (-·)
  | .binary op left right => do
    let a ← left.exactValue
    let b ← right.exactValue
    op.applyExact a b

/-- All numbers and all exact results on the way are whole and of at most 2^53. -/
def StaysWhole (e : Expr) : Prop :=
  ∀ p ∈ e.parts, ∃ q ∈ p.exactValue, q.den = 1 ∧ |q| ≤ 2 ^ 53

instance (e : Expr) : Decidable e.StaysWhole :=
  inferInstanceAs (Decidable (∀ p ∈ e.parts, ∃ q ∈ p.exactValue, q.den = 1 ∧ |q| ≤ 2 ^ 53))

theorem StaysWhole.exactValue_eq (h : e.StaysWhole) :
    ∃ n : ℤ, e.exactValue = some ↑n ∧ |n| ≤ 2 ^ 53 := by
  obtain ⟨q, hq, hden, hle⟩ := h e e.mem_parts_self
  obtain ⟨n, rfl⟩ : ∃ n : ℤ, (n : ℚ) = q := ⟨q.num, Rat.coe_int_num_of_den_eq_one hden⟩
  exact ⟨n, hq, by exact_mod_cast hle⟩

theorem StaysWhole.operand (h : (negate e).StaysWhole) : e.StaysWhole :=
  fun p hp => h p (List.mem_cons_of_mem _ hp)

theorem StaysWhole.leftOperand (h : (binary op left right).StaysWhole) : left.StaysWhole :=
  fun p hp => h p (List.mem_cons_of_mem _ (List.mem_append_left _ hp))

theorem StaysWhole.rightOperand (h : (binary op left right).StaysWhole) : right.StaysWhole :=
  fun p hp => h p (List.mem_cons_of_mem _ (List.mem_append_right _ hp))

theorem exactValue_binary {a b : ℚ} (hl : left.exactValue = some a)
    (hr : right.exactValue = some b) : (binary op left right).exactValue = op.applyExact a b := by
  rw [exactValue, hl, hr]
  rfl

theorem StaysWhole.value_eq (h : e.StaysWhole) :
    ∃ (n : ℤ) (x : Binary64), e.exactValue = some ↑n ∧ e.value = .ok x ∧ x.IsWhole n := by
  induction e with
  | number x =>
    obtain ⟨n, hn, _⟩ := h.exactValue_eq
    refine ⟨n, x, hn, rfl, ?_⟩
    rw [exactValue] at hn
    split at hn
    · rename_i hx
      exact ⟨hx, Option.some.inj hn⟩
    · cases hn
  | negate e ih =>
    obtain ⟨m, y, hm, hv, hy⟩ := ih h.operand
    refine ⟨-m, -y, ?_, ?_, hy.neg⟩
    · rw [exactValue, hm]
      exact congrArg some (Int.cast_neg m).symm
    · rw [value_negate, hv]
      rfl
  | binary op left right ihl ihr =>
    obtain ⟨m, x, hm, hvl, hx⟩ := ihl h.leftOperand
    obtain ⟨k, y, hk, hvr, hy⟩ := ihr h.rightOperand
    obtain ⟨n, hn, hle⟩ := h.exactValue_eq
    have happly := (exactValue_binary hm hk).symm.trans hn
    obtain ⟨z, hz, hzn⟩ := op.apply_isWhole hx hy happly hle
    exact ⟨n, z, hn, value_binary_eq_ok_iff.mpr ⟨x, y, hvl, hvr, hz⟩, hzn⟩

/-- A zero of either sign is a zero as a divisor. -/
theorem value_divide_by_zero (hl : left.StaysWhole) (hr : right.StaysWhole)
    (h : right.exactValue = some 0) :
    (binary .divide left right).value = .error .divisionByZero := by
  obtain ⟨_, x, _, hx, _⟩ := hl.value_eq
  obtain ⟨n, y, hn, hy, hyn⟩ := hr.value_eq
  have hzero : y.isZero = true := by
    rw [hyn.isZero_iff]
    exact_mod_cast Option.some.inj (hn.symm.trans h)
  rw [value_binary, hx, hy]
  exact if_pos hzero

end Expr

/-- Arithmetic on whole numbers is exact up to 2^53. Such a result is shown as the whole number that
it is, with however many decimals. A quotient by zero of such operands, wherever it stands, leaves
the whole expression without a value. -/
theorem whole_arithmetic_is_exact (e : Expr) :
    (e.StaysWhole → ∃ (n : ℤ) (x : Binary64),
      e.exactValue = some ↑n ∧ e.value = .ok x ∧ x.isFinite = true ∧ x.toRat = n ∧
      ∀ decimals, String.ofList (x.fixed decimals) = toString n) ∧
    ∀ left right, .binary .divide left right ∈ e.parts → left.StaysWhole → right.StaysWhole →
      right.exactValue = some 0 → e.value = .error .divisionByZero := by
  constructor
  · intro h
    obtain ⟨n, x, hn, hx, hw⟩ := h.value_eq
    exact ⟨n, x, hn, hx, hw.isFinite, hw.toRat, hw.fixed⟩
  · intro left right hmem hl hr hzero
    exact Expr.value_of_part_fails hmem (Expr.value_divide_by_zero hl hr hzero)

/-- A minus sign makes the zero behind it negative, and there still is no quotient by it. -/
theorem quotients_by_negated_differences :
    (∃ x, (Expr.binary .divide (.number (.ofNat 9007199254740992)) (.negate
        (.binary .subtract (.number (.ofNat 5)) (.number (.ofNat 3))))).value = .ok x ∧
      ∀ decimals, String.ofList (x.fixed decimals) = "-4503599627370496") ∧
    (Expr.binary .divide (.number (.ofNat 1)) (.negate
      (.binary .subtract (.number (.ofNat 3)) (.number (.ofNat 3))))).value =
        .error .divisionByZero := by
  constructor
  · have hexact : (Expr.binary .divide (.number (.ofNat 9007199254740992)) (.negate (.binary
        .subtract (.number (.ofNat 5)) (.number (.ofNat 3))))).exactValue =
          some (-4503599627370496 : ℤ) := by
      decide +kernel
    obtain ⟨n, x, hn, hx, _, _, htext⟩ := (whole_arithmetic_is_exact _).1
      (show (Expr.binary .divide (.number (.ofNat 9007199254740992)) (.negate (.binary .subtract
        (.number (.ofNat 5)) (.number (.ofNat 3))))).StaysWhole by decide +kernel)
    obtain rfl : -4503599627370496 = n := by
      exact_mod_cast Option.some.inj (hexact.symm.trans hn)
    exact ⟨x, hx, htext⟩
  · exact (whole_arithmetic_is_exact _).2 _ _ (Expr.mem_parts_self _) (by decide +kernel)
      (by decide +kernel) (by decide +kernel)

end Calculator
