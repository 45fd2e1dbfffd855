import Calculator.Proofs.Evaluation
import Calculator.Proofs.SignBit

namespace Calculator

/-- The arithmetic of binary64, without regard to zero divisors. -/
def Operation.result : Operation → Binary64 → Binary64 → Binary64
  | .add, a, b => a + b
  | .subtract, a, b => a - b
  | .multiply, a, b => a * b
  | .divide, a, b => a / b

/-- What an expression comes to, from what its operands come to. -/
inductive Yields : Expr → Except Fault Binary64 → Prop where
  | number (x : Binary64) : Yields (.number x) (.ok x)
  | negate {e : Expr} {x : Binary64} (operand : Yields e (.ok x)) :
      Yields (.negate e) (.ok x.flipSign)
  | negateFails {e : Expr} {f : Fault} (operand : Yields e (.error f)) :
      Yields (.negate e) (.error f)
  | leftFails {op : Operation} {l r : Expr} {f : Fault} (left : Yields l (.error f)) :
      Yields (.binary op l r) (.error f)
  | rightFails {op : Operation} {l r : Expr} {a : Binary64} {f : Fault}
      (left : Yields l (.ok a)) (right : Yields r (.error f)) : Yields (.binary op l r) (.error f)
  | zeroDivisor {l r : Expr} {a b : Binary64} (left : Yields l (.ok a)) (right : Yields r (.ok b))
      (zero : b = .zero false ∨ b = .zero true) :
      Yields (.binary .divide l r) (.error .divisionByZero)
  | binary {op : Operation} {l r : Expr} {a b : Binary64} (left : Yields l (.ok a))
      (right : Yields r (.ok b)) (divisor : op = .divide → b ≠ .zero false ∧ b ≠ .zero true) :
      Yields (.binary op l r) (.ok (op.result a b))

theorem Binary64.isZero_iff (x : Binary64) :
    x.isZero = true ↔ x = .zero false ∨ x = .zero true := by
  cases x with
  | nan => simp [isZero, zero]
  | infinite negative => simp [isZero, zero]
  | finite negative units fits =>
    cases negative <;> simp [isZero, zero]

namespace Operation

variable {op : Operation} {a b : Binary64}

theorem divide_by_zero (h : b = .zero false ∨ b = .zero true) :
    divide.apply a b = .error .divisionByZero := by
  unfold apply
  simp [b.isZero_iff.mpr h]

theorem apply_eq_result (h : op = .divide → b ≠ .zero false ∧ b ≠ .zero true) :
    op.apply a b = .ok (op.result a b) := by
  cases op with
  | add | subtract | multiply => rfl
  | divide =>
    have hz : b.isZero = false := by
      apply Bool.eq_false_iff.mpr
      intro hz
      exact not_or.mpr (h rfl) (b.isZero_iff.mp hz)
    unfold apply
    simp [hz, result]

end Operation

namespace Expr

/-- The value follows the rules. -/
theorem yields_value (e : Expr) : Yields e e.value := by
  induction e with
  | number x => exact .number x
  | negate e ih =>
    rw [value_negate]
    cases he : e.value with
    | error f =>
      rw [he] at ih
      exact .negateFails ih
    | ok x =>
      rw [he] at ih
      have h := Yields.negate ih
      rwa [Binary64.flipSign_eq_neg] at h
  | binary op left right ihl ihr =>
    rw [value_binary]
    cases hl : left.value with
    | error f =>
      rw [hl] at ihl
      exact .leftFails ihl
    | ok a =>
      rw [hl] at ihl
      cases hr : right.value with
      | error f =>
        rw [hr] at ihr
        exact .rightFails ihl ihr
      | ok b =>
        rw [hr] at ihr
        change Yields _ (op.apply a b)
        by_cases h : op = .divide ∧ (b = .zero false ∨ b = .zero true)
        · obtain ⟨rfl, hz⟩ := h
          rw [Operation.divide_by_zero hz]
          exact .zeroDivisor ihl ihr hz
        · have hd : op = .divide → b ≠ .zero false ∧ b ≠ .zero true :=
            fun hop => not_or.mp fun hz => h ⟨hop, hz⟩
          rw [Operation.apply_eq_result hd]
          exact .binary ihl ihr hd

end Expr

/-- The rules leave no choice. -/
theorem Yields.value_eq {e : Expr} {answer : Except Fault Binary64} (h : Yields e answer) :
    e.value = answer := by
  induction h with
  | number x => rfl
  | negate _ ih =>
    rw [Expr.value_negate, ih, Binary64.flipSign_eq_neg]
    rfl
  | negateFails _ ih =>
    rw [Expr.value_negate, ih]
    rfl
  | leftFails _ ih =>
    rw [Expr.value_binary, ih]
    rfl
  | rightFails _ _ ihl ihr =>
    rw [Expr.value_binary, ihl, ihr]
    rfl
  | zeroDivisor _ _ zero ihl ihr =>
    rw [Expr.value_binary, ihl, ihr]
    exact Operation.divide_by_zero zero
  | binary _ _ divisor ihl ihr =>
    rw [Expr.value_binary, ihl, ihr]
    exact Operation.apply_eq_result divisor

theorem Expr.value_eq_iff_yields {e : Expr} {answer : Except Fault Binary64} :
    e.value = answer ↔ Yields e answer := by
  constructor
  · rintro rfl
    exact e.yields_value
  · exact Yields.value_eq

theorem Binary64.flipSign_involutive : Function.Involutive flipSign := by
  intro x
  rw [flipSign_eq_neg, flipSign_eq_neg, neg_neg]

/-- A run of minus signs flips the sign as often as it is long. -/
theorem Expr.value_negateTimes (k : ℕ) (e : Expr) :
    (e.negateTimes k).value = e.value.map (Binary64.flipSign^[k]) := by
  induction k with
  | zero =>
    rw [negateTimes]
    cases e.value <;> rfl
  | succ k ih =>
    rw [negateTimes, value_negate, ih]
    cases e.value with
    | error f => rfl
    | ok x =>
      change Except.ok (-(Binary64.flipSign^[k] x)) = Except.ok (Binary64.flipSign^[k + 1] x)
      rw [Function.iterate_succ_apply', Binary64.flipSign_eq_neg]

/-- An expression comes to what the rules say, and to nothing else. Of a run of minus signs before
an operand only the parity is seen. -/
theorem value_is_node_by_node (e : Expr) :
    (∀ answer, e.value = answer ↔ Yields e answer) ∧
    ∀ k, (e.negateTimes k).value = e.value.map fun x => if k % 2 = 0 then x else x.flipSign := by
  refine ⟨fun answer => Expr.value_eq_iff_yields, ?_⟩
  intro k
  rw [Expr.value_negateTimes]
  congr 1
  funext x
  split
  · rename_i h
    rw [Binary64.flipSign_involutive.iterate_even (Nat.even_iff.mpr h), id]
  · rename_i h
    rw [Binary64.flipSign_involutive.iterate_odd (Nat.odd_iff.mpr (by omega))]

end Calculator
