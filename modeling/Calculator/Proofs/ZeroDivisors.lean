import Calculator.Proofs.NodeByNode

namespace Calculator

/-- What an expression may come to if nothing is said about the order in which the operands of an
operation are evaluated. A fault of either one may be reported before the other one is looked at. -/
inductive Settles : Expr → Except Fault Binary64 → Prop where
  | number (x : Binary64) : Settles (.number x) (.ok x)
  | negate {e : Expr} {answer : Except Fault Binary64} (operand : Settles e answer) :
      Settles (.negate e) (answer.map (-·))
  | leftFails {op : Operation} {l r : Expr} {f : Fault} (left : Settles l (.error f)) :
      Settles (.binary op l r) (.error f)
  | rightFails {op : Operation} {l r : Expr} {f : Fault} (right : Settles r (.error f)) :
      Settles (.binary op l r) (.error f)
  | apply {op : Operation} {l r : Expr} {a b : Binary64} (left : Settles l (.ok a))
      (right : Settles r (.ok b)) : Settles (.binary op l r) (op.apply a b)

/-- Only a division by a zero of either sign fails. -/
theorem Operation.apply_eq_error_iff {op : Operation} {a b : Binary64} {f : Fault} :
    op.apply a b = .error f ↔
      op = .divide ∧ (b = .zero false ∨ b = .zero true) ∧ f = .divisionByZero := by
  constructor
  · intro h
    have hf := apply_eq_error h
    by_cases hd : op = .divide → b ≠ .zero false ∧ b ≠ .zero true
    · rw [apply_eq_result hd] at h
      cases h
    · push Not at hd
      exact ⟨hd.1, (em _).imp_right hd.2, hf⟩
  · rintro ⟨rfl, hz, rfl⟩
    exact divide_by_zero hz

namespace Expr

variable {e : Expr} {f : Fault} {answer : Except Fault Binary64}

/-- A division whose operands both have a value, the right one a zero of either sign. -/
def DividesByZero (e : Expr) : Prop :=
  ∃ left right a b, e = .binary .divide left right ∧ left.value = .ok a ∧ right.value = .ok b ∧
    (b = .zero false ∨ b = .zero true)

theorem DividesByZero.value_eq (h : e.DividesByZero) : e.value = .error .divisionByZero := by
  obtain ⟨left, right, a, b, rfl, hl, hr, hz⟩ := h
  rw [value_binary, hl, hr]
  exact Operation.divide_by_zero hz

/-- The fault of an expression is traced down to the first division that caused it. -/
theorem exists_dividesByZero (h : e.value = .error f) : ∃ p ∈ e.parts, p.DividesByZero := by
  induction e with
  | number x => cases h
  | negate e ih =>
    cases he : e.value with
    | ok x =>
      rw [value_negate, he] at h
      cases h
    | error g =>
      rw [value_negate, he] at h
      cases h
      obtain ⟨p, hp, hz⟩ := ih he
      exact ⟨p, List.mem_cons_of_mem _ hp, hz⟩
  | binary op left right ihl ihr =>
    rw [value_binary, bind_eq_error_iff] at h
    rcases h with hl | ⟨a, hl, h⟩
    · obtain ⟨p, hp, hz⟩ := ihl hl
      exact ⟨p, List.mem_cons_of_mem _ (List.mem_append_left _ hp), hz⟩
    rcases bind_eq_error_iff.mp h with hr | ⟨b, hr, happly⟩
    · obtain ⟨p, hp, hz⟩ := ihr hr
      exact ⟨p, List.mem_cons_of_mem _ (List.mem_append_right _ hp), hz⟩
    · obtain ⟨rfl, hz, rfl⟩ := Operation.apply_eq_error_iff.mp happly
      exact ⟨_, mem_parts_self _, left, right, a, b, rfl, hl, hr, hz⟩

theorem value_eq_error_iff : e.value = .error f ↔
    f = .divisionByZero ∧ ∃ p ∈ e.parts, p.DividesByZero := by
  constructor
  · intro h
    exact ⟨value_eq_error h, exists_dividesByZero h⟩
  · rintro ⟨rfl, p, hp, hz⟩
    exact value_of_part_fails hp hz.value_eq

/-- From left to right is one of the orders. -/
theorem settles_value (e : Expr) : Settles e e.value := by
  induction e with
  | number x => exact .number x
  | negate e ih =>
    rw [value_negate]
    exact .negate ih
  | binary op left right ihl ihr =>
    rw [value_binary]
    cases hl : left.value with
    | error f =>
      rw [hl] at ihl
      exact .leftFails ihl
    | ok a =>
      rw [hl] at ihl
      cases hr : right.value with
      | error f =>
        rw [hr] at ihr
        exact .rightFails ihr
      | ok b =>
        rw [hr] at ihr
        exact .apply ihl ihr

/-- A fault of the right operand is the fault of the operation, even if the left one fails too,
since there is only one fault. -/
theorem value_of_right_fails {op : Operation} {left right : Expr} (h : right.value = .error f) :
    (binary op left right).value = .error f := by
  obtain rfl := value_eq_error h
  exact value_of_part_fails
    (List.mem_cons_of_mem _ (List.mem_append_right _ (mem_parts_self right))) h

end Expr

/-- No order of evaluation comes to anything else. -/
theorem Settles.value_eq {e : Expr} {answer : Except Fault Binary64} (h : Settles e answer) :
    e.value = answer := by
  induction h with
  | number x => rfl
  | negate _ ih => rw [Expr.value_negate, ih]
  | leftFails _ ih =>
    rw [Expr.value_binary, ih]
    rfl
  | rightFails _ ih => exact Expr.value_of_right_fails ih
  | apply _ _ ihl ihr =>
    rw [Expr.value_binary, ihl, ihr]
    rfl

/-- An expression fails exactly if there is a division by zero among its parts, at whatever depth,
and its only fault is that one. In whatever order operands are evaluated, what the expression comes
to is the same. It has a value exactly if each of its parts has one. -/
theorem fails_iff_part_divides_by_zero (e : Expr) :
    (∀ fault, e.value = .error fault ↔
      fault = .divisionByZero ∧ ∃ p ∈ e.parts, p.DividesByZero) ∧
    (∀ answer, Settles e answer ↔ e.value = answer) ∧
    ((∃ x, e.value = .ok x) ↔ ∀ p ∈ e.parts, ∃ y, p.value = .ok y) := by
  refine ⟨fun fault => Expr.value_eq_error_iff, fun answer => ?_, ?_, ?_⟩
  · constructor
    · exact Settles.value_eq
    · rintro rfl
      exact e.settles_value
  · rintro ⟨x, hx⟩ p hp
    exact Expr.exists_value_of_mem_parts hx hp
  · intro h
    exact h e e.mem_parts_self

/-- The left factor divides by zero, and so does an operand deep in the right one. Whichever is
evaluated first, there is no product. -/
theorem factors_divide_by_zero :
    let one := Expr.number (.ofNat 1)
    let left := Expr.binary .divide one (.number (.zero false))
    let inner := Expr.binary .divide one (.negate (.binary .subtract one one))
    let e := Expr.binary .multiply left (.negate (.binary .add inner one))
    inner ∈ e.parts ∧ inner.DividesByZero ∧ Settles e (.error .divisionByZero) ∧
    ¬ ∀ p ∈ e.parts, ∃ y, p.value = .ok y := by
  intro one left inner e
  have hmem : inner ∈ e.parts := by decide +kernel
  have hzero : inner.DividesByZero :=
    ⟨one, .negate (.binary .subtract one one), .ofNat 1, .zero true, rfl, Expr.value_number _,
      by decide +kernel, .inr rfl⟩
  obtain ⟨hfails, hsettles, hvalue⟩ := fails_iff_part_divides_by_zero e
  have hv : e.value = .error .divisionByZero := (hfails _).mpr ⟨rfl, inner, hmem, hzero⟩
  refine ⟨hmem, hzero, (hsettles _).mpr hv, ?_⟩
  rw [← hvalue, hv]
  rintro ⟨x, hx⟩
  cases hx

end Calculator
