import Calculator.Expr.Value

namespace Calculator

section

variable {α β : Type} {x : Except Fault α} {next : α → Except Fault β} {f : Fault} {b : β}

/-- Two steps in a row fail in the first one or in the second. -/
theorem bind_eq_error_iff :
    (x >>= next) = .error f ↔ x = .error f ∨ ∃ a, x = .ok a ∧ next a = .error f := by
  cases x with
  | error g => simp [bind, Except.bind]
  | ok a => simp [bind, Except.bind]

theorem bind_eq_ok_iff : (x >>= next) = .ok b ↔ ∃ a, x = .ok a ∧ next a = .ok b := by
  cases x with
  | error g => simp [bind, Except.bind]
  | ok a => simp [bind, Except.bind]

end

theorem Operation.apply_eq_error {op : Operation} {a b : Binary64} {f : Fault}
    (h : op.apply a b = .error f) : f = .divisionByZero := by
  cases op with
  | add | subtract | multiply => cases h
  | divide =>
    rw [apply] at h
    split at h
    · cases h
      rfl
    · cases h

namespace Expr

variable {e p left right : Expr} {op : Operation} {x : Binary64} {f : Fault}

theorem negateIf_not (negative : Bool) (x : Binary64) :
    negateIf (!negative) x = negateIf negative (-x) := by
  cases negative with
  | false => rfl
  | true => exact (Binary64.neg_neg x).symm

/-- A minus sign that waits for the value is applied to it in the end. -/
theorem valueUnder_eq (negative : Bool) (e : Expr) :
    e.valueUnder negative = e.value.map (negateIf negative) := by
  induction e generalizing negative with
  | number x => rfl
  | negate e ih =>
    rw [value, valueUnder, valueUnder, ih, ih]
    cases e.value with
    | error f => rfl
    | ok x => exact congrArg Except.ok (negateIf_not negative x)
  | binary op left right =>
    rw [value, valueUnder, valueUnder]
    cases left.valueUnder false with
    | error f => rfl
    | ok a =>
      cases right.valueUnder false with
      | error f => rfl
      | ok b =>
        change (op.apply a b >>= _) = (op.apply a b >>= _).map _
        cases op.apply a b with
        | error f => rfl
        | ok x => rfl

@[simp] theorem value_number (x : Binary64) : (number x).value = .ok x := rfl

/-- A minus sign negates the value. -/
@[simp] theorem value_negate (e : Expr) : (negate e).value = e.value.map (-·) :=
  valueUnder_eq true e

/-- The left operand, the right operand and then the operation. -/
theorem value_binary (op : Operation) (left right : Expr) : (binary op left right).value =
    left.value >>= fun a => right.value >>= fun b => op.apply a b := by
  change (left.value >>= fun a => right.value >>= fun b => op.apply a b >>= pure) = _
  simp only [bind_pure]

theorem value_binary_eq_ok_iff : (binary op left right).value = .ok x ↔
    ∃ a b, left.value = .ok a ∧ right.value = .ok b ∧ op.apply a b = .ok x := by
  simp only [value_binary, bind_eq_ok_iff, exists_and_left]

/-- No expression fails in any other way. -/
theorem value_eq_error (h : e.value = .error f) : f = .divisionByZero := by
  induction e with
  | number x => cases h
  | negate e ih =>
    rw [value_negate] at h
    cases he : e.value with
    | error g =>
      rw [he] at h
      cases h
      exact ih he
    | ok x =>
      rw [he] at h
      cases h
  | binary op left right ihl ihr =>
    rw [value_binary, bind_eq_error_iff] at h
    rcases h with hl | ⟨a, _, h⟩
    · exact ihl hl
    · rcases bind_eq_error_iff.mp h with hr | ⟨b, _, h⟩
      · exact ihr hr
      · exact op.apply_eq_error h

/-- An expression with all the operands in it. -/
def parts : Expr → List Expr
  | .number x => [.number x]
  | .negate e => .negate e :: e.parts
  | .binary op left right => .binary op left right :: (left.parts ++ right.parts)

theorem mem_parts_self (e : Expr) : e ∈ e.parts := by
  cases e <;> exact List.mem_cons_self

/-- What has a value has no part without one. -/
theorem exists_value_of_mem_parts (h : e.value = .ok x) (hp : p ∈ e.parts) :
    ∃ y, p.value = .ok y := by
  induction e generalizing x with
  | number y =>
    rw [List.mem_singleton.mp hp]
    exact ⟨y, rfl⟩
  | negate e ih =>
    rcases List.mem_cons.mp hp with rfl | hp
    · exact ⟨x, h⟩
    · cases he : e.value with
      | error f =>
        rw [value_negate, he] at h
        cases h
      | ok y => exact ih he hp
  | binary op left right ihl ihr =>
    rcases List.mem_cons.mp hp with rfl | hp
    · exact ⟨x, h⟩
    · obtain ⟨a, b, hl, hr, _⟩ := value_binary_eq_ok_iff.mp h
      rcases List.mem_append.mp hp with hp | hp
      · exact ihl hl hp
      · exact ihr hr hp

/-- A part without a value leaves the whole without one. -/
theorem value_of_part_fails (hp : p ∈ e.parts) (h : p.value = .error f) :
    e.value = .error .divisionByZero := by
  cases he : e.value with
  | error g => rw [value_eq_error he]
  | ok x =>
    obtain ⟨y, hy⟩ := exists_value_of_mem_parts he hp
    rw [hy] at h
    cases h

end Expr

end Calculator
