import Calculator.Command.Running
import Calculator.Proofs.FormattedRoundTrip
import Calculator.Proofs.SeventeenDigits

namespace Calculator

namespace Decimal

theorem digitCount_mul_le (n k : ℕ) : digitCount (n * 10 ^ k) ≤ digitCount n + k := by
  rw [digitCount_le_iff (Nat.add_pos_left (digitCount_pos n) k), pow_add]
  exact Nat.mul_lt_mul_of_pos_right (lt_ten_pow_digitCount n) (Nat.pow_pos (by decide))

end Decimal

/-- The zeros that are written out, and a point with a zero before it, are all that is added. -/
theorem Layout.length_plain_le (d : Decimal) : (plain.write d).length ≤ d.extent + 2 := by
  have hpos := Decimal.digitCount_pos d.significand
  rw [write, plain, Decimal.positional, Decimal.extent]
  simp only [ite_self, List.append_nil, ↓reduceIte]
  split
  · have hl := length_pointed_le (d.significand * 10 ^ d.exponent.toNat) 0
    have hm := Decimal.digitCount_mul_le d.significand d.exponent.toNat
    rw [Decimal.digitCount] at hm
    omega
  · have hl := length_pointed_le d.significand (-d.exponent).toNat
    rw [Decimal.digitCount] at hpos ⊢
    omega

variable {x : Binary64}

theorem Binary64.length_text_le (hx : x.isFinite = true) :
    x.text.length ≤ Formula.maxLength := by
  cases x with
  | nan => cases hx
  | infinite negative => cases hx
  | finite negative units h =>
    have hsign : (sign negative).length ≤ 1 := by
      cases negative <;> decide
    have hplain := Layout.length_plain_le (.shortest .up units)
    have hextent := Decimal.extent_shortest_le .up h
    rw [text, List.length_append, Formula.maxLength]
    omega

/-- The text of a finite number is an expression for it. -/
theorem Formula.value_text (hx : x.isFinite = true) : value (.ofList x.text) = .ok x := by
  have hl := Binary64.length_text_le hx
  cases x with
  | nan => cases hx
  | infinite negative => cases hx
  | finite negative units h =>
    have hplain := Layout.denotes_shortest .up h
    cases negative with
    | false => exact value_number hplain hl
    | true => exact value_minus_number hplain hl

theorem Style.raw_answer (decimals : ℕ) {s : String} (h : Formula.value s = .ok x) :
    raw.answer decimals s = .ok (.ofList x.text) := by
  rw [answer, h]
  rfl

/-- A finite number that is printed in full is kept, with its sign: the text is not too long, and
its value is the number. So the full result of an expression has the same value as the expression
and is its own full result. -/
theorem raw_answer_keeps_value (x : Binary64) (hx : x.isFinite = true) :
    x.text.length ≤ Formula.maxLength ∧ Formula.value (.ofList x.text) = .ok x ∧
    ∀ decimals s, Formula.value s = .ok x → ∃ line, line = .ofList x.text ∧
      Style.raw.answer decimals s = .ok line ∧ Formula.value line = .ok x ∧
      Style.raw.answer decimals line = .ok line := by
  have hvalue := Formula.value_text hx
  refine ⟨Binary64.length_text_le hx, hvalue, ?_⟩
  intro decimals s hs
  exact ⟨_, rfl, Style.raw_answer decimals hs, hvalue, Style.raw_answer decimals hvalue⟩

/-- A product that is zero and negative. -/
theorem raw_answer_of_negative_zero :
    let x := Binary64.zero true
    x.isFinite = true ∧ Formula.value "0 * -1" = .ok x ∧
    ∃ line, line = "-0" ∧ Style.raw.answer 6 "0 * -1" = .ok line ∧ Formula.value line = .ok x ∧
      Style.raw.answer 6 line = .ok line := by
  intro x
  have ho : (Formula.value "0 * -1").toOption = some x := by decide +kernel
  have hs : Formula.value "0 * -1" = .ok x := by
    cases hv : Formula.value "0 * -1" with
    | error fault =>
      rw [hv] at ho
      cases ho
    | ok y =>
      rw [hv] at ho
      exact congrArg Except.ok (Option.some.inj ho)
  have ht : String.ofList x.text = "-0" := by decide +kernel
  refine ⟨rfl, hs, ?_⟩
  obtain ⟨line, hl, h⟩ := (raw_answer_keeps_value x rfl).2.2 6 "0 * -1" hs
  exact ⟨line, hl.trans ht, h⟩

end Calculator
