import Calculator.Formula
import Calculator.Proofs.Balance
import Calculator.Proofs.Evaluation
import Calculator.Proofs.ViablePrefix
import Mathlib.Control.Monad.Basic

namespace Calculator

variable {fault : Fault}

theorem Formula.stage_of_accept {text : String} (h : accept text = .error fault) :
    fault.stage = .validator := by
  rw [accept] at h
  split at h
  · cases h
    rfl
  · split at h
    · cases h
    · cases h
      rfl

theorem Scanner.stage_of_next {s : Scanner} (h : s.next.1 = .error fault) :
    fault.stage = .tokenizer := by
  simp only [next] at h
  split at h
  · cases h
  · split at h
    · split at h
      · cases h
      · cases h
        rfl
    · split at h
      · cases h
      · cases h
        rfl

/-- The fault of all tokens is that of one of them. -/
theorem Scanner.stage_of_tokens {s : Scanner} (h : s.tokens = .error fault) :
    fault.stage = .tokenizer := by
  fun_induction tokens s with
  | case1 s g t hn =>
    cases h
    exact stage_of_next (congrArg Prod.fst hn)
  | case2 s t hn => cases h
  | case3 s token t hn g ht ih =>
    cases h
    exact ih ht
  | case4 s token t hn ts ht ih => cases h

theorem stage_of_screen {ts : List Token} (h : screen ts = .error fault) :
    fault.stage = .sequenceValidator := by
  have hv := Screening.screenFrom_verdict none 0 ts
  rw [← screen, h] at hv
  cases fault with
  | doubledOperator => rfl
  | mismatched mismatch =>
    cases mismatch with
    | missingClosing => exact absurd rfl hv.1
    | tooManyClosing | tooManyOpening => rfl
  | notText | blank | tooLong | malformedNumber | foreignCharacter => cases hv
  | unexpected | nestedTooDeep | divisionByZero => cases hv

/-- Reading ends with a fault only where an operand is due or a group is open. -/
theorem Cursor.stage_of_stop {c : Cursor} {p : Partial} (h : c.stop p = .error fault) :
    fault.stage = .parser := by
  obtain ⟨f, fs, ended⟩ := p
  cases ended with
  | none =>
    simp only [stop] at h
    split at h
    · cases h
      rfl
    · cases h
      rfl
  | some product =>
    cases fs with
    | nil => cases h
    | cons g fs =>
      cases h
      rfl

theorem stage_of_parse {tokens : List Token} (h : parse tokens = .error fault) :
    fault.stage = .parser := by
  rcases Cursor.whole_eq_error_iff.mp h with hx | ⟨_, _, _, rfl⟩
  · obtain ⟨_, _, _, _, _, _, hstop⟩ := Cursor.exists_expression_run (.start tokens)
    rw [hstop] at hx
    exact Cursor.stage_of_stop hx
  · rfl

theorem Expr.stage_of_value {e : Expr} (h : e.value = .error fault) : fault.stage = .evaluator := by
  rw [value_eq_error h]
  rfl

namespace Formula

variable {text : String} {stage : Stage}

/-- The first check that fails, run on what the checks before it gave. -/
inductive FailsFirst (text : String) : Stage → Fault → Prop where
  | validator {fault : Fault} (fails : accept text = .error fault) :
      FailsFirst text .validator fault
  | tokenizer {fault : Fault} (accepted : accept text = .ok ())
      (fails : tokenize text.toList = .error fault) : FailsFirst text .tokenizer fault
  | sequenceValidator {fault : Fault} {ts : List Token} (accepted : accept text = .ok ())
      (scanned : tokenize text.toList = .ok ts) (fails : screen ts = .error fault) :
      FailsFirst text .sequenceValidator fault
  | parser {fault : Fault} {ts : List Token} (accepted : accept text = .ok ())
      (scanned : tokenize text.toList = .ok ts) (screened : screen ts = .ok ())
      (fails : parse ts = .error fault) : FailsFirst text .parser fault
  | evaluator {fault : Fault} {ts : List Token} {e : Expr} (accepted : accept text = .ok ())
      (scanned : tokenize text.toList = .ok ts) (screened : screen ts = .ok ())
      (read : parse ts = .ok e) (fails : e.value = .error fault) : FailsFirst text .evaluator fault

theorem FailsFirst.stage_eq (h : FailsFirst text stage fault) : fault.stage = stage := by
  cases h with
  | validator fails => exact stage_of_accept fails
  | tokenizer _ fails => exact Scanner.stage_of_tokens fails
  | sequenceValidator _ _ fails => exact stage_of_screen fails
  | parser _ _ _ fails => exact stage_of_parse fails
  | evaluator _ _ _ _ fails => exact Expr.stage_of_value fails

/-- A text without a value fails at some check. -/
theorem exists_failsFirst (h : value text = .error fault) :
    ∃ stage, FailsFirst text stage fault := by
  simp only [value, read, tokens, bind, Except.bind] at h
  cases ha : accept text with
  | error g =>
    simp only [ha] at h
    cases h
    exact ⟨_, .validator ha⟩
  | ok =>
    cases ht : tokenize text.toList with
    | error g =>
      simp only [ha, ht] at h
      cases h
      exact ⟨_, .tokenizer ha ht⟩
    | ok ts =>
      cases hs : screen ts with
      | error g =>
        simp only [ha, ht, hs] at h
        cases h
        exact ⟨_, .sequenceValidator ha ht hs⟩
      | ok =>
        cases hp : parse ts with
        | error g =>
          simp only [ha, ht, hs, hp] at h
          cases h
          exact ⟨_, .parser ha ht hs hp⟩
        | ok e =>
          simp only [ha, ht, hs, hp] at h
          exact ⟨_, .evaluator ha ht hs hp h⟩

theorem FailsFirst.value_eq (h : FailsFirst text stage fault) : value text = .error fault := by
  simp only [value, read, tokens, bind, Except.bind]
  cases h with
  | validator ha => simp only [ha]
  | tokenizer ha ht => simp only [ha, ht]
  | sequenceValidator ha ht hs => simp only [ha, ht, hs]
  | parser ha ht hs hp => simp only [ha, ht, hs, hp]
  | evaluator ha ht hs hp he => simp only [ha, ht, hs, hp, he]

theorem value_eq_error_iff : value text = .error fault ↔ FailsFirst text fault.stage fault := by
  constructor
  · intro h
    obtain ⟨stage, hf⟩ := exists_failsFirst h
    rwa [hf.stage_eq]
  · exact FailsFirst.value_eq

end Formula

/-- A text without a value has the fault of the first check that fails, and the stage of the fault
is this check. It can be told from the fault alone, since whatever a check is run on, its faults are
those of its own stage. -/
theorem fault_names_first_failing_check :
    (∀ text fault, Formula.value text = .error fault ↔
      Formula.FailsFirst text fault.stage fault) ∧
    (∀ text stage fault, Formula.FailsFirst text stage fault → fault.stage = stage) ∧
    (∀ text fault, Formula.accept text = .error fault → fault.stage = .validator) ∧
    (∀ text fault, tokenize text = .error fault → fault.stage = .tokenizer) ∧
    (∀ tokens fault, screen tokens = .error fault → fault.stage = .sequenceValidator) ∧
    (∀ tokens fault, parse tokens = .error fault → fault.stage = .parser) ∧
    ∀ (e : Expr) fault, e.value = .error fault → fault.stage = .evaluator := by
  refine ⟨?_, ?_, ?_, ?_, ?_, ?_, ?_⟩
  · intro text fault
    exact Formula.value_eq_error_iff
  · intro text stage fault
    exact Formula.FailsFirst.stage_eq
  · intro text fault
    exact Formula.stage_of_accept
  · intro text fault
    exact Scanner.stage_of_tokens
  · intro tokens fault
    exact stage_of_screen
  · intro tokens fault
    exact stage_of_parse
  · intro e fault
    exact Expr.stage_of_value

/-- A group left open fails in the screening, and one that holds too much fails in the reading. -/
theorem mismatches_of_two_checks :
    Formula.FailsFirst "(1" .sequenceValidator (.mismatched .tooManyOpening) ∧
    Formula.FailsFirst "(1 2)" .parser (.mismatched .missingClosing) := by
  have hleft : Formula.value "(1" = .error (.mismatched .tooManyOpening) := by decide +kernel
  have hmore : Formula.value "(1 2)" = .error (.mismatched .missingClosing) := by decide +kernel
  exact ⟨(fault_names_first_failing_check.1 _ _).mp hleft,
    (fault_names_first_failing_check.1 _ _).mp hmore⟩

end Calculator
