import Calculator.Proofs.FaultStages
import Calculator.Proofs.JsonTexts
import Calculator.Report

namespace Calculator

namespace Formula

variable {text : String}

theorem value_of_blank (h : ∀ c ∈ text.toList, isBlank c = true) : value text = .error .blank := by
  have hblank : accept text = .error .blank := by
    unfold accept
    exact if_pos (List.all_eq_true.mpr h)
  exact FailsFirst.value_eq (.validator hblank)

theorem value_of_tooLong (h : ∃ c ∈ text.toList, isBlank c = false) (hl : 4096 < text.length) :
    value text = .error (.tooLong text.length 4096) := by
  have hblank : ¬ text.toList.all isBlank = true := by
    obtain ⟨c, hc, hb⟩ := h
    simp only [List.all_eq_true, not_forall, Bool.not_eq_true]
    exact ⟨c, hc, hb⟩
  have hlong : accept text = .error (.tooLong text.length 4096) := by
    unfold accept
    rw [if_neg hblank, maxLength, if_neg (Nat.not_le_of_lt hl)]
  exact FailsFirst.value_eq (.validator hlong)

/-- The tokens of a text are those of an expression, and no group is nested too deep. -/
def WellFormed (text : String) : Prop :=
  ∃ tokens e, tokenize text.toList = .ok tokens ∧ Derives .sum tokens e ∧ NestsWithin 256 tokens

theorem wellFormed_of_value {x : Binary64} (h : value text = .ok x) : WellFormed text := by
  obtain ⟨e, hread, _⟩ := bind_eq_ok_iff.mp h
  obtain ⟨tokens, htokens, hread⟩ := bind_eq_ok_iff.mp hread
  obtain ⟨_, _, hscan⟩ := bind_eq_ok_iff.mp htokens
  obtain ⟨_, _, hparse⟩ := bind_eq_ok_iff.mp hread
  obtain ⟨hd, hn⟩ := parse_eq_ok_iff.mp hparse
  exact ⟨tokens, e, hscan, hd, hn⟩

/-- A text without an expression is refused before anything is calculated. -/
theorem value_of_not_wellFormed (h : ¬ WellFormed text) :
    ∃ fault, value text = .error fault ∧ fault.stage ≠ .evaluator := by
  cases hv : value text with
  | ok x => exact absurd (wellFormed_of_value hv) h
  | error fault =>
    refine ⟨fault, rfl, ?_⟩
    intro hstage
    have hfails := value_eq_error_iff.mp hv
    rw [hstage] at hfails
    cases hfails with
    | evaluator _ hscan _ hparse _ =>
      obtain ⟨hd, hn⟩ := parse_eq_ok_iff.mp hparse
      exact h ⟨_, _, hscan, hd, hn⟩

end Formula

namespace Report

/-- A text is accepted twice, to no other effect than once. -/
theorem value_string (text : String) : value (.string text) = Formula.value text := by
  change ((Formula.accept text >>= fun _ => .ok text) >>= Formula.value) = _
  cases ha : Formula.accept text with
  | ok _ => rfl
  | error fault => exact (Formula.FailsFirst.value_eq (.validator ha)).symm

theorem item_string (decimals : ℕ) (text : String) :
    item decimals (.string text) = match Formula.value text with
      | .ok x => outcome decimals x
      | .error f => fault f := by
  have hvalue := value_string text
  cases hv : Formula.value text with
  | ok x => simp only [item, hvalue, hv]
  | error f => simp only [item, hvalue, hv]

/-- An element of a batch that is an error. -/
def errorObject (kind message stage : String) : Json :=
  .object [("error", .object [("kind", .string kind), ("message", .string message),
    ("stage", .string stage)])]

/-- What a batch answers to a text. -/
structure Answers (decimals : ℕ) (text : String) (answer : Json) : Prop where
  ofValue (x : Binary64) (h : Formula.value text = .ok x) : answer = outcome decimals x
  ofFault (f : Fault) (h : Formula.value text = .error f) : answer = fault f
  ofBlank (h : ∀ c ∈ text.toList, isBlank c = true) :
    answer = errorObject "EmptyInputError" "Expression is empty" "validator"
  ofTooLong (h : ∃ c ∈ text.toList, isBlank c = false) (hl : 4096 < text.length) :
    answer = errorObject "InputTooLongError" ("Expression exceeds maximum length of 4096 " ++
      "characters (got " ++ toString text.length ++ ")") "validator"
  ofIllFormed (h : ¬ Formula.WellFormed text) :
    ∃ f : Fault, f.stage ≠ .evaluator ∧ answer = errorObject f.kind f.message f.stage.name

theorem answers_item (decimals : ℕ) (text : String) :
    Answers decimals text (item decimals (.string text)) where
  ofValue x h := by rw [item_string, h]
  ofFault f h := by rw [item_string, h]
  ofBlank h := by
    rw [item_string, Formula.value_of_blank h]
    rfl
  ofTooLong h hl := by
    rw [item_string, Formula.value_of_tooLong h hl]
    rfl
  ofIllFormed h := by
    obtain ⟨f, hv, hstage⟩ := Formula.value_of_not_wellFormed h
    refine ⟨f, hstage, ?_⟩
    rw [item_string, hv]
    rfl

end Report

theorem Json.read_strings (texts : List String) :
    Json.read ((Json.array (texts.map .string)).write none) = .ok (.array (texts.map .string)) := by
  have hitems : List.Forall₂ (ReadsAs 0) (texts.map .string) (texts.map .string) :=
    List.forall₂_same.mpr fun v hv => by
      obtain ⟨text, _, rfl⟩ := List.mem_map.mp hv
      exact readsAs_string text
  exact (readsAs_array hitems).read (by decide)

/-- A batch of any texts is written as a list of quoted strings and answered text by text, whatever
the others are: with its result if it has one, and else with its fault. Blank texts, texts that are
too long and texts that are no expression have faults, and do not keep the others from being
answered. -/
theorem batch_answers_each (decimals : ℕ) (texts : List String) :
    (Json.array (texts.map .string)).compact =
      .ofList ('[' :: [','].intercalate (texts.map Json.quote) ++ [']']) ∧
    Report.batch decimals (Json.array (texts.map .string)).compact =
      .ok (.array (texts.map fun text =>
        match Formula.value text with
        | .ok x => Report.outcome decimals x
        | .error f => Report.fault f)) ∧
    ∃ answers, Report.batch decimals (Json.array (texts.map .string)).compact =
      .ok (.array answers) ∧ List.Forall₂ (Report.Answers decimals) texts answers := by
  have hread : Json.read (Json.array (texts.map .string)).compact.toList =
      .ok (.array (texts.map .string)) := by
    rw [Json.compact, String.toList_ofList, Json.read_strings]
  have hbatch : Report.batch decimals (Json.array (texts.map .string)).compact =
      .ok (.array (texts.map fun text => Report.item decimals (.string text))) := by
    rw [Report.batch, hread]
    simp only [List.map_map, Function.comp_def]
  refine ⟨?_, ?_, _, hbatch, ?_⟩
  · rw [Json.compact, Json.write_array, List.map_map]
    rfl
  · simp only [hbatch, Report.item_string]
  · rw [List.forall₂_map_right_iff, List.forall₂_same]
    intro text _
    exact Report.answers_item decimals text

end Calculator
