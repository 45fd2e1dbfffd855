import Calculator.Command.Running
import Calculator.Proofs.FaultStages
import Calculator.Proofs.Lexemes
import Calculator.Proofs.TextLines

namespace Calculator

namespace Formula

variable {text : String}

def hasValue (text : String) : Bool := (value text).isOk

theorem exists_value (h : hasValue text = true) : ∃ x, value text = .ok x := by
  rw [hasValue] at h
  cases hv : value text with
  | error fault =>
    rw [hv] at h
    cases h
  | ok x => exact ⟨x, rfl⟩

theorem exists_fault (h : hasValue text = false) : ∃ fault, value text = .error fault := by
  rw [hasValue] at h
  cases hv : value text with
  | error fault => exact ⟨fault, rfl⟩
  | ok x =>
    rw [hv] at h
    cases h

/-- The bytes of a text are decoded as this text. -/
theorem decode_toUTF8 (text : String) : decode text.toUTF8 = .ok text := by
  rw [decode, String.fromUTF8?, String.toUTF8_eq_toByteArray, dif_pos text.isValidUTF8]
  rfl

/-- Nothing but a blank text is refused as blank. -/
theorem value_eq_blank_iff : value text = .error .blank ↔ text.toList.all isBlank = true := by
  rw [← accept_eq_blank_iff]
  constructor
  · intro h
    have hfirst : FailsFirst text .validator .blank := value_eq_error_iff.mp h
    cases hfirst with
    | validator fails => exact fails
  · intro h
    exact (FailsFirst.validator h).value_eq

end Formula

namespace Style

variable {style : Style} {decimals : ℕ} {expression : String} {fault : Fault}

theorem exists_answer (h : Formula.hasValue expression = true) :
    ∃ line, style.answer decimals expression = .ok line := by
  obtain ⟨x, hx⟩ := Formula.exists_value h
  refine ⟨style.line decimals expression x, ?_⟩
  rw [answer, hx]
  rfl

theorem exists_answers {expressions : List String}
    (h : ∀ e ∈ expressions, Formula.hasValue e = true) :
    ∃ lines, expressions.mapM (style.answer decimals) = .ok lines := by
  induction expressions with
  | nil => exact ⟨[], rfl⟩
  | cons e expressions ih =>
    obtain ⟨line, hline⟩ := exists_answer (h e List.mem_cons_self)
    obtain ⟨lines, hlines⟩ := ih fun d hd => h d (List.mem_cons_of_mem e hd)
    exact ⟨line :: lines, mapM_eq_ok_iff.mpr (.cons hline (mapM_eq_ok_iff.mp hlines))⟩

theorem answer_eq_error (h : Formula.value expression = .error fault) :
    style.answer decimals expression = .error fault := by
  rw [answer, h]
  rfl

end Style

namespace Run

variable {answer : String → Except Fault String} {expressions rest lines : List String}

/-- Lines as they are printed. -/
def printed (lines : List String) : String := String.join (lines.map (· ++ "\n"))

theorem code_eq_zero_iff (r : Run) : r.code = 0 ↔ r.trouble = none := by
  obtain ⟨output, trouble⟩ := r
  cases trouble <;> simp [code]

/-- The answers to some expressions are printed before those to the others. -/
theorem answers_append (h : expressions.mapM answer = .ok lines) :
    answers answer (expressions ++ rest) =
      ⟨printed lines ++ (answers answer rest).output, (answers answer rest).trouble⟩ := by
  rw [mapM_eq_ok_iff] at h
  induction h with
  | nil => simp [printed]
  | cons ha _ ih =>
    rw [List.cons_append, answers, ha, ih]
    simp only [after, printed, List.map_cons, String.join_cons, String.append_assoc]

/-- All is printed if all have an answer. -/
theorem answers_eq_printing (h : expressions.mapM answer = .ok lines) :
    answers answer expressions = printing (printed lines) := by
  have happend : answers answer (expressions ++ []) = _ := answers_append h
  rwa [List.append_nil, answers, printing, String.append_empty] at happend

/-- The first fault ends the run, whatever is left. -/
theorem answers_eq_fault {expression : String} {fault : Fault}
    (h : expressions.mapM answer = .ok lines) (hfault : answer expression = .error fault) :
    answers answer (expressions ++ expression :: rest) =
      ⟨printed lines, some (.fault fault)⟩ := by
  rw [answers_append h, answers, hfault]
  simp only [failing, String.append_empty]

end Run

/-- What follows the longest beginning of a kind is not of this kind. -/
theorem eq_false_of_takeWhile_append {α : Type} {p : α → Bool} {xs after : List α} {x : α}
    (h : xs = xs.takeWhile p ++ x :: after) : p x = false := by
  have hdrop : xs.dropWhile p = x :: after :=
    List.append_cancel_left (List.takeWhile_append_dropWhile.trans h)
  have hhead := List.head?_dropWhile_not p xs
  rw [hdrop] at hhead
  exact hhead

/-- Unless all of a list is of a kind, something stops its longest beginning of this kind. -/
theorem takeWhile_eq_or_append {α : Type} (p : α → Bool) (xs : List α) :
    xs.takeWhile p = xs ∨ ∃ x after, xs = xs.takeWhile p ++ x :: after := by
  have hsplit : xs.takeWhile p ++ xs.dropWhile p = xs := List.takeWhile_append_dropWhile
  cases hrest : xs.dropWhile p with
  | nil =>
    rw [hrest, List.append_nil] at hsplit
    exact .inl hsplit
  | cons x after =>
    rw [hrest] at hsplit
    exact .inr ⟨x, after, hsplit.symm⟩

namespace Command

variable {style : Style} {decimals : ℕ} {text line : String}

/-- The expressions of a text, one on each line that is not blank. -/
def typed (text : String) : List String :=
  ((Text.ofPieces (text.toList.splitOn '\n')).filter fun line => !line.all isBlank).map String.ofList

theorem expressions_eq (text : String) : expressions text = typed text := by
  rw [expressions, typed, Text.lines_eq]

theorem value_ne_blank (h : line ∈ typed text) : Formula.value line ≠ .error .blank := by
  obtain ⟨l, hl, rfl⟩ := List.mem_map.mp h
  have hblank := (List.mem_filter.mp hl).2
  rw [ne_eq, Formula.value_eq_blank_iff, String.toList_ofList]
  simpa using hblank

theorem run_toUTF8 (text : String) :
    run text.toUTF8 (.eval none style decimals) = evalInput style decimals text := by
  rw [run, withInput, Formula.decode_toUTF8]

theorem run_of_nothing (h : typed text = []) :
    run text.toUTF8 (.eval none style decimals) = ⟨"", some .noInput⟩ := by
  rw [run_toUTF8, evalInput, expressions_eq, h]
  rfl

theorem run_of_something (h : typed text ≠ []) :
    run text.toUTF8 (.eval none style decimals) =
      .answers (style.answer decimals) (typed text) := by
  obtain ⟨line, lines, hcons⟩ := List.exists_cons_of_ne_nil h
  rw [run_toUTF8, evalInput, expressions_eq, hcons]

variable {answered after answers : List String} {fault : Fault}

/-- The answers before the first fault are printed, and the fault ends the run. -/
theorem run_of_fault (hanswers : answered.mapM (style.answer decimals) = .ok answers)
    (hfault : Formula.value line = .error fault) (htext : typed text = answered ++ line :: after) :
    run text.toUTF8 (.eval none style decimals) = ⟨Run.printed answers, some (.fault fault)⟩ := by
  have hne : typed text ≠ [] := by
    rw [htext]
    simp
  rw [run_of_something hne, htext, Run.answers_eq_fault hanswers (Style.answer_eq_error hfault)]

theorem run_of_first_fault
    (hanswers : ((typed text).takeWhile Formula.hasValue).mapM (style.answer decimals) =
      .ok answers)
    (htext : typed text = (typed text).takeWhile Formula.hasValue ++ line :: after) :
    ∃ fault, Formula.value line = .error fault ∧
      run text.toUTF8 (.eval none style decimals) =
        ⟨Run.printed answers, some (.fault fault)⟩ := by
  obtain ⟨fault, hfault⟩ := Formula.exists_fault (eq_false_of_takeWhile_append htext)
  exact ⟨fault, hfault, run_of_fault hanswers hfault htext⟩

theorem run_of_values (hne : typed text ≠ [])
    (hanswers : (typed text).mapM (style.answer decimals) = .ok answers) :
    run text.toUTF8 (.eval none style decimals) = ⟨Run.printed answers, none⟩ := by
  rw [run_of_something hne, Run.answers_eq_printing hanswers, Run.printing]

/-- The answers to the longest beginning with values are printed, and nothing else. -/
theorem output_run
    (hanswers : ((typed text).takeWhile Formula.hasValue).mapM (style.answer decimals) =
      .ok answers) :
    (run text.toUTF8 (.eval none style decimals)).output = Run.printed answers := by
  by_cases hne : typed text = []
  · rw [hne] at hanswers
    cases hanswers
    rw [run_of_nothing hne]
    rfl
  · rcases takeWhile_eq_or_append Formula.hasValue (typed text) with h | ⟨line, after, h⟩
    · rw [h] at hanswers
      rw [run_of_values hne hanswers]
    · obtain ⟨fault, _, hrun⟩ := run_of_first_fault hanswers h
      rw [hrun]

/-- Only values end well. -/
theorem code_run_eq_zero_iff (hne : typed text ≠ [])
    (hanswers : ((typed text).takeWhile Formula.hasValue).mapM (style.answer decimals) =
      .ok answers) :
    (run text.toUTF8 (.eval none style decimals)).code = 0 ↔
      (typed text).takeWhile Formula.hasValue = typed text := by
  rw [Run.code_eq_zero_iff]
  rcases takeWhile_eq_or_append Formula.hasValue (typed text) with h | ⟨line, after, h⟩
  · rw [h] at hanswers
    rw [run_of_values hne hanswers]
    exact iff_of_true rfl h
  · obtain ⟨fault, _, hrun⟩ := run_of_first_fault hanswers h
    have hshort : (typed text).takeWhile Formula.hasValue ≠ typed text := by
      intro heq
      rw [heq] at h
      simp at h
    rw [hrun]
    exact iff_of_false (Option.some_ne_none _) hshort

end Command

/-- Standard input is answered line by line, up to the first one without a value. What is printed
are the answers to the lines before that one. It names the fault, which is never that it is blank,
and what comes behind it is not looked at. -/
theorem input_is_answered_up_to_first_fault (text : String) (style : Style) (decimals : ℕ) :
    let lines := Command.typed text
    let run := Command.run text.toUTF8 (.eval none style decimals)
    let answered := lines.takeWhile Formula.hasValue
    (lines = [] → run = ⟨"", some .noInput⟩ ∧ run.code = 1) ∧
    (∃ answers, answered.mapM (style.answer decimals) = .ok answers ∧
      run.output = String.join (answers.map (· ++ "\n"))) ∧
    (lines ≠ [] → (run.code = 0 ↔ answered = lines)) ∧
    ∀ line after, lines = answered ++ line :: after →
      ∃ fault, Formula.value line = .error fault ∧ style.answer decimals line = .error fault ∧
        fault ≠ .blank ∧ run.code = 1 ∧ run.trouble = some (.fault fault) ∧
        run.errors = "Error: " ++ fault.message ++ "\n" ∧
        ∀ other, answered ++ [line] <+: Command.typed other →
          Command.run other.toUTF8 (.eval none style decimals) = run := by
  intro lines run answered
  have hvalues : ∀ e ∈ answered, Formula.hasValue e = true := fun e he => List.mem_takeWhile_imp he
  obtain ⟨answers, hanswers⟩ : ∃ answers, answered.mapM (style.answer decimals) = .ok answers :=
    Style.exists_answers hvalues
  refine ⟨?_, ⟨answers, hanswers, Command.output_run hanswers⟩,
    fun hne => Command.code_run_eq_zero_iff hne hanswers, ?_⟩
  · intro h
    have hrun : run = ⟨"", some .noInput⟩ := Command.run_of_nothing h
    rw [hrun]
    exact ⟨rfl, rfl⟩
  · intro line after h
    obtain ⟨fault, hfault, hrun : run = _⟩ := Command.run_of_first_fault hanswers h
    have hline : line ∈ lines := by
      rw [h]
      simp
    rw [hrun]
    refine ⟨fault, hfault, Style.answer_eq_error hfault, ?_, rfl, rfl, rfl, ?_⟩
    · rintro rfl
      exact Command.value_ne_blank hline hfault
    · rintro other ⟨rest, hother⟩
      rw [List.append_assoc, List.singleton_append] at hother
      exact Command.run_of_fault hanswers hfault hother.symm

/-- A sum is answered before a division by zero, and what follows the division is not. -/
theorem sum_is_answered_before_division :
    let run := Command.run "1+1\r\n \n2/0\n3".toUTF8 (.eval none .rounded 6)
    run.output = "2\n" ∧ run.code = 1 ∧ run.trouble = some (.fault .divisionByZero) ∧
    Command.run "1+1\n2/0\n(".toUTF8 (.eval none .rounded 6) = run := by
  intro run
  obtain ⟨_, ⟨answers, hanswers, houtput⟩, _, hfirst⟩ :=
    input_is_answered_up_to_first_fault "1+1\r\n \n2/0\n3" .rounded 6
  obtain ⟨fault, hfault, _, _, hcode, htrouble, _, hother⟩ :=
    hfirst "2/0" ["3"] (by decide +kernel)
  have hsum : ((Command.typed "1+1\r\n \n2/0\n3").takeWhile Formula.hasValue).mapM
      (Style.rounded.answer 6) = .ok ["2"] := by decide +kernel
  have hzero : Formula.value "2/0" = .error .divisionByZero := by decide +kernel
  obtain rfl : answers = ["2"] := Except.ok.inj (hanswers.symm.trans hsum)
  obtain rfl : fault = .divisionByZero := Except.error.inj (hfault.symm.trans hzero)
  exact ⟨houtput, hcode, htrouble, hother _ (by decide +kernel)⟩

end Calculator
