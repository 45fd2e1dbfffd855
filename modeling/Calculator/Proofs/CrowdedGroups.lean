import Calculator.Proofs.FaultStages
import Calculator.Proofs.Neighbours

namespace Calculator

/-- An expression can begin with some of the tokens, up to an operand within a group, and another
operand follows directly. -/
def Crowded (tokens : List Token) : Prop :=
  ∃ before t u after, tokens = before ++ t :: u :: after ∧ Viable (before ++ [t]) ∧
    closings (before ++ [t]) < openings (before ++ [t]) ∧
    t.endsOperand = true ∧ t.clashes u = true

variable {ts : List Token}

theorem Cursor.stop_eq_missingClosing_iff {c : Cursor} {q : Partial} :
    c.stop q = .error (.mismatched .missingClosing) ↔ q.ended.isSome ∧ q.outer ≠ [] := by
  obtain ⟨f, fs, ended⟩ := q
  cases ended with
  | none =>
    simp only [stop, Cursor.unexpected]
    split <;> simp
  | some product => cases fs <;> simp [stop]

/-- A closing parenthesis is missing where reading halts behind an operand in a group. -/
theorem parse_eq_missingClosing_iff :
    parse ts = .error (.mismatched .missingClosing) ↔ ∃ taken rest q, ts = taken ++ rest ∧
      Partial.start.run maxNesting taken = some q ∧ q.Halts maxNesting rest ∧
      q.ended.isSome ∧ q.outer ≠ [] := by
  constructor
  · intro h
    rcases Cursor.whole_eq_error_iff.mp h with hx | ⟨_, _, _, hu⟩
    · obtain ⟨taken, rest, q, hs, hr, hq, hstop⟩ := Cursor.exists_expression_run (.start ts)
      rw [hstop] at hx
      exact ⟨taken, rest, q, hs, hr, hq, Cursor.stop_eq_missingClosing_iff.mp hx⟩
    · cases hu
  · intro h
    obtain ⟨taken, rest, q, rfl, hr, hq, hopen⟩ := h
    have hx : (Cursor.start (taken ++ rest)).expression = _ := Cursor.readFrom_run hr hq
    refine Cursor.whole_eq_error_iff.mpr (.inl ?_)
    rw [hx]
    exact Cursor.stop_eq_missingClosing_iff.mpr hopen

namespace Partial

variable {room : Nat} {p q : Partial} {t u : Token}

/-- Groups are open in a run exactly if it has opened more than it has closed. -/
theorem outer_ne_nil_iff (h : start.run room ts = some q) :
    q.outer ≠ [] ↔ closings ts < openings ts := by
  have hd := run_depth h
  rw [← List.length_pos_iff]
  simp only [start, List.length_nil] at hd
  omega

/-- What follows an operand in a group and is refused begins another one. -/
theorem clashes_of_refused (h : Move room p t q) (hended : q.ended.isSome) (ho : q.outer ≠ [])
    (hu : q.step room u = none) : t.clashes u = true := by
  have ht := h.isSome_ended
  rw [hended] at ht
  rcases refused_cases hu with ⟨he, _⟩ | ⟨_, hb | ⟨_, hn⟩⟩
  · rw [he] at hended
    cases hended
  · cases u with
    | number x => exact ht.symm
    | symbol s =>
      cases hb s rfl
      exact ht.symm
  · exact absurd hn ho

end Partial

theorem parse_eq_missingClosing_iff_crowded (hs : screen ts = .ok ()) :
    parse ts = .error (.mismatched .missingClosing) ↔ Crowded ts := by
  rw [parse_eq_missingClosing_iff]
  constructor
  · intro h
    obtain ⟨taken, rest, q, rfl, hr, hq, hended, ho⟩ := h
    rcases List.eq_nil_or_concat taken with rfl | ⟨before, t, rfl⟩
    · cases hr
      cases hended
    rw [List.concat_eq_append] at *
    obtain ⟨m, _, ht⟩ := Partial.run_concat_eq_some_iff.mp hr
    cases rest with
    | nil =>
      -- the screening counts the groups that are open at the end
      rw [List.append_nil, Screening.screen_run hr []] at hs
      cases ho' : q.outer with
      | nil => exact absurd ho' ho
      | cons f fs =>
        rw [ho'] at hs
        cases hs
    | cons u after =>
      exact ⟨before, t, u, after, by simp, Partial.viable_iff_run.mpr ⟨q, hr⟩,
        (Partial.outer_ne_nil_iff hr).mp ho, ht.isSome_ended ▸ hended,
        Partial.clashes_of_refused ht hended ho (hq u rfl)⟩
  · intro h
    obtain ⟨before, t, u, after, rfl, hv, hopen, hended, hclash⟩ := h
    obtain ⟨q, hr⟩ := Partial.viable_iff_run.mp hv
    obtain ⟨m, _, ht⟩ := Partial.run_concat_eq_some_iff.mp hr
    refine ⟨before ++ [t], u :: after, q, by simp, hr, ?_, ht.isSome_ended.trans hended,
      (Partial.outer_ne_nil_iff hr).mpr hopen⟩
    intro u' hu'
    cases hu'
    cases hstep : q.step maxNesting u with
    | none => rfl
    | some r =>
      rw [ht.not_clashes (Partial.step_eq_some_iff.mp hstep)] at hclash
      cases hclash

namespace Formula

variable {text : String} {m : Mismatch} {fault : Fault}

theorem read_eq_error_iff (ht : tokens text = .ok ts) : read text = .error fault ↔
    screen ts = .error fault ∨ screen ts = .ok () ∧ parse ts = .error fault := by
  rw [read, ht]
  change (screen ts >>= fun _ => parse ts) = .error fault ↔ _
  rw [bind_eq_error_iff]
  refine or_congr_right ?_
  constructor
  · intro h
    obtain ⟨_, h⟩ := h
    exact h
  · intro h
    exact ⟨(), h⟩

/-- Before there are tokens nothing is said about parentheses. -/
theorem exists_tokens_of_mismatched (h : read text = .error (.mismatched m)) :
    ∃ ts, tokens text = .ok ts := by
  cases ht : tokens text with
  | ok ts => exact ⟨ts, rfl⟩
  | error fault =>
    rw [read, ht] at h
    cases h
    rcases bind_eq_error_iff.mp ht with ha | ⟨_, _, hs⟩
    · have hstage := stage_of_accept ha
      cases m <;> cases hstage
    · have hstage := Scanner.stage_of_tokens hs
      cases m <;> cases hstage

/-- The screening speaks of parentheses that are not balanced, and the reading of balanced ones. -/
theorem mismatched_cases (ht : tokens text = .ok ts) (h : read text = .error (.mismatched m)) :
    (m ≠ .missingClosing ∧ ¬ Balanced ts) ∨
    (m = .missingClosing ∧ Balanced ts ∧ screen ts = .ok () ∧ Crowded ts) := by
  rcases (read_eq_error_iff ht).mp h with hs | ⟨hs, hp⟩
  · have hv := Screening.screenFrom_verdict none 0 ts
    rw [← screen, hs] at hv
    exact .inl hv
  · have hstage := stage_of_parse hp
    cases m with
    | missingClosing =>
      exact .inr ⟨rfl, balanced_of_screen hs, hs, (parse_eq_missingClosing_iff_crowded hs).mp hp⟩
    | tooManyClosing | tooManyOpening => cases hstage

theorem value_eq_mismatched_iff :
    value text = .error (.mismatched m) ↔ read text = .error (.mismatched m) := by
  rw [value, bind_eq_error_iff, or_iff_left]
  rintro ⟨e, _, he⟩
  cases Expr.value_eq_error he

end Formula

/-- A text that is refused for its parentheses has too many of one kind, unless what is missed is
the end of a group. That is missed in balanced parentheses only, and of the texts with balanced
parentheses it is missed exactly in those that pass the screening and have a crowded group. -/
theorem refused_for_parentheses_iff (text : String) :
    (∀ m, Formula.value text = .error (.mismatched m) ↔
      Formula.read text = .error (.mismatched m)) ∧
    (∀ m, Formula.read text = .error (.mismatched m) → ∃ ts, Formula.tokens text = .ok ts ∧
      (m ≠ .missingClosing ↔
        (∃ before, before <+: ts ∧ openings before < closings before) ∨
        openings ts ≠ closings ts)) ∧
    ∀ ts, Formula.tokens text = .ok ts → Balanced ts →
      ((∃ m, Formula.read text = .error (.mismatched m)) ↔ screen ts = .ok () ∧ Crowded ts) := by
  refine ⟨fun m => Formula.value_eq_mismatched_iff, ?_, ?_⟩
  · intro m h
    obtain ⟨ts, ht⟩ := Formula.exists_tokens_of_mismatched h
    refine ⟨ts, ht, ?_⟩
    rw [← not_balanced_iff]
    rcases Formula.mismatched_cases ht h with ⟨hm, hb⟩ | ⟨hm, hb, _⟩
    · exact iff_of_true hm hb
    · exact iff_of_false (not_not_intro hm) (not_not_intro hb)
  · intro ts ht hb
    constructor
    · intro h
      obtain ⟨m, hm⟩ := h
      rcases Formula.mismatched_cases ht hm with ⟨_, hn⟩ | ⟨_, _, hs, hc⟩
      · exact absurd hb hn
      · exact ⟨hs, hc⟩
    · intro h
      obtain ⟨hs, hc⟩ := h
      exact ⟨.missingClosing, (Formula.read_eq_error_iff ht).mpr
        (.inr ⟨hs, (parse_eq_missingClosing_iff_crowded hs).mpr hc⟩)⟩

/-- Two numbers in one group, which is closed. -/
theorem two_numbers_in_group :
    let ts : List Token :=
      [.symbol .opening, .number (.ofNat 1), .number (.ofNat 2), .symbol .closing]
    Formula.tokens "(1 2)" = .ok ts ∧ Balanced ts ∧
      Formula.value "(1 2)" = .error (.mismatched .missingClosing) ∧
      Formula.read "(1 2)" = .error (.mismatched .missingClosing) := by
  intro ts
  have hs : screen ts = .ok () := rfl
  exact ⟨by decide +kernel, balanced_of_screen hs, by decide +kernel, by decide +kernel⟩

end Calculator
