import Calculator.Proofs.LongestExpression

namespace Calculator

/-- Some expression within the limit begins with these tokens. -/
def Viable (ts : List Token) : Prop :=
  ∃ us e, Derives .sum (ts ++ us) e ∧ NestsWithin maxNesting (ts ++ us)

/-- The first `n` tokens are the longest beginning that is viable. -/
def IsLongestViable (tokens : List Token) (n : Nat) : Prop :=
  n ≤ tokens.length ∧ Viable (tokens.take n) ∧
    ∀ m, m ≤ tokens.length → Viable (tokens.take m) → m ≤ n

/-- An operand is due at the beginning, in a new group and behind an operator. -/
def OperandDue (tokens : List Token) (n : Nat) : Prop :=
  n = 0 ∨ ∃ s, tokens[n - 1]? = some (.symbol s) ∧ s ≠ .closing

/-- An operand ends with a number or with a group. -/
def OperandEnded (tokens : List Token) (n : Nat) : Prop :=
  0 < n ∧ ((∃ x, tokens[n - 1]? = some (.number x)) ∨ tokens[n - 1]? = some (.symbol .closing))

namespace Partial

variable {room : Nat} {p q : Partial} {t : Token} {ts us rest : List Token}

/-- Behind an operand all open groups can be closed. -/
theorem exists_closing_run (room : Nat) (f : Frame) (fs : List Frame) (e : Expr) :
    ∃ us g product, run room ⟨f, fs, some e⟩ us = some ⟨g, [], some product⟩ := by
  induction fs generalizing f e with
  | nil => exact ⟨[], f, e, rfl⟩
  | cons g fs ih =>
    obtain ⟨us, h, product, hr⟩ := ih g (g.productTo (f.sumTo e))
    have hm : Move room ⟨f, g :: fs, some e⟩ (.symbol .closing)
        (endOperand g fs (f.sumTo e)) := .closing f g fs e
    exact ⟨_ :: us, h, product, run_cons_eq_some_iff.mpr ⟨_, hm, hr⟩⟩

/-- No state of the reader is a dead end. -/
theorem exists_completing_run (room : Nat) (p : Partial) :
    ∃ us g product, p.run room us = some ⟨g, [], some product⟩ := by
  obtain ⟨f, fs, ended⟩ := p
  cases ended with
  | some e => exact exists_closing_run room f fs e
  | none =>
    obtain ⟨us, g, product, hr⟩ :=
      exists_closing_run room f fs (f.productTo (.number (.zero false)))
    exact ⟨_ :: us, g, product, run_cons_eq_some_iff.mpr ⟨_, .number f fs (.zero false), hr⟩⟩

/-- Viable beginnings are those that a reader gets over. -/
theorem viable_iff_run : Viable ts ↔ ∃ q, start.run maxNesting ts = some q := by
  constructor
  · intro h
    obtain ⟨us, e, hd, hn⟩ := h
    obtain ⟨g, product, _, hr⟩ := run_iff_derives.mpr ⟨hd, hn⟩
    obtain ⟨q, hq, _⟩ := run_split hr
    exact ⟨q, hq⟩
  · intro h
    obtain ⟨q, hq⟩ := h
    obtain ⟨us, g, product, hr⟩ := exists_completing_run maxNesting q
    obtain ⟨hd, hn⟩ := run_iff_derives.mp ⟨g, product, rfl, run_trans hq hr⟩
    exact ⟨us, _, hd, hn⟩

/-- The token that was read last shows what is expected next. -/
theorem Move.expects (h : Move room p t q) :
    (q.ended = none → ∃ s, t = .symbol s ∧ s ≠ .closing) ∧
    (q.ended.isSome → (∃ x, t = .number x) ∨ t = .symbol .closing) := by
  cases h with
  | number f fs x => exact ⟨nofun, fun _ => .inl ⟨x, rfl⟩⟩
  | minus f fs => exact ⟨fun _ => ⟨.minus, rfl, by decide⟩, nofun⟩
  | opening f fs free => exact ⟨fun _ => ⟨.opening, rfl, by decide⟩, nofun⟩
  | closing f g fs e => exact ⟨nofun, fun _ => .inr rfl⟩
  | operator f fs e op =>
    exact ⟨fun _ => ⟨op.symbol, rfl, by cases op <;> decide⟩, nofun⟩

theorem run_expects (rest : List Token) (h : start.run room ts = some q) :
    (q.ended = none → OperandDue (ts ++ rest) ts.length) ∧
    (q.ended.isSome → OperandEnded (ts ++ rest) ts.length) := by
  rcases List.eq_nil_or_concat ts with rfl | ⟨us, t, rfl⟩
  · cases h
    exact ⟨fun _ => .inl rfl, nofun⟩
  · rw [List.concat_eq_append] at h ⊢
    obtain ⟨m, _, hr⟩ := run_split h
    obtain ⟨q', hm, hq⟩ := run_cons_eq_some_iff.mp hr
    cases hq
    have ht : (us ++ [t] ++ rest)[(us ++ [t]).length - 1]? = some t := by simp
    obtain ⟨hdue, hended⟩ := hm.expects
    constructor
    · intro he
      obtain ⟨s, rfl, hs⟩ := hdue he
      exact .inr ⟨s, ht, hs⟩
    · intro he
      refine ⟨by simp, ?_⟩
      rw [ht]
      simpa using hended he

end Partial

/-- A reader halts behind the longest viable beginning. -/
theorem isLongestViable_of_halts {taken rest : List Token} {q : Partial}
    (hr : Partial.start.run maxNesting taken = some q) (hq : q.Halts maxNesting rest) :
    IsLongestViable (taken ++ rest) taken.length := by
  refine ⟨by simp, ?_, ?_⟩
  · rw [List.take_left]
    exact Partial.viable_iff_run.mpr ⟨q, hr⟩
  · intro m hm hv
    apply Nat.le_of_not_lt
    intro hlt
    -- a longer viable beginning would be a run that goes on where this one halts
    obtain ⟨r, hv⟩ := Partial.viable_iff_run.mp hv
    rw [List.take_append, List.take_of_length_le (by omega)] at hv
    obtain ⟨q', hq', hr'⟩ := Partial.run_split hv
    cases hr.symm.trans hq'
    cases rest with
    | nil =>
      simp only [List.append_nil] at hm
      omega
    | cons t rest =>
      obtain ⟨n, hn⟩ : ∃ n, m - taken.length = n + 1 := ⟨m - taken.length - 1, by omega⟩
      rw [hn, List.take_succ_cons] at hr'
      obtain ⟨m', hm', _⟩ := Partial.run_cons_eq_some_iff.mp hr'
      have hs := hq t rfl
      rw [Partial.step_eq_some_iff.mpr hm'] at hs
      cases hs

namespace Cursor

theorem whole_snd (c : Cursor) : c.whole.2 = c.expression.2 := by
  simp only [whole]
  rcases c.expression with ⟨answer, d⟩
  cases answer with
  | error fault => rfl
  | ok e =>
    simp only
    split <;> rfl

/-- Reading all tokens fails as reading an expression does, or on what is left behind one. -/
theorem whole_eq_error_iff {c : Cursor} {fault : Fault} : c.whole.1 = .error fault ↔
    c.expression.1 = .error fault ∨ ∃ e, c.expression.1 = .ok e ∧ c.expression.2.rest ≠ [] ∧
      fault = c.expression.2.unexpected := by
  simp only [whole]
  rcases c.expression with ⟨answer, d⟩
  cases answer with
  | error f => simp
  | ok e =>
    by_cases hd : d.rest = []
    · simp [hd]
    · simp only [List.isEmpty_iff, hd, ↓reduceIte, Except.error.injEq, reduceCtorEq, false_or,
        Except.ok.injEq, ne_eq, not_false_eq_true, true_and, exists_eq_left']
      exact eq_comm

end Cursor

/-- The three places where a list of tokens can be refused. -/
theorem refusal_cases {tokens taken rest : List Token} {q : Partial} {fault : Fault}
    (hx : (Cursor.start tokens).expression =
      ((Cursor.haltAt 0 taken.length q rest).stop q, Cursor.haltAt 0 taken.length q rest))
    (h : parse tokens = .error fault) :
    (q.ended = none ∧ fault =
      if rest.head? = some (.symbol .opening) then .nestedTooDeep maxNesting
      else .unexpected taken.length rest.head?) ∨
    (q.ended.isSome ∧ q.outer ≠ [] ∧ fault = .mismatched .missingClosing) ∨
    (q.ended.isSome ∧ q.outer = [] ∧
      ∃ t, rest.head? = some t ∧ fault = .unexpected taken.length (some t)) := by
  have hw := Cursor.whole_eq_error_iff.mp h
  rw [hx] at hw
  obtain ⟨f, fs, ended⟩ := q
  rcases hw with hstop | ⟨e, hstop, hrest, rfl⟩
  · cases ended with
    | none =>
      left
      refine ⟨rfl, ?_⟩
      simp only [Cursor.stop] at hstop
      split at hstop
      · rename_i ho
        cases hstop
        exact (if_pos ho).symm
      · rename_i ho
        cases hstop
        exact (if_neg ho).symm
    | some product =>
      cases fs with
      | nil => cases hstop
      | cons g fs =>
        cases hstop
        exact .inr (.inl ⟨rfl, List.cons_ne_nil g fs, rfl⟩)
  · obtain ⟨g, product, _, hq⟩ := Cursor.stop_eq_ok_iff.mp hstop
    cases hq
    cases rest with
    | nil => exact absurd rfl hrest
    | cons t rest => exact .inr (.inr ⟨rfl, rfl, t, rfl, rfl⟩)

theorem OperandDue.not_ended {tokens : List Token} {n : Nat} (hd : OperandDue tokens n) :
    ¬ OperandEnded tokens n := by
  intro hended
  obtain ⟨hn, he⟩ := hended
  rcases hd with rfl | ⟨s, ht, hs⟩
  · exact Nat.lt_irrefl 0 hn
  · rw [ht] at he
    rcases he with ⟨x, hx⟩ | hc
    · cases hx
    · cases hc
      exact hs rfl

/-- Lists of tokens that are not read are refused at the end of the longest viable beginning. If an
operand is due there, a group that follows is one too many and all else is unexpected. If an operand
has just ended, an open group should have been closed, and without one nothing should follow. -/
theorem refused_behind_longest_viable (tokens : List Token) (fault : Fault)
    (h : parse tokens = .error fault) :
    let n := (Cursor.start tokens).whole.2.position
    let before := tokens.take n
    IsLongestViable tokens n ∧ (OperandDue tokens n ∨ OperandEnded tokens n) ∧
    (OperandDue tokens n →
      if tokens[n]? = some (.symbol .opening) then
        fault = .nestedTooDeep 256 ∧ openings before = closings before + 256
      else fault = .unexpected n tokens[n]?) ∧
    (OperandEnded tokens n →
      if closings before < openings before then fault = .mismatched .missingClosing
      else ∃ t, tokens[n]? = some t ∧ fault = .unexpected n (some t)) := by
  intro n before
  obtain ⟨taken, rest, q, hs, hr, hq, hx⟩ := Cursor.exists_expression_run (.start tokens)
  simp only [Cursor.start, Nat.sub_zero] at hs hr hq
  have hx' : (Cursor.start tokens).expression =
      ((Cursor.haltAt 0 taken.length q rest).stop q, Cursor.haltAt 0 taken.length q rest) := by
    rw [hx, Cursor.start, Nat.zero_add]
  have hcases := refusal_cases hx' h
  have hn : n = taken.length := by
    simp only [n, Cursor.whole_snd, hx', Cursor.haltAt]
  subst hs
  have hb : before = taken := by
    simp only [before, hn, List.take_left]
  have hnext : (taken ++ rest)[taken.length]? = rest.head? := by
    rw [List.getElem?_append_right (Nat.le_refl _), Nat.sub_self, List.head?_eq_getElem?]
  have hdepth := Partial.run_depth hr
  have hroom := Partial.run_outer_le hr (Nat.zero_le _)
  obtain ⟨hdue, hended⟩ := Partial.run_expects rest hr
  simp only [Partial.start, List.length_nil, Nat.zero_add] at hdepth
  rw [hn, hb, hnext]
  refine ⟨isLongestViable_of_halts hr hq, ?_⟩
  rcases hcases with ⟨he, rfl⟩ | ⟨he, ho, rfl⟩ | ⟨he, ho, t, ht, rfl⟩
  · refine ⟨.inl (hdue he), fun _ => ?_, fun hc => absurd hc (hdue he).not_ended⟩
    split
    · rename_i ht
      have hfull := ((Partial.halts_due he).mp hq).1 ht
      have hlimit : maxNesting = 256 := rfl
      exact ⟨rfl, by omega⟩
    · rfl
  · refine ⟨.inr (hended he), fun hc => absurd (hended he) hc.not_ended, fun _ => ?_⟩
    have hpos := List.length_pos_iff.mpr ho
    rw [if_pos (by omega)]
  · refine ⟨.inr (hended he), fun hc => absurd (hended he) hc.not_ended, fun _ => ?_⟩
    rw [ho, List.length_nil] at hdepth
    rw [if_neg (by omega)]
    exact ⟨t, ht, rfl⟩

/-- Two numbers in a row within a group. -/
theorem number_in_place_of_closing :
    let tokens : List Token := [.symbol .opening, .number (.zero false), .number (.zero true)]
    parse tokens = .error (.mismatched .missingClosing) ∧ IsLongestViable tokens 2 :=
  ⟨rfl, (refused_behind_longest_viable _ _ rfl).1⟩

end Calculator
