import Calculator.Proofs.Derivation

namespace Calculator

namespace Cursor

variable {c d : Cursor} {e : Expr} {q : Partial}

theorem stop_eq_ok_iff : c.stop q = .ok e ↔
    ∃ g product, g.sumTo product = e ∧ q = ⟨g, [], some product⟩ := by
  obtain ⟨f, fs, ended⟩ := q
  constructor
  · intro h
    cases ended with
    | none =>
      simp only [stop] at h
      split at h <;> cases h
    | some product =>
      cases fs with
      | nil =>
        cases h
        exact ⟨f, product, rfl, rfl⟩
      | cons g fs => cases h
  · intro h
    obtain ⟨g, product, rfl, hq⟩ := h
    cases hq
    rfl

/-- An expression is read from the tokens that derive it, if no operator follows them and their
groups fit under the ones that are open. -/
theorem expression_eq_ok_iff : c.expression = (.ok e, d) ↔ ∃ taken,
    c.rest = taken ++ d.rest ∧ d.position = c.position + taken.length ∧ d.depth = c.depth ∧
    Derives .sum taken e ∧ NestsWithin (maxNesting - c.depth) taken ∧
    ∀ s, d.rest.head? = some (.symbol s) → s.isArithmetic = false := by
  constructor
  · intro h
    obtain ⟨taken, rest, q, hs, hr, hq, hx⟩ := exists_expression_run c
    rw [hx] at h
    obtain ⟨ho, rfl⟩ := Prod.mk.inj h
    obtain ⟨g, product, he, rfl⟩ := stop_eq_ok_iff.mp ho
    obtain ⟨hd, hn⟩ := Partial.run_iff_derives.mp ⟨g, product, he, hr⟩
    exact ⟨taken, hs, rfl, rfl, hd, hn, (Partial.halts_ended rfl rfl).mp hq⟩
  · intro h
    obtain ⟨taken, hs, hp, hd, hder, hn, hf⟩ := h
    obtain ⟨g, product, he, hr⟩ := Partial.run_iff_derives.mpr ⟨hder, hn⟩
    have hq : Partial.Halts (maxNesting - c.depth) ⟨g, [], some product⟩ d.rest :=
      (Partial.halts_ended rfl rfl).mpr hf
    have hc : d = haltAt c.depth (c.position + taken.length) ⟨g, [], some product⟩ d.rest := by
      obtain ⟨rest, position, depth⟩ := d
      cases hp
      cases hd
      rfl
    rw [expression, hs, readFrom_run hr hq, ← hc, stop_eq_ok_iff.mpr ⟨g, product, he, rfl⟩]

theorem whole_eq_ok_iff : c.whole = (.ok e, d) ↔ c.expression = (.ok e, d) ∧ d.rest = [] := by
  simp only [whole]
  rcases hx : c.expression with ⟨answer, d'⟩
  cases answer with
  | error fault => simp
  | ok e' =>
    by_cases hd : d'.rest = []
    · simp only [hd, List.isEmpty_nil, ↓reduceIte, Prod.mk.injEq, Except.ok.injEq]
      constructor
      · intro h
        obtain ⟨rfl, rfl⟩ := h
        exact ⟨⟨rfl, rfl⟩, hd⟩
      · exact And.left
    · simp only [List.isEmpty_iff, hd, ↓reduceIte, Prod.mk.injEq, reduceCtorEq, false_and,
        Except.ok.injEq, false_iff]
      intro h
      obtain ⟨⟨_, rfl⟩, hr⟩ := h
      exact hd hr

end Cursor

/-- A list of tokens is read as a whole exactly if the grammar derives it within the limit. -/
theorem parse_eq_ok_iff {tokens : List Token} {e : Expr} :
    parse tokens = .ok e ↔ Derives .sum tokens e ∧ NestsWithin maxNesting tokens := by
  constructor
  · intro h
    have hw : (Cursor.start tokens).whole = (.ok e, (Cursor.start tokens).whole.2) :=
      Prod.ext h rfl
    obtain ⟨hx, hr⟩ := Cursor.whole_eq_ok_iff.mp hw
    obtain ⟨taken, hs, _, _, hd, hn, _⟩ := Cursor.expression_eq_ok_iff.mp hx
    rw [hr, List.append_nil] at hs
    cases hs
    exact ⟨hd, hn⟩
  · intro h
    obtain ⟨hd, hn⟩ := h
    have hx : (Cursor.start tokens).expression = (.ok e, ⟨[], tokens.length, 0⟩) :=
      Cursor.expression_eq_ok_iff.mpr ⟨tokens, (List.append_nil tokens).symm,
        (Nat.zero_add _).symm, rfl, hd, hn, by simp⟩
    exact congrArg Prod.fst (Cursor.whole_eq_ok_iff.mpr ⟨hx, rfl⟩)

/-- The `k` tokens from a place on are an expression that ends there: they are derived with this
tree, they nest no deeper than the groups around them allow, and no operator follows. -/
structure Readable (tokens : List Token) (position depth k : Nat) (e : Expr) : Prop where
  le_length : position + k ≤ tokens.length
  derives : Derives .sum ((tokens.drop position).take k) e
  nests : NestsWithin (maxNesting - depth) ((tokens.drop position).take k)
  complete : ∀ s, tokens[position + k]? = some (.symbol s) → s.isArithmetic = false

variable {tokens : List Token} {position depth k : Nat} {e : Expr}

theorem readable_iff_expression : Readable tokens position depth k e ↔
    (Cursor.mk (tokens.drop position) position depth).expression =
      (.ok e, ⟨tokens.drop (position + k), position + k, depth⟩) ∧
    position + k ≤ tokens.length := by
  have hcut : (tokens.drop position).take k ++ tokens.drop (position + k) =
      tokens.drop position := by
    rw [← List.drop_drop, List.take_append_drop]
  constructor
  · intro h
    obtain ⟨hle, hd, hn, hf⟩ := h
    refine ⟨Cursor.expression_eq_ok_iff.mpr ⟨_, hcut.symm, ?_, rfl, hd, hn, ?_⟩, hle⟩
    · simp only [List.length_take, List.length_drop]
      omega
    · simpa only [List.head?_drop] using hf
  · intro h
    obtain ⟨hx, hle⟩ := h
    obtain ⟨taken, hs, hp, _, hd, hn, hf⟩ := Cursor.expression_eq_ok_iff.mp hx
    have ht : taken = (tokens.drop position).take k := by
      exact List.append_cancel_right (hs.symm.trans hcut.symm)
    subst ht
    exact ⟨hle, hd, hn, by simpa only [List.head?_drop] using hf⟩

theorem Derives.length_pos {level : Level} {ts : List Token} (h : Derives level ts e) :
    0 < ts.length := by
  induction h with
  | number | group | minus => exact Nat.zero_lt_succ _
  | primary _ ih | unary _ ih | product _ ih => exact ih
  | scale | combine =>
    rw [List.length_append]
    exact Nat.add_pos_right _ (Nat.zero_lt_succ _)

/-- What is read is readable, and nothing but what is left and the position change. -/
theorem expression_ok_readable {d : Cursor}
    (h : (Cursor.mk (tokens.drop position) position depth).expression = (.ok e, d)) :
    ∃ k, Readable tokens position depth k e ∧
      d = ⟨tokens.drop (position + k), position + k, depth⟩ := by
  obtain ⟨taken, hs, hp, hd, hder, hn, hf⟩ := Cursor.expression_eq_ok_iff.mp h
  simp only at hs hp hd
  have hl := congrArg List.length hs
  simp only [List.length_append, List.length_drop] at hl
  have hr : d.rest = tokens.drop (position + taken.length) := by
    rw [← List.drop_drop, hs, List.drop_left]
  have hne := hder.length_pos
  have he : d = ⟨tokens.drop (position + taken.length), position + taken.length, depth⟩ := by
    obtain ⟨rest, place, open'⟩ := d
    cases hp
    cases hd
    cases hr
    rfl
  refine ⟨taken.length, readable_iff_expression.mpr ⟨he ▸ h, by omega⟩, he⟩

/-- From every place, reading succeeds with a tree and a number of tokens exactly if these are
readable there. There is at most one such tree and number, and all groups that were opened are
closed again. All tokens are read as one expression exactly if the grammar derives them with at
most 256 groups in one another. -/
theorem expression_is_the_readable_one (tokens : List Token) (position depth : Nat) :
    let c : Cursor := ⟨tokens.drop position, position, depth⟩
    (∀ k e, c.expression.1 = .ok e ∧ c.expression.2.position = position + k ↔
      Readable tokens position depth k e) ∧
    (∀ k e k' e', Readable tokens position depth k e → Readable tokens position depth k' e' →
      k = k' ∧ e = e') ∧
    (∀ e, c.expression.1 = .ok e →
      c.expression.2.depth = depth ∧ c.expression.2.rest = tokens.drop c.expression.2.position) ∧
    ∀ e, parse tokens = .ok e ↔ Derives .sum tokens e ∧ NestsWithin 256 tokens := by
  intro c
  refine ⟨?_, ?_, ?_, fun e => parse_eq_ok_iff⟩
  · intro k e
    constructor
    · intro h
      obtain ⟨ha, hp⟩ := h
      obtain ⟨j, hj, hd⟩ := expression_ok_readable (e := e) (d := c.expression.2) (Prod.ext ha rfl)
      rw [hd] at hp
      have hk : j = k := Nat.add_left_cancel hp
      exact hk ▸ hj
    · intro h
      have hx := (readable_iff_expression.mp h).1
      exact ⟨congrArg Prod.fst hx, congrArg (fun x => x.2.position) hx⟩
  · intro k e k' e' h h'
    have hx := (readable_iff_expression.mp h).1
    have hx' := (readable_iff_expression.mp h').1
    have he := Prod.mk.inj (hx.symm.trans hx')
    exact ⟨Nat.add_left_cancel (congrArg Cursor.position he.2), Except.ok.inj he.1⟩
  · intro e ha
    obtain ⟨k, _, hd⟩ := expression_ok_readable (e := e) (d := c.expression.2) (Prod.ext ha rfl)
    rw [hd]
    exact ⟨rfl, rfl⟩

end Calculator
