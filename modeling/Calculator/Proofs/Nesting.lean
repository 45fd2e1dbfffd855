import Calculator.Proofs.Neighbours

namespace Calculator

variable {n : Nat} {t : Token} {ts us : List Token}

theorem nestsWithin_nil (n : Nat) : NestsWithin n [] := by
  intro before hb
  rw [List.prefix_nil.mp hb]
  exact Nat.zero_le _

theorem nestsWithin_cons : NestsWithin n (t :: ts) ↔
    ∀ before, before <+: ts → openings (t :: before) ≤ closings (t :: before) + n := by
  constructor
  · intro h before hb
    exact h _ (List.cons_prefix_cons.mpr ⟨rfl, hb⟩)
  · intro h before hb
    rcases List.prefix_cons_iff.mp hb with rfl | ⟨rest, rfl, hr⟩
    · exact Nat.zero_le _
    · exact h rest hr

/-- A token that is no parenthesis does not count. -/
theorem nestsWithin_cons_of_ne (ho : t ≠ .symbol .opening) (hc : t ≠ .symbol .closing) :
    NestsWithin n (t :: ts) ↔ NestsWithin n ts := by
  rw [nestsWithin_cons]
  simp [NestsWithin, ho, hc]

theorem nestsWithin_opening : NestsWithin n (.symbol .opening :: ts) ↔
    ∃ m, n = m + 1 ∧ NestsWithin m ts := by
  rw [nestsWithin_cons]
  simp only [NestsWithin, openings_cons, closings_cons, Token.symbol.injEq, reduceCtorEq,
    ↓reduceIte]
  constructor
  · intro h
    have hn := h [] List.nil_prefix
    simp only [openings_nil, closings_nil] at hn
    refine ⟨n - 1, by omega, fun before hb => ?_⟩
    have hle := h before hb
    omega
  · intro h before hb
    obtain ⟨m, rfl, hm⟩ := h
    have hle := hm before hb
    omega

/-- Behind tokens that close all their groups the depth counts from nothing again. -/
theorem nestsWithin_append (hb : openings ts = closings ts) :
    NestsWithin n (ts ++ us) ↔ NestsWithin n ts ∧ NestsWithin n us := by
  constructor
  · intro h
    refine ⟨fun before hp => h before (hp.trans (List.prefix_append ts us)), fun before hp => ?_⟩
    have hle := h (ts ++ before) ((List.prefix_append_right_inj ts).mpr hp)
    simp only [openings_append, closings_append] at hle
    omega
  · intro h before hp
    rcases List.prefix_or_prefix_of_prefix hp (List.prefix_append ts us) with hl | ⟨rest, rfl⟩
    · exact h.1 before hl
    · have hle := h.2 rest ((List.prefix_append_right_inj ts).mp hp)
      simp only [openings_append, closings_append]
      omega

theorem nestsWithin_group (hb : openings ts = closings ts) :
    NestsWithin n (.symbol .opening :: ts ++ [.symbol .closing]) ↔
      ∃ m, n = m + 1 ∧ NestsWithin m ts := by
  have hclosing : ∀ m, NestsWithin m [.symbol .closing] := by
    intro m
    simp [nestsWithin_cons]
  simp only [List.cons_append, nestsWithin_opening, nestsWithin_append hb, hclosing, and_true]

/-- A limit is all that can stop a reader on the way over an expression, and it does so at a group
that begins. -/
theorem Partial.refused_for_depth {room limit : Nat} {p q : Partial}
    (h : Move limit p t q) (hr : p.step room t = none) :
    p.ended = none ∧ t = .symbol .opening := by
  cases h with
  | opening f fs free => exact ⟨rfl, rfl⟩
  | number | minus | closing => cases hr
  | operator f fs e op =>
    rw [step_operator] at hr
    cases hr

theorem parse_eq_nestedTooDeep {e : Expr} (h : Derives .sum ts e)
    (hn : ¬ NestsWithin maxNesting ts) : parse ts = .error (.nestedTooDeep maxNesting) := by
  obtain ⟨taken, rest, q, rfl, hr, hq⟩ := Partial.exists_longest_run maxNesting .start ts
  obtain ⟨g, product, _, hall⟩ := Partial.run_iff_derives.mpr ⟨h, nestsWithin_length _⟩
  -- a reader with room for all groups gets over the same tokens and on from there
  obtain ⟨q', htaken, hrest⟩ := Partial.run_split hall
  have hsame : Partial.start.run (taken ++ rest).length taken = some q := by
    refine Partial.run_within hr fun before hb => ?_
    have hle := nestsWithin_length (taken ++ rest) before (hb.trans (List.prefix_append _ _))
    simpa [Partial.start] using hle
  rw [hsame] at htaken
  cases htaken
  cases rest with
  | nil =>
    cases hrest
    rw [List.append_nil] at hn
    refine absurd (fun before hb => ?_) hn
    simpa [Partial.start] using Partial.run_nests hr (Nat.zero_le _) hb
  | cons t rest =>
    obtain ⟨m, hm, _⟩ := Partial.run_cons_eq_some_iff.mp hrest
    obtain ⟨he, rfl⟩ := Partial.refused_for_depth hm (hq t rfl)
    have hx : Cursor.readFrom 0 .start 0 (taken ++ .symbol .opening :: rest) = _ :=
      Cursor.readFrom_run hr hq
    have hstop : (Cursor.haltAt 0 (0 + taken.length) q (.symbol .opening :: rest)).stop q =
        .error (.nestedTooDeep maxNesting) := by
      simp [Cursor.stop, he, Cursor.haltAt]
    rw [hstop] at hx
    simp only [parse, Cursor.whole, Cursor.expression, Cursor.start, hx]

end Calculator
