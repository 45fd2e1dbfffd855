import Calculator.Proofs.ViablePrefix

namespace Calculator

inductive Call where
  | whole
  | expression
deriving DecidableEq

namespace Cursor

def call (c : Cursor) : Call → Except Fault Expr × Cursor
  | .whole => c.whole
  | .expression => c.expression

/-- The cursor after some readings in a row. -/
def after (c : Cursor) (calls : List Call) : Cursor := calls.foldl (fun d x => (d.call x).2) c

/-- A cursor over the tokens whose depth is the number of groups open in what it has passed. -/
structure Tracks (tokens : List Token) (c : Cursor) : Prop where
  position_le : c.position ≤ tokens.length
  rest_eq : c.rest = tokens.drop c.position
  depth_eq : (c.depth : Int) =
    openings (tokens.take c.position) - closings (tokens.take c.position)
  depth_le : c.depth ≤ maxNesting

variable {tokens taken rest : List Token} {c : Cursor} {p q : Partial}

theorem tracks_start (tokens : List Token) : (start tokens).Tracks tokens :=
  ⟨Nat.zero_le _, rfl, rfl, Nat.zero_le _⟩

theorem call_expression_snd (c : Cursor) (x : Call) : (c.call x).2 = c.expression.2 := by
  cases x with
  | whole => exact whole_snd c
  | expression => rfl

/-- A place that a reading passes or ends at keeps count as the place where it began. -/
theorem Tracks.run (h : c.Tracks tokens) (hs : c.rest = taken ++ rest)
    (hr : Partial.start.run (maxNesting - c.depth) taken = some q) :
    (haltAt c.depth (c.position + taken.length) q rest).Tracks tokens := by
  obtain ⟨hp, hrest, hd, hl⟩ := h
  have hcut : tokens.take (c.position + taken.length) = tokens.take c.position ++ taken := by
    rw [List.take_add, ← hrest, hs, List.take_left]
  have hdepth := Partial.run_depth hr
  have hroom := Partial.run_outer_le hr (Nat.zero_le _)
  have hlen := congrArg List.length (hrest.symm.trans hs)
  simp only [Partial.start, List.length_nil, Nat.zero_add] at hdepth
  simp only [List.length_drop, List.length_append] at hlen
  refine ⟨?_, ?_, ?_, ?_⟩
  · simp only [haltAt]
    omega
  · simp only [haltAt]
    rw [← List.drop_drop, ← hrest, hs, List.drop_left]
  · simp only [haltAt, hcut, openings_append, closings_append]
    omega
  · simp only [haltAt]
    omega

/-- A reading passes some tokens, and what it opens among them and does not close stays open. -/
theorem exists_call_run (c : Cursor) (x : Call) : ∃ taken rest q, c.rest = taken ++ rest ∧
    Partial.start.run (maxNesting - c.depth) taken = some q ∧
    (c.call x).2 = haltAt c.depth (c.position + taken.length) q rest := by
  obtain ⟨taken, rest, q, hs, hr, _, hx⟩ := exists_expression_run c
  refine ⟨taken, rest, q, hs, hr, ?_⟩
  rw [call_expression_snd, hx]

theorem Tracks.call (h : c.Tracks tokens) (x : Call) : (c.call x).2.Tracks tokens := by
  obtain ⟨taken, rest, q, hs, hr, hd⟩ := exists_call_run c x
  rw [hd]
  exact h.run hs hr

theorem Tracks.after (h : c.Tracks tokens) (calls : List Call) : (c.after calls).Tracks tokens := by
  induction calls generalizing c with
  | nil => exact h
  | cons x calls ih => exact ih (h.call x)

theorem position_le_call (c : Cursor) (x : Call) : c.position ≤ (c.call x).2.position := by
  obtain ⟨taken, rest, q, _, _, hd⟩ := exists_call_run c x
  rw [hd]
  exact Nat.le_add_right _ _

theorem position_le_after (c : Cursor) (calls : List Call) :
    c.position ≤ (c.after calls).position := by
  induction calls generalizing c with
  | nil => exact Nat.le_refl _
  | cons x calls ih => exact Nat.le_trans (position_le_call c x) (ih _)

theorem after_append (c : Cursor) (calls more : List Call) :
    c.after (calls ++ more) = (c.after calls).after more :=
  List.foldl_append

/-- Closing a group takes the depth down by one from a depth that is not zero. -/
theorem depth_of_closing {room : Nat} (h : p.step room (.symbol .closing) = some q) (depth : Nat) :
    depth + p.outer.length = depth + q.outer.length + 1 := by
  have hd := (Partial.step_eq_some_iff.mp h).depth
  simp only [closings_cons, openings_cons, closings_nil, openings_nil, ↓reduceIte,
    Token.symbol.injEq, reduceCtorEq] at hd
  omega

theorem call_ok_expression {x : Call} {e : Expr} (h : (c.call x).1 = .ok e) :
    c.expression = (.ok e, (c.call x).2) := by
  rw [call_expression_snd]
  cases x with
  | expression => exact Prod.ext h rfl
  | whole =>
    have hw : c.whole = (.ok e, c.whole.2) := Prod.ext h rfl
    rw [← whole_snd]
    exact (whole_eq_ok_iff.mp hw).1

end Cursor

/-- Between readings and at every place inside of one, the depth is the number of groups open in the
tokens passed so far and stays within the limit, and it is not zero where a group is closed. The
position never goes back. A reading that succeeds leaves the depth as it was. One that fails closes
only groups of its own, and adds as many as it opened and did not close. -/
theorem depth_counts_open_groups (tokens : List Token) (calls : List Call) :
    let c := (Cursor.start tokens).after calls
    c.Tracks tokens ∧
    (∀ passed rest p, c.rest = passed ++ rest →
      Partial.start.run (maxNesting - c.depth) passed = some p →
      let d := Cursor.haltAt c.depth (c.position + passed.length) p rest
      d.Tracks tokens ∧ ∀ q, p.step (maxNesting - c.depth) (.symbol .closing) = some q →
        0 < d.depth ∧ c.depth + q.outer.length = d.depth - 1) ∧
    (∀ more, c.position ≤ ((Cursor.start tokens).after (calls ++ more)).position) ∧
    (∀ x e, (c.call x).1 = .ok e → (c.call x).2.depth = c.depth) ∧
    ∀ x fault, (c.call x).1 = .error fault →
      let d := (c.call x).2
      let passed := (tokens.drop c.position).take (d.position - c.position)
      (∀ before, before <+: passed → closings before ≤ openings before) ∧
      d.depth = c.depth + (openings passed - closings passed) := by
  intro c
  have hc : c.Tracks tokens := (Cursor.tracks_start tokens).after calls
  refine ⟨hc, ?_, ?_, ?_, ?_⟩
  · intro passed rest p hs hr d
    refine ⟨hc.run hs hr, ?_⟩
    intro q hq
    have hd := Cursor.depth_of_closing hq c.depth
    simp only [d, Cursor.haltAt]
    omega
  · intro more
    rw [Cursor.after_append]
    exact Cursor.position_le_after c more
  · intro x e hx
    obtain ⟨_, _, _, hd, _⟩ := Cursor.expression_eq_ok_iff.mp (Cursor.call_ok_expression hx)
    exact hd
  · -- a fault takes nothing back, so the depth is read off the run that came before it
    intro x fault _ d passed
    obtain ⟨taken, rest, q, hs, hr, hd⟩ := Cursor.exists_call_run c x
    have hp : passed = taken := by
      simp only [passed, d, hd, Cursor.haltAt, Nat.add_sub_cancel_left, ← hc.rest_eq, hs,
        List.take_left]
    rw [hp]
    constructor
    · intro before hbefore
      obtain ⟨after, rfl⟩ := hbefore
      obtain ⟨m, hm, _⟩ := Partial.run_split hr
      have hb := Partial.run_depth hm
      simp only [Partial.start, List.length_nil] at hb
      omega
    · have hb := Partial.run_depth hr
      simp only [Partial.start, List.length_nil] at hb
      simp only [d, hd, Cursor.haltAt]
      omega

end Calculator
