import Calculator.Proofs.Grammar

namespace Calculator

namespace Partial

/-- All that a step can do, each move with the place and the token that allow it. -/
inductive Move (room : Nat) : Partial → Token → Partial → Prop where
  | number (f : Frame) (fs : List Frame) (x : Binary64) :
      Move room ⟨f, fs, none⟩ (.number x) (endOperand f fs (.number x))
  | minus (f : Frame) (fs : List Frame) :
      Move room ⟨f, fs, none⟩ (.symbol .minus) ⟨{ f with minuses := f.minuses + 1 }, fs, none⟩
  | opening (f : Frame) (fs : List Frame) (free : fs.length < room) :
      Move room ⟨f, fs, none⟩ (.symbol .opening) ⟨.empty, f :: fs, none⟩
  | closing (f g : Frame) (fs : List Frame) (e : Expr) :
      Move room ⟨f, g :: fs, some e⟩ (.symbol .closing) (endOperand g fs (f.sumTo e))
  | operator (f : Frame) (fs : List Frame) (e : Expr) (op : Operation) :
      Move room ⟨f, fs, some e⟩ (.symbol op.symbol) ⟨f.await e op, fs, none⟩

variable {room : Nat} {p q r : Partial} {t : Token} {ts us rest : List Token}

theorem Move.of_step (h : p.step room t = some q) : Move room p t q := by
  obtain ⟨f, fs, ended⟩ := p
  cases ended with
  | none =>
    cases t with
    | number x =>
      cases h
      exact .number f fs x
    | symbol s =>
      cases s <;> simp only [step, reduceCtorEq, Option.ite_none_right_eq_some] at h
      case minus =>
        cases h
        exact .minus f fs
      case opening =>
        obtain ⟨free, h⟩ := h
        cases h
        exact .opening f fs free
  | some e =>
    cases t with
    | number x => cases h
    | symbol s =>
      cases s
      case opening => cases h
      case closing =>
        cases fs with
        | nil => cases h
        | cons g fs =>
          cases h
          exact .closing f g fs e
      case plus =>
        cases h
        exact .operator f fs e .add
      case minus =>
        cases h
        exact .operator f fs e .subtract
      case times =>
        cases h
        exact .operator f fs e .multiply
      case «over» =>
        cases h
        exact .operator f fs e .divide

theorem step_operator (room : Nat) (f : Frame) (fs : List Frame) (e : Expr) (op : Operation) :
    step room ⟨f, fs, some e⟩ (.symbol op.symbol) = some ⟨f.await e op, fs, none⟩ := by
  cases op <;> rfl

theorem step_eq_some_iff : p.step room t = some q ↔ Move room p t q := by
  refine ⟨Move.of_step, fun h => ?_⟩
  cases h with
  | number f fs x => rfl
  | minus f fs => rfl
  | opening f fs free => simp [step, free]
  | closing f g fs e => rfl
  | operator f fs e op => exact step_operator _ f fs e op

/-- A step opens at most one group and closes at most one. -/
theorem Move.depth (h : Move room p t q) :
    q.outer.length + closings [t] = p.outer.length + openings [t] := by
  cases h with
  | operator f fs e op => cases op <;> simp [Operation.symbol]
  | number f fs x => simp [endOperand]
  | minus f fs => simp
  | opening f fs free => simp
  | closing f g fs e => simp [endOperand]

theorem Move.outer_le (h : Move room p t q) (hp : p.outer.length ≤ room) :
    q.outer.length ≤ room := by
  cases h with
  | opening f fs free => exact free
  | closing f g fs e => exact Nat.le_of_succ_le hp
  | number | minus | operator => exact hp

/-- A larger limit allows the same moves. -/
theorem Move.within {limit : Nat} (h : Move limit p t q) (hq : q.outer.length ≤ room) :
    Move room p t q := by
  cases h with
  | number f fs x => exact .number f fs x
  | minus f fs => exact .minus f fs
  | opening f fs free => exact .opening f fs hq
  | closing f g fs e => exact .closing f g fs e
  | operator f fs e op => exact .operator f fs e op

/-- The steps for some tokens in a row. -/
def run (room : Nat) (p : Partial) (ts : List Token) : Option Partial := ts.foldlM (step room) p

@[simp] theorem run_nil : p.run room [] = some p := rfl

theorem run_cons : p.run room (t :: ts) = (p.step room t).bind (·.run room ts) := rfl

theorem run_append : p.run room (ts ++ us) = (p.run room ts).bind (·.run room us) :=
  List.foldlM_append

theorem run_trans (h : p.run room ts = some q) (h' : q.run room us = some r) :
    p.run room (ts ++ us) = some r := by
  rw [run_append, h]
  exact h'

theorem run_cons_eq_some_iff :
    p.run room (t :: ts) = some r ↔ ∃ q, Move room p t q ∧ q.run room ts = some r := by
  simp only [run_cons, Option.bind_eq_some_iff, step_eq_some_iff]

/-- What was run over can be cut at any place. -/
theorem run_split (h : p.run room (ts ++ us) = some r) :
    ∃ q, p.run room ts = some q ∧ q.run room us = some r := by
  rw [run_append] at h
  exact Option.bind_eq_some_iff.mp h

theorem run_concat_eq_some_iff :
    p.run room (ts ++ [t]) = some r ↔ ∃ q, p.run room ts = some q ∧ Move room q t r := by
  rw [run_append, Option.bind_eq_some_iff]
  simp [run_cons_eq_some_iff]

theorem run_depth (h : p.run room ts = some q) :
    q.outer.length + closings ts = p.outer.length + openings ts := by
  induction ts generalizing p with
  | nil =>
    cases h
    rfl
  | cons t ts ih =>
    obtain ⟨m, hm, hr⟩ := run_cons_eq_some_iff.mp h
    have hs := hm.depth
    have ht := ih hr
    simp only [openings_cons, closings_cons, openings_nil, closings_nil] at hs ⊢
    omega

theorem run_outer_le (h : p.run room ts = some q) (hp : p.outer.length ≤ room) :
    q.outer.length ≤ room := by
  induction ts generalizing p with
  | nil =>
    cases h
    exact hp
  | cons t ts ih =>
    obtain ⟨m, hm, hr⟩ := run_cons_eq_some_iff.mp h
    exact ih hr (hm.outer_le hp)

/-- At every place of a run the groups that are open fit into the room. -/
theorem run_nests (h : p.run room ts = some q) (hp : p.outer.length ≤ room)
    {before : List Token} (hb : before <+: ts) :
    p.outer.length + openings before ≤ closings before + room := by
  obtain ⟨after, rfl⟩ := hb
  obtain ⟨m, hm, _⟩ := run_split h
  have hd := run_depth hm
  have hl := run_outer_le hm hp
  omega

/-- The limit matters only where more groups would be open than it allows. -/
theorem run_within {limit : Nat} (h : p.run limit ts = some q)
    (hn : ∀ before, before <+: ts → p.outer.length + openings before ≤ closings before + room) :
    p.run room ts = some q := by
  induction ts generalizing p with
  | nil => exact h
  | cons t ts ih =>
    obtain ⟨m, hm, hr⟩ := run_cons_eq_some_iff.mp h
    have hd := hm.depth
    have ht := hn [t] ⟨ts, rfl⟩
    refine run_cons_eq_some_iff.mpr ⟨m, hm.within (by omega), ih hr ?_⟩
    intro before hb
    have hc := hn (t :: before) (List.cons_prefix_cons.mpr ⟨rfl, hb⟩)
    simp only [openings_cons, closings_cons, openings_nil, closings_nil] at hd hc
    omega

/-- No step is possible on what comes next. -/
def Halts (room : Nat) (p : Partial) (rest : List Token) : Prop :=
  ∀ t ∈ rest.head?, p.step room t = none

theorem exists_longest_run (room : Nat) (p : Partial) (ts : List Token) :
    ∃ taken rest q, ts = taken ++ rest ∧ p.run room taken = some q ∧ q.Halts room rest := by
  induction ts generalizing p with
  | nil => exact ⟨[], [], p, rfl, rfl, by simp [Halts]⟩
  | cons t ts ih =>
    cases hs : p.step room t with
    | none => exact ⟨[], t :: ts, p, rfl, rfl, by simp [Halts, hs]⟩
    | some m =>
      obtain ⟨taken, rest, q, rfl, hr, hq⟩ := ih m
      exact ⟨t :: taken, rest, q, rfl, by simp [run_cons, hs, hr], hq⟩

/-- Behind a complete sum only an operator goes on. -/
theorem halts_ended (he : p.ended.isSome) (ho : p.outer = []) :
    p.Halts room rest ↔ ∀ s, rest.head? = some (.symbol s) → s.isArithmetic = false := by
  obtain ⟨f, fs, ended⟩ := p
  obtain ⟨e, rfl⟩ := Option.isSome_iff_exists.mp he
  cases ho
  constructor
  · intro h s hs
    have ht := h _ hs
    cases s with
    | opening | closing => rfl
    | plus | minus | times | «over» => cases ht
  · intro h t ht
    cases t with
    | number x => rfl
    | symbol s =>
      have hs := h s ht
      cases s with
      | opening | closing => rfl
      | plus | minus | times | «over» => cases hs

/-- Where an operand is due, reading halts at the end, before a group for which there is no room,
and before what begins no operand. -/
theorem halts_due (hd : p.ended = none) :
    p.Halts room rest ↔ (rest.head? = some (.symbol .opening) → room ≤ p.outer.length) ∧
      (∀ x, rest.head? ≠ some (.number x)) ∧ rest.head? ≠ some (.symbol .minus) := by
  obtain ⟨f, fs, ended⟩ := p
  cases hd
  cases rest with
  | nil => simp [Halts]
  | cons t rest =>
    cases t with
    | number x => simp [Halts, step]
    | symbol s => cases s <;> simp [Halts, step]

end Partial

namespace Cursor

variable {p q : Partial} {ts rest : List Token}

/-- Where reading ends that made its way to `q` and left `rest`. -/
def haltAt (depth position : Nat) (q : Partial) (rest : List Token) : Cursor :=
  ⟨rest, position, depth + q.outer.length⟩

/-- Reading is the longest run, answered where it halts. -/
theorem readFrom_run {depth position : Nat} (h : p.run (maxNesting - depth) ts = some q)
    (hq : q.Halts (maxNesting - depth) rest) :
    readFrom depth p position (ts ++ rest) =
      ((haltAt depth (position + ts.length) q rest).stop q,
        haltAt depth (position + ts.length) q rest) := by
  induction ts generalizing p position with
  | nil =>
    cases h
    cases rest with
    | nil => rfl
    | cons t rest =>
      have hs := hq t rfl
      simp [readFrom, hs, haltAt]
  | cons t ts ih =>
    obtain ⟨m, hm, hr⟩ := Partial.run_cons_eq_some_iff.mp h
    have hs := Partial.step_eq_some_iff.mpr hm
    simp only [List.cons_append, readFrom, hs, List.length_cons]
    rw [ih hr, Nat.add_assoc, Nat.add_comm 1]

/-- Every reading is such a run. -/
theorem exists_expression_run (c : Cursor) : ∃ taken rest q,
    c.rest = taken ++ rest ∧ Partial.start.run (maxNesting - c.depth) taken = some q ∧
    q.Halts (maxNesting - c.depth) rest ∧
    c.expression = ((haltAt c.depth (c.position + taken.length) q rest).stop q,
      haltAt c.depth (c.position + taken.length) q rest) := by
  obtain ⟨taken, rest, q, hs, hr, hq⟩ :=
    Partial.exists_longest_run (maxNesting - c.depth) .start c.rest
  refine ⟨taken, rest, q, hs, hr, hq, ?_⟩
  rw [expression, hs]
  exact readFrom_run hr hq

end Cursor

end Calculator
