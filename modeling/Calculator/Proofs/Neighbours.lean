import Calculator.Formula
import Calculator.Proofs.ViablePrefix

namespace Calculator

namespace Token

def symbol? : Token → Option Symbol
  | .number _ => none
  | .symbol s => some s

def beginsOperand : Token → Bool
  | .number _ | .symbol .opening | .symbol .minus => true
  | .symbol _ => false

def endsOperand : Token → Bool
  | .number _ | .symbol .closing => true
  | .symbol _ => false

/-- Two tokens in a row that the screening lets pass and no expression has: an operand behind an
operand, a group that begins with an operator or has nothing in it, and one that ends with an
operator. -/
def clashes : Token → Token → Bool
  | t, .number _ => t.endsOperand
  | t, .symbol .opening => t.endsOperand
  | .symbol .opening, .symbol s => s != .minus
  | .symbol s, .symbol .closing => s.isArithmetic
  | _, _ => false

/-- What cannot stand where an operand is due clashes with what is before, or doubles it. -/
theorem isDoubled_of_not_clashes {t u : Token} (ht : t.endsOperand = false)
    (hu : u.beginsOperand = false) (h : t.clashes u = false) :
    ∃ s ∈ t.symbol?, ∃ s' ∈ u.symbol?, Screening.isDoubled s s' = true := by
  cases t with
  | number x => cases ht
  | symbol s =>
    cases u with
    | number x => cases hu
    | symbol s' =>
      refine ⟨s, rfl, s', rfl, ?_⟩
      cases s <;> cases s' <;> first | rfl | contradiction

end Token

namespace Partial

variable {room : Nat} {p q : Partial} {t u : Token} {ts rest : List Token}

/-- An operand has ended exactly behind a token that ends one. -/
theorem Move.isSome_ended (h : Move room p t q) : q.ended.isSome = t.endsOperand := by
  obtain ⟨hdue, hended⟩ := h.expects
  cases he : q.ended with
  | none =>
    obtain ⟨s, rfl, hs⟩ := hdue he
    cases s with
    | closing => exact absurd rfl hs
    | plus | minus | times | «over» | opening => rfl
  | some e =>
    rcases hended (by simp [he]) with ⟨x, rfl⟩ | rfl
    · rfl
    · rfl

/-- Where an operand is due one begins, and behind an operand none does. -/
theorem Move.begins (h : Move room p t q) :
    if p.ended.isSome then ∃ s, t = .symbol s ∧ s ≠ .opening else t.beginsOperand = true := by
  cases h with
  | number f fs x => rfl
  | minus f fs => rfl
  | opening f fs free => rfl
  | closing f g fs e => exact ⟨.closing, rfl, by decide⟩
  | operator f fs e op => exact ⟨op.symbol, rfl, by cases op <;> decide⟩

theorem Move.not_clashes (h : Move room p t q) {r : Partial} (h' : Move room q u r) :
    t.clashes u = false := by
  have hb := h'.begins
  rw [h.isSome_ended] at hb
  cases ht : t.endsOperand with
  | true =>
    simp only [ht, ↓reduceIte] at hb
    obtain ⟨s, rfl, hs⟩ := hb
    cases t with
    | number x => cases s <;> first | rfl | contradiction
    | symbol s' => cases s' <;> cases s <;> first | rfl | contradiction
  | false =>
    simp only [ht, Bool.false_eq_true, ↓reduceIte] at hb
    cases t with
    | number x => cases ht
    | symbol s' =>
      cases u with
      | number x => exact ht
      | symbol s => cases s' <;> cases s <;> first | rfl | contradiction

/-- Neighbours that a reader gets over do not clash. -/
theorem run_not_clashes (h : p.run room ts = some q) (hi : [t, u] <:+: ts) :
    t.clashes u = false := by
  obtain ⟨before, after, rfl⟩ := hi
  rw [List.append_assoc] at h
  obtain ⟨m, _, hm⟩ := run_split h
  obtain ⟨m', ht, hm'⟩ := run_cons_eq_some_iff.mp hm
  obtain ⟨m'', hu, _⟩ := run_cons_eq_some_iff.mp hm'
  exact ht.not_clashes hu

/-- The tokens that a reader refuses, by what it expects. -/
theorem refused_cases (h : p.step room t = none) :
    (p.ended = none ∧ (t.beginsOperand = false ∨ t = .symbol .opening ∧ room ≤ p.outer.length)) ∨
    (p.ended.isSome ∧ ((∀ s, t = .symbol s → s = .opening) ∨ t = .symbol .closing ∧ p.outer = [])) := by
  obtain ⟨f, fs, ended⟩ := p
  cases ended with
  | none =>
    refine .inl ⟨rfl, ?_⟩
    cases t with
    | number x => cases h
    | symbol s =>
      cases s with
      | minus => cases h
      | plus | times | «over» | closing => exact .inl rfl
      | opening => exact .inr ⟨rfl, by simpa [step] using h⟩
  | some e =>
    refine .inr ⟨rfl, ?_⟩
    cases t with
    | number x => exact .inl (by simp)
    | symbol s =>
      cases s with
      | plus | minus | times | «over» => cases h
      | opening => exact .inl (by simp)
      | closing =>
        cases fs with
        | nil => exact .inr ⟨rfl, rfl⟩
        | cons g fs => cases h

end Partial

namespace Screening

variable {room : Nat} {p q : Partial} {t : Token} {ts : List Token} {previous : Option Symbol}

/-- Directly behind an operation sign the reader waits for an operand. -/
def Fits (previous : Option Symbol) (p : Partial) : Prop :=
  ∀ s ∈ previous, s.isArithmetic = true → p.ended = none

theorem fits_move (h : Partial.Move room p t q) : Fits t.symbol? q := by
  intro s hs harith
  have he := h.isSome_ended
  cases t with
  | number x => cases hs
  | symbol s' =>
    cases hs
    cases s with
    | opening | closing => cases harith
    | plus | minus | times | «over» => simpa [Token.endsOperand] using he

/-- No step of the reader doubles an operation sign. -/
theorem not_isDoubled_of_move {s u : Symbol} (h : Partial.Move room p (.symbol u) q)
    (hp : Fits previous p) (hs : s ∈ previous) : isDoubled s u = false := by
  generalize ht : Token.symbol u = t at h
  cases h with
  | number f fs x => cases ht
  | minus f fs | opening f fs free | closing f g fs e =>
    cases ht
    simp [isDoubled, Symbol.isArithmetic]
  | operator f fs e op =>
    cases ha : s.isArithmetic with
    | true => cases hp s hs ha
    | false => simp [isDoubled, ha]

/-- The screening lets pass what the reader gets over, and counts the same groups. -/
theorem screenFrom_move (h : Partial.Move room p t q) (hp : Fits previous p) (rest : List Token) :
    screenFrom previous p.outer.length (t :: rest) = screenFrom t.symbol? q.outer.length rest := by
  cases t with
  | number x =>
    cases h
    rfl
  | symbol u =>
    have hf : previous.filter (isDoubled · u) = none := by
      rw [Option.filter_eq_none_iff]
      intro s hs
      simp [not_isDoubled_of_move h hp hs]
    rw [screenFrom.eq_def]
    simp only [hf]
    generalize ht : Token.symbol u = t at h
    cases h with
    | number f fs x => cases ht
    | minus f fs | opening f fs free | closing f g fs e =>
      cases ht
      rfl
    | operator f fs e op =>
      cases ht
      cases op <;> rfl

theorem screenFrom_run (h : p.run room ts = some q) (hp : Fits previous p) (rest : List Token) :
    ∃ last, Fits last q ∧
      screenFrom previous p.outer.length (ts ++ rest) = screenFrom last q.outer.length rest := by
  induction ts generalizing p previous with
  | nil =>
    cases h
    exact ⟨previous, hp, rfl⟩
  | cons t ts ih =>
    obtain ⟨m, hm, hr⟩ := Partial.run_cons_eq_some_iff.mp h
    obtain ⟨last, hlast, hs⟩ := ih hr (fits_move hm)
    exact ⟨last, hlast, (screenFrom_move hm hp (ts ++ rest)).trans hs⟩

theorem fits_start : Fits none Partial.start := by
  intro s hs
  cases hs

/-- Behind a run the screening remembers the last token of it and the groups that are open. -/
theorem screen_run (h : Partial.start.run room (ts ++ [t]) = some q) (rest : List Token) :
    screen (ts ++ t :: rest) = screenFrom t.symbol? q.outer.length rest := by
  obtain ⟨m, hm, ht⟩ := Partial.run_concat_eq_some_iff.mp h
  obtain ⟨last, hlast, hs⟩ := screenFrom_run hm fits_start (t :: rest)
  exact hs.trans (screenFrom_move ht hlast rest)

/-- The screening refuses a doubled sign, and a group that closes too often. -/
theorem screenFrom_eq_ok_cons {depth : Nat} {u : Token} {rest : List Token}
    (h : screenFrom previous depth (u :: rest) = .ok ()) :
    (∀ s ∈ previous, ∀ s' ∈ u.symbol?, isDoubled s s' = false) ∧
      (u = .symbol .closing → depth ≠ 0) := by
  cases u with
  | number x => exact ⟨by simp [Token.symbol?], nofun⟩
  | symbol u =>
    unfold screenFrom at h
    split at h
    · cases h
    · rename_i hf
      rw [Option.filter_eq_none_iff] at hf
      refine ⟨?_, ?_⟩
      · intro s hs s' hs'
        cases hs'
        simpa using hf s hs
      · rintro hu rfl
        cases hu
        cases h

end Screening

/-- What a list of tokens has to show at its ends, from neighbour to neighbour and in its depth. -/
structure WellPlaced (tokens : List Token) : Prop where
  nonempty : tokens ≠ []
  nests : NestsWithin 256 tokens
  first : ∀ t ∈ tokens.head?, t.beginsOperand = true
  last : ∀ t ∈ tokens.getLast?, t.endsOperand = true
  neighbours : ∀ t u, [t, u] <:+: tokens → t.clashes u = false

variable {tokens : List Token} {e : Expr}

/-- All tokens fit into as many groups as there are tokens. -/
theorem nestsWithin_length (tokens : List Token) : NestsWithin tokens.length tokens := by
  intro before hb
  have hc : openings before ≤ before.length := List.count_le_length
  have hl := hb.length_le
  omega

/-- The screening refuses nothing that the grammar derives, however deep it nests. -/
theorem Derives.screen_eq_ok (h : Derives .sum tokens e) : screen tokens = .ok () := by
  obtain ⟨g, product, _, hr⟩ := Partial.run_iff_derives.mpr ⟨h, nestsWithin_length tokens⟩
  obtain ⟨last, _, hs⟩ := Screening.screenFrom_run hr Screening.fits_start []
  rw [List.append_nil] at hs
  exact hs

theorem wellPlaced_of_derives (h : Derives .sum tokens e) (hn : NestsWithin 256 tokens) :
    WellPlaced tokens := by
  obtain ⟨g, product, _, hr⟩ := Partial.run_iff_derives.mpr ⟨h, hn⟩
  refine ⟨List.length_pos_iff.mp h.length_pos, hn, ?_, ?_, fun t u => Partial.run_not_clashes hr⟩
  · intro t ht
    obtain ⟨rest, rfl⟩ := List.head?_eq_some_iff.mp ht
    obtain ⟨q, hm, _⟩ := Partial.run_cons_eq_some_iff.mp hr
    exact hm.begins
  · intro t ht
    obtain ⟨before, rfl⟩ := List.getLast?_eq_some_iff.mp ht
    obtain ⟨m, _, hm⟩ := Partial.run_concat_eq_some_iff.mp hr
    exact hm.isSome_ended.symm

/-- Where the tokens nest no deeper than a limit, a group that begins is within the limit. -/
theorem Partial.free_of_nests {room limit : Nat} {q : Partial} {ts rest : List Token}
    (h : start.run room ts = some q) (hn : NestsWithin limit (ts ++ .symbol .opening :: rest)) :
    q.outer.length < limit := by
  have hd := run_depth h
  have hb := hn (ts ++ [.symbol .opening]) ⟨rest, by simp⟩
  simp only [start, List.length_nil, openings_append, openings_cons, openings_nil,
    closings_append, closings_cons, closings_nil, Token.symbol.injEq, reduceCtorEq,
    ↓reduceIte] at hb hd
  omega

/-- Between tokens that do not clash, a reader stops only where there is no room for a group, where
a sign is doubled, and where no group is open that could be closed. -/
theorem Partial.refused_behind {room : Nat} {p q : Partial} {t u : Token} (h : Move room p t q)
    (hu : q.step room u = none) (hc : t.clashes u = false) :
    (u = .symbol .opening ∧ room ≤ q.outer.length) ∨
    (∃ s ∈ t.symbol?, ∃ s' ∈ u.symbol?, Screening.isDoubled s s' = true) ∨
    (u = .symbol .closing ∧ q.outer = []) := by
  have hended := h.isSome_ended
  rcases refused_cases hu with ⟨he, hdue⟩ | ⟨he, hbehind⟩
  · rw [he] at hended
    rcases hdue with hb | hfull
    · exact .inr (.inl (Token.isDoubled_of_not_clashes hended.symm hb hc))
    · exact .inl hfull
  · rw [he] at hended
    rcases hbehind with hopening | hclosing
    · -- an operand behind an operand
      cases u with
      | number x => cases hended.trans hc
      | symbol s =>
        cases hopening s rfl
        cases hended.trans hc
    · exact .inr (.inr hclosing)

/-- A reader gets over all tokens that are well placed and pass the screening. -/
theorem exists_run_of_wellPlaced (hs : screen tokens = .ok ()) (h : WellPlaced tokens) :
    ∃ q, Partial.start.run maxNesting tokens = some q := by
  obtain ⟨taken, rest, q, rfl, hr, hq⟩ := Partial.exists_longest_run maxNesting .start tokens
  cases rest with
  | nil => exact ⟨q, by rw [List.append_nil, hr]⟩
  | cons u rest =>
    exfalso
    have hu := hq u rfl
    rcases List.eq_nil_or_concat taken with rfl | ⟨us, t, rfl⟩
    · -- the first token begins an operand, and there is room for a group
      cases hr
      rcases Partial.refused_cases hu with ⟨_, hb | ⟨_, hfull⟩⟩ | ⟨he, _⟩
      · rw [h.first u rfl] at hb
        cases hb
      · cases hfull
      · cases he
    · rw [List.concat_eq_append] at *
      have hscreen := Screening.screen_run hr (u :: rest)
      rw [List.append_cons, hs] at hscreen
      obtain ⟨hdouble, hclose⟩ := Screening.screenFrom_eq_ok_cons hscreen.symm
      obtain ⟨m, _, ht⟩ := Partial.run_concat_eq_some_iff.mp hr
      have hc := h.neighbours t u ⟨us, rest, by simp⟩
      rcases Partial.refused_behind ht hu hc with ⟨rfl, hfull⟩ | ⟨s, hs, s', hs', hd⟩ | ⟨rfl, ho⟩
      · exact Nat.not_lt_of_le hfull (Partial.free_of_nests hr h.nests)
      · rw [hdouble s hs s' hs'] at hd
        cases hd
      · exact hclose rfl (List.length_eq_zero_iff.mpr ho)

theorem exists_parse_of_wellPlaced (hs : screen tokens = .ok ()) (h : WellPlaced tokens) :
    ∃ e, parse tokens = .ok e := by
  obtain ⟨q, hr⟩ := exists_run_of_wellPlaced hs h
  rcases List.eq_nil_or_concat tokens with rfl | ⟨us, t, rfl⟩
  · exact absurd rfl h.nonempty
  · rw [List.concat_eq_append] at *
    obtain ⟨m, _, ht⟩ := Partial.run_concat_eq_some_iff.mp hr
    have hended := ht.isSome_ended
    rw [h.last t (by simp)] at hended
    obtain ⟨product, he⟩ := Option.isSome_iff_exists.mp hended
    have ho : q.outer = [] := by
      rw [Screening.screen_run hr []] at hs
      cases ho : q.outer with
      | nil => rfl
      | cons f fs =>
        rw [ho] at hs
        cases hs
    exact ⟨_, parse_eq_ok_iff.mpr ⟨Partial.derives_of_run hr he ho, h.nests⟩⟩

/-- Reading succeeds exactly on the tokens that the screening lets pass and that are well placed.
The screening refuses nothing that could be read, so without it the same texts have the same
expressions. -/
theorem parse_ok_iff_screened_and_placed :
    (∀ tokens, (∃ e, parse tokens = .ok e) ↔ screen tokens = .ok () ∧ WellPlaced tokens) ∧
    ∀ text e, Formula.read text = .ok e ↔ (Formula.tokens text >>= parse) = .ok e := by
  constructor
  · intro tokens
    constructor
    · intro h
      obtain ⟨e, he⟩ := h
      obtain ⟨hd, hn⟩ := parse_eq_ok_iff.mp he
      exact ⟨hd.screen_eq_ok, wellPlaced_of_derives hd hn⟩
    · intro h
      exact exists_parse_of_wellPlaced h.1 h.2
  · intro text e
    rw [Formula.read]
    cases Formula.tokens text with
    | error fault => exact Iff.rfl
    | ok tokens =>
      change (screen tokens >>= fun _ => parse tokens) = .ok e ↔ parse tokens = .ok e
      constructor
      · intro h
        cases hs : screen tokens with
        | error fault =>
          rw [hs] at h
          cases h
        | ok =>
          rw [hs] at h
          exact h
      · intro h
        rw [(parse_eq_ok_iff.mp h).1.screen_eq_ok]
        exact h

end Calculator
