import Calculator.Formula
import Calculator.Proofs.PointedNumeral

namespace Calculator

theorem isBlank_of_isDigit {c : Char} (h : c.isDigit = true) : isBlank c = false := by
  have hl : 48 ≤ c.toNat ∧ c.toNat ≤ 57 := by
    simpa [Char.isDigit, UInt32.le_iff_toNat_le] using h
  unfold isBlank
  simp only [Bool.or_eq_false_iff, Bool.and_eq_false_iff, decide_eq_false_iff_not,
    beq_eq_false_iff_ne]
  omega

theorem isBlank_of_isPart {c : Char} (h : Numeral.isPart c = true) : isBlank c = false := by
  rcases Bool.or_eq_true_iff.mp h with hd | hp
  · exact isBlank_of_isDigit hd
  · rw [eq_of_beq hp]
    rfl

namespace Symbol

theorem isBlank_char (s : Symbol) : isBlank s.char = false := by
  cases s <;> rfl

theorem isPart_char (s : Symbol) : Numeral.isPart s.char = false := by
  cases s <;> rfl

end Symbol

namespace Scanner

variable {rest run : List Char} {offset : Nat} {x : Binary64}

theorem pass_cons {c : Char} {p : Char → Bool} (h : p c = false) :
    (⟨c :: rest, offset⟩ : Scanner).pass p = ⟨c :: rest, offset⟩ := by
  simp [pass, h]

theorem pass_cons_of_pos {c : Char} {p : Char → Bool} (h : p c = true) :
    (⟨c :: rest, offset⟩ : Scanner).pass p = (⟨rest, offset + 1⟩ : Scanner).pass p := by
  simp [pass, h, Nat.add_comm, Nat.add_left_comm]

theorem pass_run {p : Char → Bool} (offset : Nat) (hrun : ∀ c ∈ run, p c = true)
    (hstop : ∀ c ∈ rest.head?, p c = false) :
    (⟨run ++ rest, offset⟩ : Scanner).pass p = ⟨rest, offset + run.length⟩ := by
  rw [pass, takeWhile_run hrun hstop, dropWhile_run hrun hstop]

/-- A character that is no part of a numeral is read alone, and a foreign one is not passed. -/
theorem next_single {c : Char} (offset : Nat) (hb : isBlank c = false)
    (hp : Numeral.isPart c = false) : (⟨c :: rest, offset⟩ : Scanner).next =
      match Symbol.ofChar? c with
      | some s => (.ok (some (.symbol s)), ⟨rest, offset + 1⟩)
      | none => (.error (.foreignCharacter c offset), ⟨c :: rest, offset⟩) := by
  simp only [next, pass_cons hb, hp]
  rfl

theorem next_symbol (s : Symbol) :
    (⟨s.char :: rest, offset⟩ : Scanner).next = (.ok (some (.symbol s)), ⟨rest, offset + 1⟩) := by
  rw [next_single offset s.isBlank_char s.isPart_char, Symbol.ofChar?_char]

/-- A run of digits and points is passed as a whole, whether or not it is a numeral. -/
theorem next_run (offset : Nat) (hne : run ≠ []) (hrun : ∀ c ∈ run, Numeral.isPart c = true)
    (hstop : ∀ c ∈ rest.head?, Numeral.isPart c = false) :
    (⟨run ++ rest, offset⟩ : Scanner).next =
      (match Numeral.value? run with
        | some x => .ok (some (.number x))
        | none => .error (.malformedNumber run offset), ⟨rest, offset + run.length⟩) := by
  have hpass := pass_run offset hrun hstop
  have htake := takeWhile_run hrun hstop
  obtain ⟨first, others, rfl⟩ := List.exists_cons_of_ne_nil hne
  have hfirst : Numeral.isPart first = true := hrun first List.mem_cons_self
  rw [List.cons_append] at htake hpass ⊢
  simp only [next, pass_cons (isBlank_of_isPart hfirst), hfirst, htake, hpass, ↓reduceIte]
  cases Numeral.value? (first :: others) with
  | none => rfl
  | some x => rfl

/-- A numeral is read up to the first character that cannot continue it. -/
theorem next_number (offset : Nat) (h : Numeral.Denotes run x)
    (hstop : ∀ c ∈ rest.head?, Numeral.isPart c = false) :
    (⟨run ++ rest, offset⟩ : Scanner).next =
      (.ok (some (.number x)), ⟨rest, offset + run.length⟩) := by
  rw [next_run offset h.ne_nil h.parts hstop, h.value]

/-- Reading all tokens is reading one and then the others. -/
theorem tokens_eq (s : Scanner) : s.tokens =
    match s.next with
    | (.error fault, _) => .error fault
    | (.ok none, _) => .ok []
    | (.ok (some token), t) => t.tokens.map (token :: ·) := by
  rw [tokens]
  split
  · rename_i h
    rw [h]
  · rename_i h
    rw [h]
  · rename_i t h
    simp only [h]
    cases t.tokens with
    | error fault => rfl
    | ok ts => rfl

theorem tokens_end : (⟨[], offset⟩ : Scanner).tokens = .ok [] :=
  tokens_eq ⟨[], offset⟩

/-- One token after the other. -/
theorem tokens_of_next {s t : Scanner} {token : Token} {ts : List Token}
    (h : s.next = (.ok (some token), t)) (ht : t.tokens = .ok ts) :
    s.tokens = .ok (token :: ts) := by
  rw [tokens_eq, h]
  simp only [ht, Except.map]

theorem tokens_symbol {s : Symbol} {ts : List Token}
    (h : (⟨rest, offset + 1⟩ : Scanner).tokens = .ok ts) :
    (⟨s.char :: rest, offset⟩ : Scanner).tokens = .ok (.symbol s :: ts) :=
  tokens_of_next (next_symbol s) h

/-- A blank character is passed. -/
theorem next_blank {c : Char} (h : isBlank c = true) :
    (⟨c :: rest, offset⟩ : Scanner).next = (⟨rest, offset + 1⟩ : Scanner).next := by
  simp only [next, pass_cons_of_pos h]

theorem tokens_blank {c : Char} (h : isBlank c = true) :
    (⟨c :: rest, offset⟩ : Scanner).tokens = (⟨rest, offset + 1⟩ : Scanner).tokens := by
  rw [tokens_eq, next_blank h, ← tokens_eq]

theorem tokens_number (h : Numeral.Denotes run x) :
    (⟨run, offset⟩ : Scanner).tokens = .ok [.number x] := by
  have hstop : ∀ c ∈ ([] : List Char).head?, Numeral.isPart c = false := by
    intro c hc
    cases hc
  have hnext := next_number offset h hstop
  rw [List.append_nil] at hnext
  exact tokens_of_next hnext tokens_end

end Scanner

namespace Formula

variable {run : List Char} {x : Binary64}

theorem accept_ofList {text : List Char} {c : Char} (hc : c ∈ text) (hb : isBlank c = false)
    (hl : text.length ≤ maxLength) : accept (String.ofList text) = .ok () := by
  have hall : ¬ text.all isBlank = true := by
    intro h
    rw [List.all_eq_true.mp h c hc] at hb
    cases hb
  rw [accept, String.toList_ofList, String.length_ofList, if_neg hall, if_pos hl]

/-- A text that is one numeral has the number of the numeral as its value. -/
theorem value_number (h : Numeral.Denotes run x) (hl : run.length ≤ maxLength) :
    value (String.ofList run) = .ok x := by
  obtain ⟨c, hc⟩ := List.exists_mem_of_ne_nil run h.ne_nil
  have htokens : tokenize run = .ok [.number x] := Scanner.tokens_number h
  rw [value, read, tokens, accept_ofList hc (isBlank_of_isPart (h.parts c hc)) hl,
    String.toList_ofList, htokens]
  rfl

/-- A minus before the numeral negates the value. -/
theorem value_minus_number (h : Numeral.Denotes run x) (hl : run.length < maxLength) :
    value (String.ofList ('-' :: run)) = .ok (-x) := by
  have htokens : tokenize ('-' :: run) = .ok [.symbol .minus, .number x] :=
    Scanner.tokens_of_next (Scanner.next_symbol .minus) (Scanner.tokens_number h)
  have haccept : accept (String.ofList ('-' :: run)) = .ok () :=
    accept_ofList List.mem_cons_self Symbol.minus.isBlank_char hl
  rw [value, read, tokens, haccept, String.toList_ofList, htokens]
  rfl

end Formula

end Calculator
