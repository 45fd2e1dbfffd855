import Calculator.Proofs.Lexemes

namespace Calculator

/-- The fault of a text that has so many characters more before it. Only what a scanner finds has a
place among the characters. -/
def Fault.moved (distance : ℕ) : Fault → Fault
  | .malformedNumber run offset => .malformedNumber run (offset + distance)
  | .foreignCharacter c offset => .foreignCharacter c (offset + distance)
  | fault => fault

/-- What two texts come to in turn, the second one behind so many characters. The first fault
counts. -/
def inTurn (distance : ℕ) :
    Except Fault (List Token) → Except Fault (List Token) → Except Fault (List Token)
  | .error fault, _ => .error fault
  | .ok _, .error fault => .error (fault.moved distance)
  | .ok ts, .ok us => .ok (ts ++ us)

namespace Scanner

variable {offset : ℕ} {first second blanks : List Char}

def moved (distance : ℕ) (s : Scanner) : Scanner := ⟨s.rest, s.offset + distance⟩

theorem pass_moved (distance : ℕ) (s : Scanner) (p : Char → Bool) :
    (s.moved distance).pass p = (s.pass p).moved distance := by
  simp only [pass, moved, Nat.add_right_comm]

/-- Where a scanner stands has no part in what it reads. -/
theorem next_moved (distance : ℕ) (s : Scanner) : (s.moved distance).next =
    (s.next.1.mapError (Fault.moved distance), s.next.2.moved distance) := by
  rw [next, pass_moved, next]
  obtain ⟨text, offset⟩ := s.pass isBlank
  cases text with
  | nil => rfl
  | cons c rest =>
    have hpass := pass_moved distance ⟨c :: rest, offset⟩ Numeral.isPart
    simp only [moved] at hpass ⊢
    split
    · rw [hpass]
      cases Numeral.value? _ with
      | none => rfl
      | some x => rfl
    · rw [Nat.add_right_comm]
      cases Symbol.ofChar? c with
      | none => rfl
      | some s => rfl

/-- The same tokens are read further on in a text, and the same fault at another place. -/
theorem tokens_moved (distance : ℕ) (s : Scanner) :
    (s.moved distance).tokens = s.tokens.mapError (Fault.moved distance) := by
  fun_induction tokens s with
  | case1 s fault t h =>
    rw [tokens_eq, next_moved, h]
    rfl
  | case2 s t h =>
    rw [tokens_eq, next_moved, h]
    rfl
  | case3 s token t h fault ht ih =>
    rw [tokens_eq, next_moved, h]
    simp only [Except.mapError, ih, ht]
    rfl
  | case4 s token t h ts ht ih =>
    rw [tokens_eq, next_moved, h]
    simp only [Except.mapError, ih, ht]
    rfl

/-- Two texts are read in turn if no two parts of a number meet where they are joined. -/
theorem tokens_append (h : ∀ a ∈ first.getLast?, ∀ b ∈ second.head?,
      (Numeral.isPart a && Numeral.isPart b) = false) :
    (⟨first ++ second, offset⟩ : Scanner).tokens =
      match (⟨first, offset⟩ : Scanner).tokens with
      | .error fault => .error fault
      | .ok ts => (⟨second, offset + first.length⟩ : Scanner).tokens.map (ts ++ ·) := by
  simp only [tokens_eq_mapM, pieces, Lexeme.cutFrom_append h, List.mapM_append]
  cases (Lexeme.cutFrom offset first).mapM Lexeme.token with
  | error fault => rfl
  | ok ts =>
    cases (Lexeme.cutFrom (offset + first.length) second).mapM Lexeme.token with
    | error fault => rfl
    | ok us => rfl

theorem tokens_blanks (h : ∀ c ∈ blanks, isBlank c = true) :
    (⟨blanks ++ second, offset⟩ : Scanner).tokens =
      (⟨second, offset + blanks.length⟩ : Scanner).tokens := by
  induction blanks generalizing offset with
  | nil => rfl
  | cons c blanks ih =>
    rw [List.cons_append, tokens_blank (h c List.mem_cons_self),
      ih fun d hd => h d (List.mem_cons_of_mem c hd), List.length_cons, Nat.add_assoc,
      Nat.add_comm 1]

end Scanner

variable {first second blanks : List Char}

/-- Blanks between two texts move the second one and do nothing else. -/
theorem tokenize_append_blanks (hblank : ∀ c ∈ blanks, isBlank c = true)
    (h : ∀ a ∈ first.getLast?, ∀ b ∈ second.head?,
      (Numeral.isPart a && Numeral.isPart b) = false) :
    tokenize (first ++ blanks ++ second) =
      inTurn (first.length + blanks.length) (tokenize first) (tokenize second) := by
  have hseam : ∀ a ∈ first.getLast?, ∀ b ∈ (blanks ++ second).head?,
      (Numeral.isPart a && Numeral.isPart b) = false := by
    intro a ha b hb
    cases blanks with
    | nil => exact h a ha b hb
    | cons c blanks =>
      obtain rfl : c = b := Option.some.inj hb
      rw [Bool.and_eq_false_iff]
      right
      by_contra hp
      have hc := hblank c List.mem_cons_self
      rw [isBlank_of_isPart (by simpa using hp)] at hc
      cases hc
  have hfirst : (⟨first, 0⟩ : Scanner).tokens = tokenize first := rfl
  have hsecond : (⟨second, 0 + first.length + blanks.length⟩ : Scanner).tokens =
      (tokenize second).mapError (Fault.moved (first.length + blanks.length)) := by
    rw [Nat.zero_add, tokenize, ← Scanner.tokens_moved, Scanner.moved, Scanner.start, Nat.zero_add]
  rw [List.append_assoc, tokenize, Scanner.start, Scanner.tokens_append hseam,
    Scanner.tokens_blanks hblank, hsecond, hfirst]
  cases tokenize first with
  | error fault => rfl
  | ok ts =>
    cases tokenize second with
    | error fault => rfl
    | ok us => rfl

theorem toOption_inTurn (distance : ℕ) (x y : Except Fault (List Token)) :
    (inTurn distance x y).toOption = (inTurn 0 x y).toOption := by
  cases x with
  | error fault => rfl
  | ok ts =>
    cases y with
    | error fault => rfl
    | ok us => rfl

/-- Where no two parts of a number meet, a text may be cut in two that are read one after the other,
and blanks may be put in or taken out there without a change to the tokens. -/
theorem read_in_turn (h : ∀ a ∈ first.getLast?, ∀ b ∈ second.head?,
      (Numeral.isPart a && Numeral.isPart b) = false) :
    tokenize (first ++ second) = inTurn first.length (tokenize first) (tokenize second) ∧
    ∀ blanks, (∀ c ∈ blanks, isBlank c = true) →
      tokenize (first ++ blanks ++ second) =
        inTurn (first.length + blanks.length) (tokenize first) (tokenize second) ∧
      (tokenize (first ++ blanks ++ second)).toOption = (tokenize (first ++ second)).toOption := by
  have hjoined : tokenize (first ++ second) =
      inTurn first.length (tokenize first) (tokenize second) := by
    have hblank : ∀ c ∈ ([] : List Char), isBlank c = true := by simp
    have hnone := tokenize_append_blanks hblank h
    rwa [List.append_nil, List.length_nil, Nat.add_zero] at hnone
  refine ⟨hjoined, fun blanks hblank => ?_⟩
  have hblanks := tokenize_append_blanks hblank h
  refine ⟨hblanks, ?_⟩
  rw [hblanks, hjoined, toOption_inTurn, toOption_inTurn first.length]

/-- A foreign character behind a sum that is cut before its second number. -/
theorem read_in_turn_to_dollar :
    (∀ a ∈ ['1', '+'].getLast?, ∀ b ∈ ['.', '5', '$'].head?,
      (Numeral.isPart a && Numeral.isPart b) = false) ∧
    (∀ c ∈ ['\t', '\u00a0'], isBlank c = true) ∧
    tokenize (['1', '+'] ++ ['\t', '\u00a0'] ++ ['.', '5', '$']) =
      .error (.foreignCharacter '$' 6) := by
  have hseam : ∀ a ∈ ['1', '+'].getLast?, ∀ b ∈ ['.', '5', '$'].head?,
      (Numeral.isPart a && Numeral.isPart b) = false := by
    intro a ha b hb
    cases ha
    cases hb
    rfl
  have hblank : ∀ c ∈ ['\t', '\u00a0'], isBlank c = true := by
    intro c hc
    rcases List.mem_pair.mp hc with rfl | rfl <;> rfl
  refine ⟨hseam, hblank, ?_⟩
  rw [((read_in_turn hseam).2 _ hblank).1]
  decide +kernel

end Calculator
