import Calculator.Fault
import Calculator.Text.Blank

namespace Calculator

/-- What is left of a text, and how many of its characters were passed. -/
structure Scanner where
  rest : List Char
  offset : Nat

namespace Scanner

def start (text : List Char) : Scanner := ⟨text, 0⟩

/-- Passes the longest run of characters of one class. -/
def pass (s : Scanner) (p : Char → Bool) : Scanner :=
  ⟨s.rest.dropWhile p, s.offset + (s.rest.takeWhile p).length⟩

/-- Reads one token, `none` at the end. A malformed number is passed as a whole, a foreign
character is not passed. -/
def next (s : Scanner) : Except Fault (Option Token) × Scanner :=
  let s := s.pass isBlank
  match s.rest with
  | [] => (.ok none, s)
  | c :: rest =>
    if Numeral.isPart c then
      let run := s.rest.takeWhile Numeral.isPart
      match Numeral.value? run with
      | some x => (.ok (some (.number x)), s.pass Numeral.isPart)
      | none => (.error (.malformedNumber run s.offset), s.pass Numeral.isPart)
    else
      match Symbol.ofChar? c with
      | some symbol => (.ok (some (.symbol symbol)), ⟨rest, s.offset + 1⟩)
      | none => (.error (.foreignCharacter c s.offset), s)

theorem length_dropWhile_le {α : Type} (p : α → Bool) (xs : List α) :
    (xs.dropWhile p).length ≤ xs.length :=
  (List.dropWhile_suffix p).length_le

/-- Reading a token uses at least one character. -/
theorem length_next_lt {s t : Scanner} {token : Token} (h : s.next = (.ok (some token), t)) :
    t.rest.length < s.rest.length := by
  have hb : (s.pass isBlank).rest.length ≤ s.rest.length := length_dropWhile_le _ _
  simp only [next] at h
  cases hr : (s.pass isBlank).rest with
  | nil => simp [hr] at h
  | cons c rest =>
    simp only [hr, List.length_cons] at hb
    simp only [hr] at h
    split at h
    · rename_i hc
      have hl := length_dropWhile_le Numeral.isPart rest
      split at h
      · cases h
        simp only [pass] at hr ⊢
        simp only [hr, List.dropWhile_cons, hc, ↓reduceIte]
        omega
      · cases h
    · split at h
      · cases h
        simp only
        omega
      · cases h

/-- Reads tokens up to the end or the first fault. -/
def tokens (s : Scanner) : Except Fault (List Token) :=
  match _h : s.next with
  | (.error fault, _) => .error fault
  | (.ok none, _) => .ok []
  | (.ok (some token), t) =>
    match t.tokens with
    | .error fault => .error fault
    | .ok rest => .ok (token :: rest)
termination_by s.rest.length
decreasing_by exact length_next_lt _h

end Scanner

def tokenize (text : List Char) : Except Fault (List Token) := (Scanner.start text).tokens

end Calculator
