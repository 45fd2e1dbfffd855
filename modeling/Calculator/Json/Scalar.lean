import Calculator.Json
import Calculator.Json.Failure

namespace Calculator.Json

/-- Reads the rest of a word. As of every reading, the rest of the text is part of the answer. -/
def readWord (value : Json) : List Char → List Char → Except Failure (Json × List Char)
  | [], rest => .ok (value, rest)
  | _ :: _, [] => .error (.behind .endInValue [])
  | expected :: word, c :: rest =>
    if c = expected then readWord value word rest
    else .error (.behind .expectedWord (c :: rest))

def hexDigit? (c : Char) : Option Nat :=
  if c.isDigit then some (c.toNat - 48)
  else if 'a' ≤ c ∧ c ≤ 'f' then some (c.toNat - 87)
  else if 'A' ≤ c ∧ c ≤ 'F' then some (c.toNat - 55)
  else none

/-- Reads a code unit of four hexadecimal digits. Four bytes are passed whatever they are. -/
def readUnit (text : List Char) : Except Failure (Nat × List Char) :=
  match text with
  | a :: b :: c :: d :: rest =>
    match hexDigit? a, hexDigit? b, hexDigit? c, hexDigit? d with
    | some a, some b, some c, some d => .ok (((a * 16 + b) * 16 + c) * 16 + d, rest)
    | _, _, _, _ => .error ⟨.invalidEscape, byteCount text - 4⟩
  | _ =>
    if byteCount text < 4 then .error (.before .endInString [])
    else .error ⟨.invalidEscape, byteCount text - 4⟩

def isHighSurrogate (unit : Nat) : Bool := 0xd800 ≤ unit && unit ≤ 0xdbff

def isLowSurrogate (unit : Nat) : Bool := 0xdc00 ≤ unit && unit ≤ 0xdfff

/-- The character that two surrogates stand for. -/
def joinSurrogates (high low : Nat) : Char :=
  .ofNat (0x10000 + (high - 0xd800) * 0x400 + (low - 0xdc00))

/-- Passes one character that has to come next inside of a pair of surrogates. -/
def passSurrogateMark (mark : Char) : List Char → Except Failure (List Char)
  | [] => .error (.before .endInString [])
  | c :: rest => if c = mark then .ok rest else .error (.behind .unfinishedSurrogate (c :: rest))

/-- Reads the second half of a pair of surrogates. -/
def readLowSurrogate (high : Nat) (text : List Char) : Except Failure (Char × List Char) := do
  let text ← passSurrogateMark '\\' text
  let text ← passSurrogateMark 'u' text
  let (low, rest) ← readUnit text
  if isLowSurrogate low then return (joinSurrogates high low, rest)
  else throw (.before .loneSurrogate rest)

/-- The characters that a single letter stands for behind a backslash. -/
def unescape? : Char → Option Char
  | '"' => some '"'
  | '\\' => some '\\'
  | '/' => some '/'
  | 'b' => some '\x08'
  | 'f' => some '\x0c'
  | 'n' => some '\n'
  | 'r' => some '\r'
  | 't' => some '\t'
  | _ => none

/-- Reads what follows the backslash of an escape. -/
def readEscape : List Char → Except Failure (Char × List Char)
  | [] => .error (.before .endInString [])
  | c :: rest =>
    if c = 'u' then do
      let (unit, rest) ← readUnit rest
      if isLowSurrogate unit then throw (.before .loneSurrogate rest)
      else if isHighSurrogate unit then readLowSurrogate unit rest
      else return (.ofNat unit, rest)
    else
      match unescape? c with
      | some e => .ok (e, rest)
      | none => .error (.behind .invalidEscape (c :: rest))

theorem length_readUnit_lt {text rest : List Char} {unit : Nat}
    (h : readUnit text = .ok (unit, rest)) : rest.length < text.length := by
  unfold readUnit at h
  split at h
  · split at h
    · cases h
      simp only [List.length_cons]
      omega
    · cases h
  · split at h <;> cases h

theorem length_passSurrogateMark_lt {mark : Char} {text rest : List Char}
    (h : passSurrogateMark mark text = .ok rest) : rest.length < text.length := by
  cases text with
  | nil => cases h
  | cons c text =>
    simp only [passSurrogateMark] at h
    split at h
    · cases h
      simp
    · cases h

theorem length_readLowSurrogate_lt {text rest : List Char} {high : Nat} {c : Char}
    (h : readLowSurrogate high text = .ok (c, rest)) : rest.length < text.length := by
  simp only [readLowSurrogate, bind, Except.bind] at h
  split at h
  · cases h
  · rename_i h1
    split at h
    · cases h
    · rename_i h2
      split at h
      · cases h
      · rename_i h3
        have := length_passSurrogateMark_lt h1
        have := length_passSurrogateMark_lt h2
        have := length_readUnit_lt h3
        split at h
        · simp only [pure, Except.pure, Except.ok.injEq, Prod.mk.injEq] at h
          obtain ⟨-, rfl⟩ := h
          omega
        · cases h

theorem length_readEscape_lt {text rest : List Char} {c : Char}
    (h : readEscape text = .ok (c, rest)) : rest.length < text.length := by
  cases text with
  | nil => cases h
  | cons e text =>
    simp only [readEscape, bind, Except.bind] at h
    split at h
    · split at h
      · cases h
      · rename_i hu
        have := length_readUnit_lt hu
        split at h
        · cases h
        · split at h
          · have := length_readLowSurrogate_lt h
            simp only [List.length_cons]
            omega
          · simp only [pure, Except.pure, Except.ok.injEq, Prod.mk.injEq] at h
            obtain ⟨-, rfl⟩ := h
            simp only [List.length_cons]
            omega
    · split at h
      · cases h
        simp
      · cases h

/-- Reads a string behind its opening quote. The characters read so far come last first. -/
def readString (reversed : List Char) : List Char → Except Failure (String × List Char)
  | [] => .error (.before .endInString [])
  | '"' :: rest => .ok (.ofList reversed.reverse, rest)
  | '\\' :: rest =>
    match _h : readEscape rest with
    | .error failure => .error failure
    | .ok (c, rest) => readString (c :: reversed) rest
  | c :: rest =>
    if c.toNat < 0x20 then .error (.behind .controlCharacter (c :: rest))
    else readString (c :: reversed) rest
termination_by text => text.length
decreasing_by
  · have := length_readEscape_lt _h
    simp only [List.length_cons]
    omega
  · simp

theorem length_readString_lt {text rest : List Char} {reversed : List Char} {s : String}
    (h : readString reversed text = .ok (s, rest)) : rest.length < text.length := by
  fun_induction readString reversed text with
  | case1 => cases h
  | case2 => cases h; simp
  | case3 => cases h
  | case4 reversed rest c rest' he ih =>
    have h1 := length_readEscape_lt he
    have h2 := ih h
    simp only [List.length_cons]
    omega
  | case5 => cases h
  | case6 reversed c rest hq hb hc ih =>
    have := ih h
    simp only [List.length_cons]
    omega

end Calculator.Json
