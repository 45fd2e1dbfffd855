import Calculator.Binary64.Arithmetic
import Calculator.Json
import Calculator.Json.Failure

namespace Calculator.Json

attribute [local instance (high)] instPowNat

def readSign : List Char → Bool × List Char
  | '-' :: rest => (true, rest)
  | text => (false, text)

/-- Reads digits, of which there has to be one. -/
def readDigits : List Char → Except Failure (List Char × List Char)
  | [] => .error (.before .endInValue [])
  | c :: rest =>
    if c.isDigit then .ok (c :: rest.takeWhile Char.isDigit, rest.dropWhile Char.isDigit)
    else .error (.behind .invalidNumber (c :: rest))

/-- Reads the digits before the point. Only a zero alone may start with a zero. -/
def readWhole (text : List Char) : Except Failure (List Char × List Char) := do
  let (digits, rest) ← readDigits text
  if digits.head? = some '0' && 1 < digits.length then throw (.behind .invalidNumber text.tail)
  else return (digits, rest)

def readFraction : List Char → Except Failure (List Char × List Char)
  | '.' :: rest => readDigits rest
  | text => .ok ([], text)

/-- The largest exponent that is read to its end. -/
def maxExponent : Nat := 2147483647

/-- What follows the digit with which a number passes the limit. -/
def beyond? (limit n : Nat) : List Char → Option (List Char)
  | [] => none
  | c :: rest =>
    if !c.isDigit then none
    else if limit < 10 * n + (c.toNat - 48) then some rest
    else beyond? limit (10 * n + (c.toNat - 48)) rest

def readExponentSign : List Char → Bool × List Char
  | '+' :: rest => (false, rest)
  | text => readSign text

/-- Reads an exponent, if there is one, behind a significand. -/
def readExponent (significand : Nat) : List Char → Except Failure (Int × List Char)
  | [] => .ok (0, [])
  | c :: text =>
    if c = 'e' || c = 'E' then do
      let (negative, text) := readExponentSign text
      let (digits, rest) ← readDigits text
      let exponent := Nat.ofDigitChars 10 digits 0
      if negative then return (-exponent, rest)
      else
        match beyond? maxExponent 0 text with
        | some rest =>
          if significand = 0 then return (0, rest.dropWhile Char.isDigit)
          else throw (.before .numberOutOfRange rest)
        | none => return (exponent, rest)
    else .ok (0, c :: text)

/-- Significands that are compared with the range stay below this bound. -/
def significandBound : Nat := 2 ^ (64 : Nat)

/-- Appends digits to a number for as long as it stays below the bound, and counts the digits that
are left out. -/
def appendDigits (n : Nat) : List Char → Nat × Nat
  | [] => (n, 0)
  | c :: rest =>
    let longer := 10 * n + (c.toNat - 48)
    if longer < significandBound then appendDigits longer rest else (n, rest.length + 1)

/-- What counts of a number when it is compared with the range. Digits that the bound leaves out of
the whole part are made up for by the exponent. -/
def leadingPart (whole fraction : List Char) (exponent : Int) : Decimal :=
  let (n, skipped) := appendDigits 0 whole
  let (n, ignored) := appendDigits n fraction
  ⟨n, exponent + skipped - (fraction.length - ignored : Nat)⟩

/-- The largest exponent of a power of ten that is finite. -/
def maxPower : Nat := 308

/-- The significand and the power of ten are rounded, and then their product once more, so a number
can be too large although the largest finite one is nearest to it. -/
def isTooLarge (d : Decimal) : Bool :=
  d.significand != 0 && 0 ≤ d.exponent && (maxPower < d.exponent ||
    !(Binary64.ofNat d.significand * Binary64.ofNat (10 ^ d.exponent.toNat)).isFinite)

/-- Reads a number, which must not be too large. -/
def readNumber (text : List Char) : Except Failure (Json × List Char) := do
  let (negative, text) := readSign text
  let (whole, text) ← readWhole text
  let (fraction, text) ← readFraction text
  let significand := Nat.ofDigitChars 10 (whole ++ fraction) 0
  let (exponent, rest) ← readExponent significand text
  if isTooLarge (leadingPart whole fraction exponent) then
    throw (.before .numberOutOfRange rest)
  else return (.number negative ⟨significand, exponent - fraction.length⟩, rest)

theorem length_readSign_le (text : List Char) : (readSign text).2.length ≤ text.length := by
  unfold readSign
  split <;> simp

theorem length_readExponentSign_le (text : List Char) :
    (readExponentSign text).2.length ≤ text.length := by
  unfold readExponentSign
  split
  · simp
  · exact length_readSign_le _

theorem length_dropDigits_le (text : List Char) :
    (text.dropWhile Char.isDigit).length ≤ text.length :=
  (List.dropWhile_suffix _).length_le

theorem length_readDigits_lt {text digits rest : List Char}
    (h : readDigits text = .ok (digits, rest)) : rest.length < text.length := by
  cases text with
  | nil => cases h
  | cons c text =>
    simp only [readDigits] at h
    split at h
    · cases h
      have := length_dropDigits_le text
      simp only [List.length_cons]
      omega
    · cases h

theorem length_readWhole_lt {text digits rest : List Char}
    (h : readWhole text = .ok (digits, rest)) : rest.length < text.length := by
  simp only [readWhole, bind, Except.bind] at h
  split at h
  · cases h
  · rename_i hd
    split at h
    · cases h
    · cases h
      exact length_readDigits_lt hd

theorem length_readFraction_le {text digits rest : List Char}
    (h : readFraction text = .ok (digits, rest)) : rest.length ≤ text.length := by
  unfold readFraction at h
  split at h
  · have := length_readDigits_lt h
    simp only [List.length_cons]
    omega
  · cases h
    exact Nat.le_refl _

theorem length_beyond?_le {limit n : Nat} {text rest : List Char}
    (h : beyond? limit n text = some rest) : rest.length ≤ text.length := by
  induction text generalizing n with
  | nil => cases h
  | cons c text ih =>
    simp only [beyond?] at h
    split at h
    · cases h
    · split at h
      · cases h
        simp
      · have := ih h
        simp only [List.length_cons]
        omega

theorem length_readExponent_le {significand : Nat} {text rest : List Char} {e : Int}
    (h : readExponent significand text = .ok (e, rest)) : rest.length ≤ text.length := by
  cases text with
  | nil => cases h; exact Nat.le_refl _
  | cons c text =>
    simp only [readExponent, bind, Except.bind] at h
    have hs := length_readExponentSign_le text
    split at h
    · split at h
      · cases h
      · rename_i hd
        have := length_readDigits_lt hd
        simp only [List.length_cons]
        split at h
        · cases h
          omega
        · split at h
          · rename_i hb
            have h1 := length_beyond?_le hb
            split at h
            · cases h
              have h2 := length_dropDigits_le (by assumption)
              omega
            · cases h
          · cases h
            omega
    · cases h
      exact Nat.le_refl _

theorem length_readNumber_lt {text rest : List Char} {value : Json}
    (h : readNumber text = .ok (value, rest)) : rest.length < text.length := by
  simp only [readNumber, bind, Except.bind] at h
  have hs := length_readSign_le text
  split at h
  · cases h
  · rename_i hw
    have := length_readWhole_lt hw
    split at h
    · cases h
    · rename_i hf
      have := length_readFraction_le hf
      split at h
      · cases h
      · rename_i he
        have := length_readExponent_le he
        split at h
        · cases h
        · cases h
          omega

end Calculator.Json
