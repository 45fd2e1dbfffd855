import Calculator.Json.Number
import Calculator.Json.Scalar

namespace Calculator.Json

/-- How many lists and objects may be open at a time. -/
def maxOpen : Nat := 127

/-- A list or an object that is being read, its parts last first. The object has read the key of
the value that is due. -/
inductive Container where
  | list (reversed : List Json)
  | fields (reversed : List (String × Json)) (key : String)

def isSpace (c : Char) : Bool := c == ' ' || c == '\n' || c == '\t' || c == '\r'

def skipSpace (text : List Char) : List Char := text.dropWhile isSpace

/-- Reads a value that holds no other values. -/
def readScalar : List Char → Except Failure (Json × List Char)
  | [] => .error (.behind .endInValue [])
  | c :: rest =>
    if c = '"' then
      match readString [] rest with
      | .error failure => .error failure
      | .ok (text, rest) => .ok (.string text, rest)
    else if c = 'n' then readWord .null ['u', 'l', 'l'] rest
    else if c = 't' then readWord (.bool true) ['r', 'u', 'e'] rest
    else if c = 'f' then readWord (.bool false) ['a', 'l', 's', 'e'] rest
    else if c = '-' || c.isDigit then readNumber (c :: rest)
    else .error (.behind .expectedValue (c :: rest))

/-- Reads a key and the colon after it. -/
def readKey (text : List Char) : Except Failure (String × List Char) :=
  match text with
  | '"' :: rest =>
    match readString [] rest with
    | .error failure => .error failure
    | .ok (key, rest) =>
      match skipSpace rest with
      | [] => .error (.behind .endInObject [])
      | ':' :: rest => .ok (key, rest)
      | rest => .error (.behind .expectedColon rest)
  | text => .error (.behind .keyNotString text)

theorem length_skipSpace_le (text : List Char) : (skipSpace text).length ≤ text.length :=
  (List.dropWhile_suffix _).length_le

theorem length_lt_of_skipSpace {c : Char} {text rest : List Char}
    (h : skipSpace text = c :: rest) : rest.length < text.length := by
  have hl := length_skipSpace_le text
  rw [h, List.length_cons] at hl
  omega

theorem length_readWord_le {value v : Json} {word text rest : List Char}
    (h : readWord value word text = .ok (v, rest)) : rest.length ≤ text.length := by
  induction word generalizing text with
  | nil => cases h; exact Nat.le_refl _
  | cons e word ih =>
    cases text with
    | nil => cases h
    | cons c text =>
      simp only [readWord] at h
      split at h
      · have := ih h
        simp only [List.length_cons]
        omega
      · cases h

theorem length_readScalar_lt {text rest : List Char} {v : Json}
    (h : readScalar text = .ok (v, rest)) : rest.length < text.length := by
  cases text with
  | nil => cases h
  | cons c text =>
    simp only [readScalar] at h
    split at h
    · split at h
      · cases h
      · rename_i hs
        cases h
        have := length_readString_lt hs
        simp only [List.length_cons]
        omega
    iterate 3
      split at h
      · have := length_readWord_le h
        simp only [List.length_cons]
        omega
    split at h
    · exact length_readNumber_lt h
    · cases h

theorem length_readKey_lt {text rest : List Char} {key : String}
    (h : readKey text = .ok (key, rest)) : rest.length < text.length := by
  unfold readKey at h
  split at h
  · rename_i text
    split at h
    · cases h
    · rename_i hs
      have := length_readString_lt hs
      split at h
      · cases h
      · rename_i hc
        have := length_lt_of_skipSpace hc
        cases h
        simp only [List.length_cons]
        omega
      · cases h
  · cases h

mutual

/-- Reads on where a value is due. -/
def readValue (stack : List Container) (text : List Char) : Except Failure Json :=
  match _h : skipSpace text with
  | '[' :: rest =>
    if stack.length < maxOpen then
      match _hr : skipSpace rest with
      | [] => .error (.behind .endInList [])
      | ']' :: rest => endValue stack (.array []) rest
      | _ => readValue (.list [] :: stack) rest
    else .error (.behind .tooDeep ('[' :: rest))
  | '{' :: rest =>
    if stack.length < maxOpen then
      match _hr : skipSpace rest with
      | [] => .error (.behind .endInObject [])
      | '}' :: rest => endValue stack (.object []) rest
      | _ => readField stack [] rest
    else .error (.behind .tooDeep ('{' :: rest))
  | _ =>
    match _hr : readScalar (skipSpace text) with
    | .error failure => .error failure
    | .ok (value, rest) => endValue stack value rest
termination_by text.length
decreasing_by
  · exact Nat.lt_trans (length_lt_of_skipSpace _hr) (length_lt_of_skipSpace _h)
  · exact length_lt_of_skipSpace _h
  · exact Nat.lt_trans (length_lt_of_skipSpace _hr) (length_lt_of_skipSpace _h)
  · exact length_lt_of_skipSpace _h
  · exact Nat.lt_of_lt_of_le (length_readScalar_lt _hr) (length_skipSpace_le text)

/-- Reads on where a key is due. -/
def readField (stack : List Container) (reversed : List (String × Json)) (text : List Char) :
    Except Failure Json :=
  match _h : readKey (skipSpace text) with
  | .error failure => .error failure
  | .ok (key, rest) => readValue (.fields reversed key :: stack) rest
termination_by text.length
decreasing_by exact Nat.lt_of_lt_of_le (length_readKey_lt _h) (length_skipSpace_le text)

/-- Reads on behind a value. -/
def endValue (stack : List Container) (value : Json) (text : List Char) : Except Failure Json :=
  match stack with
  | [] =>
    match skipSpace text with
    | [] => .ok value
    | rest => .error (.behind .trailingCharacters rest)
  | .list reversed :: stack =>
    match _h : skipSpace text with
    | [] => .error (.behind .endInList [])
    | ']' :: rest => endValue stack (.array (value :: reversed).reverse) rest
    | ',' :: rest =>
      match skipSpace rest with
      | [] => .error (.behind .endInValue [])
      | ']' :: rest => .error (.behind .trailingComma (']' :: rest))
      | _ => readValue (.list (value :: reversed) :: stack) rest
    | rest => .error (.behind .expectedListComma rest)
  | .fields reversed key :: stack =>
    match _h : skipSpace text with
    | [] => .error (.behind .endInObject [])
    | '}' :: rest => endValue stack (.object ((key, value) :: reversed).reverse) rest
    | ',' :: rest =>
      match skipSpace rest with
      | [] => .error (.behind .endInValue [])
      | '}' :: rest => .error (.behind .trailingComma ('}' :: rest))
      | _ => readField stack ((key, value) :: reversed) rest
    | rest => .error (.behind .expectedObjectComma rest)
termination_by text.length
decreasing_by all_goals exact length_lt_of_skipSpace _h

end

/-- The value that a text denotes. -/
def read (text : List Char) : Except Failure Json := readValue [] text

end Calculator.Json
