namespace Calculator.Json

/-- Why a text is not JSON. -/
inductive Cause where
  | endInValue
  | endInList
  | endInObject
  | endInString
  | expectedWord
  | expectedValue
  | expectedListComma
  | expectedObjectComma
  | expectedColon
  | keyNotString
  | trailingComma
  | trailingCharacters
  | tooDeep
  | controlCharacter
  | invalidEscape
  | loneSurrogate
  | unfinishedSurrogate
  | invalidNumber
  | numberOutOfRange
deriving DecidableEq

def Cause.message : Cause → String
  | .endInValue => "EOF while parsing a value"
  | .endInList => "EOF while parsing a list"
  | .endInObject => "EOF while parsing an object"
  | .endInString => "EOF while parsing a string"
  | .expectedWord => "expected ident"
  | .expectedValue => "expected value"
  | .expectedListComma => "expected `,` or `]`"
  | .expectedObjectComma => "expected `,` or `\x7d`"
  | .expectedColon => "expected `:`"
  | .keyNotString => "key must be a string"
  | .trailingComma => "trailing comma"
  | .trailingCharacters => "trailing characters"
  | .tooDeep => "recursion limit exceeded"
  | .controlCharacter => "control character (\\u0000-\\u001F) found while parsing a string"
  | .invalidEscape => "invalid escape"
  | .loneSurrogate => "lone leading surrogate in hex escape"
  | .unfinishedSurrogate => "unexpected end of hex escape"
  | .invalidNumber => "invalid number"
  | .numberOutOfRange => "number out of range"

-- The built-in zero, whatever else is in scope.
attribute [local instance (high)] Zero.ofOfNat0

/-- How many bytes a text takes in UTF-8. -/
def byteCount (text : List Char) : Nat := (text.map Char.utf8Size).sum

/-- A failure and how many bytes of the text lie behind its place. -/
structure Failure where
  cause : Cause
  left : Nat
deriving DecidableEq

namespace Failure

/-- The place is before the rest. -/
def before (cause : Cause) (rest : List Char) : Failure := ⟨cause, byteCount rest⟩

/-- The place is behind the first byte of the rest, or at the end if there is none. -/
def behind (cause : Cause) (rest : List Char) : Failure := ⟨cause, byteCount rest - 1⟩

/-- The line that holds a number of bytes, and how many of them it holds. Lines count from one. -/
def placeFrom (line column bytes : Nat) : List Char → Nat × Nat
  | [] => (line, column)
  | c :: rest =>
    if bytes = 0 then (line, column)
    else if c = '\n' then placeFrom (line + 1) 0 (bytes - 1) rest
    else if bytes < c.utf8Size then (line, column + bytes)
    else placeFrom line (column + c.utf8Size) (bytes - c.utf8Size) rest

def place (f : Failure) (text : List Char) : Nat × Nat :=
  placeFrom 1 0 (byteCount text - f.left) text

def message (f : Failure) (text : List Char) : String :=
  let (line, column) := f.place text
  f.cause.message ++ " at line " ++ toString line ++ " column " ++ toString column

end Failure

end Calculator.Json
