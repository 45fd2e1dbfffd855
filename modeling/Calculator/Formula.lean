import Calculator.Expr.Reading
import Calculator.Expr.Value
import Calculator.Token.Scanner
import Calculator.Token.Screening

namespace Calculator.Formula

/-- The longest text that is accepted, in characters. -/
def maxLength : Nat := 4096

def accept (text : String) : Except Fault Unit :=
  if text.toList.all isBlank then .error .blank
  else if text.length ≤ maxLength then .ok ()
  else .error (.tooLong text.length maxLength)

def tokens (text : String) : Except Fault (List Token) := do
  accept text
  tokenize text.toList

/-- The expression that a text denotes, whether or not it has a value. -/
def read (text : String) : Except Fault Expr := do
  let tokens ← tokens text
  screen tokens
  parse tokens

/-- The value of a text. The first check that fails names the fault. -/
def value (text : String) : Except Fault Binary64 := do
  let e ← read text
  e.value

/-- Bytes are a text only if they are UTF-8. -/
def decode (bytes : ByteArray) : Except Fault String :=
  match String.fromUTF8? bytes with
  | some text => .ok text
  | none => .error (.notText "non-UTF-8 bytes")

end Calculator.Formula
