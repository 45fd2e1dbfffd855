import Calculator.Decimal.Scaled
import Calculator.Formula
import Calculator.Json.Reading
import Calculator.Json.Writing

namespace Calculator.Report

/-- A result as a JSON object. The keys of all objects are in alphabetical order. -/
def outcome (decimals : Nat) (x : Binary64) : Json :=
  .object [("formatted", .string (.ofList (x.fixed decimals))), ("value", .ofBinary64 x)]

def success (decimals : Nat) (expression : String) (x : Binary64) : Json :=
  .object [("expression", .string expression), ("formatted", .string (.ofList (x.fixed decimals))),
    ("value", .ofBinary64 x)]

def fault (f : Fault) : Json :=
  .object [("error", .object [("kind", .string f.kind), ("message", .string f.message),
    ("stage", .string f.stage.name)])]

/-- Only strings are expressions. -/
def text (value : Json) : Except Fault String :=
  match value with
  | .string text => .ok text
  | value => .error (.notText value.typeName)

/-- A string that is accepted as an expression. -/
def accepted (value : Json) : Except Fault String := do
  let text ← text value
  Formula.accept text
  return text

def value (value : Json) : Except Fault Binary64 := do
  let text ← accepted value
  Formula.value text

/-- What one item of a batch comes to, whatever the others are. -/
def item (decimals : Nat) (item : Json) : Json :=
  match value item with
  | .ok x => outcome decimals x
  | .error f => fault f

/-- Why a whole batch fails. -/
inductive Refusal where
  | malformed (failure : Json.Failure) (input : List Char)
  | notArray (found : String)
deriving DecidableEq

def Refusal.message : Refusal → String
  | .malformed failure input => "Invalid JSON: " ++ failure.message input
  | .notArray found => "Batch input must be a JSON array, got " ++ found

/-- The outcomes of the expressions in a JSON array, in their order. -/
def batch (decimals : Nat) (input : String) : Except Refusal Json :=
  match Json.read input.toList with
  | .error failure => .error (.malformed failure input.toList)
  | .ok (.array items) => .ok (.array (items.map (item decimals)))
  | .ok other => .error (.notArray other.typeName)

end Calculator.Report
