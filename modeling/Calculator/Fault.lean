import Calculator.Token

namespace Calculator

/-- The checks that a text passes through, in their order. -/
inductive Stage where
  | validator
  | tokenizer
  | sequenceValidator
  | parser
  | evaluator
deriving DecidableEq

def Stage.name : Stage → String
  | .validator => "validator"
  | .tokenizer => "tokenizer"
  | .sequenceValidator => "sequence-validator"
  | .parser => "parser"
  | .evaluator => "evaluator"

/-- How parentheses fail to match: one closes what was not opened, one is left open, or something
else stands where a group has to close. -/
inductive Mismatch where
  | tooManyClosing
  | tooManyOpening
  | missingClosing
deriving DecidableEq

def Mismatch.text : Mismatch → String
  | .tooManyClosing => "too many closing )"
  | .tooManyOpening => "too many opening ("
  | .missingClosing => "missing closing )"

/-- Why an expression has no value. Offsets count characters, positions count tokens. -/
inductive Fault where
  | notText (found : String)
  | blank
  | tooLong (length limit : Nat)
  | malformedNumber (run : List Char) (offset : Nat)
  | foreignCharacter (char : Char) (offset : Nat)
  | doubledOperator (first second : Symbol)
  | mismatched (mismatch : Mismatch)
  | unexpected (position : Nat) (found : Option Token)
  | nestedTooDeep (limit : Nat)
  | divisionByZero
deriving DecidableEq

namespace Fault

def kind : Fault → String
  | .notText _ => "TypeError"
  | .blank => "EmptyInputError"
  | .tooLong .. => "InputTooLongError"
  | .malformedNumber .. => "MalformedNumberError"
  | .foreignCharacter .. => "InvalidCharacterError"
  | .doubledOperator .. => "InvalidOperatorSequenceError"
  | .mismatched _ => "MismatchedParenthesesError"
  | .unexpected .. => "InvalidExpressionError"
  | .nestedTooDeep _ => "NestingTooDeepError"
  | .divisionByZero => "DivisionByZeroError"

def stage : Fault → Stage
  | .notText _ | .blank | .tooLong .. => .validator
  | .malformedNumber .. | .foreignCharacter .. => .tokenizer
  | .doubledOperator .. | .mismatched .tooManyClosing | .mismatched .tooManyOpening =>
    .sequenceValidator
  | .mismatched .missingClosing | .unexpected .. | .nestedTooDeep _ => .parser
  | .divisionByZero => .evaluator

def message : Fault → String
  | .notText found => "Expression must be a string, got " ++ found
  | .blank => "Expression is empty"
  | .tooLong length limit =>
    "Expression exceeds maximum length of " ++ toString limit ++ " characters (got " ++
      toString length ++ ")"
  | .malformedNumber run offset =>
    "Malformed decimal number '" ++ String.ofList run ++ "' at position " ++ toString offset
  | .foreignCharacter char offset =>
    "Invalid character '" ++ String.singleton char ++ "' at position " ++ toString offset
  | .doubledOperator first second =>
    "Invalid operator sequence: \"" ++ String.ofList [first.char, second.char] ++ "\""
  | .mismatched mismatch => "Mismatched parentheses: " ++ mismatch.text
  | .unexpected position (some token) =>
    "Invalid expression: unexpected '" ++ String.ofList token.text ++ "' at token " ++
      toString position
  | .unexpected _ none => "Invalid expression: unexpected end of input"
  | .nestedTooDeep limit =>
    "Expression nests parentheses deeper than " ++ toString limit ++ " levels"
  | .divisionByZero => "Division by zero"

end Fault

end Calculator
