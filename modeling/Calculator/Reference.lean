namespace Calculator

def referenceLines : List String := [
  "CALC - ARITHMETIC EXPRESSION EVALUATOR",
  "",
  "SYNTAX",
  "",
  "  Numbers           42   3.14   .5   7.",
  "  Operators         +  -  *  /",
  "  Grouping          ( ... )",
  "  Unary minus       -5   --5   2 * -3",
  "",
  "PRECEDENCE (tightest first)",
  "",
  "  1. Parentheses",
  "  2. Unary minus              right-associative: --5 = -(-5)",
  "  3. *  /                     left-associative:  8 / 4 / 2 = 1",
  "  4. +  -                     left-associative:  10 - 2 - 3 = 5",
  "",
  "GRAMMAR",
  "",
  "  Expression  := AddSub",
  "  AddSub      := MulDiv ( ('+'|'-') MulDiv )*",
  "  MulDiv      := Unary  ( ('*'|'/') Unary  )*",
  "  Unary       := '-' Unary | Primary",
  "  Primary     := Number | '(' Expression ')'",
  "",
  "ERRORS",
  "",
  "  TypeError                     input is not text",
  "  EmptyInputError               input is blank",
  "  InputTooLongError             input exceeds 4096 characters",
  "  MalformedNumberError          bad literal, e.g. 1..2 or .",
  "  InvalidCharacterError         character outside the supported set",
  "  InvalidOperatorSequenceError  doubled operator, e.g. 3 ++ 4",
  "  MismatchedParenthesesError    unbalanced ( or )",
  "  InvalidExpressionError        incomplete expression or extra tokens",
  "  NestingTooDeepError           parentheses nested more than 256 deep",
  "  DivisionByZeroError           divisor evaluates to 0",
  "",
  "OUTPUT",
  "",
  "  Results are rounded half away from zero to --max-decimals digits",
  "  (default 6), printed without exponent or trailing zeros. -0 prints as 0."]

/-- The grammar, the kinds of faults and the form of results, for readers. -/
def reference : String := String.join (referenceLines.map (· ++ "\n"))

end Calculator
