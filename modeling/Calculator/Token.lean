import Calculator.Decimal.Layout

namespace Calculator

inductive Symbol where
  | plus
  | minus
  | times
  | over
  | opening
  | closing
deriving DecidableEq

namespace Symbol

def ofChar? : Char → Option Symbol
  | '+' => some .plus
  | '-' => some .minus
  | '*' => some .times
  | '/' => some .over
  | '(' => some .opening
  | ')' => some .closing
  | _ => none

def char : Symbol → Char
  | .plus => '+'
  | .minus => '-'
  | .times => '*'
  | .over => '/'
  | .opening => '('
  | .closing => ')'

/-- The parentheses are the symbols that do not calculate. -/
def isArithmetic : Symbol → Bool
  | .opening | .closing => false
  | _ => true

@[simp] theorem ofChar?_char (s : Symbol) : ofChar? s.char = some s := by
  cases s <;> rfl

end Symbol

/-- A minus sign is a symbol of its own, never part of a number. -/
inductive Token where
  | number (value : Binary64)
  | symbol (symbol : Symbol)
deriving DecidableEq

namespace Token

def text : Token → List Char
  | .number x => x.text
  | .symbol s => [s.char]

/-- One token a line. -/
def listing (tokens : List Token) : List Char := tokens.flatMap fun t => t.text ++ ['\n']

end Token

end Calculator
