import Calculator.Token

namespace Calculator

inductive Operation where
  | add
  | subtract
  | multiply
  | divide
deriving DecidableEq

namespace Operation

def symbol : Operation → Symbol
  | .add => .plus
  | .subtract => .minus
  | .multiply => .times
  | .divide => .over

/-- The operation that a symbol stands for between two operands. -/
def ofSymbol? : Symbol → Option Operation
  | .plus => some .add
  | .minus => some .subtract
  | .times => some .multiply
  | .over => some .divide
  | .opening | .closing => none

@[simp] theorem ofSymbol?_symbol (op : Operation) : ofSymbol? op.symbol = some op := by
  cases op <;> rfl

end Operation

/-- The shape of an expression. Groups leave no trace but the shape. -/
inductive Expr where
  | number (value : Binary64)
  | negate (operand : Expr)
  | binary (op : Operation) (left right : Expr)
deriving DecidableEq

namespace Expr

/-- An expression with every operation in parentheses. -/
def text : Expr → List Char
  | .number x => x.text
  | .negate e => '-' :: e.text
  | .binary op left right =>
    '(' :: left.text ++ [' ', op.symbol.char, ' '] ++ right.text ++ [')']

/-- An operand under a run of minus signs. -/
def negateTimes : Nat → Expr → Expr
  | 0, e => e
  | k + 1, e => .negate (negateTimes k e)

end Expr

end Calculator
