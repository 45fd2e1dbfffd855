import Calculator.Binary64.Arithmetic
import Calculator.Expr
import Calculator.Fault

namespace Calculator

/-- Division by a zero of either sign has no result, all else is binary64 arithmetic. -/
def Operation.apply (op : Operation) (a b : Binary64) : Except Fault Binary64 :=
  match op with
  | .add => .ok (a + b)
  | .subtract => .ok (a - b)
  | .multiply => .ok (a * b)
  | .divide => if b.isZero then .error .divisionByZero else .ok (a / b)

namespace Expr

def negateIf (negative : Bool) (x : Binary64) : Binary64 := if negative then -x else x

/-- Of a run of minus signs only the parity counts, so it is carried down to the operand. The left
operand of an operation comes first, and its fault is the one that is reported. -/
def valueUnder (negative : Bool) : Expr → Except Fault Binary64
  | .number x => .ok (negateIf negative x)
  | .negate e => e.valueUnder (!negative)
  | .binary op left right => do
    let a ← left.valueUnder false
    let b ← right.valueUnder false
    let x ← op.apply a b
    return negateIf negative x

def value (e : Expr) : Except Fault Binary64 := e.valueUnder false

end Expr

end Calculator
