import Calculator.Fault

namespace Calculator

namespace Screening

/-- A minus may follow any operator. Parentheses are no operators, and are not looked across. -/
def isDoubled (first second : Symbol) : Bool :=
  first.isArithmetic && second.isArithmetic && second != .minus

/-- `previous` is the symbol directly before, and `depth` counts the groups that are open. -/
def screenFrom (previous : Option Symbol) (depth : Nat) : List Token → Except Fault Unit
  | [] => if depth = 0 then .ok () else .error (.mismatched .tooManyOpening)
  | .number _ :: rest => screenFrom none depth rest
  | .symbol s :: rest =>
    match previous.filter (isDoubled · s) with
    | some first => .error (.doubledOperator first s)
    | none =>
      match s, depth with
      | .opening, _ => screenFrom (some s) (depth + 1) rest
      | .closing, 0 => .error (.mismatched .tooManyClosing)
      | .closing, depth + 1 => screenFrom (some s) depth rest
      | _, _ => screenFrom (some s) depth rest

end Screening

/-- Refuses doubled operators and unbalanced parentheses, whichever comes first. -/
def screen (tokens : List Token) : Except Fault Unit := Screening.screenFrom none 0 tokens

end Calculator
