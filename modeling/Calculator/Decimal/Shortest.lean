import Calculator.Decimal.Numeral

namespace Calculator

attribute [local instance (high)] instPowNat

/-- The number `significand * 10 ^ exponent`. -/
structure Decimal where
  significand : Nat
  exponent : Int
deriving DecidableEq

/-- Which of two equally near digits is written last. -/
inductive Tie where
  | up
  | even

/-- Whether the lower of two equally near neighbours is taken. -/
def Tie.takesBelow (below : Nat) : Tie → Bool
  | .up => false
  | .even => below % 2 == 0

namespace Decimal

/-- Moves trailing zeros of the significand into the exponent. -/
def trim (d : Decimal) : Decimal :=
  if h : d.significand ≠ 0 ∧ d.significand % 10 = 0 then
    trim ⟨d.significand / 10, d.exponent + 1⟩
  else d
termination_by d.significand
decreasing_by omega

def digitCount (n : Nat) : Nat := (Nat.toDigits 10 n).length

/-- The exponent of the first digit of a positive count of units. -/
def leadingExponent (units : Nat) : Int :=
  if unitsPerOne ≤ units then digitCount (units / unitsPerOne) - 1
  else -digitCount ((unitsPerOne - 1) / units)

def readsBack (units : Nat) (d : Decimal) : Bool :=
  match Binary64.ofScientific false d.significand d.exponent with
  | .finite _ v _ => v == units
  | _ => false

/-- The multiples of `10 ^ exponent` on either side of a count of units, the nearer one first. -/
def neighbours (tie : Tie) (units : Nat) (exponent : Int) : List Decimal :=
  let n := units * 10 ^ (-exponent).toNat
  let d := unitsPerOne * 10 ^ exponent.toNat
  let below : Decimal := ⟨n / d, exponent⟩
  let above : Decimal := ⟨n / d + 1, exponent⟩
  if 2 * (n % d) < d || 2 * (n % d) == d && tie.takesBelow (n / d) then [below, above]
  else [above, below]

/-- A count of units written out in full, which needs no more places than one unit has. -/
def exact (units : Nat) : Decimal := ⟨units * 5 ^ (1074 : Nat), -1074⟩

/-- The grids of 1 to 17 digits are tried in turn. Numbers lie so close together that the last one
has a hit for each of them, so the exact digits are a bound to the search and no answer. -/
def shortest (tie : Tie) (units : Nat) : Decimal :=
  if units = 0 then ⟨0, 0⟩
  else
    let grids := (List.range 17).map fun (k : Nat) => leadingExponent units - k
    let found := grids.findSome? fun exponent =>
      (neighbours tie units exponent).find? (readsBack units)
    (found.getD (exact units)).trim

end Decimal

end Calculator
