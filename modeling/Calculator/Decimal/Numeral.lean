import Calculator.Binary64

namespace Calculator

attribute [local instance (high)] instPowNat

/-- The number nearest to `n / 10 ^ places`, rounded once from the exact value. -/
def Binary64.ofDecimal (negative : Bool) (n places : Nat) : Binary64 :=
  .ofRatio negative (n * unitsPerOne) (10 ^ places)

def Binary64.ofNat (n : Nat) : Binary64 := .ofDecimal false n 0

/-- The number nearest to `n * 10 ^ exponent`. -/
def Binary64.ofScientific (negative : Bool) (n : Nat) (exponent : Int) : Binary64 :=
  if 0 ≤ exponent then .ofDecimal negative (n * 10 ^ exponent.toNat) 0
  else .ofDecimal negative n (-exponent).toNat

namespace Numeral

def isPart (c : Char) : Bool := c.isDigit || c == '.'

/-- A run of digits and points is a numeral if it has a digit and at most one point. -/
def isValid (run : List Char) : Bool := run.any Char.isDigit && run.count '.' ≤ 1

/-- The digits read as one whole number, the point left out. -/
def digits (run : List Char) : Nat := Nat.ofDigitChars 10 (run.filter Char.isDigit) 0

/-- How many digits follow the point. -/
def places (run : List Char) : Nat := (run.dropWhile (· != '.')).length - 1

def value (run : List Char) : Binary64 := .ofDecimal false (digits run) (places run)

def value? (run : List Char) : Option Binary64 := if isValid run then some (value run) else none

end Numeral

end Calculator
