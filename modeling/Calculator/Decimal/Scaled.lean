import Calculator.Binary64.Encoding
import Calculator.Decimal.Layout

namespace Calculator

attribute [local instance (high)] instPowNat

/-- The number `coefficient / 10 ^ places`. -/
structure Scaled where
  coefficient : Nat
  places : Nat
deriving DecidableEq

namespace Scaled

def coefficientBound : Nat := 2 ^ (96 : Nat)

def maxPlaces : Nat := 28

/-- Half of a scaled number. An odd coefficient takes one more place if five times it stays in
bounds, and otherwise loses half a unit of its last place. -/
def halve (s : Scaled) : Scaled :=
  if s.coefficient % 2 = 0 then ⟨s.coefficient / 2, s.places⟩
  else if 5 * s.coefficient < coefficientBound then ⟨5 * s.coefficient, s.places + 1⟩
  else ⟨s.coefficient / 2, s.places⟩

def halveTimes : Nat → Scaled → Scaled
  | 0, s => s
  | k + 1, s => halveTimes k s.halve

/-- Rounds the last place away, a half upward. What is less than one unit of the next place is
dropped altogether. -/
def dropPlace (s : Scaled) : Scaled :=
  if s.coefficient < 10 then ⟨0, 0⟩ else ⟨nearestUp s.coefficient 10, s.places - 1⟩

def dropTimes : Nat → Scaled → Scaled
  | 0, s => s
  | k + 1, s => dropTimes k s.dropPlace

/-- At most 28 places are kept, and the digits beyond are rounded away one by one. -/
def cap (s : Scaled) : Scaled := dropTimes (s.places - maxPlaces) s

/-- Multiplies a coefficient by a power of ten if the product stays in bounds. -/
def timesTen : Nat → Nat → Option Nat
  | 0, c => some c
  | tens + 1, c => if 10 * c < coefficientBound then timesTen tens (10 * c) else none

/-- The whole number `c * 10 ^ tens / 5 ^ fives`, if it is in bounds. A division by five is a
doubling that takes one of the tens away. When the double is out of bounds, the number is given up
if more tens are left than half of the fives, and else is divided with a loss. -/
def divideFive : Nat → Nat → Nat → Option Nat
  | 0, tens, c => timesTen tens c
  | fives + 1, tens, c =>
    if 2 * c < coefficientBound then divideFive fives (tens - 1) (2 * c)
    -- among the numbers given up is 2^96, with one ten and one five left
    else if fives + 1 < 2 * tens then none
    else divideFive fives tens (c / 5)

/-- The number that a count of units stands for, if it is in bounds. Its significand is halved until
its spacing is reached, or multiplied by two, which is ten divided by five, if the spacing is more
than one. -/
def ofUnits? (units : Nat) : Option Scaled :=
  let spacing := Binary64.spacing units
  if spacing ≤ 1074 then
    some (halveTimes (1074 - spacing) ⟨Binary64.significand units, 0⟩).cap
  else
    let c := divideFive (spacing - 1074) (spacing - 1074) (Binary64.significand units)
    c.map fun c => ⟨c, 0⟩

/-- Rounds to the given number of places if there are more, a half upward. -/
def round (places : Nat) (s : Scaled) : Scaled :=
  if places < s.places then ⟨nearestUp s.coefficient (10 ^ (s.places - places)), places⟩ else s

def trimFrom (coefficient : Nat) : Nat → Scaled
  | 0 => ⟨coefficient, 0⟩
  | places + 1 =>
    if coefficient % 10 = 0 then trimFrom (coefficient / 10) places
    else ⟨coefficient, places + 1⟩

/-- Drops the trailing zeros of the fraction. -/
def trim (s : Scaled) : Scaled := trimFrom s.coefficient s.places

def text (s : Scaled) : List Char := Decimal.pointed s.coefficient s.places

end Scaled

/-- How many decimals a result shows unless told otherwise. -/
def defaultDecimals : Nat := 6

namespace Decimal

/-- A count of units written with exactly so many places, rounded to the even last digit of two that
are equally near. -/
def placed (units places : Nat) : List Char :=
  pointed (nearestEven (units * 10 ^ places) unitsPerOne) places

def dropEnd (c : Char) (text : List Char) : List Char := (text.reverse.dropWhile (· == c)).reverse

/-- Drops the zeros at the end of the places, and the point if none are left. -/
def dropZeros (text : List Char) : List Char :=
  if text.contains '.' then dropEnd '.' (dropEnd '0' text) else text

/-- A text in fixed notation without trailing zeros. A zero loses its sign, too. -/
def trimText (text : List Char) : List Char :=
  let trimmed := dropZeros text
  if trimmed = ['-', '0'] then ['0'] else trimmed

end Decimal

namespace Binary64

/-- A count of units rounded to some places: as a scaled number if it could be converted, and else
from its exact value. -/
def fixedFrom (negative : Bool) (units places : Nat) : Option Scaled → List Char
  | some s =>
    let s := (s.round places).trim
    sign (negative && s.coefficient != 0) ++ s.text
  | none => Decimal.trimText (sign negative ++ Decimal.placed units places)

/-- A result as it is shown: at most `decimals` places, no exponent, no trailing zeros and no
negative zero. -/
def fixed (decimals : Nat) : Binary64 → List Char
  | .nan => ['N', 'a', 'N']
  | .infinite negative => sign negative ++ ['I', 'n', 'f', 'i', 'n', 'i', 't', 'y']
  | .finite negative units _ =>
    fixedFrom negative units (min decimals Scaled.maxPlaces) (Scaled.ofUnits? units)

end Binary64

end Calculator
