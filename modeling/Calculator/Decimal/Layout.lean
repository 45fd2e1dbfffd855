import Calculator.Decimal.Shortest

namespace Calculator

attribute [local instance (high)] instPowNat

namespace Decimal

/-- The digits of `n / 10 ^ places` in fixed notation, with at least one digit before the point. -/
def pointed (n places : Nat) : List Char :=
  let digits := (Nat.toDigits 10 n).leftpad (places + 1) '0'
  let whole := digits.take (digits.length - places)
  if places = 0 then whole else whole ++ '.' :: digits.drop (digits.length - places)

/-- The exponent of the first digit. -/
def leading (d : Decimal) : Int := d.exponent + digitCount d.significand - 1

/-- All zeros are written out, so that no exponent is needed. -/
def positional (d : Decimal) : List Char :=
  if 0 ≤ d.exponent then pointed (d.significand * 10 ^ d.exponent.toNat) 0
  else pointed d.significand (-d.exponent).toNat

/-- One digit, the other digits behind a point if there are any, and a signed exponent. -/
def scientific (d : Decimal) : List Char :=
  let x := d.leading
  let mantissa := match Nat.toDigits 10 d.significand with
    | first :: second :: rest => first :: '.' :: second :: rest
    | digits => digits
  mantissa ++ 'e' :: (if x < 0 then '-' else '+') :: Nat.toDigits 10 x.natAbs

end Decimal

/-- How the digits of a number are laid out. -/
structure Layout where
  /-- The exponents of the first digit for which no exponent is written. -/
  isPositional : Int → Bool
  /-- Written behind a whole number in positional notation. -/
  wholeMark : List Char

namespace Layout

/-- Numbers as they stand in expressions: never an exponent, and no point without a fraction. -/
def plain : Layout := ⟨fun _ => true, []⟩

def write (layout : Layout) (d : Decimal) : List Char :=
  if layout.isPositional d.leading then
    d.positional ++ if 0 ≤ d.exponent then layout.wholeMark else []
  else d.scientific

end Layout

namespace Binary64

def sign (negative : Bool) : List Char := if negative then ['-'] else []

/-- The shortest text that denotes the number and no other. -/
def text : Binary64 → List Char
  | .nan => ['N', 'a', 'N']
  | .infinite negative => sign negative ++ ['i', 'n', 'f']
  | .finite negative units _ => sign negative ++ Layout.plain.write (.shortest .up units)

end Binary64

end Calculator
