import Calculator.Rounding

namespace Calculator

-- The built-in power, whatever else is in scope.
attribute [local instance (high)] instPowNat

/-- One unit is 2^-1074, so the number 1 counts this many of them. -/
def unitsPerOne : Nat := 2 ^ (1074 : Nat)

/-- Counts of units from 2^1024 upward are out of range. -/
def unitsBound : Nat := 2 ^ (2098 : Nat)

/-- A count of units that a significand of 53 bits can hold within the range. -/
def Representable (units : Nat) : Prop :=
  units < unitsBound ∧ ∃ significand exponent : Nat,
    significand < 2 ^ (53 : Nat) ∧ units = significand * 2 ^ exponent

theorem two_pow_le_unitsBound {k : Nat} : k ≤ 2098 → 2 ^ k ≤ unitsBound := by
  unfold unitsBound
  generalize 2098 = bits
  exact Nat.pow_le_pow_right (by decide)

theorem representable_zero : Representable 0 :=
  ⟨Nat.lt_of_lt_of_le Nat.one_pos (two_pow_le_unitsBound (Nat.zero_le _)), 0, 0, by simp⟩

/-- A binary64 number. The finite ones are the signed counts of units of 2^-1074 that 53 bits can
hold, with a zero of either sign; all values that are not a number are one. -/
inductive Binary64 where
  | nan
  | infinite (negative : Bool)
  | finite (negative : Bool) (units : Nat) (fits : Representable units)
deriving DecidableEq

namespace Binary64

def zero (negative : Bool) : Binary64 := .finite negative 0 representable_zero

def isZero : Binary64 → Bool
  | .finite _ units _ => units == 0
  | _ => false

def isFinite : Binary64 → Bool
  | .finite .. => true
  | _ => false

/-- The spacing of representable counts at a count of this size, as a power of two. -/
def spacing (units : Nat) : Nat := units.log2 - 52

/-- The count of units nearest to `n / d` among the multiples of its spacing, ties to even. -/
def nearestUnits (n d : Nat) : Nat :=
  let grain := 2 ^ spacing (n / d)
  nearestEven n (d * grain) * grain

theorem quotient_lt (n d : Nat) : n / (d * 2 ^ spacing (n / d)) < 2 ^ (53 : Nat) := by
  rw [← Nat.div_div_eq_div_mul, Nat.div_lt_iff_lt_mul (Nat.two_pow_pos _), ← Nat.pow_add]
  refine Nat.lt_of_lt_of_le Nat.lt_log2_self (Nat.pow_le_pow_right (by decide) ?_)
  simp only [spacing]
  omega

/-- Rounding may carry into the next power of two, where one bit less is needed. -/
theorem nearestUnits_fits (n d : Nat) : ∃ significand exponent : Nat,
    significand < 2 ^ (53 : Nat) ∧ nearestUnits n d = significand * 2 ^ exponent := by
  have hq := quotient_lt n d
  have hs := nearestEven_le_succ n (d * 2 ^ spacing (n / d))
  by_cases hc : nearestEven n (d * 2 ^ spacing (n / d)) < 2 ^ (53 : Nat)
  · exact ⟨_, spacing (n / d), hc, rfl⟩
  · have he : nearestEven n (d * 2 ^ spacing (n / d)) = 2 ^ (53 : Nat) := by omega
    refine ⟨2 ^ (52 : Nat), spacing (n / d) + 1, by decide, ?_⟩
    simp only [nearestUnits, he, Nat.pow_succ]
    omega

/-- The number nearest to `n / d` units, ties to even, an infinity from 2^1024 upward. -/
def ofRatio (negative : Bool) (n d : Nat) : Binary64 :=
  if h : nearestUnits n d < unitsBound then
    .finite negative (nearestUnits n d) ⟨h, nearestUnits_fits n d⟩
  else .infinite negative

end Binary64

end Calculator
