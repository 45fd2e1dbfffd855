namespace Calculator

/-- The whole number nearest to `n / d`, the even one of two that are equally near. -/
def nearestEven (n d : Nat) : Nat :=
  if 2 * (n % d) < d then n / d
  else if d < 2 * (n % d) then n / d + 1
  else n / d + n / d % 2

/-- The whole number nearest to `n / d`, the larger of two that are equally near. -/
def nearestUp (n d : Nat) : Nat :=
  if 2 * (n % d) < d then n / d else n / d + 1

theorem nearestEven_le_succ (n d : Nat) : nearestEven n d ≤ n / d + 1 := by
  simp only [nearestEven]
  split <;> try split
  all_goals omega

/-- A whole number needs no rounding. -/
theorem nearestEven_mul_self (q d : Nat) (hd : 0 < d) : nearestEven (q * d) d = q := by
  simp [nearestEven, Nat.mul_div_cancel q hd, hd]

end Calculator
