import Calculator.Binary64

namespace Calculator.Binary64

attribute [local instance (high)] instPowNat

/-- The sign occupies the highest of the 64 bits. -/
def signBit (negative : Bool) : Nat := if negative then 2 ^ (63 : Nat) else 0

/-- The count of units without its spacing: 53 bits, fewer for a subnormal number. -/
def significand (units : Nat) : Nat := units / 2 ^ spacing units

/-- The standard encoding. The leading bit of a significand of 53 bits adds one to the exponent
field, which is how normal and subnormal numbers are told apart. -/
def toBits : Binary64 → UInt64
  | .nan => 0x7ff8000000000000
  | .infinite negative => .ofNat (signBit negative + 2047 * 2 ^ (52 : Nat))
  | .finite negative units _ =>
    .ofNat (signBit negative + spacing units * 2 ^ (52 : Nat) + significand units)

theorem representable_subnormal {fraction : Nat} (h : fraction < 2 ^ (52 : Nat)) :
    Representable fraction :=
  ⟨Nat.lt_of_lt_of_le h (two_pow_le_unitsBound (by decide)), fraction, 0, by omega, by simp⟩

theorem representable_normal {field fraction : Nat} (h : fraction < 2 ^ (52 : Nat))
    (he : field < 2047) : Representable ((2 ^ (52 : Nat) + fraction) * 2 ^ (field - 1)) := by
  refine ⟨?_, 2 ^ (52 : Nat) + fraction, field - 1, by omega, rfl⟩
  have hm : 2 ^ (52 : Nat) + fraction < 2 ^ (53 : Nat) := by omega
  refine Nat.lt_of_lt_of_le (Nat.mul_lt_mul_of_pos_right hm (Nat.two_pow_pos _)) ?_
  rw [← Nat.pow_add]
  exact two_pow_le_unitsBound (by omega)

/-- The number that 64 bits encode. -/
def ofBits (bits : UInt64) : Binary64 :=
  let negative : Bool := 2 ^ (63 : Nat) ≤ bits.toNat
  let field := bits.toNat / 2 ^ (52 : Nat) % 2048
  let fraction := bits.toNat % 2 ^ (52 : Nat)
  have hf : fraction < 2 ^ (52 : Nat) := Nat.mod_lt _ (Nat.two_pow_pos 52)
  if field = 0 then .finite negative fraction (representable_subnormal hf)
  else if he : field < 2047 then
    .finite negative ((2 ^ (52 : Nat) + fraction) * 2 ^ (field - 1)) (representable_normal hf he)
  else if fraction = 0 then .infinite negative
  else .nan

end Calculator.Binary64
