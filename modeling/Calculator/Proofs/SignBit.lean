import Calculator.Binary64.Arithmetic
import Calculator.Proofs.NearestNumber

namespace Calculator

/-- A bit above all others is set by adding it. -/
theorem xor_two_pow {n k : ℕ} (h : n < 2 ^ k) : n ^^^ 2 ^ k = 2 ^ k + n := by
  have hor := Nat.two_pow_add_eq_or_of_lt h 1
  rw [Nat.mul_one] at hor
  rw [hor]
  apply Nat.eq_of_testBit_eq
  intro i
  simp only [Nat.testBit_xor, Nat.testBit_or, Nat.testBit_two_pow]
  by_cases hi : k = i
  · subst hi
    simp [Nat.testBit_lt_two_pow h]
  · simp [hi]

namespace Binary64

variable {negative : Bool} {units field fraction : ℕ} {bits : UInt64}

theorem signBit_cases (negative : Bool) :
    negative = false ∧ signBit negative = 0 ∨ negative = true ∧ signBit negative = 2 ^ 63 := by
  cases negative <;> decide

/-- Sign, exponent and fraction are told from the bits that they make up. -/
theorem fields_of_bits (hf : fraction < 2 ^ 52) (he : field < 2048)
    (hn : bits.toNat = signBit negative + (field * 2 ^ 52 + fraction)) :
    decide (2 ^ 63 ≤ bits.toNat) = negative ∧ bits.toNat / 2 ^ 52 % 2048 = field ∧
    bits.toNat % 2 ^ 52 = fraction := by
  rcases signBit_cases negative with ⟨rfl, h⟩ | ⟨rfl, h⟩
  · exact ⟨decide_eq_false (by omega), by omega, by omega⟩
  · exact ⟨decide_eq_true (by omega), by omega, by omega⟩

theorem ofBits_subnormal (hf : fraction < 2 ^ 52)
    (hn : bits.toNat = signBit negative + fraction) :
    ofBits bits = .finite negative fraction (representable_subnormal hf) := by
  have hzero : bits.toNat = signBit negative + (0 * 2 ^ 52 + fraction) := by omega
  have hfields := fields_of_bits hf (by decide) hzero
  unfold ofBits
  simp only [hfields, if_true]

theorem ofBits_normal (hf : fraction < 2 ^ 52) (he : field < 2046)
    (hn : bits.toNat = signBit negative + ((field + 1) * 2 ^ 52 + fraction)) :
    ofBits bits = .finite negative ((2 ^ 52 + fraction) * 2 ^ field)
      (representable_normal hf (Nat.succ_lt_succ he)) := by
  have hfields := fields_of_bits hf (by omega) hn
  have hfield : field + 1 < 2047 := Nat.succ_lt_succ he
  unfold ofBits
  simp only [hfields, hfield, Nat.succ_ne_zero, if_false, dif_pos, Nat.add_sub_cancel]

theorem spacing_lt (h : Representable units) : spacing units < 2046 := by
  unfold spacing
  rcases Nat.eq_zero_or_pos units with rfl | hpos
  · simp
  · have hlt := h.1
    unfold unitsBound at hlt
    generalize hbits : 2098 = bits at hlt
    have hlog : units.log2 < bits := (Nat.log2_lt hpos.ne').mpr hlt
    omega

/-- A count that is spaced fills its 53 bits, and one that is not is its own significand. -/
theorem significand_cases (units : ℕ) : 2 ^ 52 ≤ significand units ∨
    spacing units = 0 ∧ significand units = units := by
  unfold significand
  rcases Nat.eq_zero_or_pos (spacing units) with h | h
  · right
    simp [h]
  · left
    rw [Nat.le_div_iff_mul_le (Nat.two_pow_pos _)]
    exact two_pow_mul_spacing_le h

/-- The bits of a number without its sign. -/
theorem toNat_toBits (negative : Bool) (fits : Representable units) :
    spacing units * 2 ^ 52 + significand units < 2 ^ 63 ∧
    (toBits (.finite negative units fits)).toNat =
      signBit negative + (spacing units * 2 ^ 52 + significand units) := by
  have hs := spacing_lt fits
  have hm := significand_lt units
  have hlt : spacing units * 2 ^ 52 + significand units < 2 ^ 63 := by omega
  refine ⟨hlt, ?_⟩
  rw [toBits, UInt64.toNat_ofNat', Nat.mod_eq_of_lt, Nat.add_assoc]
  rcases signBit_cases negative with ⟨_, h⟩ | ⟨_, h⟩
  · omega
  · omega

theorem finite_congr {u v : ℕ} {hu : Representable u} {hv : Representable v} (h : u = v) :
    finite negative u hu = finite negative v hv := by
  subst h
  rfl

/-- No number is lost in its encoding. -/
theorem ofBits_toBits (x : Binary64) : ofBits x.toBits = x := by
  cases x with
  | nan => decide
  | infinite negative => cases negative <;> decide
  | finite negative units fits =>
    obtain ⟨_, hn⟩ := toNat_toBits negative fits
    by_cases hnormal : 2 ^ 52 ≤ significand units
    · have hm := significand_lt units
      obtain ⟨fraction, hfraction⟩ := Nat.exists_eq_add_of_le hnormal
      have hf : fraction < 2 ^ 52 := by omega
      have hbits : (toBits (.finite negative units fits)).toNat =
          signBit negative + ((spacing units + 1) * 2 ^ 52 + fraction) := by
        rw [hn, hfraction]
        ring
      rw [ofBits_normal hf (spacing_lt fits) hbits]
      apply finite_congr
      rw [← hfraction, fits.significand_mul]
    · obtain ⟨h0, h⟩ := (significand_cases units).resolve_left hnormal
      have hf : units < 2 ^ 52 := by omega
      have hbits : (toBits (.finite negative units fits)).toNat = signBit negative + units := by
        rw [hn, h0, h, Nat.zero_mul, Nat.zero_add]
      rw [ofBits_subnormal hf hbits]

/-- The number whose bits are those of a number but for the highest. -/
def flipSign (x : Binary64) : Binary64 := ofBits (x.toBits ^^^ 0x8000000000000000)

theorem toBits_positive_xor (fits : Representable units) :
    toBits (.finite false units fits) ^^^ 0x8000000000000000 =
      toBits (.finite true units fits) := by
  obtain ⟨hlt, hpositive⟩ := toNat_toBits false fits
  obtain ⟨_, hnegative⟩ := toNat_toBits true fits
  have hsign : (0x8000000000000000 : UInt64).toNat = 2 ^ 63 := by decide
  apply UInt64.toNat_inj.mp
  rw [UInt64.toNat_xor, hpositive, hnegative, hsign]
  simp only [signBit, Bool.false_eq_true, if_false, if_true, Nat.zero_add]
  exact xor_two_pow hlt

/-- Negating a number is flipping its highest bit. -/
theorem flipSign_eq_neg (x : Binary64) : x.flipSign = -x := by
  cases x with
  | nan => decide
  | infinite negative => cases negative <;> decide
  | finite negative units fits =>
    unfold flipSign
    cases negative with
    | false =>
      rw [toBits_positive_xor, ofBits_toBits]
      rfl
    | true =>
      rw [← toBits_positive_xor, UInt64.xor_assoc, UInt64.xor_self, UInt64.xor_zero, ofBits_toBits]
      rfl

end Binary64

end Calculator
