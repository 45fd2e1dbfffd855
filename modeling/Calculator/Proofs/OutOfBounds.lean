import Calculator.Proofs.PointedNumeral
import Calculator.Proofs.ScaledNumber
import Mathlib.Data.List.DropRight
import Mathlib.Data.Nat.Cast.Field

namespace Calculator

/-- A number with a spacing of one or more is whole. -/
theorem Representable.whole_mul {units : ℕ} (h : Representable units)
    (hs : 1074 ≤ Binary64.spacing units) :
    Binary64.significand units * 2 ^ (Binary64.spacing units - 1074) * unitsPerOne = units := by
  have hsig := h.significand_mul
  unfold unitsPerOne
  generalize 1074 = b at hs ⊢
  rwa [mul_assoc, ← pow_add, Nat.sub_add_cancel hs]

theorem Representable.unitsPerOne_dvd {units : ℕ} (h : Representable units)
    (hs : 1074 ≤ Binary64.spacing units) : unitsPerOne ∣ units :=
  ⟨_, by rw [mul_comm, h.whole_mul hs]⟩

theorem Representable.whole_eq {units : ℕ} (h : Representable units)
    (hs : 1074 ≤ Binary64.spacing units) :
    Binary64.significand units * 2 ^ (Binary64.spacing units - 1074) = units / unitsPerOne :=
  Nat.eq_div_of_mul_eq_left unitsPerOne_pos.ne' (h.whole_mul hs)

/-- A number with a smaller spacing is below 2^53. -/
theorem Representable.lt_of_spacing_le {units : ℕ} (h : Representable units)
    (hs : Binary64.spacing units ≤ 1074) : units < 2 ^ 53 * unitsPerOne := by
  have hsig := h.significand_mul
  have hlt := Binary64.significand_lt units
  unfold unitsPerOne
  generalize 1074 = b at hs ⊢
  rw [← hsig]
  exact Nat.mul_lt_mul_of_lt_of_le hlt (Nat.pow_le_pow_right two_pos hs) (Nat.two_pow_pos b)

namespace Scaled

variable {s : Scaled} {units c : ℕ}

/-- With as many tens as fives nothing is lost: before a division by five could lose anything, the
number is found out of bounds. -/
theorem divideFive_eq (k : ℕ) (hc : c < coefficientBound) : divideFive k k c =
    if c * 2 ^ k < coefficientBound then some (c * 2 ^ k) else none := by
  induction k generalizing c with
  | zero => simp [divideFive, timesTen, hc]
  | succ k ih =>
    have hpow : c * 2 ^ (k + 1) = 2 * c * 2 ^ k := by ring
    rw [divideFive, hpow]
    split
    · rename_i hdouble
      exact ih hdouble
    · rename_i hdouble
      have hle : 2 * c ≤ 2 * c * 2 ^ k := Nat.le_mul_of_pos_right _ (Nat.two_pow_pos k)
      rw [if_pos (by omega), if_neg (by omega)]

theorem ofUnits?_halved (hs : Binary64.spacing units ≤ 1074) : ofUnits? units =
    some (halveTimes (1074 - Binary64.spacing units) ⟨Binary64.significand units, 0⟩).cap :=
  if_pos hs

theorem ofUnits?_whole (h : Representable units) (hs : 1074 < Binary64.spacing units) :
    ofUnits? units = if units / unitsPerOne < coefficientBound then
      some ⟨units / unitsPerOne, 0⟩ else none := by
  have hc : Binary64.significand units < coefficientBound :=
    (Binary64.significand_lt units).trans (by decide)
  unfold ofUnits?
  simp only [if_neg (Nat.not_le_of_lt hs), divideFive_eq _ hc, h.whole_eq hs.le]
  split
  · rfl
  · rfl

/-- The numbers out of bounds are those from 2^96 on, 2^96 itself included. -/
theorem ofUnits?_eq_none_iff (h : Representable units) :
    ofUnits? units = none ↔ coefficientBound * unitsPerOne ≤ units := by
  rcases Nat.lt_or_ge 1074 (Binary64.spacing units) with hs | hs
  · rw [ofUnits?_whole h hs, ← Nat.le_div_iff_mul_le unitsPerOne_pos]
    simp
  · have hlt := h.lt_of_spacing_le hs
    have hbound : 2 ^ 53 * unitsPerOne ≤ coefficientBound * unitsPerOne :=
      Nat.mul_le_mul_right _ (by decide)
    rw [ofUnits?_halved hs]
    simp only [reduceCtorEq, false_iff, Nat.not_le]
    exact hlt.trans_le hbound

/-- The number that a count of units stands for, in bounds or not. Out of them it is whole, and
nothing is lost. -/
def ofUnits (units : ℕ) : Scaled := (ofUnits? units).getD ⟨units / unitsPerOne, 0⟩

theorem ofUnits_halved (hs : Binary64.spacing units ≤ 1074) : ofUnits units =
    (halveTimes (1074 - Binary64.spacing units) ⟨Binary64.significand units, 0⟩).cap := by
  rw [ofUnits, ofUnits?_halved hs, Option.getD_some]

theorem ofUnits_whole (h : Representable units) (hs : 1074 < Binary64.spacing units) :
    ofUnits units = ⟨units / unitsPerOne, 0⟩ := by
  rw [ofUnits, ofUnits?_whole h hs]
  split
  · rfl
  · rfl

theorem toRat_ofUnits_of_lt_spacing (h : Representable units)
    (hs : 1074 < Binary64.spacing units) : (ofUnits units).toRat = (units : ℚ) / unitsPerOne := by
  rw [ofUnits_whole h hs, toRat, pow_zero, div_one, Nat.cast_div (h.unitsPerOne_dvd hs.le)
    (by rw [unitsPerOne_cast]; positivity)]

/-- Digits that do not end with a zero are kept. -/
theorem rdropWhile_lastDigits (places : ℕ) (h : c % 10 ≠ 0) :
    (Decimal.lastDigits c (places + 1)).rdropWhile (· == '0') =
      Decimal.lastDigits c (places + 1) := by
  have hall : ∀ d : Fin 10, d.val ≠ 0 → ¬ (d.val.digitChar == '0') = true := by decide
  have hlast := hall ⟨c % 10, Nat.mod_lt c (by decide)⟩ h
  rw [Decimal.lastDigits]
  exact List.rdropWhile_concat_neg _ _ _ hlast

theorem rdropWhile_lastDigits_zero (places : ℕ) (h : c % 10 = 0) :
    (Decimal.lastDigits c (places + 1)).rdropWhile (· == '0') =
      (Decimal.lastDigits (c / 10) places).rdropWhile (· == '0') := by
  rw [Decimal.lastDigits, h]
  exact List.rdropWhile_concat_pos _ _ '0' rfl

/-- What is shown of a number without its trailing zeros. -/
theorem text_trimFrom (c places : ℕ) : (trimFrom c places).text =
    let fraction := (Decimal.lastDigits c places).rdropWhile (· == '0')
    Nat.toDigits 10 (c / 10 ^ places) ++ if fraction = [] then [] else '.' :: fraction := by
  induction places generalizing c with
  | zero =>
    rw [trimFrom, text, Decimal.pointed_eq]
    rfl
  | succ places ih =>
    rw [trimFrom]
    split
    · rename_i h
      rw [ih, rdropWhile_lastDigits_zero places h, Nat.div_div_eq_div_mul, ← pow_succ']
    · rename_i h
      have hne : Decimal.lastDigits c (places + 1) ≠ [] := by
        rw [← List.length_pos_iff, Decimal.length_lastDigits]
        exact Nat.succ_pos places
      simp only [text, Decimal.pointed_eq, rdropWhile_lastDigits places h, hne, if_false,
        Nat.succ_ne_zero]

theorem IsTrimmed.eq_zero (ht : s.IsTrimmed) (hc : s.coefficient = 0) : s = ⟨0, 0⟩ :=
  ht.unique (.inl rfl) (by rw [toRat, toRat, hc, Nat.cast_zero, zero_div, zero_div])

theorem text_ne_zero (hc : s.coefficient ≠ 0) : s.text ≠ ['0'] := by
  intro h
  have hdigits := digits_pointed s.coefficient s.places
  rw [← text, h] at hdigits
  exact hc hdigits.symm

theorem IsTrimmed.text_eq_zero_iff (ht : s.IsTrimmed) : s.text = ['0'] ↔ s.coefficient = 0 := by
  constructor
  · exact fun h => by_contra fun hc => text_ne_zero hc h
  · intro hc
    rw [ht.eq_zero hc]
    rfl

theorem head?_text_ne (s : Scaled) : s.text.head? ≠ some '-' := by
  intro h
  have hmem : '-' ∈ Decimal.pointed s.coefficient s.places := List.mem_of_head? h
  exact absurd (isPart_of_mem_pointed hmem) (by decide)

end Scaled

namespace Decimal

variable {c d : Char} {text digits : List Char}

theorem dropEnd_of_getLast? (h : text.getLast? ≠ some c) : dropEnd c text = text := by
  apply List.rdropWhile_eq_self_iff.mpr
  intro hne
  rw [List.getLast?_eq_some_getLast hne, Ne, Option.some.injEq] at h
  simpa using h

/-- Nothing is dropped beyond another character. -/
theorem dropEnd_append_cons (h : d ≠ c) (digits : List Char) :
    dropEnd c (text ++ d :: digits) = text ++ d :: digits.rdropWhile (· == c) := by
  induction digits using List.reverseRecOn with
  | nil => exact dropEnd_of_getLast? (by simpa using h)
  | append_singleton digits e ih =>
    have hassoc : text ++ d :: (digits ++ [e]) = text ++ d :: digits ++ [e] := by simp
    rw [hassoc]
    by_cases he : e = c
    · rw [List.rdropWhile_concat_pos _ _ _ (by simpa using he), ← ih]
      exact List.rdropWhile_concat_pos _ _ _ (by simpa using he)
    · rw [List.rdropWhile_concat_neg _ _ _ (by simpa using he), hassoc]
      exact List.rdropWhile_concat_neg _ _ _ (by simpa using he)

theorem getLast?_ne_of_digits (hne : digits ≠ []) (hd : ∀ e ∈ digits, e.isDigit = true) :
    (text ++ digits).getLast? ≠ some '.' := by
  intro h
  rw [List.getLast?_append_of_ne_nil _ hne] at h
  exact ne_point_of_isDigit (hd '.' (List.mem_of_getLast? h)) rfl

/-- Dropping zeros from the text of a number gives the text of the number without them. -/
theorem dropZeros_pointed (negative : Bool) (n places : ℕ) :
    dropZeros (Binary64.sign negative ++ pointed n places) =
      Binary64.sign negative ++ (Scaled.trimFrom n places).text := by
  have hd : ∀ e ∈ Nat.toDigits 10 (n / 10 ^ places) ++ lastDigits n places, e.isDigit = true :=
    fun e he => isDigit_of_mem_parts he
  have hwhole : Nat.toDigits 10 (n / 10 ^ places) ≠ [] := Nat.toDigits_ne_nil
  have hsign : '.' ∉ Binary64.sign negative := by cases negative <;> decide
  rw [Scaled.text_trimFrom, pointed_eq]
  generalize Nat.toDigits 10 (n / 10 ^ places) = whole at hd hwhole
  have hdw := fun e he => hd e (List.mem_append_left _ he)
  cases places with
  | zero =>
    have hpoint : '.' ∉ whole := point_not_mem hdw
    simp [dropZeros, lastDigits, hsign, hpoint]
  | succ places =>
    have hfraction : ∀ e ∈ (lastDigits n (places + 1)).rdropWhile (· == '0'), e.isDigit = true :=
      fun e he => hd e (List.mem_append_right _ ((List.rdropWhile_prefix _ _).subset he))
    have hzeros : dropEnd '0' (Binary64.sign negative ++ whole ++
        '.' :: lastDigits n (places + 1)) = Binary64.sign negative ++ whole ++
        '.' :: (lastDigits n (places + 1)).rdropWhile (· == '0') :=
      dropEnd_append_cons (by decide) _
    simp only [Nat.succ_ne_zero, if_false, ← List.append_assoc]
    rw [dropZeros, if_pos (by simp), hzeros]
    generalize (lastDigits n (places + 1)).rdropWhile (· == '0') = fraction at hfraction
    split
    · rename_i hnil
      have hpoint := List.rdropWhile_concat_pos (· == '.') (Binary64.sign negative ++ whole) '.' rfl
      rw [hnil, List.append_nil]
      exact hpoint.trans (dropEnd_of_getLast? (getLast?_ne_of_digits hwhole hdw))
    · rename_i hne
      rw [List.append_cons]
      exact dropEnd_of_getLast? (getLast?_ne_of_digits hne hfraction)

/-- Trimming the text of a number is trimming the number, and a zero that has a sign loses it. -/
theorem trimText_pointed (negative : Bool) (n places : ℕ) :
    trimText (Binary64.sign negative ++ pointed n places) =
      let s := (⟨n, places⟩ : Scaled).trim
      Binary64.sign (negative && s.coefficient != 0) ++ s.text := by
  have ht : (Scaled.trimFrom n places).IsTrimmed := (Scaled.trimFrom_spec n places).1
  rw [trimText, dropZeros_pointed, Scaled.trim]
  generalize Scaled.trimFrom n places = s at ht
  cases negative with
  | false =>
    have hne : s.text ≠ ['-', '0'] := by
      intro h
      exact s.head?_text_ne (by rw [h]; rfl)
    simp [Binary64.sign, hne]
  | true =>
    by_cases hc : s.coefficient = 0
    · simp [Binary64.sign, hc, ht.text_eq_zero_iff.mpr hc]
    · simp [Binary64.sign, hc, Scaled.text_ne_zero hc]

theorem placed_mul (k places : ℕ) :
    placed (k * unitsPerOne) places = pointed (k * 10 ^ places) places := by
  rw [placed, Nat.mul_right_comm, nearestEven_mul_self _ _ unitsPerOne_pos]

end Decimal

/-- A number is shown as if there were no bounds: out of them, its exact value needs no places. -/
theorem Binary64.fixed_finite (negative : Bool) (decimals : ℕ) {units : ℕ}
    (h : Representable units) : fixed decimals (.finite negative units h) =
      let s := ((Scaled.ofUnits units).round (min decimals 28)).trim
      sign (negative && s.coefficient != 0) ++ s.text := by
  rw [fixed, Scaled.maxPlaces, Scaled.ofUnits]
  cases hs : Scaled.ofUnits? units with
  | some s => rfl
  | none =>
    have hspacing : 1074 < spacing units := by
      by_contra hle
      rw [Scaled.ofUnits?_halved (Nat.le_of_not_lt hle)] at hs
      cases hs
    obtain ⟨k, hk⟩ := h.unitsPerOne_dvd hspacing.le
    have hdiv : units / unitsPerOne = k := by rw [hk, Nat.mul_div_cancel_left k unitsPerOne_pos]
    have htrim : (⟨k * 10 ^ min decimals 28, min decimals 28⟩ : Scaled).trim =
        ((⟨k, 0⟩ : Scaled).round (min decimals 28)).trim := by
      apply Scaled.trim_congr
      simp [Scaled.round, Scaled.toRat]
    rw [fixedFrom, Option.getD_none, hdiv, hk, mul_comm, Decimal.placed_mul,
      Decimal.trimText_pointed, htrim]

end Calculator
