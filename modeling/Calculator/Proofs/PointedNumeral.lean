import Calculator.Decimal.Layout
import Mathlib.Algebra.Ring.Nat
import Mathlib.Data.List.Basic
import Mathlib.Data.List.TakeWhile

namespace Calculator

section

variable {run rest : List Char} {p : Char → Bool}

theorem takeWhile_run (hrun : ∀ c ∈ run, p c = true) (hstop : ∀ c ∈ rest.head?, p c = false) :
    (run ++ rest).takeWhile p = run := by
  rw [List.takeWhile_append_of_pos hrun]
  cases rest with
  | nil => simp
  | cons c rest => simp [hstop c rfl]

theorem dropWhile_run (hrun : ∀ c ∈ run, p c = true) (hstop : ∀ c ∈ rest.head?, p c = false) :
    (run ++ rest).dropWhile p = rest := by
  have hsplit := List.takeWhile_append_dropWhile (p := p) (l := run ++ rest)
  rw [takeWhile_run hrun hstop] at hsplit
  exact List.append_cancel_left hsplit

end

theorem isPart_of_isDigit {c : Char} (h : c.isDigit = true) : Numeral.isPart c = true := by
  simp [Numeral.isPart, h]

theorem ne_point_of_isDigit {c : Char} (h : c.isDigit = true) : c ≠ '.' := by
  intro hp
  rw [hp] at h
  cases h

/-- A run of digits and points that is read as a number. -/
structure Numeral.Denotes (run : List Char) (x : Binary64) : Prop where
  parts : ∀ c ∈ run, Numeral.isPart c = true
  value : Numeral.value? run = some x

theorem Numeral.Denotes.ne_nil {run : List Char} {x : Binary64} (h : Numeral.Denotes run x) :
    run ≠ [] := by
  rintro rfl
  cases h.value

namespace Decimal

/-- The last digits of a number, as many as there are places. -/
def lastDigits (n : Nat) : Nat → List Char
  | 0 => []
  | places + 1 => lastDigits (n / 10) places ++ [(n % 10).digitChar]

theorem length_lastDigits (n places : Nat) : (lastDigits n places).length = places := by
  induction places generalizing n with
  | zero => rfl
  | succ places ih => rw [lastDigits, List.length_append, ih, List.length_singleton]

/-- Only zero is written with a zero first. -/
theorem head?_toDigits_ne_zero {n : Nat} (h : 10 ≤ n) : (Nat.toDigits 10 n).head? ≠ some '0' := by
  induction n using Nat.strongRecOn with
  | ind n ih =>
    rw [Nat.toDigits_of_base_le (by decide) h, List.head?_append_of_ne_nil _ Nat.toDigits_ne_nil]
    rcases Nat.lt_or_ge (n / 10) 10 with hlt | hge
    · rw [Nat.toDigits_of_lt_base hlt, List.head?_singleton, ne_eq, Option.some.injEq,
        Nat.digitChar_eq_zero]
      omega
    · exact ih (n / 10) (by omega) hge

theorem leftpad_concat (k : Nat) (c d : Char) (digits : List Char) :
    (digits ++ [d]).leftpad (k + 1) c = digits.leftpad k c ++ [d] := by
  simp [List.leftpad]

/-- Enough zeros before a number make it the whole part with the places behind it. -/
theorem leftpad_toDigits (n places : Nat) : (Nat.toDigits 10 n).leftpad (places + 1) '0' =
    Nat.toDigits 10 (n / 10 ^ places) ++ lastDigits n places := by
  induction places generalizing n with
  | zero =>
    have hpos : 0 < (Nat.toDigits 10 n).length := Nat.length_toDigits_pos
    rw [List.leftpad, Nat.sub_eq_zero_of_le hpos, pow_zero, Nat.div_one, lastDigits]
    simp
  | succ places ih =>
    have hten : (Nat.toDigits 10 n).leftpad (places + 1 + 1) '0' =
        (Nat.toDigits 10 (n / 10)).leftpad (places + 1) '0' ++ [(n % 10).digitChar] := by
      rcases Nat.lt_or_ge n 10 with h | h
      · rw [Nat.div_eq_of_lt h, Nat.mod_eq_of_lt h, Nat.toDigits_of_lt_base h]
        simp [List.leftpad, List.replicate_succ']
      · rw [Nat.toDigits_of_base_le (by decide) h, leftpad_concat]
    rw [hten, ih, Nat.div_div_eq_div_mul, ← pow_succ', lastDigits, List.append_assoc]

theorem isDigit_of_mem_parts {n places : Nat} {c : Char}
    (h : c ∈ Nat.toDigits 10 (n / 10 ^ places) ++ lastDigits n places) : c.isDigit = true := by
  rw [← leftpad_toDigits] at h
  rcases List.mem_append.mp h with hz | hd
  · rw [(List.mem_replicate.mp hz).2]
    rfl
  · exact Nat.isDigit_of_mem_toDigits (by decide) (by decide) hd

theorem ofDigitChars_parts (n places : Nat) : Nat.ofDigitChars 10
    (Nat.toDigits 10 (n / 10 ^ places) ++ lastDigits n places) 0 = n := by
  simp only [← leftpad_toDigits, List.leftpad, Nat.ofDigitChars_append,
    Nat.ofDigitChars_replicate_zero, Nat.mul_zero, Nat.ofDigitChars_ten_toDigits]

/-- A number in fixed notation is its whole part and its places, if it has any. -/
theorem pointed_eq (n places : Nat) : pointed n places = Nat.toDigits 10 (n / 10 ^ places) ++
    if places = 0 then [] else '.' :: lastDigits n places := by
  have hlen : (Nat.toDigits 10 (n / 10 ^ places) ++ lastDigits n places).length - places =
      (Nat.toDigits 10 (n / 10 ^ places)).length := by
    rw [List.length_append, length_lastDigits, Nat.add_sub_cancel]
  simp only [pointed, leftpad_toDigits, hlen, List.take_left', List.drop_left']
  split
  · rw [List.append_nil]
  · rfl

end Decimal

/-- The two parts of a number in fixed notation. -/
theorem exists_pointed_parts (n places : Nat) : ∃ whole fraction : List Char,
    whole ≠ [] ∧ (∀ c ∈ whole ++ fraction, c.isDigit = true) ∧ fraction.length = places ∧
    Nat.ofDigitChars 10 (whole ++ fraction) 0 = n ∧
    (whole ++ fraction).length = max (Nat.toDigits 10 n).length (places + 1) ∧
    Decimal.pointed n places = whole ++ if places = 0 then [] else '.' :: fraction := by
  refine ⟨Nat.toDigits 10 (n / 10 ^ places), Decimal.lastDigits n places,
    List.length_pos_iff.mp Nat.length_toDigits_pos, fun c hc => Decimal.isDigit_of_mem_parts hc,
    Decimal.length_lastDigits n places, Decimal.ofDigitChars_parts n places, ?_,
    Decimal.pointed_eq n places⟩
  rw [← Decimal.leftpad_toDigits, List.length_leftpad, Nat.max_comm]

variable {whole fraction : List Char}

theorem point_not_mem (h : ∀ c ∈ whole, c.isDigit = true) : '.' ∉ whole :=
  fun hc => ne_point_of_isDigit (h '.' hc) rfl

theorem count_point_eq_zero (h : ∀ c ∈ whole, c.isDigit = true) : whole.count '.' = 0 :=
  List.count_eq_zero.mpr (point_not_mem h)

theorem point_stops (h : '.' ∉ whole) : ∀ c ∈ whole, (c != '.') = true :=
  fun _ hc => bne_iff_ne.mpr fun heq => h (heq ▸ hc)

namespace Numeral

theorem places_whole (h : '.' ∉ whole) : places whole = 0 := by
  rw [places, List.dropWhile_eq_nil_iff.mpr (point_stops h)]
  rfl

theorem places_point (h : '.' ∉ whole) (fraction : List Char) :
    places (whole ++ '.' :: fraction) = fraction.length := by
  rw [places, List.dropWhile_append_of_pos (point_stops h), List.dropWhile_cons_of_neg (by simp),
    List.length_cons, Nat.add_sub_cancel]

theorem digits_whole (hw : ∀ c ∈ whole, c.isDigit = true) :
    digits whole = Nat.ofDigitChars 10 whole 0 := by
  rw [digits, List.filter_eq_self.mpr hw]

theorem digits_point (hw : ∀ c ∈ whole, c.isDigit = true) (hf : ∀ c ∈ fraction, c.isDigit = true) :
    digits (whole ++ '.' :: fraction) = Nat.ofDigitChars 10 (whole ++ fraction) 0 := by
  rw [digits, List.filter_append, List.filter_eq_self.mpr hw, List.filter_cons_of_neg (by decide),
    List.filter_eq_self.mpr hf]

end Numeral

/-- Digits around a point count as places if they are behind it. -/
theorem places_of_parts (hd : ∀ c ∈ whole ++ fraction, c.isDigit = true) :
    Numeral.places (whole ++ if fraction.length = 0 then [] else '.' :: fraction) =
      fraction.length := by
  have hw := point_not_mem fun c hc => hd c (List.mem_append_left _ hc)
  split
  · rename_i hl
    rw [List.append_nil, Numeral.places_whole hw, hl]
  · exact Numeral.places_point hw fraction

/-- Digits around a point are read without it. -/
theorem digits_of_parts (hd : ∀ c ∈ whole ++ fraction, c.isDigit = true) :
    Numeral.digits (whole ++ if fraction.length = 0 then [] else '.' :: fraction) =
      Nat.ofDigitChars 10 (whole ++ fraction) 0 := by
  have hw : ∀ c ∈ whole, c.isDigit = true := fun c hc => hd c (List.mem_append_left _ hc)
  have hf : ∀ c ∈ fraction, c.isDigit = true := fun c hc => hd c (List.mem_append_right _ hc)
  split
  · rename_i hl
    rw [List.eq_nil_of_length_eq_zero hl, List.append_nil, Numeral.digits_whole hw]
  · exact Numeral.digits_point hw hf

/-- Digits around a point are a numeral. -/
theorem value?_of_parts (hne : whole ≠ []) (hd : ∀ c ∈ whole ++ fraction, c.isDigit = true) :
    Numeral.value? (whole ++ if fraction.length = 0 then [] else '.' :: fraction) =
      some (.ofDecimal false (Nat.ofDigitChars 10 (whole ++ fraction) 0) fraction.length) := by
  have hw : ∀ c ∈ whole, c.isDigit = true := fun c hc => hd c (List.mem_append_left _ hc)
  have hf : ∀ c ∈ fraction, c.isDigit = true := fun c hc => hd c (List.mem_append_right _ hc)
  have hany : whole.any Char.isDigit = true := by
    obtain ⟨first, hfirst⟩ := List.exists_mem_of_ne_nil whole hne
    exact List.any_eq_true.mpr ⟨first, hfirst, hw first hfirst⟩
  have hvalid : Numeral.isValid
      (whole ++ if fraction.length = 0 then [] else '.' :: fraction) = true := by
    rw [Numeral.isValid, List.any_append, hany, List.count_append, count_point_eq_zero hw]
    split
    · rfl
    · rw [List.count_cons_self, count_point_eq_zero hf]
      rfl
  rw [Numeral.value?, if_pos hvalid, Numeral.value, places_of_parts hd, digits_of_parts hd]

theorem places_pointed (n places : Nat) : Numeral.places (Decimal.pointed n places) = places := by
  obtain ⟨whole, fraction, _, hd, rfl, _, _, hp⟩ := exists_pointed_parts n places
  rw [hp, places_of_parts hd]

theorem digits_pointed (n places : Nat) : Numeral.digits (Decimal.pointed n places) = n := by
  obtain ⟨whole, fraction, _, hd, hl, hn, _, hp⟩ := exists_pointed_parts n places
  rw [hp, ← hl, digits_of_parts hd, hn]

theorem value?_pointed (n places : Nat) :
    Numeral.value? (Decimal.pointed n places) = some (.ofDecimal false n places) := by
  obtain ⟨whole, fraction, hne, hd, hl, hn, _, hp⟩ := exists_pointed_parts n places
  have h := value?_of_parts hne hd
  rw [hp, ← hl, h, hn]

theorem isPart_of_mem_pointed {n places : Nat} {c : Char} (h : c ∈ Decimal.pointed n places) :
    Numeral.isPart c = true := by
  obtain ⟨whole, fraction, _, hd, _, _, _, hp⟩ := exists_pointed_parts n places
  rw [hp] at h
  rcases List.mem_append.mp h with hc | hc
  · exact isPart_of_isDigit (hd c (List.mem_append_left _ hc))
  · split at hc
    · cases hc
    · rcases List.mem_cons.mp hc with rfl | hc
      · rfl
      · exact isPart_of_isDigit (hd c (List.mem_append_right _ hc))

theorem denotes_pointed (n places : Nat) :
    Numeral.Denotes (Decimal.pointed n places) (.ofDecimal false n places) :=
  ⟨fun _ hc => isPart_of_mem_pointed hc, value?_pointed n places⟩

theorem length_pointed_le (n places : Nat) :
    (Decimal.pointed n places).length ≤ max (Nat.toDigits 10 n).length (places + 1) + 1 := by
  obtain ⟨whole, fraction, _, _, _, _, hl, hp⟩ := exists_pointed_parts n places
  rw [hp, ← hl, List.length_append, List.length_append]
  split
  · simp only [List.length_nil]
    omega
  · simp only [List.length_cons]
    omega

end Calculator
