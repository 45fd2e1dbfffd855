import Calculator.Proofs.JsonTexts
import Calculator.Proofs.NumberRange
import Calculator.Proofs.PointedNumeral

namespace Calculator

namespace Decimal

/-- The signed exponent that is written behind the digits. -/
def exponentText (x : ℤ) : List Char :=
  'e' :: (if x < 0 then '-' else '+') :: Nat.toDigits 10 x.natAbs

/-- All digits but the first one are places. -/
theorem scientific_eq (d : Decimal) : d.scientific =
    pointed d.significand (digitCount d.significand - 1) ++ exponentText d.leading := by
  have hpos := digitCount_pos d.significand
  rw [scientific, pointed, exponentText]
  rw [digitCount] at hpos ⊢
  generalize Nat.toDigits 10 d.significand = digits at hpos ⊢
  cases digits with
  | nil => cases hpos
  | cons first others =>
    cases others with
    | nil => simp [List.leftpad]
    | cons second rest => simp [List.leftpad]

/-- A zero behind the point may as well be a zero before it. -/
theorem pointed_append_zero (n : ℕ) :
    pointed n 0 ++ Layout.json.wholeMark = pointed (n * 10) 1 := by
  rw [pointed_eq, pointed_eq]
  simp [lastDigits, Layout.json]

/-- A whole number without an exponent is read with the zero behind its point. -/
def asRead (d : Decimal) : Decimal :=
  if Layout.json.isPositional d.leading ∧ 0 ≤ d.exponent then
    ⟨d.significand * 10 ^ d.exponent.toNat * 10, -1⟩
  else d

theorem ofScientific_asRead (negative : Bool) (d : Decimal) :
    Binary64.ofScientific negative d.asRead.significand d.asRead.exponent =
      Binary64.ofScientific negative d.significand d.exponent := by
  rw [asRead]
  split
  · rename_i h
    rw [Binary64.ofScientific_ten_mul]
    simp [Binary64.ofScientific, h.2]
  · rfl

theorem positional_lt {d : Decimal} (he : 0 ≤ d.exponent)
    (hx : Layout.json.isPositional d.leading = true) :
    d.significand * 10 ^ d.exponent.toNat < 10 ^ 16 := by
  have hle : d.leading ≤ 15 := of_decide_eq_true (Bool.and_eq_true_iff.mp hx).2
  have hlt := lt_ten_pow_digitCount d.significand
  have hcount : digitCount d.significand + d.exponent.toNat ≤ 16 := by
    rw [leading] at hle
    omega
  calc d.significand * 10 ^ d.exponent.toNat
      < 10 ^ digitCount d.significand * 10 ^ d.exponent.toNat :=
        Nat.mul_lt_mul_of_pos_right hlt (Nat.pow_pos (by decide))
    _ = 10 ^ (digitCount d.significand + d.exponent.toNat) := (pow_add _ _ _).symm
    _ ≤ 10 ^ 16 := pow_le_pow_right₀ (by decide) hcount

end Decimal

namespace Json

variable {digits fraction text rest : List Char} {n significand limit : ℕ}

theorem readDigits_run (hne : digits ≠ []) (hd : ∀ c ∈ digits, c.isDigit = true)
    (hr : ∀ c ∈ rest.head?, c.isDigit = false) :
    readDigits (digits ++ rest) = .ok (digits, rest) := by
  obtain ⟨first, others, rfl⟩ := List.exists_cons_of_ne_nil hne
  have hothers : ∀ c ∈ others, c.isDigit = true := fun c hc => hd c (List.mem_cons_of_mem _ hc)
  rw [List.cons_append, readDigits, if_pos (hd first List.mem_cons_self),
    takeWhile_run hothers hr, dropWhile_run hothers hr]

theorem isDigit_of_mem_toDigits : ∀ c ∈ Nat.toDigits 10 n, c.isDigit = true :=
  fun _ => Nat.isDigit_of_mem_toDigits (by decide) (by decide)

theorem exists_toDigits_cons (n : ℕ) : ∃ first others,
    Nat.toDigits 10 n = first :: others ∧ first.isDigit = true := by
  obtain ⟨first, others, h⟩ := List.exists_cons_of_ne_nil (Nat.toDigits_ne_nil (n := n) (b := 10))
  refine ⟨first, others, h, isDigit_of_mem_toDigits (n := n) first ?_⟩
  rw [h]
  exact List.mem_cons_self

theorem readDigits_toDigits (hr : ∀ c ∈ rest.head?, c.isDigit = false) :
    readDigits (Nat.toDigits 10 n ++ rest) = .ok (Nat.toDigits 10 n, rest) :=
  readDigits_run Nat.toDigits_ne_nil isDigit_of_mem_toDigits hr

theorem readWhole_toDigits (hr : ∀ c ∈ rest.head?, c.isDigit = false) :
    readWhole (Nat.toDigits 10 n ++ rest) = .ok (Nat.toDigits 10 n, rest) := by
  have hzero : (decide ((Nat.toDigits 10 n).head? = some '0') &&
      decide (1 < (Nat.toDigits 10 n).length)) = false := by
    rcases Nat.lt_or_ge n 10 with hlt | hge
    · rw [Nat.toDigits_of_lt_base hlt]
      exact Bool.and_false _
    · rw [decide_eq_false (Decimal.head?_toDigits_ne_zero hge), Bool.false_and]
  simp only [readWhole, readDigits_toDigits hr, bind, Except.bind, hzero]
  rfl

theorem readFraction_none (h : ∀ c ∈ rest.head?, c ≠ '.') : readFraction rest = .ok ([], rest) := by
  rw [readFraction]
  rintro text rfl
  exact h '.' rfl rfl

theorem le_ofDigitChars (n : ℕ) (digits : List Char) : n ≤ Nat.ofDigitChars 10 digits n := by
  induction digits generalizing n with
  | nil => exact le_refl _
  | cons c digits ih =>
    rw [Nat.ofDigitChars_cons]
    exact le_trans (by omega) (ih _)

theorem beyond?_eq_none (hd : ∀ c ∈ digits, c.isDigit = true)
    (hr : ∀ c ∈ rest.head?, c.isDigit = false) (h : Nat.ofDigitChars 10 digits n ≤ limit) :
    beyond? limit n (digits ++ rest) = none := by
  induction digits generalizing n with
  | nil =>
    cases rest with
    | nil => rfl
    | cons c rest =>
      rw [List.nil_append, beyond?, hr c rfl]
      rfl
  | cons c digits ih =>
    rw [Nat.ofDigitChars_cons] at h
    have hn : ¬ limit < 10 * n + (c.toNat - 48) := not_lt.mpr ((le_ofDigitChars _ _).trans h)
    rw [List.cons_append, beyond?, hd c List.mem_cons_self, Bool.not_true,
      if_neg Bool.false_ne_true, if_neg hn]
    exact ih (fun d hd' => hd d (List.mem_cons_of_mem _ hd')) h

theorem readExponent_none (h : ∀ c ∈ rest.head?, c ≠ 'e' ∧ c ≠ 'E') :
    readExponent significand rest = .ok (0, rest) := by
  cases rest with
  | nil => rfl
  | cons c rest =>
    obtain ⟨he, hE⟩ := h c rfl
    simp [readExponent, he, hE]

theorem readExponent_exponentText {x : ℤ} (hx : x.natAbs ≤ maxExponent)
    (hr : ∀ c ∈ rest.head?, c.isDigit = false) :
    readExponent significand (Decimal.exponentText x ++ rest) = .ok (x, rest) := by
  have hdigits := readDigits_toDigits (n := x.natAbs) hr
  have hbeyond : beyond? maxExponent 0 (Nat.toDigits 10 x.natAbs ++ rest) = none := by
    refine beyond?_eq_none isDigit_of_mem_toDigits hr ?_
    rwa [Nat.ofDigitChars_ten_toDigits]
  rw [Decimal.exponentText]
  split
  · have hsign : readExponentSign ('-' :: (Nat.toDigits 10 x.natAbs ++ rest)) =
        (true, Nat.toDigits 10 x.natAbs ++ rest) := rfl
    have habs : -(x.natAbs : ℤ) = x := by omega
    rw [List.cons_append, List.cons_append, readExponent, if_pos (by decide), hsign]
    simp only [hdigits, bind, Except.bind, Nat.ofDigitChars_ten_toDigits, if_true, habs]
    rfl
  · have hsign : readExponentSign ('+' :: (Nat.toDigits 10 x.natAbs ++ rest)) =
        (false, Nat.toDigits 10 x.natAbs ++ rest) := rfl
    have habs : (x.natAbs : ℤ) = x := by omega
    rw [List.cons_append, List.cons_append, readExponent, if_pos (by decide), hsign]
    simp only [hdigits, bind, Except.bind, Nat.ofDigitChars_ten_toDigits, Bool.false_eq_true,
      if_false, hbeyond, habs]
    rfl

theorem appendDigits_eq (h : Nat.ofDigitChars 10 digits n < significandBound) :
    appendDigits n digits = (Nat.ofDigitChars 10 digits n, 0) := by
  induction digits generalizing n with
  | nil => rfl
  | cons c digits ih =>
    rw [Nat.ofDigitChars_cons] at h ⊢
    have hn : 10 * n + (c.toNat - 48) < significandBound := (le_ofDigitChars _ _).trans_lt h
    rw [appendDigits]
    exact (if_pos hn).trans (ih h)

/-- All digits of a short number count when it is compared with the range. -/
theorem leadingPart_eq (x : ℤ)
    (h : Nat.ofDigitChars 10 (digits ++ fraction) 0 < significandBound) :
    leadingPart digits fraction x =
      ⟨Nat.ofDigitChars 10 (digits ++ fraction) 0, x - fraction.length⟩ := by
  rw [Nat.ofDigitChars_append] at h ⊢
  have hdigits := (le_ofDigitChars _ fraction).trans_lt h
  rw [leadingPart, appendDigits_eq hdigits]
  simp [appendDigits_eq h]

theorem readSign_sign (negative : Bool) (n : ℕ) (text : List Char) :
    readSign (Binary64.sign negative ++ (Nat.toDigits 10 n ++ text)) =
      (negative, Nat.toDigits 10 n ++ text) := by
  obtain ⟨first, others, h, hdigit⟩ := exists_toDigits_cons n
  rw [h, List.cons_append]
  cases negative with
  | true => rfl
  | false =>
    rw [Binary64.sign, if_neg Bool.false_ne_true, List.nil_append, readSign]
    intro rest heq
    cases heq
    cases hdigit

theorem readFraction_places (n places : ℕ) (hd : ∀ c ∈ rest.head?, c.isDigit = false)
    (hp : ∀ c ∈ rest.head?, c ≠ '.') :
    readFraction ((if places = 0 then [] else '.' :: Decimal.lastDigits n places) ++ rest) =
      .ok (Decimal.lastDigits n places, rest) := by
  split
  · rename_i h
    subst h
    exact readFraction_none hp
  · rename_i h
    have hlen := Decimal.length_lastDigits n places
    refine readDigits_run ?_ (fun c hc => ?_) hd
    · intro hnil
      rw [hnil] at hlen
      exact h hlen.symm
    · exact Decimal.isDigit_of_mem_parts (List.mem_append_right _ hc)

/-- Digits around a point are read as the number they were written for, with the exponent that
stands behind them. -/
theorem readNumber_pointed (negative : Bool) {d : Decimal} {places : ℕ} {x : ℤ}
    (hd : ∀ c ∈ text.head?, c.isDigit = false) (hp : ∀ c ∈ text.head?, c ≠ '.')
    (hx : readExponent d.significand text = .ok (x, rest)) (he : x - places = d.exponent)
    (hn : d.significand < significandBound) (hlarge : isTooLarge d = false) :
    readNumber (Binary64.sign negative ++ (Decimal.pointed d.significand places ++ text)) =
      .ok (.number negative d, rest) := by
  have hparts := Decimal.ofDigitChars_parts d.significand places
  have hlen := Decimal.length_lastDigits d.significand places
  have hleading := leadingPart_eq x (hparts.trans_lt hn)
  rw [hparts, hlen, he] at hleading
  have hpoint : ∀ c ∈ ((if places = 0 then [] else '.' :: Decimal.lastDigits d.significand places) ++
      text).head?, c.isDigit = false := by
    intro c hc
    split at hc
    · exact hd c hc
    · cases hc
      rfl
  rw [Decimal.pointed_eq, List.append_assoc]
  simp only [readNumber, readSign_sign, readWhole_toDigits hpoint,
    readFraction_places d.significand places hd hp, bind, Except.bind, hparts, hx, hleading, hlarge,
    hlen, he]
  rfl

theorem Follows.stops (h : Follows rest) : ∀ c ∈ rest.head?,
    c.isDigit = false ∧ c ≠ '.' ∧ c ≠ 'e' ∧ c ≠ 'E' := by
  intro c hc
  rcases h c hc with rfl | rfl | rfl <;> decide

/-- What is written for a number reads as a number of the same value. -/
theorem readNumber_numeral (negative : Bool) {d : Decimal} (hn : d.significand < significandBound)
    (hx : d.leading.natAbs ≤ maxExponent) (hlarge : isTooLarge d = false) (hf : Follows rest) :
    readNumber (numeral negative d ++ rest) = .ok (.number negative d.asRead, rest) := by
  have hd : ∀ c ∈ rest.head?, c.isDigit = false := fun c hc => (hf.stops c hc).1
  have hp : ∀ c ∈ rest.head?, c ≠ '.' := fun c hc => (hf.stops c hc).2.1
  have he : ∀ n, readExponent n rest = .ok (0, rest) :=
    fun _ => readExponent_none fun c hc => (hf.stops c hc).2.2
  rw [numeral, List.append_assoc, Layout.write, Decimal.asRead]
  rcases Bool.eq_false_or_eq_true (Layout.json.isPositional d.leading) with hpos | hpos
  · rw [if_pos hpos, Decimal.positional]
    rcases lt_or_ge d.exponent 0 with hexp | hexp
    · rw [if_neg (not_le.mpr hexp), if_neg (not_le.mpr hexp), if_neg (fun h => not_le.mpr hexp h.2),
        List.append_nil]
      exact readNumber_pointed negative hd hp (he _) (by omega) hn hlarge
    · have hlt := Decimal.positional_lt hexp hpos
      rw [if_pos hexp, if_pos hexp, if_pos ⟨hpos, hexp⟩, Decimal.pointed_append_zero]
      generalize d.significand * 10 ^ d.exponent.toNat = n at hlt ⊢
      have hshort : n * 10 < significandBound := by
        rw [significandBound]
        omega
      exact readNumber_pointed (d := ⟨n * 10, -1⟩) negative hd hp (he _) rfl hshort
        (isTooLarge_of_neg (Int.negSucc_lt_zero 0))
  · rw [hpos, if_neg Bool.false_ne_true, if_neg (fun h => Bool.false_ne_true h.1),
      Decimal.scientific_eq, List.append_assoc]
    refine readNumber_pointed negative ?_ ?_ (readExponent_exponentText hx hd) ?_ hn hlarge
    · intro c hc
      cases hc
      rfl
    · intro c hc
      cases hc
      decide
    · have hpos := Decimal.digitCount_pos d.significand
      rw [Decimal.leading]
      omega

/-- The first character of a number. -/
def IsNumberStart (c : Char) : Prop := c = '-' ∨ c.isDigit = true

/-- No other kind of value starts like a number, and neither does what stands between values. -/
theorem IsNumberStart.distinct {c : Char} (h : IsNumberStart c) :
    (c ≠ '"' ∧ c ≠ 'n' ∧ c ≠ 't' ∧ c ≠ 'f') ∧ (c ≠ '[' ∧ c ≠ '{' ∧ c ≠ ']') ∧
      isSpace c = false := by
  rcases h with rfl | h
  · decide
  · refine ⟨⟨?_, ?_, ?_, ?_⟩, ⟨?_, ?_, ?_⟩, ?_⟩
    iterate 7
      rintro rfl
      cases h
    simp only [isSpace, Bool.or_eq_false_iff, beq_eq_false_iff_ne]
    refine ⟨⟨⟨?_, ?_⟩, ?_⟩, ?_⟩
    all_goals
      rintro rfl
      cases h

theorem exists_write_eq (d : Decimal) : ∃ n places tail,
    Layout.json.write d = Decimal.pointed n places ++ tail := by
  rw [Layout.write]
  split
  · rw [Decimal.positional]
    split
    · exact ⟨_, _, _, rfl⟩
    · exact ⟨_, _, _, rfl⟩
  · exact ⟨_, _, _, Decimal.scientific_eq d⟩

theorem exists_numeral_cons (negative : Bool) (d : Decimal) : ∃ c text,
    numeral negative d = c :: text ∧ IsNumberStart c := by
  obtain ⟨n, places, tail, hw⟩ := exists_write_eq d
  obtain ⟨first, others, hfirst, hdigit⟩ := exists_toDigits_cons (n / 10 ^ places)
  rw [numeral, hw, Decimal.pointed_eq, hfirst]
  cases negative with
  | true => exact ⟨'-', _, rfl, .inl rfl⟩
  | false => exact ⟨first, _, rfl, .inr hdigit⟩

theorem readScalar_number {c : Char} (h : IsNumberStart c) (text : List Char) :
    readScalar (c :: text) = readNumber (c :: text) := by
  have hstart : (decide (c = '-') || c.isDigit) = true := by
    simpa [IsNumberStart] using h
  obtain ⟨hquote, hn, ht, hf⟩ := h.distinct.1
  rw [readScalar, if_neg hquote, if_neg hn, if_neg ht, if_neg hf, if_pos hstart]

variable {units : ℕ}

theorem readNumber_shortest (negative : Bool) (h : Representable units) (hf : Follows rest) :
    readNumber (numeral negative (.shortest .even units) ++ rest) =
      .ok (.number negative (Decimal.shortest .even units).asRead, rest) := by
  have hsig := Decimal.significand_shortest_le .even h
  have hextent := Decimal.extent_shortest_le .even h
  have hpos := Decimal.digitCount_pos (Decimal.shortest .even units).significand
  refine readNumber_numeral negative ?_ ?_ (isTooLarge_shortest h) hf
  · rw [significandBound]
    omega
  · rw [Decimal.extent] at hextent
    rw [Decimal.leading, maxExponent]
    omega

theorem readsAs_number (negative : Bool) (h : Representable units) :
    ReadsAs 0 (.number negative (.shortest .even units))
      (.number negative (Decimal.shortest .even units).asRead) := by
  obtain ⟨c, text, hw, hc⟩ := exists_numeral_cons negative (.shortest .even units)
  obtain ⟨hlist, hobject, hend⟩ := hc.distinct.2.1
  have hspace := hc.distinct.2.2
  constructor
  · exact ⟨c, text, hw, hspace, hend⟩
  · intro stack rest _ hf
    have hread := readNumber_shortest negative h hf
    rw [write, hw, List.cons_append]
    rw [hw, List.cons_append, ← readScalar_number hc] at hread
    exact readValue_scalar hspace hlist hobject hread

theorem readsAs_null : ReadsAs 0 .null .null := by
  constructor
  · exact ⟨_, _, rfl, rfl, by decide⟩
  · intro stack rest _ _
    exact readValue_scalar rfl (by decide) (by decide) rfl

end Json

end Calculator
