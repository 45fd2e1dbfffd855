import Calculator.Proofs.ShownOrder

namespace Calculator

/-- The parts of a number in fixed notation: no zero stands first but a single one before the point,
none stands last behind it, and a zero has no sign. -/
structure CanonicalParts (places : ℕ) (negative : Bool) (whole fraction : List Char) : Prop where
  digits : ∀ c ∈ whole ++ fraction, c.isDigit = true
  whole_ne_nil : whole ≠ []
  leading : whole.head? = some '0' → whole = ['0']
  length_le : fraction.length ≤ places
  trailing : fraction.getLast? ≠ some '0'
  sign : negative = true → whole = ['0'] → fraction ≠ []

/-- A sign, digits, and at most so many digits behind a point. -/
def IsCanonical (places : ℕ) (text : List Char) : Prop :=
  ∃ negative whole fraction, CanonicalParts places negative whole fraction ∧
    text = Binary64.sign negative ++ whole ++ if fraction = [] then [] else '.' :: fraction

variable {places n : ℕ} {negative : Bool} {whole fraction digits : List Char} {c : Char}

theorem digitChar_of_isDigit (h : c.isDigit = true) :
    c.toNat - '0'.toNat < 10 ∧ (c.toNat - '0'.toNat).digitChar = c := by
  have hb : 48 ≤ c.toNat ∧ c.toNat ≤ 57 := by
    simpa [Char.isDigit, UInt32.le_iff_toNat_le] using h
  have hz : '0'.toNat = 48 := rfl
  refine ⟨by omega, ?_⟩
  apply Char.toNat_inj.mp
  rw [Nat.toNat_digitChar_of_lt_ten (by omega)]
  omega

/-- Digits behind a number are taken off it again. -/
theorem ofDigitChars_split (init : ℕ) (h : ∀ c ∈ digits, c.isDigit = true) :
    Nat.ofDigitChars 10 digits init / 10 ^ digits.length = init ∧
    Decimal.lastDigits (Nat.ofDigitChars 10 digits init) digits.length = digits := by
  induction digits using List.reverseRecOn with
  | nil => simp [Decimal.lastDigits]
  | append_singleton digits c ih =>
    obtain ⟨hlt, hc⟩ := digitChar_of_isDigit (h c (by simp))
    obtain ⟨hdiv, hlast⟩ := ih fun d hd => h d (List.mem_append_left _ hd)
    have hn : Nat.ofDigitChars 10 (digits ++ [c]) init =
        10 * Nat.ofDigitChars 10 digits init + (c.toNat - '0'.toNat) := by
      rw [Nat.ofDigitChars_append, Nat.ofDigitChars_cons, Nat.ofDigitChars_nil]
    have hnext : Nat.ofDigitChars 10 (digits ++ [c]) init / 10 =
        Nat.ofDigitChars 10 digits init := by
      omega
    have hmod : Nat.ofDigitChars 10 (digits ++ [c]) init % 10 = c.toNat - '0'.toNat := by
      omega
    rw [List.length_append, List.length_singleton]
    constructor
    · rw [pow_succ', ← Nat.div_div_eq_div_mul, hnext, hdiv]
    · rw [Decimal.lastDigits, hnext, hmod, hlast, hc]

theorem toDigits_append_digits (hn : 0 < n) (h : ∀ c ∈ digits, c.isDigit = true) :
    Nat.toDigits 10 n ++ digits = Nat.toDigits 10 (Nat.ofDigitChars 10 digits n) := by
  induction digits generalizing n with
  | nil => rw [List.append_nil, Nat.ofDigitChars_nil]
  | cons c digits ih =>
    obtain ⟨hlt, hc⟩ := digitChar_of_isDigit (h c List.mem_cons_self)
    have hnext := ih (n := 10 * n + (c.toNat - '0'.toNat)) (by omega)
      fun d hd => h d (List.mem_cons_of_mem _ hd)
    rw [Nat.ofDigitChars_cons, ← hnext, ← Nat.toDigits_append_toDigits (by decide) hn hlt,
      Nat.toDigits_of_lt_base hlt, hc, List.append_assoc]
    rfl

/-- The number that the digits before and behind the point make up. -/
def Scaled.ofParts (whole fraction : List Char) : Scaled :=
  ⟨Nat.ofDigitChars 10 (whole ++ fraction) 0, fraction.length⟩

namespace CanonicalParts

variable (h : CanonicalParts places negative whole fraction)
include h

/-- The digits before the point are those of the number that they are read as. -/
theorem toDigits_whole : Nat.toDigits 10 (Nat.ofDigitChars 10 whole 0) = whole := by
  have hdigits := fun c hc => h.digits c (List.mem_append_left fraction hc)
  obtain ⟨c, digits, rfl⟩ := List.exists_cons_of_ne_nil h.whole_ne_nil
  obtain ⟨hlt, hc⟩ := digitChar_of_isDigit (hdigits c List.mem_cons_self)
  rw [Nat.ofDigitChars_cons, Nat.mul_zero, Nat.zero_add]
  rcases Nat.eq_zero_or_pos (c.toNat - '0'.toNat) with hz | hpos
  · rw [hz] at hc
    have hnil := h.leading (by rw [← hc]; rfl)
    cases hnil
    rfl
  · rw [← toDigits_append_digits hpos fun d hd => hdigits d (List.mem_cons_of_mem _ hd),
      Nat.toDigits_of_lt_base hlt, hc]
    rfl

theorem text_ofParts : (Scaled.ofParts whole fraction).text =
    whole ++ if fraction = [] then [] else '.' :: fraction := by
  obtain ⟨hdiv, hlast⟩ := ofDigitChars_split (Nat.ofDigitChars 10 whole 0)
    fun c hc => h.digits c (List.mem_append_right whole hc)
  rw [Scaled.ofParts, Scaled.text, Decimal.pointed_eq, Nat.ofDigitChars_append, hdiv, hlast,
    h.toDigits_whole]
  simp only [List.length_eq_zero_iff]

theorem isTrimmed_ofParts : (Scaled.ofParts whole fraction).IsTrimmed := by
  unfold Scaled.ofParts
  rcases List.eq_nil_or_concat fraction with rfl | ⟨digits, c, rfl⟩
  · exact .inl rfl
  · right
    obtain ⟨hlt, hc⟩ := digitChar_of_isDigit (h.digits c (by simp))
    have hvalue : c.toNat - '0'.toNat ≠ 0 := by
      intro hz
      rw [hz] at hc
      subst hc
      exact h.trailing (by simp)
    simp only [List.concat_eq_append, ← List.append_assoc, Nat.ofDigitChars_append,
      Nat.ofDigitChars_cons, Nat.ofDigitChars_nil]
    omega

/-- What has a sign is not zero. -/
theorem toRat_ofParts_pos (hnegative : negative = true) :
    0 < (Scaled.ofParts whole fraction).toRat := by
  apply lt_of_le_of_ne (Scaled.toRat_nonneg _)
  intro hz
  have hc : Nat.ofDigitChars 10 (whole ++ fraction) 0 = 0 :=
    (Scaled.toRat_eq_zero_iff _).mp hz.symm
  have hplaces : fraction.length = 0 :=
    h.isTrimmed_ofParts.resolve_right (by simp [Scaled.ofParts, hc])
  have hnil : fraction = [] := List.eq_nil_of_length_eq_zero hplaces
  subst hnil
  have hwhole := h.toDigits_whole
  rw [List.append_nil] at hc
  rw [hc] at hwhole
  exact h.sign hnegative hwhole.symm rfl

theorem denoted_eq :
    denoted (Binary64.sign negative ++ whole ++ if fraction = [] then [] else '.' :: fraction) =
      if negative then -(Scaled.ofParts whole fraction).toRat
      else (Scaled.ofParts whole fraction).toRat := by
  rw [List.append_assoc, ← h.text_ofParts, Scaled.text, denoted_sign_pointed]
  rfl

end CanonicalParts

/-- There is one canonical text for each number. -/
theorem IsCanonical.unique {places' : ℕ} {t u : List Char} (ht : IsCanonical places t)
    (hu : IsCanonical places' u) (h : denoted t = denoted u) : t = u := by
  obtain ⟨s, whole, fraction, hp, rfl⟩ := ht
  obtain ⟨s', whole', fraction', hp', rfl⟩ := hu
  have h0 := (Scaled.ofParts whole fraction).toRat_nonneg
  have h0' := (Scaled.ofParts whole' fraction').toRat_nonneg
  have hpos := hp.toRat_ofParts_pos
  have hpos' := hp'.toRat_ofParts_pos
  rw [hp.denoted_eq, hp'.denoted_eq] at h
  rw [List.append_assoc, List.append_assoc, ← hp.text_ofParts, ← hp'.text_ofParts]
  cases s with
  | false =>
    cases s' with
    | false =>
      simp only [Bool.false_eq_true, if_false] at h
      rw [hp.isTrimmed_ofParts.unique hp'.isTrimmed_ofParts h]
    | true =>
      simp only [Bool.false_eq_true, if_false, if_true] at h
      linarith [hpos' rfl]
  | true =>
    cases s' with
    | false =>
      simp only [Bool.false_eq_true, if_false, if_true] at h
      linarith [hpos rfl]
    | true =>
      simp only [if_true, neg_inj] at h
      rw [hp.isTrimmed_ofParts.unique hp'.isTrimmed_ofParts h]

namespace Scaled

variable {s : Scaled}

theorem places_round_le (d : ℕ) (s : Scaled) : (s.round d).places ≤ d := by
  unfold round
  split
  · exact le_refl _
  · rename_i h
    exact Nat.le_of_not_lt h

/-- A number without trailing zeros has a canonical text, with a sign if it is not zero. -/
theorem IsTrimmed.canonicalParts (ht : s.IsTrimmed) (hp : s.places ≤ places) (negative : Bool) :
    CanonicalParts places (negative && s.coefficient != 0)
      (Nat.toDigits 10 (s.coefficient / 10 ^ s.places))
      (Decimal.lastDigits s.coefficient s.places) := by
  refine ⟨fun c hc => Decimal.isDigit_of_mem_parts hc, Nat.toDigits_ne_nil, ?_, ?_, ?_, ?_⟩
  · intro hzero
    rcases Nat.lt_or_ge (s.coefficient / 10 ^ s.places) 10 with hlt | hge
    · rw [Nat.toDigits_of_lt_base hlt] at hzero ⊢
      rw [Option.some.inj hzero]
    · exact absurd hzero (Decimal.head?_toDigits_ne_zero hge)
  · rw [Decimal.length_lastDigits]
    exact hp
  · cases hs : s.places with
    | zero => simp [Decimal.lastDigits]
    | succ p =>
      have hlast : s.coefficient % 10 ≠ 0 := ht.resolve_left (by omega)
      simpa [Decimal.lastDigits] using hlast
  · intro hsign hwhole hnil
    have hplaces : s.places = 0 := by
      rw [← Decimal.length_lastDigits s.coefficient s.places, hnil]
      rfl
    rw [hplaces, pow_zero, Nat.div_one] at hwhole
    have hzero := @Nat.ofDigitChars_ten_toDigits s.coefficient
    rw [hwhole] at hzero
    have hc : s.coefficient = 0 := hzero.symm
    simp [hc] at hsign

end Scaled

namespace Binary64

/-- What is shown of a number, whatever its sign. -/
theorem exists_fixed_eq (decimals : ℕ) {units : ℕ} (fits : Representable units) :
    ∃ s : Scaled, s.IsTrimmed ∧ s.places ≤ min decimals 28 ∧ s.toRat = shown decimals units ∧
      ∀ negative, fixed decimals (.finite negative units fits) =
        sign (negative && s.coefficient != 0) ++ s.text := by
  refine ⟨((Scaled.ofUnits units).round (min decimals 28)).trim, (Scaled.trimFrom_spec _ _).1,
    (Scaled.places_trim_le _).trans (Scaled.places_round_le _ _), ?_,
    fun negative => fixed_finite negative decimals fits⟩
  rw [Scaled.toRat_trim, Scaled.toRat_round, shown]

theorem isCanonical_fixed (negative : Bool) (decimals : ℕ) {units : ℕ}
    (fits : Representable units) :
    IsCanonical (min decimals 28) (fixed decimals (.finite negative units fits)) := by
  obtain ⟨s, ht, hp, _, hs⟩ := exists_fixed_eq decimals fits
  refine ⟨_, _, _, ht.canonicalParts hp negative, ?_⟩
  rw [hs, Scaled.text, Decimal.pointed_eq, List.append_assoc]
  simp only [← List.length_eq_zero_iff, Decimal.length_lastDigits]

end Binary64

/-- The text of the number of the other sign. -/
def changeSign : List Char → List Char
  | ['0'] => ['0']
  | '-' :: digits => digits
  | digits => '-' :: digits

namespace Scaled

variable {s : Scaled}

theorem IsTrimmed.changeSign_text (ht : s.IsTrimmed) (negative : Bool) :
    changeSign (Binary64.sign (negative && s.coefficient != 0) ++ s.text) =
      Binary64.sign (!negative && s.coefficient != 0) ++ s.text := by
  by_cases hc : s.coefficient = 0
  · rw [ht.eq_zero hc]
    cases negative <;> rfl
  · have hne : (s.coefficient != 0) = true := bne_iff_ne.mpr hc
    cases negative with
    | true => simp [hne, Binary64.sign, changeSign]
    | false =>
      have hhead := s.head?_text_ne
      have hzero := text_ne_zero hc
      simp only [hne, Binary64.sign, Bool.and_true, Bool.false_eq_true, if_false, List.nil_append,
        Bool.not_false, if_true, List.cons_append]
      unfold changeSign
      split
      · rename_i h
        exact absurd h hzero
      · rename_i h
        rw [h] at hhead
        exact absurd rfl hhead
      · rfl

end Scaled

theorem Binary64.neg_of_head? {negative : Bool} {decimals units : ℕ} {fits : Representable units}
    (h : (fixed decimals (.finite negative units fits)).head? = some '-') :
    toRat (.finite negative units fits) < 0 := by
  obtain ⟨s, _, _, hv, hs⟩ := exists_fixed_eq decimals fits
  rw [hs] at h
  by_cases hsign : (negative && s.coefficient != 0) = true
  · obtain ⟨rfl, hc⟩ := Bool.and_eq_true_iff.mp hsign
    have hunits : units ≠ 0 := by
      rintro rfl
      rw [shown_zero] at hv
      exact bne_iff_ne.mp hc ((Scaled.toRat_eq_zero_iff s).mp hv)
    rw [toRat_finite, if_pos rfl]
    have hpos := exact_nonneg units
    have hne : (units : ℚ) / unitsPerOne ≠ 0 := fun h0 => hunits (exact_le_zero_iff.mp h0.le)
    linarith [lt_of_le_of_ne hpos hne.symm]
  · rw [Bool.not_eq_true] at hsign
    rw [hsign] at h
    exact absurd h s.head?_text_ne

/-- A result is a canonical text with a sign only for a negative number. The text tells what is
shown, and the other sign changes nothing but the sign. -/
theorem fixed_is_canonical {x y : Binary64} (hx : x.isFinite = true) (hy : y.isFinite = true)
    (d e : ℕ) :
    IsCanonical (min d 28) (x.fixed d) ∧
    ((x.fixed d).head? = some '-' → x.toRat < 0) ∧
    (denoted (x.fixed d) = denoted (y.fixed e) → x.fixed d = y.fixed e) ∧
    (-x).fixed d = changeSign (x.fixed d) := by
  obtain ⟨negative, units, fits, rfl⟩ := Binary64.exists_of_isFinite hx
  obtain ⟨negative', units', fits', rfl⟩ := Binary64.exists_of_isFinite hy
  have hcanonical := Binary64.isCanonical_fixed negative d fits
  refine ⟨hcanonical, Binary64.neg_of_head?,
    hcanonical.unique (Binary64.isCanonical_fixed negative' e fits'), ?_⟩
  obtain ⟨s, ht, _, _, hs⟩ := Binary64.exists_fixed_eq d fits
  rw [hs, ht.changeSign_text]
  exact hs _

/-- A negative number that six places show nothing of, and the smallest positive number to all
places that there are. -/
theorem fixed_is_canonical_near_zero :
    let x := Binary64.ofBits 0xbe7ad7f29abcaf48
    let y := Binary64.ofBits 0x0000000000000001
    x.isFinite = true ∧ y.isFinite = true ∧ x.fixed 6 = ['0'] ∧
    IsCanonical 6 (x.fixed 6) ∧ ((x.fixed 6).head? = some '-' → x.toRat < 0) ∧
    (denoted (x.fixed 6) = denoted (y.fixed 28) → x.fixed 6 = y.fixed 28) ∧
    (-x).fixed 6 = changeSign (x.fixed 6) := by
  intro x y
  have hx : x.isFinite = true := by decide +kernel
  have hy : y.isFinite = true := by decide +kernel
  exact ⟨hx, hy, by decide +kernel, fixed_is_canonical hx hy 6 28⟩

/-- Results are canonical texts in the order of the numbers, however large these are and to whatever
number of places. -/
theorem fixed_keeps_order {x y : Binary64} (hx : x.isFinite = true) (hy : y.isFinite = true)
    (h : x.toRat ≤ y.toRat) (decimals : ℕ) :
    IsCanonical (min decimals 28) (x.fixed decimals) ∧
    IsCanonical (min decimals 28) (y.fixed decimals) ∧
    denoted (x.fixed decimals) ≤ denoted (y.fixed decimals) := by
  have hle := Binary64.denoted_fixed_mono hx hy h decimals
  obtain ⟨s, u, hu, rfl⟩ := Binary64.exists_of_isFinite hx
  obtain ⟨t, v, hv, rfl⟩ := Binary64.exists_of_isFinite hy
  exact ⟨Binary64.isCanonical_fixed s decimals hu, Binary64.isCanonical_fixed t decimals hv, hle⟩

/-- The largest number below 2^96, which is converted, and 2^96 itself, which is out of bounds. -/
theorem fixed_keeps_order_at_bound :
    let x := Binary64.ofBits 0x45efffffffffffff
    let y := Binary64.ofBits 0x45f0000000000000
    x.isFinite = true ∧ y.isFinite = true ∧ x.toRat ≤ y.toRat ∧
    x.fixed 28 = "79228162514264328797450928128".toList ∧
    y.fixed 28 = "79228162514264337593543950336".toList ∧
    IsCanonical 28 (x.fixed 28) ∧ IsCanonical 28 (y.fixed 28) ∧
    denoted (x.fixed 28) ≤ denoted (y.fixed 28) := by
  intro x y
  have hx : x.isFinite = true := by decide +kernel
  have hy : y.isFinite = true := by decide +kernel
  have h : x.toRat ≤ y.toRat := by decide +kernel
  exact ⟨hx, hy, h, by decide +kernel, by decide +kernel, fixed_keeps_order hx hy h 28⟩

end Calculator
