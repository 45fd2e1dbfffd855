import Calculator.Proofs.CorrectRounding
import Calculator.Proofs.NumeralPattern
import Calculator.Proofs.Scanning
import Calculator.Proofs.ShownOrder

namespace Calculator

namespace Binary64

/-- The order of numbers, with the infinities at its ends. What is not a number has no place in it,
and the zeros are equal. -/
inductive AtMost : Binary64 → Binary64 → Prop
  | finite {s t : Bool} {u v : ℕ} (hu : Representable u) (hv : Representable v)
      (h : signed s u ≤ signed t v) : AtMost (.finite s u hu) (.finite t v hv)
  | fromBelow {x : Binary64} (h : x ≠ .nan) : AtMost (.infinite true) x
  | toAbove {x : Binary64} (h : x ≠ .nan) : AtMost x (.infinite false)

instance : LE Binary64 := ⟨AtMost⟩

variable {n n' d d' : ℕ}

theorem ofRatio_eq_infinite (h : ¬ nearestUnits n d < unitsBound) :
    ofRatio false n d = .infinite false :=
  dif_neg h

/-- A larger quotient is rounded to a number that is not smaller, or to infinity. -/
theorem ofRatio_le_ofRatio (hd : 0 < d) (hd' : 0 < d') (h : n * d' ≤ n' * d) :
    ofRatio false n d ≤ ofRatio false n' d' := by
  have hunits : nearestUnits n d ≤ nearestUnits n' d' := by
    rw [← nearestUnits_mul n d hd', ← nearestUnits_mul n' d' hd, mul_comm d' d]
    exact nearestUnits_mono (Nat.mul_pos hd hd') h
  rcases Nat.lt_or_ge (nearestUnits n' d') unitsBound with hsmall | hlarge
  · rw [ofRatio, ofRatio, dif_pos hsmall, dif_pos (hunits.trans_lt hsmall)]
    exact .finite _ _ (Int.ofNat_le.mpr hunits)
  · rw [ofRatio_eq_infinite (Nat.not_lt_of_ge hlarge)]
    exact .toAbove (isRounded_ofRatio false n hd).ne_nan

/-- A quotient without a sign is rounded to a number whose sign bit is clear. -/
theorem toNat_toBits_ofRatio_lt (n d : ℕ) : (ofRatio false n d).toBits.toNat < 2 ^ 63 := by
  rw [ofRatio]
  split
  · rename_i h
    obtain ⟨hlt, hbits⟩ := toNat_toBits false ⟨h, nearestUnits_fits n d⟩
    rw [hbits, signBit, if_neg Bool.false_ne_true, Nat.zero_add]
    exact hlt
  · decide

end Binary64

namespace Numeral

variable {run other whole fraction : List Char}

/-- Digits in their places. The first one counts this much, and each other one a tenth of the one
before it. -/
def weighed : ℚ → List Char → ℚ
  | _, [] => 0
  | weight, c :: cs => weight * (c.toNat - '0'.toNat : ℕ) + weighed (weight / 10) cs

/-- The number that a numeral denotes. The last digit before the point counts one, and the first one
behind it a tenth. -/
def rational (run : List Char) : ℚ :=
  let whole := run.takeWhile (· != '.')
  let fraction := (run.dropWhile (· != '.')).tail
  weighed (10 ^ whole.length / 10) whole + weighed (1 / 10) fraction

/-- Digits in a row behind a number, in units of the last one. -/
theorem weighed_eq (digits : List Char) (n : ℕ) (unit : ℚ) :
    (n : ℚ) * 10 ^ digits.length * unit + weighed (unit * 10 ^ digits.length / 10) digits =
      Nat.ofDigitChars 10 digits n * unit := by
  induction digits generalizing n with
  | nil => simp [weighed]
  | cons c cs ih =>
    have hfirst : unit * 10 ^ (cs.length + 1) / 10 = unit * 10 ^ cs.length := by ring
    rw [Nat.ofDigitChars_cons, ← ih, List.length_cons, hfirst, weighed]
    push_cast
    ring

theorem weighed_whole (digits : List Char) :
    weighed (10 ^ digits.length / 10) digits = Nat.ofDigitChars 10 digits 0 := by
  have h := weighed_eq digits 0 1
  rwa [Nat.cast_zero, zero_mul, zero_mul, zero_add, one_mul, mul_one] at h

theorem weighed_fraction (digits : List Char) (n : ℕ) : n + weighed (1 / 10) digits =
    Nat.ofDigitChars 10 digits n / 10 ^ digits.length := by
  have hten : (10 : ℚ) ^ digits.length ≠ 0 := by positivity
  have h := weighed_eq digits n (1 / 10 ^ digits.length)
  rwa [mul_assoc, mul_one_div_cancel hten, one_div_mul_cancel hten, mul_one, mul_one_div] at h

theorem rational_whole (hw : ∀ c ∈ whole, c.isDigit = true) : rational whole = exact whole := by
  have hpoint := point_not_mem hw
  have hstop := point_stops hpoint
  rw [rational, exact, digits_whole hw, places_whole hpoint, List.takeWhile_eq_self_iff.mpr hstop,
    List.dropWhile_eq_nil_iff.mpr hstop]
  simp only [List.tail_nil, weighed, weighed_whole, add_zero, pow_zero, div_one]

theorem rational_point (hw : ∀ c ∈ whole, c.isDigit = true)
    (hf : ∀ c ∈ fraction, c.isDigit = true) :
    rational (whole ++ '.' :: fraction) = exact (whole ++ '.' :: fraction) := by
  have hpoint := point_not_mem hw
  have hbehind : ∀ c ∈ ('.' :: fraction).head?, (c != '.') = false := by simp
  rw [rational, exact, digits_point hw hf, places_point hpoint,
    takeWhile_run (point_stops hpoint) hbehind, dropWhile_run (point_stops hpoint) hbehind]
  simp only [List.tail_cons, weighed_whole, weighed_fraction, Nat.ofDigitChars_append]

/-- The places of the digits make up the number that is read without the point. -/
theorem rational_eq_exact (h : run ∈ pattern.matches') : rational run = exact run := by
  rcases mem_pattern.mp h with ⟨whole, _, hw, rfl | ⟨fraction, hf, rfl⟩⟩ | ⟨fraction, _, hf, rfl⟩
  · exact rational_whole hw
  · exact rational_point hw hf
  · exact rational_point (List.forall_mem_nil _) hf

theorem isDigit_of_mem_zeros {k : ℕ} {c : Char} (hc : c ∈ List.replicate k '0') :
    c.isDigit = true := by
  rw [List.eq_of_mem_replicate hc]
  rfl

/-- Zeros before a numeral are not seen. -/
theorem exact_zeros_append (k : ℕ) (run : List Char) :
    exact (List.replicate k '0' ++ run) = exact run := by
  have hdigits : digits (List.replicate k '0' ++ run) = digits run := by
    rw [digits, List.filter_append, List.filter_replicate_of_pos rfl, Nat.ofDigitChars_append,
      Nat.ofDigitChars_replicate_zero, Nat.mul_zero]
    rfl
  have hplaces : places (List.replicate k '0' ++ run) = places run := by
    have hpoint : '.' ∉ List.replicate k '0' := point_not_mem fun _ hc => isDigit_of_mem_zeros hc
    rw [places, List.dropWhile_append_of_pos (point_stops hpoint)]
    rfl
  rw [exact, exact, hdigits, hplaces]

/-- Zeros behind a point are not seen. -/
theorem exact_append_zeros (h : '.' ∈ run) (k : ℕ) :
    exact (run ++ List.replicate k '0') = exact run := by
  have hdigits : digits (run ++ List.replicate k '0') = 10 ^ k * digits run := by
    rw [digits, List.filter_append, List.filter_replicate_of_pos rfl, Nat.ofDigitChars_append,
      Nat.ofDigitChars_replicate_zero]
    rfl
  have hplaces : places (run ++ List.replicate k '0') = places run + k := by
    obtain ⟨whole, fraction, rfl, hw⟩ := List.eq_append_cons_of_mem h
    rw [List.append_assoc, List.cons_append, places_point hw, places_point hw, List.length_append,
      List.length_replicate]
  have hten : (10 : ℚ) ^ k ≠ 0 := by positivity
  rw [exact, exact, hdigits, hplaces, pow_add, mul_comm (10 ^ k)]
  push_cast
  exact mul_div_mul_right _ _ hten

/-- A point behind all digits is not seen. -/
theorem exact_append_point (h : '.' ∉ run) : exact (run ++ ['.']) = exact run := by
  have hdigits : digits (run ++ ['.']) = digits run := by
    rw [digits, List.filter_append, List.filter_cons_of_neg (by decide), List.filter_nil,
      List.append_nil]
    rfl
  rw [exact, exact, hdigits, places_point h, places_whole h, List.length_nil]

theorem value_eq_ofRatio (run : List Char) :
    value run = .ofRatio false (digits run * unitsPerOne) (10 ^ places run) := by
  rw [value, Binary64.ofDecimal]

/-- The digits are rounded once, from the exact number. -/
theorem isRounded_value (run : List Char) : (value run).IsRounded (exact run) := by
  have hU : (unitsPerOne : ℚ) ≠ 0 := Nat.cast_ne_zero.mpr unitsPerOne_pos.ne'
  have hten : 0 < 10 ^ places run := Nat.pow_pos (by decide)
  have hround := Binary64.isRounded_ofRatio false (digits run * unitsPerOne) hten
  rw [Binary64.withSign, if_neg Bool.false_ne_true, Nat.cast_mul, div_right_comm,
    mul_div_cancel_right₀ _ hU, Nat.cast_pow, Nat.cast_ofNat, ← exact] at hround
  rwa [value_eq_ofRatio]

theorem toNat_toBits_value_lt (run : List Char) : (value run).toBits.toNat < 2 ^ 63 := by
  rw [value_eq_ofRatio]
  exact Binary64.toNat_toBits_ofRatio_lt _ _

theorem exact_le_iff : exact run ≤ exact other ↔
    digits run * 10 ^ places other ≤ digits other * 10 ^ places run := by
  rw [exact, exact, div_le_div_iff₀ (by positivity) (by positivity)]
  exact_mod_cast Iff.rfl

theorem value_le_value (h : exact run ≤ exact other) : value run ≤ value other := by
  rw [exact_le_iff] at h
  rw [value_eq_ofRatio, value_eq_ofRatio]
  apply Binary64.ofRatio_le_ofRatio (Nat.pow_pos (by decide)) (Nat.pow_pos (by decide))
  rw [mul_right_comm, mul_right_comm (digits other)]
  exact Nat.mul_le_mul_right unitsPerOne h

/-- The exact number is all that is seen of the digits. -/
theorem value_congr (h : exact run = exact other) : value run = value other := by
  have hrun := isRounded_value run
  rw [h] at hrun
  exact hrun.unique (isRounded_value other) (toNat_toBits_value_lt run)
    (toNat_toBits_value_lt other)

end Numeral

/-- The run of digits and points that comes next, behind blanks. -/
def Scanner.upcoming (s : Scanner) : List Char := (s.pass isBlank).rest.takeWhile Numeral.isPart

namespace Numeral

/-- Wherever this run comes next it is read as this number, and passed as a whole. -/
def ReadAs (run : List Char) (x : Binary64) : Prop :=
  ∀ s : Scanner, s.upcoming = run →
    s.next = (.ok (some (.number x)), (s.pass isBlank).pass isPart)

variable {run other : List Char} {x : Binary64}

theorem readAs_of_value? (h : value? run = some x) : ReadAs run x := by
  intro s hs
  rw [Scanner.upcoming] at hs
  rw [Scanner.next]
  cases hrest : (s.pass isBlank).rest with
  | nil =>
    rw [hrest] at hs
    subst hs
    cases h
  | cons c rest =>
    rw [hrest] at hs
    cases hc : isPart c with
    | false =>
      rw [List.takeWhile_cons_of_neg (by simp [hc])] at hs
      subst hs
      cases h
    | true => simp only [hc, hs, h, if_true]

theorem readAs_value (h : run ∈ pattern.matches') : ReadAs run (value run) := by
  have hvalid : isValid run = true := isValid_iff_counts.mpr (mem_pattern_iff_counts.mp h).2
  apply readAs_of_value?
  rw [value?, if_pos hvalid]

/-- More digits on either side of a numeral keep it one, and so does a point if it has none. -/
theorem mem_pattern_append {more : List Char} (h : run ∈ pattern.matches')
    (hmore : ∀ c ∈ more, isPart c = true) (hpoint : run.count '.' + more.count '.' ≤ 1) :
    more ++ run ∈ pattern.matches' ∧ run ++ more ∈ pattern.matches' := by
  obtain ⟨hrun, hdigits, _⟩ := mem_pattern_iff_counts.mp h
  constructor
  · rw [mem_pattern_iff_counts, List.countP_append, List.count_append]
    refine ⟨fun c hc => ?_, by omega, by omega⟩
    exact (List.mem_append.mp hc).elim (hmore c) (hrun c)
  · rw [mem_pattern_iff_counts, List.countP_append, List.count_append]
    refine ⟨fun c hc => ?_, by omega, hpoint⟩
    exact (List.mem_append.mp hc).elim (hrun c) (hmore c)

theorem mem_pattern_append_zeros (h : run ∈ pattern.matches') (k : ℕ) :
    List.replicate k '0' ++ run ∈ pattern.matches' ∧
    run ++ List.replicate k '0' ∈ pattern.matches' := by
  apply mem_pattern_append h
  · exact fun _ hc => isPart_of_isDigit (isDigit_of_mem_zeros hc)
  · rw [count_point_eq_zero fun _ hc => isDigit_of_mem_zeros hc]
    exact (mem_pattern_iff_counts.mp h).2.2

theorem mem_pattern_append_point (h : run ∈ pattern.matches') (hp : '.' ∉ run) :
    run ++ ['.'] ∈ pattern.matches' := by
  refine (mem_pattern_append h ?_ ?_).2
  · intro c hc
    rw [List.mem_singleton.mp hc]
    rfl
  · rw [List.count_eq_zero.mpr hp, List.count_singleton_self]

/-- What denotes the same exact number is read as the same number. -/
theorem readAs_of_exact_eq (h : run ∈ pattern.matches') (he : exact run = exact other) :
    ReadAs run (value other) := by
  rw [← value_congr he]
  exact readAs_value h

end Numeral

/-- What becomes of a run of digits and points that is read as a number. -/
structure Numeral.RoundsOnce (run : List Char) : Prop where
  /-- A conversion to floating point does not refuse it. -/
  taken : run ∈ floating.matches'
  read : ReadAs run (value run)
  rounded : (value run).IsRounded (rational run)
  unsigned : (value run).toBits.toNat < 2 ^ 63
  isNumber : value run ≠ .nan
  only : ∀ x : Binary64, x.IsRounded (rational run) → x.toBits.toNat < 2 ^ 63 → x = value run
  /-- All that is seen of the digits is the number that they denote. -/
  alike : ∀ other ∈ pattern.matches', rational run = rational other → value run = value other
  ordered : ∀ other ∈ pattern.matches', rational run ≤ rational other → value run ≤ value other
  zerosBefore : ∀ k, ReadAs (List.replicate k '0' ++ run) (value run)
  zerosBehind : '.' ∈ run → ∀ k, ReadAs (run ++ List.replicate k '0') (value run)
  pointBehind : '.' ∉ run → ReadAs (run ++ ['.']) (value run)

/-- A numeral of any length is read as a number wherever it comes next: the only unsigned one to
which the number that it denotes is rounded. Equal numbers are read alike and larger ones in their
order, so zeros before the digits, zeros behind the places and a point at the end are not seen. -/
theorem numeral_is_rounded_once {run : List Char} (h : run ∈ Numeral.pattern.matches') :
    Numeral.RoundsOnce run where
  taken := Numeral.mem_floating h
  read := Numeral.readAs_value h
  rounded := by
    rw [Numeral.rational_eq_exact h]
    exact Numeral.isRounded_value run
  unsigned := Numeral.toNat_toBits_value_lt run
  isNumber := (Numeral.isRounded_value run).ne_nan
  only := by
    intro x hx hs
    rw [Numeral.rational_eq_exact h] at hx
    exact hx.unique (Numeral.isRounded_value run) hs (Numeral.toNat_toBits_value_lt run)
  alike := by
    intro other hother he
    rw [Numeral.rational_eq_exact h, Numeral.rational_eq_exact hother] at he
    exact Numeral.value_congr he
  ordered := by
    intro other hother hle
    rw [Numeral.rational_eq_exact h, Numeral.rational_eq_exact hother] at hle
    exact Numeral.value_le_value hle
  zerosBefore k := Numeral.readAs_of_exact_eq (Numeral.mem_pattern_append_zeros h k).1
    (Numeral.exact_zeros_append k run)
  zerosBehind hp k := Numeral.readAs_of_exact_eq (Numeral.mem_pattern_append_zeros h k).2
    (Numeral.exact_append_zeros hp k)
  pointBehind hp := Numeral.readAs_of_exact_eq (Numeral.mem_pattern_append_point h hp)
    (Numeral.exact_append_point hp)

/-- The middle between 2^53 and the next number is read as the even one of the two, but the smallest
digit a thousand places behind it makes it the other one. -/
theorem last_of_thousand_places_decides :
    let middle := Nat.toDigits 10 (2 ^ 53 + 1)
    let above := middle ++ '.' :: List.replicate 999 '0' ++ ['1']
    middle ∈ Numeral.pattern.matches' ∧ above ∈ Numeral.pattern.matches' ∧
    Numeral.ReadAs middle (.ofNat (2 ^ 53)) ∧ Numeral.ReadAs above (.ofNat (2 ^ 53 + 2)) ∧
    Numeral.rational middle ≤ Numeral.rational above ∧
    Numeral.value middle ≤ Numeral.value above ∧
    ∀ k, Numeral.ReadAs (above ++ List.replicate k '0') (.ofNat (2 ^ 53 + 2)) := by
  intro middle above
  have hall : middle.all Numeral.isPart = true ∧ above.all Numeral.isPart = true := by
    decide +kernel
  have hmiddle : middle ∈ Numeral.pattern.matches' :=
    Numeral.mem_pattern_iff_counts.mpr ⟨List.all_eq_true.mp hall.1, by decide, by decide⟩
  have habove : above ∈ Numeral.pattern.matches' :=
    Numeral.mem_pattern_iff_counts.mpr
      ⟨List.all_eq_true.mp hall.2, by decide +kernel, by decide +kernel⟩
  have hdown : Numeral.value middle = .ofNat (2 ^ 53) := by decide +kernel
  have hup : Numeral.value above = .ofNat (2 ^ 53 + 2) := by decide +kernel
  have hle : Numeral.rational middle ≤ Numeral.rational above := by decide +kernel
  have hpoint : '.' ∈ above := List.mem_append_left _ (List.mem_append_right _ List.mem_cons_self)
  have hrounds := numeral_is_rounded_once habove
  have hread := (numeral_is_rounded_once hmiddle).read
  have hordered := (numeral_is_rounded_once hmiddle).ordered above habove hle
  rw [hdown] at hread
  rw [← hup]
  exact ⟨hmiddle, habove, hread, hrounds.read, hle, hordered, hrounds.zerosBehind hpoint⟩

end Calculator
