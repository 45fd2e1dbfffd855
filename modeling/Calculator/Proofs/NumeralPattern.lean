import Calculator.Proofs.PointedNumeral
import Mathlib.Computability.RegularExpressions
import Mathlib.Tactic.IntervalCases

namespace Calculator.Numeral

open RegularExpression

def digit : RegularExpression Char :=
  char '0' + char '1' + char '2' + char '3' + char '4' + char '5' + char '6' + char '7' +
    char '8' + char '9'

/-- `12`, `12.`, `12.5` and `.5` -/
def pattern : RegularExpression Char :=
  digit * digit.star * (1 + char '.' * digit.star) + char '.' * (digit * digit.star)

variable {c : Char} {cs run : List Char}

/-- What a conversion to floating point takes, signs and the names of special values apart: digits,
with a point before, among or behind them, and perhaps an exponent. -/
def floating : RegularExpression Char :=
  (digit * digit.star + digit * digit.star * (char '.' * digit.star) +
      digit.star * (char '.' * (digit * digit.star))) *
    (1 + (char 'e' + char 'E') * ((1 + char '+' + char '-') * (digit * digit.star)))

theorem mem_char {word : List Char} : word ∈ (char c).matches' ↔ word = [c] := Iff.rfl

theorem isDigit_iff_mem : c.isDigit = true ↔
    c ∈ ['0', '1', '2', '3', '4', '5', '6', '7', '8', '9'] := by
  constructor
  · intro h
    have hc : 48 ≤ c.toNat ∧ c.toNat ≤ 57 := by
      simpa [Char.isDigit, UInt32.le_iff_toNat_le] using h
    obtain ⟨hl, hu⟩ := hc
    have he := Char.ofNat_toNat c
    interval_cases hn : c.toNat <;> (rw [← he]; decide)
  · intro h
    simp only [List.mem_cons, List.not_mem_nil, or_false] at h
    rcases h with rfl | rfl | rfl | rfl | rfl | rfl | rfl | rfl | rfl | rfl <;> rfl

theorem mem_digit : cs ∈ digit.matches' ↔ ∃ c, cs = [c] ∧ c.isDigit = true := by
  simp only [digit, matches'_add, Language.mem_add, mem_char, isDigit_iff_mem, List.mem_cons,
    List.not_mem_nil, or_false, and_or_left, exists_or, exists_eq_right, or_assoc]

theorem mem_digit_star : cs ∈ digit.star.matches' ↔ ∀ c ∈ cs, c.isDigit = true := by
  rw [matches'_star, Language.mem_kstar]
  constructor
  · intro h c hc
    obtain ⟨words, rfl, hw⟩ := h
    obtain ⟨word, hm, hc⟩ := List.mem_flatten.mp hc
    obtain ⟨d, rfl, hd⟩ := mem_digit.mp (hw word hm)
    rw [List.mem_singleton.mp hc]
    exact hd
  · intro h
    refine ⟨cs.map fun c => [c], (List.flatMap_singleton' cs).symm, ?_⟩
    intro word hw
    obtain ⟨c, hc, rfl⟩ := List.mem_map.mp hw
    exact mem_digit.mpr ⟨c, rfl, h c hc⟩

theorem mem_digits : cs ∈ (digit * digit.star).matches' ↔
    cs ≠ [] ∧ ∀ c ∈ cs, c.isDigit = true := by
  rw [matches'_mul, Language.mem_mul]
  constructor
  · intro h
    obtain ⟨first, hf, others, ho, rfl⟩ := h
    obtain ⟨c, rfl, hc⟩ := mem_digit.mp hf
    exact ⟨by simp, List.forall_mem_cons.mpr ⟨hc, mem_digit_star.mp ho⟩⟩
  · intro h
    obtain ⟨hne, hd⟩ := h
    obtain ⟨c, others, rfl⟩ := List.exists_cons_of_ne_nil hne
    obtain ⟨hc, ho⟩ := List.forall_mem_cons.mp hd
    exact ⟨[c], mem_digit.mpr ⟨c, rfl, hc⟩, others, mem_digit_star.mpr ho, rfl⟩

theorem mem_pointed {P : RegularExpression Char} : cs ∈ (char '.' * P).matches' ↔
    ∃ fraction ∈ P.matches', cs = '.' :: fraction := by
  rw [matches'_mul, Language.mem_mul]
  constructor
  · intro h
    obtain ⟨point, hp, fraction, hf, rfl⟩ := h
    rw [mem_char.mp hp]
    exact ⟨fraction, hf, rfl⟩
  · intro h
    obtain ⟨fraction, hf, rfl⟩ := h
    exact ⟨['.'], mem_char.mpr rfl, fraction, hf, rfl⟩

/-- The forms without a regular expression: digits with or without a fraction, or only that. -/
theorem mem_pattern : run ∈ pattern.matches' ↔
    (∃ whole, whole ≠ [] ∧ (∀ c ∈ whole, c.isDigit = true) ∧ (run = whole ∨
      ∃ fraction, (∀ c ∈ fraction, c.isDigit = true) ∧ run = whole ++ '.' :: fraction)) ∨
    ∃ fraction, fraction ≠ [] ∧ (∀ c ∈ fraction, c.isDigit = true) ∧ run = '.' :: fraction := by
  rw [pattern, matches'_add, Language.mem_add, mem_pointed, matches'_mul, Language.mem_mul]
  apply or_congr
  · constructor
    · intro h
      obtain ⟨whole, hw, behind, hb, rfl⟩ := h
      obtain ⟨hne, hd⟩ := mem_digits.mp hw
      rw [matches'_add, Language.mem_add, mem_pointed] at hb
      refine ⟨whole, hne, hd, ?_⟩
      rcases hb with hb | ⟨fraction, hf, rfl⟩
      · rw [matches'_epsilon, Language.mem_one] at hb
        exact .inl (by rw [hb, List.append_nil])
      · exact .inr ⟨fraction, mem_digit_star.mp hf, rfl⟩
    · intro h
      obtain ⟨whole, hne, hd, hrun⟩ := h
      rcases hrun with rfl | ⟨fraction, hf, rfl⟩
      · refine ⟨run, mem_digits.mpr ⟨hne, hd⟩, [], ?_, List.append_nil run⟩
        exact Or.inl (Language.nil_mem_one)
      · refine ⟨whole, mem_digits.mpr ⟨hne, hd⟩, '.' :: fraction, Or.inr ?_, rfl⟩
        exact mem_pointed.mpr ⟨fraction, mem_digit_star.mpr hf, rfl⟩
  · constructor
    · intro h
      obtain ⟨fraction, hf, rfl⟩ := h
      obtain ⟨hne, hd⟩ := mem_digits.mp hf
      exact ⟨fraction, hne, hd, rfl⟩
    · intro h
      obtain ⟨fraction, hne, hd, rfl⟩ := h
      exact ⟨fraction, mem_digits.mpr ⟨hne, hd⟩, rfl⟩

/-- Numerals are taken, in the three forms without an exponent. -/
theorem mem_floating (h : run ∈ pattern.matches') : run ∈ floating.matches' := by
  rw [floating, matches'_mul, Language.mem_mul]
  refine ⟨run, ?_, [], Or.inl Language.nil_mem_one, List.append_nil run⟩
  rw [matches'_add, Language.mem_add, matches'_add, Language.mem_add]
  rcases mem_pattern.mp h with ⟨whole, hne, hd, hrun⟩ | ⟨fraction, hne, hf, rfl⟩
  · rcases hrun with rfl | ⟨fraction, hf, rfl⟩
    · exact .inl (.inl (mem_digits.mpr ⟨hne, hd⟩))
    · refine .inl (.inr ?_)
      rw [matches'_mul, Language.mem_mul]
      exact ⟨whole, mem_digits.mpr ⟨hne, hd⟩, '.' :: fraction,
        mem_pointed.mpr ⟨fraction, mem_digit_star.mpr hf, rfl⟩, rfl⟩
  · refine .inr ?_
    rw [matches'_mul, Language.mem_mul]
    exact ⟨[], mem_digit_star.mpr (List.forall_mem_nil _), '.' :: fraction,
      mem_pointed.mpr ⟨fraction, mem_digits.mpr ⟨hne, hf⟩, rfl⟩, rfl⟩

theorem isDigit_of_mem {whole : List Char} (hp : ∀ c ∈ whole, isPart c = true)
    (hn : '.' ∉ whole) : ∀ c ∈ whole, c.isDigit = true := by
  intro c hc
  rcases Bool.or_eq_true_iff.mp (hp c hc) with hd | hpoint
  · exact hd
  · rw [eq_of_beq hpoint] at hc
    exact absurd hc hn

/-- What is counted in digits around a point. -/
theorem counts_pointed {whole fraction : List Char} (hw : ∀ c ∈ whole, c.isDigit = true)
    (hf : ∀ c ∈ fraction, c.isDigit = true) :
    (∀ c ∈ whole ++ '.' :: fraction, isPart c = true) ∧
    (whole ++ '.' :: fraction).countP Char.isDigit = whole.length + fraction.length ∧
    (whole ++ '.' :: fraction).count '.' = 1 := by
  refine ⟨?_, ?_, ?_⟩
  · intro c hc
    rcases List.mem_append.mp hc with hc | hc
    · exact isPart_of_isDigit (hw c hc)
    · rcases List.mem_cons.mp hc with rfl | hc
      · rfl
      · exact isPart_of_isDigit (hf c hc)
  · rw [List.countP_append, List.countP_cons_of_neg (by decide), List.countP_eq_length.mpr hw,
      List.countP_eq_length.mpr hf]
  · rw [List.count_append, List.count_cons_self, count_point_eq_zero hw, count_point_eq_zero hf]

theorem isValid_iff_counts : isValid run = true ↔
    1 ≤ run.countP Char.isDigit ∧ run.count '.' ≤ 1 := by
  rw [isValid, Bool.and_eq_true, decide_eq_true_iff, List.any_eq_true, Nat.succ_le_iff,
    List.countP_pos_iff]

/-- Counting is enough to tell the forms of a numeral among runs of digits and points. -/
theorem mem_pattern_iff_counts : run ∈ pattern.matches' ↔
    (∀ c ∈ run, isPart c = true) ∧ 1 ≤ run.countP Char.isDigit ∧ run.count '.' ≤ 1 := by
  rw [mem_pattern]
  constructor
  · intro h
    rcases h with ⟨whole, hne, hd, rfl | ⟨fraction, hf, rfl⟩⟩ | ⟨fraction, hne, hf, rfl⟩
    · rw [List.countP_eq_length.mpr hd, count_point_eq_zero hd]
      exact ⟨fun c hc => isPart_of_isDigit (hd c hc), List.length_pos_iff.mpr hne, Nat.zero_le 1⟩
    · obtain ⟨hp, hdigits, hpoint⟩ := counts_pointed hd hf
      have hpos := List.length_pos_iff.mpr hne
      exact ⟨hp, by omega, by omega⟩
    · obtain ⟨hp, hdigits, hpoint⟩ := counts_pointed (List.forall_mem_nil _) hf
      have hpos := List.length_pos_iff.mpr hne
      rw [List.nil_append] at hp hdigits hpoint
      exact ⟨hp, by omega, by omega⟩
  · intro h
    obtain ⟨hp, hdigits, hpoint⟩ := h
    by_cases hmem : '.' ∈ run
    · obtain ⟨whole, fraction, rfl, hw⟩ := List.eq_append_cons_of_mem hmem
      have hf : '.' ∉ fraction := by
        rw [List.count_append, List.count_cons_self] at hpoint
        rw [← List.count_eq_zero]
        omega
      have hwd := isDigit_of_mem (fun c hc => hp c (by simp [hc])) hw
      have hfd := isDigit_of_mem (fun c hc => hp c (by simp [hc])) hf
      rw [(counts_pointed hwd hfd).2.1] at hdigits
      cases whole with
      | nil =>
        rw [List.length_nil, Nat.zero_add] at hdigits
        exact .inr ⟨fraction, List.length_pos_iff.mp hdigits, hfd, rfl⟩
      | cons c cs => exact .inl ⟨c :: cs, by simp, hwd, .inr ⟨fraction, hfd, rfl⟩⟩
    · obtain ⟨d, hd, _⟩ := List.countP_pos_iff.mp hdigits
      exact .inl ⟨run, List.ne_nil_of_mem hd, isDigit_of_mem hp hmem, .inl rfl⟩

end Calculator.Numeral
