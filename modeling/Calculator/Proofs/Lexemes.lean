import Calculator.Proofs.NumeralPattern
import Calculator.Proofs.Scanning
import Mathlib.Data.List.SplitBy
import Mathlib.Data.List.TakeWhile

namespace Calculator

/-- A piece of a text with its offset: a run of digits and points, or another character that is not
blank. -/
inductive Lexeme where
  | run (characters : List Char) (offset : ℕ)
  | single (character : Char) (offset : ℕ)
deriving DecidableEq

namespace Lexeme

/-- The code points of the characters with the Unicode property White_Space. -/
def blanks : List ℕ :=
  [0x9, 0xa, 0xb, 0xc, 0xd, 0x20, 0x85, 0xa0, 0x1680, 0x2000, 0x2001, 0x2002, 0x2003, 0x2004,
    0x2005, 0x2006, 0x2007, 0x2008, 0x2009, 0x200a, 0x2028, 0x2029, 0x202f, 0x205f, 0x3000]

/-- The characters that are symbols by themselves. -/
def symbols : List (Char × Symbol) :=
  [('+', .plus), ('-', .minus), ('*', .times), ('/', .over), ('(', .opening), (')', .closing)]

def joins (c : Char) : Bool := c.isDigit || c == '.'

/-- Digits and points in a row stand together, all other characters alone. -/
def joined (a b : Char × ℕ) : Bool := joins a.1 && joins b.1

/-- The piece that characters make up which stand together, none if they are blank. -/
def ofGroup? : List (Char × ℕ) → Option Lexeme
  | [] => none
  | (c, offset) :: rest =>
    if c.toNat ∈ blanks then none
    else if joins c then some (.run (c :: rest.map Prod.fst) offset)
    else some (.single c offset)

def cutFrom (offset : ℕ) (text : List Char) : List Lexeme :=
  ((text.zipIdx offset).splitBy joined).filterMap ofGroup?

/-- The pieces of a text in their order, found by looking at two characters in a row and not by
scanning. -/
def cut (text : List Char) : List Lexeme := cutFrom 0 text

/-- What a piece is by itself. A run needs a digit and has at most one point. -/
def token : Lexeme → Except Fault Token
  | .run characters offset =>
    if 1 ≤ characters.countP Char.isDigit ∧ characters.count '.' ≤ 1 then
      .ok (.number (Numeral.value characters))
    else .error (.malformedNumber characters offset)
  | .single c offset =>
    match symbols.lookup c with
    | some s => .ok (.symbol s)
    | none => .error (.foreignCharacter c offset)

def isForeign : Lexeme → Bool
  | .run .. => false
  | .single c _ => (symbols.lookup c).isNone

/-- The answer to reading number `k`, counted from zero. No reading gets beyond the first foreign
character. -/
def answer (pieces : List Lexeme) (k : ℕ) : Except Fault (Option Token) :=
  match pieces[min k (pieces.findIdx isForeign)]? with
  | some piece => piece.token.map some
  | none => .ok none

/-- The scanner has the same symbols. -/
theorem lookup_symbols (c : Char) : symbols.lookup c = Symbol.ofChar? c := by
  unfold Symbol.ofChar?
  split
  · rfl
  · rfl
  · rfl
  · rfl
  · rfl
  · rfl
  · rename_i hplus hminus htimes hover hopening hclosing
    simp [symbols]
    exact ⟨hplus, hminus, htimes, hover, hopening, hclosing⟩

/-- The scanner has the same blanks. -/
theorem mem_blanks_iff (c : Char) : c.toNat ∈ blanks ↔ isBlank c = true := by
  simp [blanks, isBlank]
  omega

theorem ofGroup?_cons (c : Char) (offset : ℕ) (rest : List (Char × ℕ)) :
    ofGroup? ((c, offset) :: rest) = if isBlank c then none
      else if Numeral.isPart c then some (.run (c :: rest.map Prod.fst) offset)
      else some (.single c offset) := by
  simp only [ofGroup?, mem_blanks_iff]
  rfl

theorem token_run (run : List Char) (offset : ℕ) : (Lexeme.run run offset).token.map some =
    match Numeral.value? run with
    | some x => .ok (some (.number x))
    | none => .error (.malformedNumber run offset) := by
  rw [token, Numeral.value?]
  simp only [Numeral.isValid_iff_counts]
  split
  · rfl
  · rfl

/-- The pieces that are left after one reading. -/
def remaining : List Lexeme → List Lexeme
  | [] => []
  | piece :: pieces => if piece.isForeign then piece :: pieces else pieces

/-- A foreign piece has no token. -/
theorem remaining_cons_of_token {piece : Lexeme} {t : Token} (h : piece.token = .ok t)
    (pieces : List Lexeme) : remaining (piece :: pieces) = pieces := by
  cases piece with
  | run characters offset => rfl
  | single c offset =>
    cases hs : symbols.lookup c with
    | none => simp [token, hs] at h
    | some s => simp [remaining, isForeign, hs]

theorem answer_cons_zero (piece : Lexeme) (pieces : List Lexeme) :
    answer (piece :: pieces) 0 = piece.token.map some := by
  simp [answer]

theorem answer_succ (pieces : List Lexeme) (k : ℕ) :
    answer pieces (k + 1) = answer (remaining pieces) k := by
  cases pieces with
  | nil => rfl
  | cons piece pieces =>
    cases h : piece.isForeign with
    | true => simp [answer, remaining, h, List.findIdx_cons]
    | false => simp [answer, remaining, h, List.findIdx_cons, Nat.add_min_add_right]

variable {offset : ℕ} {c : Char} {run text rest : List Char}

/-- A text may be cut between two characters that do not stand together. -/
theorem cutFrom_append (h : ∀ a ∈ text.getLast?, ∀ b ∈ rest.head?,
      (Numeral.isPart a && Numeral.isPart b) = false) :
    cutFrom offset (text ++ rest) = cutFrom offset text ++ cutFrom (offset + text.length) rest := by
  have hsplit : ∀ x ∈ (text.zipIdx offset).getLast?,
      ∀ y ∈ (rest.zipIdx (offset + text.length)).head?, joined x y = false := by
    intro x hx y hy
    have hlast : text.getLast? = some x.1 := by
      rw [← List.zipIdx_map_fst offset text, List.getLast?_map, hx, Option.map_some]
    have hhead : rest.head? = some y.1 := by
      rw [← List.zipIdx_map_fst (offset + text.length) rest, List.head?_map, hy, Option.map_some]
    exact h _ hlast _ hhead
  rw [cutFrom, List.zipIdx_append, List.splitBy_append hsplit, List.filterMap_append]
  rfl

theorem cutFrom_cons (h : Numeral.isPart c = false) :
    cutFrom offset (c :: rest) = (ofGroup? [(c, offset)]).toList ++ cutFrom (offset + 1) rest := by
  have hone : cutFrom offset [c] = (ofGroup? [(c, offset)]).toList := by
    cases hg : ofGroup? [(c, offset)] with
    | none => exact List.filterMap_cons_none hg
    | some piece => exact List.filterMap_cons_some hg
  rw [← List.singleton_append, cutFrom_append (by simp [h]), hone, List.length_singleton]

theorem cutFrom_blank (h : isBlank c = true) :
    cutFrom offset (c :: rest) = cutFrom (offset + 1) rest := by
  have hc : Numeral.isPart c = false := by
    by_contra hp
    rw [isBlank_of_isPart (by simpa using hp)] at h
    cases h
  rw [cutFrom_cons hc, ofGroup?_cons, if_pos h]
  rfl

theorem cutFrom_single (hb : isBlank c = false) (hp : Numeral.isPart c = false) :
    cutFrom offset (c :: rest) = .single c offset :: cutFrom (offset + 1) rest := by
  rw [cutFrom_cons hp, ofGroup?_cons, hb, hp]
  rfl

/-- A run of digits and points is as long as it can be. -/
theorem cutFrom_run (hne : run ≠ []) (hrun : ∀ c ∈ run, Numeral.isPart c = true)
    (hstop : ∀ c ∈ rest.head?, Numeral.isPart c = false) :
    cutFrom offset (run ++ rest) = .run run offset :: cutFrom (offset + run.length) rest := by
  have hchain : (run.zipIdx offset).IsChain fun x y => joined x y = true := by
    apply List.Pairwise.isChain
    apply List.pairwise_of_forall_mem_list
    intro x hx y hy
    change (Numeral.isPart _ && Numeral.isPart _) = true
    rw [hrun _ (List.fst_mem_of_mem_zipIdx hx), hrun _ (List.fst_mem_of_mem_zipIdx hy)]
    rfl
  have hone : cutFrom offset run = [.run run offset] := by
    rw [cutFrom, List.splitBy_of_isChain (by simpa using hne) hchain]
    obtain ⟨c, cs, rfl⟩ := List.exists_cons_of_ne_nil hne
    have hc : Numeral.isPart c = true := hrun c List.mem_cons_self
    simp [ofGroup?_cons, isBlank_of_isPart hc, hc, List.zipIdx_map_fst]
  have hcut : ∀ a ∈ run.getLast?, ∀ b ∈ rest.head?,
      (Numeral.isPart a && Numeral.isPart b) = false := by
    intro a _ b hb
    rw [hstop b hb, Bool.and_false]
  rw [cutFrom_append hcut, hone, List.singleton_append]

end Lexeme

theorem exists_run {c : Char} (rest : List Char) (h : Numeral.isPart c = true) :
    ∃ run after, c :: rest = run ++ after ∧ run ≠ [] ∧ (∀ c ∈ run, Numeral.isPart c = true) ∧
      ∀ c ∈ after.head?, Numeral.isPart c = false := by
  refine ⟨(c :: rest).takeWhile Numeral.isPart, (c :: rest).dropWhile Numeral.isPart,
    List.takeWhile_append_dropWhile.symm, by simp [h], fun d hd => List.mem_takeWhile_imp hd, ?_⟩
  intro d hd
  have hnot := List.head?_dropWhile_not Numeral.isPart (c :: rest)
  rw [hd] at hnot
  exact hnot

namespace Scanner

/-- The pieces of what is left. -/
def pieces (s : Scanner) : List Lexeme := Lexeme.cutFrom s.offset s.rest

/-- One reading answers with the first piece, and leaves the others if that is not foreign. -/
theorem next_pieces (s : Scanner) :
    s.next.1 = Lexeme.answer s.pieces 0 ∧ s.next.2.pieces = Lexeme.remaining s.pieces := by
  obtain ⟨text, offset⟩ := s
  change _ = Lexeme.answer (Lexeme.cutFrom offset text) 0 ∧
    _ = Lexeme.remaining (Lexeme.cutFrom offset text)
  induction text generalizing offset with
  | nil => exact ⟨rfl, rfl⟩
  | cons c rest ih =>
    cases hb : isBlank c with
    | true =>
      rw [next_blank hb, Lexeme.cutFrom_blank hb]
      exact ih (offset + 1)
    | false =>
      cases hp : Numeral.isPart c with
      | true =>
        obtain ⟨run, after, hsplit, hne, hrun, hstop⟩ := exists_run rest hp
        rw [hsplit, next_run offset hne hrun hstop, Lexeme.cutFrom_run hne hrun hstop,
          Lexeme.answer_cons_zero, Lexeme.token_run]
        cases Numeral.value? run with
        | none => exact ⟨rfl, rfl⟩
        | some x => exact ⟨rfl, rfl⟩
      | false =>
        rw [next_single offset hb hp, Lexeme.cutFrom_single hb hp, Lexeme.answer_cons_zero,
          Lexeme.token, Lexeme.remaining, Lexeme.isForeign, Lexeme.lookup_symbols]
        cases hs : Symbol.ofChar? c with
        | none => exact ⟨rfl, Lexeme.cutFrom_single hb hp⟩
        | some s => exact ⟨rfl, rfl⟩

/-- The answers of some readings in a row, whether or not they fail. -/
def answers (s : Scanner) : ℕ → List (Except Fault (Option Token))
  | 0 => []
  | n + 1 => s.next.1 :: s.next.2.answers n

theorem answers_eq (s : Scanner) (n : ℕ) :
    s.answers n = (List.range n).map (Lexeme.answer s.pieces) := by
  induction n generalizing s with
  | zero => rfl
  | succ n ih =>
    obtain ⟨hanswer, hrest⟩ := s.next_pieces
    rw [answers, ih, hrest, hanswer, List.range_succ_eq_map, List.map_cons, List.map_map]
    refine congrArg₂ List.cons rfl (List.map_congr_left ?_)
    intro k _
    exact (Lexeme.answer_succ _ k).symm

/-- Reading all tokens is giving each piece its token, up to the first fault. -/
theorem tokens_eq_mapM (s : Scanner) : s.tokens = s.pieces.mapM Lexeme.token := by
  generalize hp : s.pieces = pieces
  induction pieces generalizing s with
  | nil =>
    obtain ⟨hanswer, _⟩ := s.next_pieces
    rcases hn : s.next with ⟨answer, t⟩
    rw [hn, hp] at hanswer
    cases hanswer
    rw [tokens_eq, hn]
    rfl
  | cons piece pieces ih =>
    obtain ⟨hanswer, hrest⟩ := s.next_pieces
    rcases hn : s.next with ⟨answer, t⟩
    rw [hn, hp] at hanswer hrest
    simp only [Lexeme.answer_cons_zero] at hanswer
    rw [tokens_eq, hn, List.mapM_cons]
    cases ht : piece.token with
    | error fault =>
      rw [ht] at hanswer
      cases hanswer
      rfl
    | ok token =>
      rw [ht] at hanswer
      cases hanswer
      rw [Lexeme.remaining_cons_of_token ht] at hrest
      change t.tokens.map (token :: ·) = _
      rw [ih t hrest]
      cases pieces.mapM Lexeme.token with
      | error fault => rfl
      | ok ts => rfl

end Scanner

/-- Only a blank text has no pieces. -/
theorem Lexeme.cutFrom_eq_nil_iff (text : List Char) (offset : ℕ) :
    cutFrom offset text = [] ↔ text.all isBlank = true := by
  induction text generalizing offset with
  | nil => exact ⟨fun _ => rfl, fun _ => rfl⟩
  | cons c rest ih =>
    cases hb : isBlank c with
    | true => rw [cutFrom_blank hb, ih, List.all_cons, hb, Bool.true_and]
    | false =>
      rw [List.all_cons, hb, Bool.false_and]
      cases hp : Numeral.isPart c with
      | true =>
        obtain ⟨run, after, hsplit, hne, hrun, hstop⟩ := exists_run rest hp
        rw [hsplit, cutFrom_run hne hrun hstop]
        simp
      | false =>
        rw [cutFrom_single hb hp]
        simp

/-- A list is mapped if each of its members is. -/
theorem mapM_eq_ok_iff {α β ε : Type} {f : α → Except ε β} {xs : List α} {ys : List β} :
    xs.mapM f = .ok ys ↔ List.Forall₂ (fun x y => f x = .ok y) xs ys := by
  induction xs generalizing ys with
  | nil =>
    rw [List.mapM_nil, List.forall₂_nil_left_iff]
    constructor
    · intro h
      cases h
      rfl
    · rintro rfl
      rfl
  | cons x xs ih =>
    rw [List.mapM_cons, List.forall₂_cons_left_iff]
    constructor
    · intro h
      cases hx : f x with
      | error fault =>
        rw [hx] at h
        cases h
      | ok y =>
        cases hxs : xs.mapM f with
        | error fault =>
          rw [hx, hxs] at h
          cases h
        | ok others =>
          rw [hx, hxs] at h
          cases h
          exact ⟨y, others, rfl, ih.mp hxs, rfl⟩
    · rintro ⟨y, others, hx, hothers, rfl⟩
      rw [hx, ih.mpr hothers]
      rfl

theorem mapM_token_eq_nil_iff (pieces : List Lexeme) :
    pieces.mapM Lexeme.token = .ok [] ↔ pieces = [] := by
  rw [mapM_eq_ok_iff, List.forall₂_nil_right_iff]

theorem Formula.accept_eq_blank_iff (text : String) :
    accept text = .error .blank ↔ text.toList.all isBlank = true := by
  rw [accept]
  split
  · rename_i h
    simp [h]
  · rename_i h
    split
    · simp [h]
    · simp [h]

/-- Readings in a row answer with the pieces of the text in their order, with the first foreign
character for ever, and with nothing behind the last piece. Reading all tokens gives each piece its
token up to the first fault, and there are none exactly if the text is refused as blank. The runs
that are numerals are those of the usual form. -/
theorem answers_are_the_pieces (text : String) :
    (∀ n, (Scanner.start text.toList).answers n =
      (List.range n).map (Lexeme.answer (Lexeme.cut text.toList))) ∧
    tokenize text.toList = (Lexeme.cut text.toList).mapM Lexeme.token ∧
    (tokenize text.toList = .ok [] ↔ Formula.accept text = .error .blank) ∧
    ∀ run, run ∈ Numeral.pattern.matches' ↔ (∀ c ∈ run, Numeral.isPart c = true) ∧
      1 ≤ run.countP Char.isDigit ∧ run.count '.' ≤ 1 := by
  have htokens : tokenize text.toList = (Lexeme.cut text.toList).mapM Lexeme.token :=
    Scanner.tokens_eq_mapM _
  refine ⟨Scanner.answers_eq _, htokens, ?_, fun run => Numeral.mem_pattern_iff_counts⟩
  rw [htokens, mapM_token_eq_nil_iff, Formula.accept_eq_blank_iff]
  exact Lexeme.cutFrom_eq_nil_iff _ 0

end Calculator
