import Calculator.Proofs.Lexemes
import Calculator.Proofs.PrintedExpression
import Calculator.Proofs.TextLines
import Mathlib.Control.Monad.Basic

namespace Calculator

theorem Binary64.isFinite_of_isUnsigned (x : Binary64) (h : x.isUnsigned = true) :
    x.isFinite = true := by
  cases x with
  | finite negative units fits => rfl
  | infinite negative => cases h
  | nan => cases h

namespace Token

/-- A number that a token has is unsigned. -/
def isUnsigned : Token → Bool
  | .number x => x.isUnsigned
  | .symbol _ => true

variable {t : Token} {c : Char}

theorem isBlank_of_mem_text (h : t.isUnsigned = true) (hc : c ∈ t.text) : isBlank c = false := by
  cases t with
  | number x => exact isBlank_of_isPart ((x.denotes_text h).parts c hc)
  | symbol s =>
    rw [List.mem_singleton.mp hc]
    exact s.isBlank_char

/-- The listing of some tokens has these tokens, and each of its lines has one of them, in their
order. -/
structure ReadsBack (ts : List Token) : Prop where
  whole : tokenize (listing ts) = .ok ts
  lines : (Text.lines (listing ts)).map tokenize = ts.map fun t => .ok [t]

end Token

namespace Scanner

variable {t : Token} {ts : List Token} {rest : List Char}

/-- A token is read from its text, if nothing behind it continues a number. -/
theorem tokens_token (ht : t.isUnsigned = true) (hstop : ∀ c ∈ rest.head?, Numeral.isPart c = false)
    (hrest : ∀ offset, (⟨rest, offset⟩ : Scanner).tokens = .ok ts) (offset : ℕ) :
    (⟨t.text ++ rest, offset⟩ : Scanner).tokens = .ok (t :: ts) := by
  cases t with
  | number x => exact tokens_text_number ht hstop hrest offset
  | symbol s => exact tokens_symbol (hrest _)

/-- The end of a line keeps a number from being continued by the next one. -/
theorem tokens_listing (h : ∀ t ∈ ts, t.isUnsigned = true) (offset : ℕ) :
    (⟨Token.listing ts, offset⟩ : Scanner).tokens = .ok ts := by
  induction ts generalizing offset with
  | nil => exact tokens_end
  | cons t ts ih =>
    have hline : ∀ offset, (⟨'\n' :: Token.listing ts, offset⟩ : Scanner).tokens = .ok ts := by
      intro offset
      rw [tokens_blank rfl]
      exact ih (fun u hu => h u (List.mem_cons_of_mem t hu)) _
    rw [Token.listing, List.flatMap_cons, List.append_assoc]
    exact tokens_token (h t List.mem_cons_self) (by simp; rfl) hline offset

end Scanner

namespace Token

variable {ts : List Token}

theorem tokenize_text {t : Token} (h : t.isUnsigned = true) : tokenize t.text = .ok [t] := by
  have ht := Scanner.tokens_token h (by simp) (fun _ => Scanner.tokens_end) 0
  rwa [List.append_nil] at ht

theorem lines_listing (h : ∀ t ∈ ts, t.isUnsigned = true) :
    Text.lines (listing ts) = ts.map text := by
  have hlisting : listing ts = (ts.map text).flatMap (· ++ ['\n']) := by
    rw [listing, List.flatMap_map]
  rw [hlisting]
  apply Text.lines_flatMap
  intro line hline
  obtain ⟨t, ht, rfl⟩ := List.mem_map.mp hline
  -- both ends of a line are blank
  constructor
  · intro hc
    cases isBlank_of_mem_text (h t ht) hc
  · intro hc
    cases isBlank_of_mem_text (h t ht) hc

theorem readsBack (h : ∀ t ∈ ts, t.isUnsigned = true) : ReadsBack ts where
  whole := Scanner.tokens_listing h 0
  lines := by
    rw [lines_listing h, List.map_map]
    exact List.map_congr_left fun t ht => tokenize_text (h t ht)

end Token

/-- Numerals have no sign. -/
theorem Numeral.isUnsigned_value {run : List Char} (h : (value run).isFinite = true) :
    (value run).isUnsigned = true := by
  rw [value, Binary64.ofDecimal, Binary64.ofRatio] at h ⊢
  split
  · rfl
  · rename_i hbound
    rw [dif_neg hbound] at h
    cases h

/-- The numbers of a text are those of its numerals. -/
theorem Lexeme.exists_numeral {piece : Lexeme} {x : Binary64} (h : piece.token = .ok (.number x)) :
    ∃ run, Numeral.value run = x := by
  cases piece with
  | run characters offset =>
    rw [token] at h
    split at h
    · simp only [Except.ok.injEq, Token.number.injEq] at h
      exact ⟨characters, h⟩
    · cases h
  | single c offset =>
    rw [token] at h
    split at h <;> cases h

/-- Each token of a text comes from a piece of it. -/
theorem exists_of_mem_mapM_token {pieces : List Lexeme} {t : Token} {ts : List Token}
    (h : pieces.mapM Lexeme.token = .ok ts) (ht : t ∈ ts) :
    ∃ piece : Lexeme, piece.token = .ok t := by
  rw [mapM_eq_ok_iff] at h
  induction h with
  | nil => cases ht
  | cons hp _ ih =>
    rcases List.mem_cons.mp ht with rfl | hmem
    · exact ⟨_, hp⟩
    · exact ih hmem

theorem isUnsigned_of_tokenize {text : List Char} {ts : List Token} (h : tokenize text = .ok ts)
    (hfinite : ∀ x, .number x ∈ ts → x.isFinite = true) : ∀ t ∈ ts, t.isUnsigned = true := by
  intro t ht
  rw [tokenize, Scanner.tokens_eq_mapM] at h
  obtain ⟨piece, hp⟩ := exists_of_mem_mapM_token h ht
  cases t with
  | symbol s => rfl
  | number x =>
    have hx : x.isUnsigned = true := by
      obtain ⟨run, rfl⟩ := Lexeme.exists_numeral hp
      exact Numeral.isUnsigned_value (hfinite _ ht)
    exact hx

/-- Tokens whose numbers are finite and not negative can be listed and read back, whatever their
order. So can the tokens of each text in which no number overflows. -/
theorem listing_is_read_back :
    (∀ ts : List Token, (∀ x, .number x ∈ ts → x.isUnsigned = true) → Token.ReadsBack ts) ∧
    ∀ text ts, tokenize text = .ok ts → (∀ x, .number x ∈ ts → x.isFinite = true) →
      Token.ReadsBack ts := by
  constructor
  · intro ts h
    apply Token.readsBack
    intro t ht
    cases t with
    | number x => exact h x ht
    | symbol s => rfl
  · intro text ts h hfinite
    exact Token.readsBack (isUnsigned_of_tokenize h hfinite)

/-- Numbers next to each other, the smallest one among them, and a text with numerals that are not
the shortest ones. -/
theorem adjacent_numbers_are_read_back :
    let ts := [.number (.ofBits 1), .number (.ofNat 7), .symbol .closing, .number (.zero false)]
    let text := ['.', '5', '0', ')', '0', '7', '.']
    let us := [.number (.ofDecimal false 5 1), .symbol .closing, .number (.ofNat 7)]
    Token.ReadsBack ts ∧ tokenize text = .ok us ∧ Token.ReadsBack us := by
  intro ts text us
  have hts : ∀ t ∈ ts, t.isUnsigned = true := by decide +kernel
  have htext : tokenize text = .ok us := by decide +kernel
  have hus : ∀ t ∈ us, t.isUnsigned = true := by decide +kernel
  refine ⟨listing_is_read_back.1 ts fun x hx => hts _ hx, htext, ?_⟩
  apply listing_is_read_back.2 text us htext
  intro x hx
  exact x.isFinite_of_isUnsigned (hus _ hx)

end Calculator
