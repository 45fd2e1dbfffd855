import Calculator.Proofs.Nesting
import Calculator.Proofs.Scanning
import Calculator.Proofs.ShortestText

namespace Calculator

/-- A finite number whose sign is not negative, as numerals denote them. -/
def Binary64.isUnsigned : Binary64 → Bool
  | .finite negative _ _ => !negative
  | _ => false

namespace Expr

def numbers : Expr → List Binary64
  | .number x => [x]
  | .negate e => e.numbers
  | .binary _ left right => left.numbers ++ right.numbers

/-- The largest number of operations on a way from the root down. -/
def height : Expr → Nat
  | .number _ => 0
  | .negate e => e.height
  | .binary _ left right => max left.height right.height + 1

/-- The tokens of an expression with every operation in parentheses. -/
def tokens : Expr → List Token
  | .number x => [.number x]
  | .negate e => .symbol .minus :: e.tokens
  | .binary op left right =>
    .symbol .opening :: (left.tokens ++ .symbol op.symbol :: right.tokens) ++ [.symbol .closing]

theorem derives_tokens (e : Expr) : Derives .unary e.tokens e := by
  induction e with
  | number x => exact .primary (.number x)
  | negate e ih => exact .minus ih
  | binary op left right ihl ihr =>
    refine .primary (.group ?_)
    rcases op.level_cases with same | same
    · exact .combine op same (.product (.unary ihl)) (.unary ihr)
    · exact .product (.scale op same (.unary ihl) ihr)

end Expr

/-- What is derived closes all groups that it opens. -/
theorem Derives.openings_eq_closings {level : Level} {ts : List Token} {e : Expr}
    (h : Derives level ts e) : openings ts = closings ts := by
  have hop : ∀ op : Operation, openings [.symbol op.symbol] = closings [.symbol op.symbol] := by
    intro op
    cases op <;> rfl
  induction h with
  | number x => rfl
  | group _ ih => simp [ih, Nat.add_comm]
  | primary _ ih | unary _ ih | product _ ih => exact ih
  | minus _ ih => simp [ih]
  | scale op same _ _ ihl ihr | combine op same _ _ ihl ihr =>
    have h := hop op
    simp only [openings_append, closings_append, openings_cons, closings_cons, openings_nil,
      closings_nil] at h ⊢
    omega

namespace Expr

/-- Groups are as deep in one another as operations are. -/
theorem nestsWithin_tokens {n : Nat} (e : Expr) : NestsWithin n e.tokens ↔ e.height ≤ n := by
  induction e generalizing n with
  | number x => simp [tokens, height, nestsWithin_cons_of_ne, nestsWithin_nil]
  | negate e ih =>
    rw [tokens, nestsWithin_cons_of_ne (by decide) (by decide), ih]
    rfl
  | binary op left right ihl ihr =>
    have hl := left.derives_tokens.openings_eq_closings
    have hr := right.derives_tokens.openings_eq_closings
    have hop : Token.symbol op.symbol ≠ .symbol .opening ∧
        Token.symbol op.symbol ≠ .symbol .closing := by
      cases op <;> decide
    have hb : openings (left.tokens ++ .symbol op.symbol :: right.tokens) =
        closings (left.tokens ++ .symbol op.symbol :: right.tokens) := by
      simp [hl, hr, hop.1, hop.2]
    rw [tokens, nestsWithin_group hb]
    simp only [nestsWithin_append hl, nestsWithin_cons_of_ne hop.1 hop.2, ihl, ihr, height]
    constructor
    · intro h
      obtain ⟨m, rfl, hm⟩ := h
      omega
    · intro h
      exact ⟨n - 1, by omega, by omega, by omega⟩

end Expr

theorem Binary64.denotes_text (x : Binary64) (h : x.isUnsigned = true) :
    Numeral.Denotes x.text x := by
  cases x with
  | nan => cases h
  | infinite negative => cases h
  | finite negative units fits =>
    cases negative with
    | true => cases h
    | false => exact Layout.denotes_shortest .up fits

namespace Scanner

variable {rest : List Char} {ts : List Token}

/-- The text of an unsigned number is read as this number, if nothing behind it continues it. -/
theorem tokens_text_number {x : Binary64} (hx : x.isUnsigned = true)
    (hstop : ∀ c ∈ rest.head?, Numeral.isPart c = false)
    (hrest : ∀ offset, (⟨rest, offset⟩ : Scanner).tokens = .ok ts) (offset : Nat) :
    (⟨x.text ++ rest, offset⟩ : Scanner).tokens = .ok (.number x :: ts) :=
  tokens_of_next (next_number offset (x.denotes_text hx) hstop) (hrest _)

/-- The text of an expression is read as its tokens, if nothing behind it continues a number. -/
theorem tokens_text {e : Expr} (he : ∀ x ∈ e.numbers, x.isUnsigned = true)
    (hstop : ∀ c ∈ rest.head?, Numeral.isPart c = false)
    (hrest : ∀ offset, (⟨rest, offset⟩ : Scanner).tokens = .ok ts) (offset : Nat) :
    (⟨e.text ++ rest, offset⟩ : Scanner).tokens = .ok (e.tokens ++ ts) := by
  induction e generalizing rest ts offset with
  | number x => exact tokens_text_number (he x (by simp [Expr.numbers])) hstop hrest offset
  | negate e ih =>
    exact tokens_symbol (s := .minus) (ih he hstop hrest _)
  | binary op left right ihl ihr =>
    have hl : ∀ x ∈ left.numbers, x.isUnsigned = true :=
      fun x hx => he x (List.mem_append_left _ hx)
    have hr : ∀ x ∈ right.numbers, x.isUnsigned = true :=
      fun x hx => he x (List.mem_append_right _ hx)
    simp only [Expr.text, Expr.tokens, List.cons_append, List.append_assoc, List.nil_append]
    -- from the right to the left, each part with what follows it
    have hclosing : ∀ offset, (⟨')' :: rest, offset⟩ : Scanner).tokens =
        .ok (.symbol .closing :: ts) :=
      fun offset => tokens_symbol (s := .closing) (hrest _)
    have hright := ihr hr (by simp; rfl) hclosing
    have hop : ∀ offset, (⟨' ' :: op.symbol.char :: ' ' :: (right.text ++ ')' :: rest), offset⟩ :
        Scanner).tokens = .ok (.symbol op.symbol :: (right.tokens ++ .symbol .closing :: ts)) := by
      intro offset
      rw [tokens_blank rfl]
      refine tokens_symbol ?_
      rw [tokens_blank rfl]
      exact hright _
    exact tokens_symbol (s := .opening) (ihl hl (by simp; rfl) hop _)

end Scanner

/-- The text of an expression with unsigned numbers has the tokens of the expression, which pass the
screening and are read as the very same expression. Only one with more than 256 operations on a way
from the root down is refused, and for its depth. -/
theorem printed_expression_is_read (e : Expr) (h : ∀ x ∈ e.numbers, x.isUnsigned = true) :
    ∃ ts, tokenize e.text = .ok ts ∧ screen ts = .ok () ∧
      parse ts = if e.height ≤ 256 then .ok e else .error (.nestedTooDeep 256) := by
  have hd : Derives .sum e.tokens e := .product (.unary e.derives_tokens)
  have ht := Scanner.tokens_text h (by simp) (fun offset => Scanner.tokens_end) 0
  rw [List.append_nil, List.append_nil] at ht
  refine ⟨e.tokens, ht, hd.screen_eq_ok, ?_⟩
  split
  · rename_i hh
    exact parse_eq_ok_iff.mpr ⟨hd, e.nestsWithin_tokens.mpr hh⟩
  · rename_i hh
    exact parse_eq_nestedTooDeep hd (mt e.nestsWithin_tokens.mp hh)

/-- One half subtracted 257 times, with a minus sign before each group. -/
theorem subtracted_257_times_is_refused :
    let half := Binary64.ofBits 0x3fe0000000000000
    let e := (fun e => .negate (.binary .subtract e (.number half)))^[257] (Expr.number half)
    (∀ x ∈ e.numbers, x.isUnsigned = true) ∧ e.height = 257 ∧
    ∃ ts, tokenize e.text = .ok ts ∧ screen ts = .ok () ∧
      parse ts = .error (.nestedTooDeep 256) := by
  intro half e
  have he : ∀ x ∈ e.numbers, x.isUnsigned = true := by decide +kernel
  have hh : e.height = 257 := by decide +kernel
  refine ⟨he, hh, ?_⟩
  obtain ⟨ts, ht, hs, hp⟩ := printed_expression_is_read e he
  rw [hh, if_neg (by decide)] at hp
  exact ⟨ts, ht, hs, hp⟩

end Calculator
