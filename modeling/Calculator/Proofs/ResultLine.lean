import Calculator.Proofs.JsonNumbers
import Calculator.Report

namespace Calculator

namespace Json

/-- A text without control characters, so without line breaks. -/
def IsLine (text : List Char) : Prop := ∀ c ∈ text, 0x20 ≤ c.toNat

section

variable {c : Char} {first second text : List Char}

@[simp] theorem isLine_nil : IsLine [] :=
  List.forall_mem_nil _

@[simp] theorem isLine_cons : IsLine (c :: text) ↔ 0x20 ≤ c.toNat ∧ IsLine text :=
  List.forall_mem_cons

@[simp] theorem isLine_append : IsLine (first ++ second) ↔ IsLine first ∧ IsLine second :=
  List.forall_mem_append

theorem isLine_of_isDigit (h : ∀ c ∈ text, c.isDigit = true) : IsLine text := by
  intro c hc
  have hdigit := h c hc
  simp only [Char.isDigit, Bool.and_eq_true, decide_eq_true_eq] at hdigit
  have hlow : 48 ≤ c.toNat := hdigit.1
  omega

@[simp] theorem isLine_toDigits (n : ℕ) : IsLine (Nat.toDigits 10 n) :=
  isLine_of_isDigit isDigit_of_mem_toDigits

theorem isLine_escape (c : Char) : IsLine (escape c) := by
  unfold escape
  split
  iterate 7 simp
  split
  · rename_i h
    have hhex : ∀ d : Fin 16, 0x20 ≤ d.val.digitChar.toNat := by decide
    have hhigh := hhex ⟨c.toNat / 16, by omega⟩
    have hlow := hhex ⟨c.toNat % 16, by omega⟩
    simp [hhigh, hlow]
  · rename_i h
    simpa using h

@[simp] theorem isLine_quote (text : String) : IsLine (quote text) := by
  have hall : IsLine (text.toList.flatMap escape) := by
    intro c hc
    obtain ⟨d, _, hd⟩ := List.mem_flatMap.mp hc
    exact isLine_escape d c hd
  simp [quote, hall]

@[simp] theorem isLine_pointed (n places : ℕ) : IsLine (Decimal.pointed n places) := by
  have hplaces : IsLine (Decimal.lastDigits n places) :=
    isLine_of_isDigit fun c hc => Decimal.isDigit_of_mem_parts (List.mem_append_right _ hc)
  rw [Decimal.pointed_eq]
  split <;> simp [hplaces]

theorem isLine_write_decimal (d : Decimal) : IsLine (Layout.json.write d) := by
  rw [Layout.write]
  split
  · rw [Decimal.positional]
    split <;> simp [Layout.json]
  · rw [Decimal.scientific_eq, Decimal.exponentText]
    split <;> simp

theorem isLine_numeral (negative : Bool) (d : Decimal) : IsLine (numeral negative d) := by
  cases negative <;> simp [numeral, Binary64.sign, isLine_write_decimal]

end

/-- A value that is written without line breaks is a line, whatever texts it holds. -/
theorem isLine_write (v : Json) : IsLine (v.write none) := by
  refine @Json.rec (fun v => IsLine (v.write none)) (fun items => IsLine (writeItems none items))
    (fun fields => IsLine (writeFields none fields)) (fun field => IsLine (field.2.write none))
    ?null ?bool ?number ?string ?array ?object ?noItem ?item ?noField ?field ?pair v
  case null => simp [write]
  case bool =>
    intro value
    cases value <;> simp [write]
  case number => exact isLine_numeral
  case string => exact isLine_quote
  case array =>
    intro items h
    cases items with
    | nil => simp [write]
    | cons x items =>
      rw [writeItems_cons, isLine_cons] at h
      simp [write_array_cons, h.2]
  case object =>
    intro fields h
    cases fields with
    | nil => simp [write]
    | cons field fields =>
      rw [writeFields_cons, isLine_cons] at h
      rw [write_object_cons, isLine_cons]
      exact ⟨by decide, h.2⟩
  case noItem => simp [writeItems, lineBreak]
  case item =>
    intro x items hx hitems
    simp [writeItems_cons, hx, hitems]
  case noField => simp [writeFields, lineBreak]
  case field =>
    intro field fields hx hfields
    rw [writeFields_cons]
    simp [hx, hfields]
  case pair =>
    intro key x hx
    exact hx

/-- The number that a JSON number is read as, the nearest one to it. -/
def nearest? : Json → Option Binary64
  | .number negative d => some (.ofScientific negative d.significand d.exponent)
  | _ => none

theorem readsAs_ofBinary64 (x : Binary64) : ∃ value, ReadsAs 0 (.ofBinary64 x) value ∧
    if x.isFinite then nearest? value = some x else value = .null := by
  cases x with
  | nan => exact ⟨_, readsAs_null, rfl⟩
  | infinite negative => exact ⟨_, readsAs_null, rfl⟩
  | finite negative units h =>
    refine ⟨_, readsAs_number negative h, ?_⟩
    rw [Binary64.isFinite, if_pos rfl, nearest?, Decimal.ofScientific_asRead,
      Decimal.ofScientific_shortest negative .even h]

end Json

/-- A result is written as one line of JSON, and nothing is lost: what is decoded has the
expression, the formatted number and the number itself, which is null if it is not finite. -/
theorem result_line_is_decoded (decimals : ℕ) (expression : String) (x : Binary64) :
    (∀ c ∈ (Report.success decimals expression x).compact.toList, 0x20 ≤ c.toNat) ∧
    ∃ value, Json.read (Report.success decimals expression x).compact.toList = .ok (.object
        [("expression", .string expression), ("formatted", .string (.ofList (x.fixed decimals))),
          ("value", value)]) ∧
      if x.isFinite then value.nearest? = some x else value = .null := by
  obtain ⟨value, hvalue, hx⟩ := Json.readsAs_ofBinary64 x
  rw [Json.compact, String.toList_ofList]
  refine ⟨Json.isLine_write _, value, ?_, hx⟩
  have hfields : List.Forall₂ (Json.FieldReadsAs 0)
      [("expression", .string expression), ("formatted", .string (.ofList (x.fixed decimals))),
        ("value", .ofBinary64 x)]
      [("expression", .string expression), ("formatted", .string (.ofList (x.fixed decimals))),
        ("value", value)] :=
    .cons ⟨rfl, Json.readsAs_string _⟩ (.cons ⟨rfl, Json.readsAs_string _⟩
      (.cons ⟨rfl, hvalue⟩ .nil))
  exact (Json.readsAs_object hfields).read (by decide)

end Calculator
