import Calculator.Json.Reading
import Calculator.Json.Writing
import Mathlib.Data.List.Forall2

namespace Calculator.Json

section

variable {reversed rest text : List Char} {c : Char}

theorem hexDigit?_digitChar {d : Nat} (h : d < 16) : hexDigit? d.digitChar = some d := by
  have hall : ∀ d : Fin 16, hexDigit? d.val.digitChar = some d.val := by decide
  exact hall ⟨d, h⟩

/-- A control character is written with its code unit. -/
theorem readEscape_unit (h : c.toNat < 0x20) : readEscape
    ('u' :: '0' :: '0' :: (c.toNat / 16).digitChar :: (c.toNat % 16).digitChar :: rest) =
      .ok (c, rest) := by
  have hunit : readUnit ('0' :: '0' :: (c.toNat / 16).digitChar :: (c.toNat % 16).digitChar :: rest)
      = .ok (c.toNat, rest) := by
    have hzero : hexDigit? '0' = some 0 := rfl
    have hhigh := hexDigit?_digitChar (d := c.toNat / 16) (by omega)
    have hlow := hexDigit?_digitChar (d := c.toNat % 16) (by omega)
    have hsum : ((0 * 16 + 0) * 16 + c.toNat / 16) * 16 + c.toNat % 16 = c.toNat := by omega
    simp only [readUnit, hzero, hhigh, hlow, hsum]
  have hnotLow : isLowSurrogate c.toNat = false := by
    rw [isLowSurrogate, decide_eq_false (by omega), Bool.false_and]
  have hnotHigh : isHighSurrogate c.toNat = false := by
    rw [isHighSurrogate, decide_eq_false (by omega), Bool.false_and]
  rw [readEscape, if_pos rfl, hunit]
  simp only [bind, Except.bind, hnotLow, hnotHigh, Bool.false_eq_true, if_false, Char.ofNat_toNat]
  rfl

theorem readString_escaped (h : readEscape text = .ok (c, rest)) :
    readString reversed ('\\' :: text) = readString (c :: reversed) rest := by
  rw [readString]
  split
  · rename_i he
    rw [h] at he
    cases he
  · rename_i he
    rw [h] at he
    cases he
    rfl

/-- What is written for a character reads as that character. -/
theorem readString_escape (reversed : List Char) (c : Char) (rest : List Char) :
    readString reversed (escape c ++ rest) = readString (c :: reversed) rest := by
  unfold escape
  split
  -- a quote, a backslash and the five control characters that have a letter
  iterate 7 exact readString_escaped rfl
  rename_i hquote hbackslash _ _ _ _ _
  split
  · rename_i h
    exact readString_escaped (readEscape_unit h)
  · rename_i h
    rw [List.singleton_append, readString, if_neg h]
    · exact hquote
    · exact hbackslash

theorem readString_flatMap_escape (reversed s rest : List Char) :
    readString reversed (s.flatMap escape ++ rest) = readString (s.reverse ++ reversed) rest := by
  induction s generalizing reversed with
  | nil => rfl
  | cons c s ih =>
    rw [List.flatMap_cons, List.append_assoc, readString_escape, ih, List.reverse_cons,
      List.append_assoc, List.singleton_append]

/-- A quoted text is read to its closing quote and no further. -/
theorem readString_quote (text : String) (rest : List Char) :
    readString [] (text.toList.flatMap escape ++ '"' :: rest) = .ok (text, rest) := by
  rw [readString_flatMap_escape, readString, List.append_nil, List.reverse_reverse,
    String.ofList_toList]

theorem readScalar_quote (text : String) (rest : List Char) :
    readScalar (quote text ++ rest) = .ok (.string text, rest) := by
  rw [quote, List.append_assoc, List.singleton_append, List.cons_append, readScalar, if_pos rfl,
    readString_quote]

theorem skipSpace_cons (h : isSpace c = false) (text : List Char) :
    skipSpace (c :: text) = c :: text :=
  List.dropWhile_cons_of_neg (by simp [h])

end

variable {levels : Nat} {stack : List Container} {reversed : List Json} {text rest : List Char}
  {c : Char} {v w : Json} {items items' : List Json}

theorem readValue_scalar (hc : isSpace c = false) (hlist : c ≠ '[') (hobject : c ≠ '{')
    (h : readScalar (c :: text) = .ok (v, rest)) :
    readValue stack (c :: text) = endValue stack v rest := by
  have hskip := skipSpace_cons hc text
  rw [readValue]
  split
  · rename_i h'
    rw [hskip] at h'
    cases h'
    contradiction
  · rename_i h'
    rw [hskip] at h'
    cases h'
    contradiction
  · split
    · rename_i h'
      rw [hskip, h] at h'
      cases h'
    · rename_i h'
      rw [hskip, h] at h'
      cases h'
      rfl

theorem readValue_empty_list (hs : stack.length < maxOpen) :
    readValue stack ('[' :: ']' :: rest) = endValue stack (.array []) rest := by
  rw [readValue]
  exact if_pos hs

/-- What stands behind an opening bracket is the first item, unless it is the closing bracket. -/
theorem readValue_opening (hs : stack.length < maxOpen) (hc : isSpace c = false) (hend : c ≠ ']') :
    readValue stack ('[' :: c :: text) = readValue (.list [] :: stack) (c :: text) := by
  rw [readValue]
  refine (if_pos hs).trans ?_
  split
  · rename_i h
    rw [skipSpace_cons hc] at h
    cases h
  · rename_i h
    rw [skipSpace_cons hc] at h
    cases h
    contradiction
  · rfl

theorem endValue_comma (hc : isSpace c = false) (hend : c ≠ ']') :
    endValue (.list reversed :: stack) v (',' :: c :: text) =
      readValue (.list (v :: reversed) :: stack) (c :: text) := by
  rw [endValue]
  split
  · rename_i h
    cases h
  · rename_i h
    cases h
  · rename_i h
    cases h
    rw [skipSpace_cons hc]
    split
    · rename_i h
      cases h
    · rename_i h
      cases h
      contradiction
    · rfl
  · rename_i h
    exact absurd rfl (h _)

theorem endValue_closing : endValue (.list reversed :: stack) v (']' :: rest) =
    endValue stack (.array (v :: reversed).reverse) rest := by
  rw [endValue]
  rfl

/-- What may stand behind a value within a text. -/
def Follows (rest : List Char) : Prop := ∀ c ∈ rest.head?, c = ',' ∨ c = ']' ∨ c = '}'

/-- The text of `v` reads as `w`, as long as so many more lists and objects may be open. -/
structure ReadsAs (levels : Nat) (v w : Json) : Prop where
  begins : ∃ c text, v.write none = c :: text ∧ isSpace c = false ∧ c ≠ ']'
  reads : ∀ {stack rest}, stack.length + levels ≤ maxOpen → Follows rest →
    readValue stack (v.write none ++ rest) = endValue stack w rest

theorem readsAs_string (text : String) : ReadsAs 0 (.string text) (.string text) := by
  constructor
  · exact ⟨_, _, rfl, rfl, by decide⟩
  · intro stack rest _ _
    exact readValue_scalar rfl (by decide) (by decide) (readScalar_quote text rest)

theorem writeItems_cons (x : Json) (items : List Json) :
    writeItems none (x :: items) = ',' :: (x.write none ++ writeItems none items) := by
  rw [writeItems]
  rfl

theorem write_array_cons (x : Json) (items : List Json) :
    (array (x :: items)).write none = '[' :: (x.write none ++ writeItems none items) := by
  rw [write]
  rfl

theorem follows_writeItems (items : List Json) (rest : List Char) :
    Follows (writeItems none items ++ rest) := by
  cases items with
  | nil =>
    intro c hc
    exact .inr (.inl (Option.some.inj hc).symm)
  | cons x items =>
    rw [writeItems_cons]
    intro c hc
    exact .inl (Option.some.inj hc).symm

/-- The items that are still due are read behind the ones that have been read. -/
theorem endValue_writeItems (h : List.Forall₂ (ReadsAs levels) items items')
    (hs : stack.length + 1 + levels ≤ maxOpen) :
    endValue (.list reversed :: stack) v (writeItems none items ++ rest) =
      endValue stack (.array (reversed.reverse ++ v :: items')) rest := by
  induction h generalizing reversed v with
  | nil =>
    rw [← List.reverse_cons]
    exact endValue_closing
  | @cons x x' items items' hx _ ih =>
    obtain ⟨c, text, hw, hc, hend⟩ := hx.begins
    have hread : readValue (.list (v :: reversed) :: stack)
        (x.write none ++ (writeItems none items ++ rest)) =
          endValue (.list (v :: reversed) :: stack) x' (writeItems none items ++ rest) :=
      hx.reads hs (follows_writeItems items rest)
    rw [hw, List.cons_append] at hread
    rw [writeItems_cons, List.cons_append, List.append_assoc, hw, List.cons_append,
      endValue_comma hc hend, hread, ih, List.reverse_cons, List.append_assoc,
      List.singleton_append]

/-- A list takes one level more than its items. -/
theorem readsAs_array (h : List.Forall₂ (ReadsAs levels) items items') :
    ReadsAs (levels + 1) (.array items) (.array items') := by
  cases h with
  | nil =>
    constructor
    · exact ⟨_, _, rfl, rfl, by decide⟩
    · intro stack rest hs _
      exact readValue_empty_list (by omega)
  | @cons x x' items items' hx h =>
    constructor
    · exact ⟨_, _, write_array_cons x items, rfl, by decide⟩
    · intro stack rest hs _
      obtain ⟨c, text, hw, hc, hend⟩ := hx.begins
      have hread : readValue (.list [] :: stack) (x.write none ++ (writeItems none items ++ rest)) =
          endValue (.list [] :: stack) x' (writeItems none items ++ rest) := by
        refine hx.reads ?_ (follows_writeItems items rest)
        rw [List.length_cons]
        omega
      rw [hw, List.cons_append] at hread
      rw [write_array_cons, List.cons_append, List.append_assoc, hw, List.cons_append,
        readValue_opening (by omega) hc hend, hread, endValue_writeItems h (by omega)]
      rfl

theorem write_writeItems (x : Json) (items : List Json) : x.write none ++ writeItems none items =
    [','].intercalate ((x :: items).map (write none)) ++ [']'] := by
  induction items generalizing x with
  | nil =>
    rw [List.map_singleton, List.intercalate_singleton]
    rfl
  | cons y items ih =>
    rw [writeItems_cons, ih, List.map_cons, List.map_cons, List.map_cons,
      List.intercalate_cons_cons, List.append_assoc, List.append_assoc, List.singleton_append]

/-- A list is written with commas between its items. -/
theorem write_array (items : List Json) : (array items).write none =
    '[' :: [','].intercalate (items.map (write none)) ++ [']'] := by
  cases items with
  | nil => rfl
  | cons x items => rw [write_array_cons, write_writeItems, List.cons_append]

section

variable {key key' : String} {reversed fields fields' : List (String × Json)}

theorem quote_append (key : String) (rest : List Char) :
    quote key ++ rest = '"' :: (key.toList.flatMap escape ++ '"' :: rest) := by
  rw [quote, List.cons_append, List.cons_append, List.append_assoc, List.singleton_append]

/-- A key is read with the colon behind it. -/
theorem readField_quote (key : String) (rest : List Char) :
    readField stack reversed (quote key ++ ':' :: rest) =
      readValue (.fields reversed key :: stack) rest := by
  have hkey : readKey (skipSpace (quote key ++ ':' :: rest)) = .ok (key, rest) := by
    rw [quote_append, skipSpace_cons rfl, readKey, readString_quote]
    rfl
  rw [readField]
  split
  · rename_i h
    rw [hkey] at h
    cases h
  · rename_i h
    rw [hkey] at h
    cases h
    rfl

theorem readValue_empty_object (hs : stack.length < maxOpen) :
    readValue stack ('{' :: '}' :: rest) = endValue stack (.object []) rest := by
  rw [readValue]
  exact if_pos hs

theorem readValue_opening_quote (hs : stack.length < maxOpen) :
    readValue stack ('{' :: (quote key ++ text)) = readField stack [] (quote key ++ text) := by
  rw [quote_append, readValue]
  exact if_pos hs

theorem endValue_comma_quote :
    endValue (.fields reversed key :: stack) v (',' :: (quote key' ++ text)) =
      readField stack ((key, v) :: reversed) (quote key' ++ text) := by
  rw [quote_append, endValue]
  rfl

theorem endValue_closing_object : endValue (.fields reversed key :: stack) v ('}' :: rest) =
    endValue stack (.object ((key, v) :: reversed).reverse) rest := by
  rw [endValue]
  rfl

theorem writeFields_cons (key : String) (x : Json) (fields : List (String × Json)) :
    writeFields none ((key, x) :: fields) =
      ',' :: (quote key ++ ':' :: (x.write none ++ writeFields none fields)) := by
  simp [writeFields, lineBreak, colon]

theorem write_object_cons (key : String) (x : Json) (fields : List (String × Json)) :
    (object ((key, x) :: fields)).write none =
      '{' :: (quote key ++ ':' :: (x.write none ++ writeFields none fields)) := by
  simp [write, lineBreak, colon]

theorem follows_writeFields (fields : List (String × Json)) (rest : List Char) :
    Follows (writeFields none fields ++ rest) := by
  cases fields with
  | nil =>
    intro c hc
    exact .inr (.inr (Option.some.inj hc).symm)
  | cons field fields =>
    rw [writeFields_cons]
    intro c hc
    exact .inl (Option.some.inj hc).symm

/-- A field is read with its key, and its value as another one may be. -/
structure FieldReadsAs (levels : Nat) (field field' : String × Json) : Prop where
  key : field.1 = field'.1
  value : ReadsAs levels field.2 field'.2

theorem readField_field {field field' : String × Json} (h : FieldReadsAs levels field field')
    (hs : stack.length + 1 + levels ≤ maxOpen) :
    readField stack reversed
        (quote field.1 ++ ':' :: (field.2.write none ++ (writeFields none fields ++ rest))) =
      endValue (.fields reversed field'.1 :: stack) field'.2 (writeFields none fields ++ rest) := by
  rw [readField_quote, h.key]
  exact h.value.reads hs (follows_writeFields fields rest)

/-- The fields that are still due are read behind the ones that have been read. -/
theorem endValue_writeFields (h : List.Forall₂ (FieldReadsAs levels) fields fields')
    (hs : stack.length + 1 + levels ≤ maxOpen) :
    endValue (.fields reversed key :: stack) v (writeFields none fields ++ rest) =
      endValue stack (.object (reversed.reverse ++ (key, v) :: fields')) rest := by
  induction h generalizing reversed key v with
  | nil =>
    rw [← List.reverse_cons]
    exact endValue_closing_object
  | @cons field field' fields fields' hfield _ ih =>
    rw [writeFields_cons, List.cons_append, List.append_assoc, List.cons_append, List.append_assoc,
      endValue_comma_quote, readField_field hfield hs, ih, List.reverse_cons, List.append_assoc,
      List.singleton_append]

/-- An object takes one level more than the values of its fields. -/
theorem readsAs_object (h : List.Forall₂ (FieldReadsAs levels) fields fields') :
    ReadsAs (levels + 1) (.object fields) (.object fields') := by
  cases h with
  | nil =>
    constructor
    · exact ⟨_, _, rfl, rfl, by decide⟩
    · intro stack rest hs _
      exact readValue_empty_object (by omega)
  | @cons field field' fields fields' hfield h =>
    constructor
    · exact ⟨_, _, write_object_cons field.1 field.2 fields, rfl, by decide⟩
    · intro stack rest hs _
      rw [write_object_cons, List.cons_append, List.append_assoc, List.cons_append,
        List.append_assoc, readValue_opening_quote (by omega), readField_field hfield (by omega),
        endValue_writeFields h (by omega)]
      rfl

end

/-- Nothing but the value may stand in the whole text. -/
theorem ReadsAs.read (h : ReadsAs levels v w) (hl : levels ≤ maxOpen) :
    Json.read (v.write none) = .ok w := by
  have hnone : Follows [] := by
    intro c hc
    cases hc
  have hread : readValue [] (v.write none ++ []) = endValue [] w [] :=
    h.reads (by rwa [List.length_nil, Nat.zero_add]) hnone
  rw [List.append_nil, endValue] at hread
  exact hread

end Calculator.Json
