import Calculator.Text.Lines
import Mathlib.Data.List.Basic

namespace Calculator.Text

/-- A piece without the carriage return at its end. -/
def withoutReturn (piece : List Char) : List Char :=
  if piece.getLast? = some '\r' then piece.dropLast else piece

/-- The lines that the pieces between line feeds make up. A carriage return belongs to the feed
behind it, and the last piece has none. -/
def ofPieces (pieces : List (List Char)) : List (List Char) :=
  pieces.dropLast.map withoutReturn ++ pieces.getLast?.toList.filter (!·.isEmpty)

variable {piece rest : List Char} {pieces : List (List Char)}

theorem endLine_eq (reversed : List Char) : endLine reversed = withoutReturn reversed.reverse := by
  cases reversed with
  | nil => rfl
  | cons c reversed =>
    by_cases h : c = '\r'
    · subst h
      simp [endLine, withoutReturn]
    · simp [endLine, withoutReturn, h]

theorem withoutReturn_of_not_mem (h : '\r' ∉ piece) : withoutReturn piece = piece :=
  if_neg fun hlast => h (List.mem_of_getLast? hlast)

theorem ofPieces_cons (h : pieces ≠ []) :
    ofPieces (piece :: pieces) = withoutReturn piece :: ofPieces pieces := by
  rw [ofPieces, ofPieces, List.dropLast_cons_of_ne_nil h, List.getLast?_cons_of_ne_nil h]
  rfl

theorem modifyHead_nil_append (pieces : List (List Char)) :
    pieces.modifyHead (List.reverse [] ++ ·) = pieces := by
  cases pieces <;> rfl

/-- The characters read so far are the beginning of the first piece. -/
theorem linesFrom_eq (reversed text : List Char) :
    linesFrom reversed text =
      ofPieces ((text.splitOn '\n').modifyHead (reversed.reverse ++ ·)) := by
  induction text generalizing reversed with
  | nil =>
    cases reversed with
    | nil => rfl
    | cons c reversed => simp [linesFrom, ofPieces]
  | cons c text ih =>
    rw [linesFrom, List.splitOn_cons_eq_if_modifyHead]
    by_cases h : c = '\n'
    · rw [if_pos h, if_pos (beq_iff_eq.mpr h), List.modifyHead_cons, List.append_nil,
        ofPieces_cons (List.splitOn_ne_nil _ _), endLine_eq, ih, modifyHead_nil_append]
    · rw [if_neg h, if_neg (mt beq_iff_eq.mp h), ih, List.modifyHead_modifyHead]
      simp [Function.comp_def]

theorem lines_eq (text : List Char) : lines text = ofPieces (text.splitOn '\n') := by
  rw [lines, linesFrom_eq, modifyHead_nil_append]

/-- The first line ends with the first line feed. -/
theorem lines_append (h : '\n' ∉ piece) :
    lines (piece ++ '\n' :: rest) = withoutReturn piece :: lines rest := by
  rw [lines_eq, lines_eq, List.splitOn_append_cons_self_of_not_mem h,
    ofPieces_cons (List.splitOn_ne_nil _ _)]

/-- Texts that are written one a line are the lines of the whole. -/
theorem lines_flatMap (texts : List (List Char))
    (h : ∀ text ∈ texts, '\n' ∉ text ∧ '\r' ∉ text) :
    lines (texts.flatMap (· ++ ['\n'])) = texts := by
  induction texts with
  | nil => rfl
  | cons text texts ih =>
    obtain ⟨hfeed, hreturn⟩ := h text List.mem_cons_self
    rw [List.flatMap_cons, List.append_assoc, List.singleton_append, lines_append hfeed,
      withoutReturn_of_not_mem hreturn, ih fun t ht => h t (List.mem_cons_of_mem text ht)]

end Calculator.Text
