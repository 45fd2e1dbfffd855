import Calculator.Decimal.Layout
import Calculator.Json

namespace Calculator

/-- Numbers as they stand in JSON texts. -/
def Layout.json : Layout := ⟨fun x => -5 ≤ x && x ≤ 15, ['.', '0']⟩

namespace Json

/-- Only quotes, backslashes and control characters are escaped. -/
def escape (c : Char) : List Char :=
  match c with
  | '"' => ['\\', '"']
  | '\\' => ['\\', '\\']
  | '\x08' => ['\\', 'b']
  | '\t' => ['\\', 't']
  | '\n' => ['\\', 'n']
  | '\x0c' => ['\\', 'f']
  | '\r' => ['\\', 'r']
  | c =>
    if c.toNat < 0x20 then
      ['\\', 'u', '0', '0', (c.toNat / 16).digitChar, (c.toNat % 16).digitChar]
    else [c]

def quote (text : String) : List Char := '"' :: text.toList.flatMap escape ++ ['"']

def numeral (negative : Bool) (d : Decimal) : List Char :=
  Binary64.sign negative ++ Layout.json.write d

/-- The end of a line and the margin of the next one, if the text is laid out in lines. -/
def lineBreak : Option Nat → List Char
  | none => []
  | some level => '\n' :: List.replicate (2 * level) ' '

def colon (level : Option Nat) : List Char := if level.isSome then [':', ' '] else [':']

mutual

/-- The text of a value, on one line or with each item on a line of its own, two spaces further in
than what holds it. -/
def write (level : Option Nat) : Json → List Char
  | .null => ['n', 'u', 'l', 'l']
  | .bool true => ['t', 'r', 'u', 'e']
  | .bool false => ['f', 'a', 'l', 's', 'e']
  | .number negative d => numeral negative d
  | .string text => quote text
  | .array [] => ['[', ']']
  | .array (x :: items) =>
    '[' :: lineBreak (level.map (· + 1)) ++ write (level.map (· + 1)) x ++ writeItems level items
  | .object [] => ['{', '}']
  | .object ((key, x) :: fields) =>
    '{' :: lineBreak (level.map (· + 1)) ++ quote key ++ colon level ++
      write (level.map (· + 1)) x ++ writeFields level fields

/-- The items after the first one, up to the closing bracket. -/
def writeItems (level : Option Nat) : List Json → List Char
  | [] => lineBreak level ++ [']']
  | x :: items =>
    ',' :: lineBreak (level.map (· + 1)) ++ write (level.map (· + 1)) x ++ writeItems level items

/-- The fields after the first one, up to the closing brace. -/
def writeFields (level : Option Nat) : List (String × Json) → List Char
  | [] => lineBreak level ++ ['}']
  | (key, x) :: fields =>
    ',' :: lineBreak (level.map (· + 1)) ++ quote key ++ colon level ++
      write (level.map (· + 1)) x ++ writeFields level fields

end

def compact (value : Json) : String := .ofList (value.write none)

def pretty (value : Json) : String := .ofList (value.write (some 0))

end Json

end Calculator
