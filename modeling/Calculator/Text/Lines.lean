namespace Calculator.Text

/-- A line end is a line feed, with the carriage return before it if there is one. -/
def endLine : List Char → List Char
  | '\r' :: reversed => reversed.reverse
  | reversed => reversed.reverse

def linesFrom (reversed : List Char) : List Char → List (List Char)
  | [] => if reversed.isEmpty then [] else [reversed.reverse]
  | c :: rest =>
    if c = '\n' then endLine reversed :: linesFrom [] rest else linesFrom (c :: reversed) rest

/-- The lines of a text without their ends. The last line needs no end. -/
def lines (text : List Char) : List (List Char) := linesFrom [] text

end Calculator.Text
