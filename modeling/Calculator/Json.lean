import Calculator.Decimal.Shortest

namespace Calculator

/-- A JSON value. A number is the decimal that is written, and the fields of an object stand in the
order in which they are written. -/
inductive Json where
  | null
  | bool (value : Bool)
  | number (negative : Bool) (magnitude : Decimal)
  | string (text : String)
  | array (items : List Json)
  | object (fields : List (String × Json))
deriving Inhabited

namespace Json

def typeName : Json → String
  | .null => "null"
  | .bool _ => "boolean"
  | .number .. => "number"
  | .string _ => "string"
  | .array _ => "array"
  | .object _ => "object"

/-- JSON has no infinities and no NaN. -/
def ofBinary64 : Binary64 → Json
  | .finite negative units _ => .number negative (.shortest .even units)
  | _ => .null

end Json

end Calculator
