import Calculator.Command.Arguments
import Calculator.Decimal.Scaled

namespace Calculator

/-- How a result is printed. -/
inductive Style where
  | rounded
  | raw
  | json
deriving DecidableEq

/-- What the program is asked to do. Without an expression or a batch they are taken from standard
input. -/
inductive Command where
  | eval (expression : Option String) (style : Style) (decimals : Nat)
  | check (expression : String)
  | tokens (expression : String)
  | batch (input : Option String) (decimals : Nat) (isPretty : Bool)
  | reference
  | version
deriving DecidableEq

namespace Command

def debug : Switch := ⟨"debug", some 'd', false, true⟩
def decimalsOption : Switch := ⟨"max-decimals", none, true, false⟩
def rawOption : Switch := ⟨"raw", none, false, false⟩
def jsonOption : Switch := ⟨"json", none, false, false⟩
def inputOption : Switch := ⟨"input", some 'i', true, false⟩
def prettyOption : Switch := ⟨"pretty", some 'p', false, false⟩

/-- The option comes before the environment, and only what is used is checked. -/
def decimals (a : Arguments) (environment : Option String) : Option Nat :=
  match a.value? "max-decimals" <|> environment with
  | some text => readCount text
  | none => some defaultDecimals

def optionalOperand (a : Arguments) : Option (Option String) :=
  match a.operands with
  | [] => some none
  | [operand] => some (some operand)
  | _ => none

def readEval (environment : Option String) (arguments : List String) : Option Command := do
  let a ← Arguments.read? [debug, decimalsOption, rawOption, jsonOption] arguments
  let expression ← optionalOperand a
  let decimals ← decimals a environment
  match a.has "raw", a.has "json" with
  | true, true => none
  | true, false => some (.eval expression .raw decimals)
  | false, true => some (.eval expression .json decimals)
  | false, false => some (.eval expression .rounded decimals)

def readBatch (environment : Option String) (arguments : List String) : Option Command := do
  let a ← Arguments.read? [debug, decimalsOption, inputOption, prettyOption] arguments
  let decimals ← decimals a environment
  if a.operands.isEmpty then some (.batch (a.value? "input") decimals (a.has "pretty")) else none

/-- Reads the arguments of a command that takes operands only. -/
def readOperands (arguments : List String) : Option (List String) :=
  (Arguments.read? [debug] arguments).map Arguments.operands

def readNamed (environment : Option String) (name : String) (arguments : List String) :
    Option Command :=
  match name with
  | "eval" => readEval environment arguments
  | "batch" => readBatch environment arguments
  | "check" =>
    match readOperands arguments with
    | some [expression] => some (.check expression)
    | _ => none
  | "tokens" =>
    match readOperands arguments with
    | some [expression] => some (.tokens expression)
    | _ => none
  | "docs" =>
    match readOperands arguments with
    | some [] => some .reference
    | _ => none
  | _ => none

/-- What letters before a command ask for: the version if `V` is among them, and otherwise
nothing. Letters other than `d` and `V` are not understood. -/
def asksVersion? : List Char → Option Bool
  | [] => some false
  | 'V' :: _ => some true
  | 'd' :: rest => asksVersion? rest
  | _ => none

/-- Reads a command line, `none` if it is not understood. -/
def ofArguments (environment : Option String) : List String → Option Command
  | [] => none
  | argument :: rest =>
    match Word.ofString argument with
    | .plain => readNamed environment argument rest
    | .long "debug" none => ofArguments environment rest
    | .long "version" none => some .version
    | .letters letters =>
      match asksVersion? letters with
      | some true => some .version
      | some false => ofArguments environment rest
      | none => none
    | _ => none

/-- Whether standard input has a part in the answer. -/
def usesInput : Command → Bool
  | .eval none _ _ | .batch none _ _ => true
  | _ => false

end Command

end Calculator
