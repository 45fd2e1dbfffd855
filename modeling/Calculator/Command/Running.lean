import Calculator.Command
import Calculator.Reference
import Calculator.Report
import Calculator.Text.Lines

namespace Calculator

/-- The line for an expression and its value. -/
def Style.line (style : Style) (decimals : Nat) (expression : String) (x : Binary64) : String :=
  match style with
  | .rounded => .ofList (x.fixed decimals)
  | .raw => .ofList x.text
  | .json => (Report.success decimals expression x).compact

def Style.answer (style : Style) (decimals : Nat) (expression : String) : Except Fault String := do
  let x ← Formula.value expression
  return style.line decimals expression x

/-- Why a command fails. -/
inductive Trouble where
  | fault (fault : Fault)
  | refusal (refusal : Report.Refusal)
  | noInput
deriving DecidableEq

def Trouble.message : Trouble → String
  | .fault f => f.message
  | .refusal r => r.message
  | .noInput => "No input provided. Pass an expression or pipe input to stdin."

/-- What a command prints, and the trouble that ended it early. -/
structure Run where
  output : String
  trouble : Option Trouble
deriving DecidableEq

namespace Run

def printing (text : String) : Run := ⟨text, none⟩

def failing (trouble : Trouble) : Run := ⟨"", some trouble⟩

/-- Prints a line before all else. -/
def after (line : String) (r : Run) : Run := ⟨line ++ "\n" ++ r.output, r.trouble⟩

/-- Answers expressions in their order, each on a line, up to the first fault. -/
def answers (answer : String → Except Fault String) : List String → Run
  | [] => printing ""
  | expression :: rest =>
    match answer expression with
    | .ok line => (answers answer rest).after line
    | .error fault => failing (.fault fault)

def code (r : Run) : UInt8 := if r.trouble.isNone then 0 else 1

def errors (r : Run) : String :=
  match r.trouble with
  | none => ""
  | some trouble => "Error: " ++ trouble.message ++ "\n"

end Run

namespace Command

/-- The lines of a text that are not blank. -/
def expressions (input : String) : List String :=
  ((Text.lines input.toList).filter fun line => !line.all isBlank).map String.ofList

/-- One answer for each line of standard input that is not blank. -/
def evalInput (style : Style) (decimals : Nat) (input : String) : Run :=
  match expressions input with
  | [] => .failing .noInput
  | lines => .answers (style.answer decimals) lines

def runBatch (decimals : Nat) (isPretty : Bool) (input : String) : Run :=
  match Report.batch decimals input with
  | .error refusal => .failing (.refusal refusal)
  | .ok value => .printing ((if isPretty then value.pretty else value.compact) ++ "\n")

def withInput (input : ByteArray) (run : String → Run) : Run :=
  match Formula.decode input with
  | .error fault => .failing (.fault fault)
  | .ok text => run text

/-- Runs a command on the bytes of standard input. -/
def run (input : ByteArray) : Command → Run
  | .eval (some expression) style decimals => .answers (style.answer decimals) [expression]
  | .eval none style decimals => withInput input (evalInput style decimals)
  | .check expression =>
    match Formula.read expression with
    | .ok _ => .printing "Syntax is valid\n"
    | .error fault => .failing (.fault fault)
  | .tokens expression =>
    match Formula.tokens expression with
    | .ok ts => .printing (.ofList (Token.listing ts))
    | .error fault => .failing (.fault fault)
  | .batch (some text) decimals isPretty => runBatch decimals isPretty text
  | .batch none decimals isPretty => withInput input (runBatch decimals isPretty)
  | .reference => .printing Calculator.reference
  | .version => .printing "calc 0.1.0\n"

end Command

end Calculator
