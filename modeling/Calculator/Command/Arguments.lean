namespace Calculator.Command

attribute [local instance (high)] instPowNat

/-- An option, which is known by its long name wherever it stands. -/
structure Switch where
  long : String
  short : Option Char
  takesValue : Bool
  repeats : Bool
deriving DecidableEq

/-- An argument by the dashes it begins with. -/
inductive Word where
  | separator
  | long (name : String) (value : Option String)
  | letters (letters : List Char)
  | plain
deriving DecidableEq

namespace Word

/-- Splits an option from the value behind its first `=`. -/
def ofLong (text : List Char) : Word :=
  .long (.ofList (text.takeWhile (· != '='))) <|
    match text.dropWhile (· != '=') with
    | [] => none
    | _ :: value => some (.ofList value)

/-- A dash alone is no option. -/
def ofString (argument : String) : Word :=
  match argument.toList with
  | ['-', '-'] => .separator
  | '-' :: '-' :: text => ofLong text
  | '-' :: c :: rest => .letters (c :: rest)
  | _ => .plain

end Word

/-- The options that were given, with the values of those that take one, and the operands. -/
structure Arguments where
  given : List (Switch × Option String)
  operands : List String
deriving DecidableEq

namespace Arguments

def withOption (a : Arguments) (switch : Switch) (value : Option String) : Arguments :=
  { a with given := (switch, value) :: a.given }

def withOperand (a : Arguments) (operand : String) : Arguments :=
  { a with operands := operand :: a.operands }

/-- The value of an option, or `none` if the option was not given or takes no value. -/
def value? (a : Arguments) (long : String) : Option String :=
  (a.given.find? fun p => p.1.long == long).bind Prod.snd

def has (a : Arguments) (long : String) : Bool := a.given.any fun p => p.1.long == long

/-- No option was given again that may be given once only. -/
def respectsRepeats : List (Switch × Option String) → Bool
  | [] => true
  | (switch, _) :: rest =>
    (switch.repeats || rest.all fun p => p.1.long != switch.long) && respectsRepeats rest

/-- Reads single letters up to one that takes a value, which is what follows it, without an `=` at
its front. If nothing follows the value is still due. -/
def readLetters (switches : List Switch) :
    List Char → Option (List (Switch × Option String) × Option Switch)
  | [] => some ([], none)
  | c :: rest => do
    let switch ← switches.find? fun s => s.short == some c
    if switch.takesValue then
      match rest with
      | [] => some ([], some switch)
      | '=' :: value => some ([(switch, some (.ofList value))], none)
      | value => some ([(switch, some (.ofList value))], none)
    else
      let (given, due) ← readLetters switches rest
      some ((switch, none) :: given, due)

/-- Splits the arguments of a command that knows some options, `none` if one is not understood.
`due` is an option whose value has to come next, in an argument that is no option itself. -/
def read (switches : List Switch) (due : Option Switch) : List String → Option Arguments
  | [] => if due.isNone then some ⟨[], []⟩ else none
  | argument :: rest =>
    match due, Word.ofString argument with
    | some switch, .plain =>
      (read switches none rest).map (·.withOption switch (some argument))
    | some _, _ => none
    | none, .separator => some ⟨[], rest⟩
    | none, .plain => (read switches none rest).map (·.withOperand argument)
    | none, .letters letters => do
      let (given, due) ← readLetters switches letters
      let a ← read switches due rest
      some { a with given := given ++ a.given }
    | none, .long name value => do
      let switch ← switches.find? fun s => s.long == name
      match switch.takesValue, value with
      | true, none => read switches (some switch) rest
      | false, some _ => none
      | _, value => (read switches none rest).map (·.withOption switch value)

/-- The arguments of a command, if it understands them all. -/
def read? (switches : List Switch) (arguments : List String) : Option Arguments :=
  (read switches none arguments).filter fun a => respectsRepeats a.given

end Arguments

/-- Reads a whole number below 2^32. A plus sign or leading zeros change nothing, and a minus sign
is allowed before zero. -/
def readCount (text : String) : Option Nat :=
  let (negative, digits) := match text.toList with
    | '+' :: digits => (false, digits)
    | '-' :: digits => (true, digits)
    | digits => (false, digits)
  let n := Nat.ofDigitChars 10 digits 0
  if digits.isEmpty || !digits.all Char.isDigit || 2 ^ (32 : Nat) ≤ n || negative && n != 0 then
    none
  else some n

end Calculator.Command
