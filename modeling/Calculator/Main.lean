import Calculator.Command.Running

namespace Calculator

def usage : String := "Usage: calc <eval|check|tokens|batch|docs> [options]\n"

end Calculator

open Calculator in
/-- Prints what the command line asks for. A command line that is not understood exits with 2. -/
def main (arguments : List String) : IO UInt32 := do
  let environment ← IO.getEnv "CALC_MAX_DECIMALS"
  match Command.ofArguments environment arguments with
  | none =>
    IO.eprint usage
    return 2
  | some command =>
    let input ← if command.usesInput then (← IO.getStdin).readBinToEnd else pure .empty
    let r := command.run input
    IO.print r.output
    IO.eprint r.errors
    return r.code.toUInt32
