import RegularForms.CommandLine.Arguments

/-!
# The program

Carries out the request that the arguments make and prints its report.
-/

namespace RegularForms.CommandLine

def usage : String :=
  "usage: --regex REGEX [--target nfa|dfa|regex] [--word WORD] [--steps] [--clobber]"

def runMain (arguments : List String) : IO UInt32 := do
  match requestOf? arguments with
  | none =>
    IO.eprintln usage
    return 2
  | some request =>
    let report := run request
    IO.print report.stdout
    IO.eprint report.stderr
    return report.code.toUInt32

end RegularForms.CommandLine

def main (arguments : List String) : IO UInt32 :=
  RegularForms.CommandLine.runMain arguments
