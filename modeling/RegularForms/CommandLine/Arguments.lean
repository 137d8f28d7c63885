import RegularForms.CommandLine.Run

/-!
# Arguments of the command line

The options are `--regex`, `--target`, `--word`, each with a value that follows as the
next argument or after an equals sign, and the switches `--steps` and `--clobber`. The
first three have short forms as well.
-/

namespace RegularForms.CommandLine

structure Options where
  regex : Option String
  target : Target
  word : Option String
  steps : Bool
  clobber : Bool

namespace Options

def default : Options := ⟨none, .nfa, none, false, false⟩

def request? (o : Options) : Option Request :=
  o.regex.map fun regex => ⟨regex, o.target, o.word, o.steps, o.clobber⟩

end Options

def Target.ofName? : String → Option Target
  | "nfa" => some .nfa
  | "dfa" => some .dfa
  | "regex" => some .regex
  | _ => none

def Options.setValue? (o : Options) (name value : String) : Option Options :=
  if name = "--regex" ∨ name = "-r" then some { o with regex := some value }
  else if name = "--word" ∨ name = "-w" then some { o with word := some value }
  else if name = "--target" ∨ name = "-t" then
    (Target.ofName? value).map fun target => { o with target := target }
  else none

def Options.setSwitch? (o : Options) (name : String) : Option Options :=
  if name = "--steps" then some { o with steps := true }
  else if name = "--clobber" then some { o with clobber := true }
  else none

/-- An argument split at its first equals sign, if it has one. -/
def splitValue? (argument : String) : Option (String × String) :=
  let chars := argument.toList
  match chars.dropWhile (· ≠ '=') with
  | [] => none
  | _ :: value =>
    some (String.ofList (chars.takeWhile (· ≠ '=')), String.ofList value)

/-- Reads the arguments from first to last. After an option whose value is the next
argument, the name of that option is pending. -/
def readArguments : Options → Option String → List String → Option Options
  | o, none, [] => some o
  | _, some _, [] => none
  | o, some name, value :: rest =>
    match o.setValue? name value with
    | some o => readArguments o none rest
    | none => none
  | o, none, argument :: rest =>
    match o.setSwitch? argument, splitValue? argument with
    | some o, _ => readArguments o none rest
    | none, none => readArguments o (some argument) rest
    | none, some (name, value) =>
      match o.setValue? name value with
      | some o => readArguments o none rest
      | none => none

def requestOf? (arguments : List String) : Option Request :=
  (readArguments .default none arguments).bind Options.request?

end RegularForms.CommandLine
