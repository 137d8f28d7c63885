import RegularForms.Automaton.Reach
import RegularForms.Determinization.Complete
import RegularForms.Edit.Basic
import RegularForms.Elimination.Complete
import RegularForms.Expansion.Complete

/-!
# One run of the command line

A run converts an expression into an automaton whose labels are single symbols, and if
asked for on into a deterministic one or back into an expression. It prints the result,
the steps of the conversion if they are wanted, and whether a given word is accepted.
-/

namespace RegularForms.CommandLine

inductive Target where
  | nfa
  | dfa
  | regex
  deriving DecidableEq

structure Request where
  /-- The expression, as written. -/
  regex : String
  target : Target
  /-- A word to be tried. -/
  word : Option String
  /-- Whether the steps of the conversion are listed. -/
  steps : Bool
  /-- Whether a new step may replace undone ones in the history. -/
  clobber : Bool

structure Report where
  /-- Zero if all went well. -/
  code : Nat
  stdout : String
  stderr : String

def printLines (lines : List String) : String := String.join (lines.map (· ++ "\n"))

def Report.success (lines : List String) : Report := ⟨0, printLines lines, ""⟩

def Report.failure (err : Error) : Report := ⟨1, "", printLines [err.message]⟩

/-- What is printed for a result and, when a word was tried, whether it is accepted. -/
structure Result where
  text : String
  verdict : Option Bool

open Rewriting

def tryWord : Option String → Rewriting (Option Bool)
  | none => return none
  | some word => some <$> ask fun a => a.accepts word

def report (word : Option String) : Rewriting Result :=
  return ⟨(← graph).print, ← tryWord word⟩

/-- Converts the automaton of an expression. A word is tried before states are
eliminated, while the labels are single symbols. -/
def convert (target : Target) (word : Option String) : Rewriting Result := do
  Expansion.expandAll
  match target with
  | .nfa => report word
  | .dfa =>
    Determinization.determinizeAll
    report word
  | .regex =>
    let verdict ← tryWord word
    match ← Elimination.eliminateAll with
    | some e => return ⟨e.print, verdict⟩
    | none => return ⟨"The expression accepts no word.", verdict⟩

/-- The line of a step, numbered in a column four characters wide. -/
def stepLine (number : Nat) (s : Step) : String :=
  let column := String.ofList ((toString number).toList.leftpad 4 ' ')
  s!"{column} {s.edit.describe}"

def stepLines (h : History) : List String :=
  h.steps.mapIdx fun i s => stepLine (i + 1) s

def verdictLine (accepted : Bool) : String := if accepted then "ACCEPT" else "REJECT"

def run (r : Request) : Report :=
  match Expr.parse r.regex with
  | .error reason => .failure (.malformed reason)
  | .ok none => .success ["No regular expression provided."]
  | .ok (some e) =>
    let history := History.new r.clobber
    match (convert r.target r.word).runOn (Automaton.ofExpr 0 e) (some history) with
    | (.error err, _) => .failure err
    | (.ok result, session) =>
      let steps := if r.steps then stepLines (session.history.getD history) else []
      .success (result.text :: steps ++ (result.verdict.map verdictLine).toList)

end RegularForms.CommandLine
