import RegularForms.Automaton.Ident
import RegularForms.Expr.Parser
import RegularForms.Expr.Printer
import RegularForms.Isolation

/-!
# Reasons for refusing

Every operation that can refuse its arguments names the reason by one of the errors
here. `Error.message` is the only place where a reason is put into words.
-/

namespace RegularForms

inductive Error where
  /-- A text is not an expression. -/
  | malformed (reason : SyntaxError)
  /-- A state is not in the graph. -/
  | unknownState (s : StateId)
  /-- A transition is not in the graph, or not where it was looked for. -/
  | unknownTransition (t : TransitionId)
  /-- A state to be added is already in the graph. -/
  | stateExists (s : StateId)
  /-- A transition to be added is already in the graph. -/
  | transitionExists (t : TransitionId)
  /-- The start state is to be removed. -/
  | startRemoval
  /-- A state of another automaton. -/
  | foreignState (s : StateId)
  /-- A transition of another automaton. -/
  | foreignTransition (t : TransitionId)
  /-- A state to be removed has transitions from other states into it. -/
  | stateInUse (s : StateId)
  /-- A transition added along with a state does not leave that state. -/
  | misplaced (t : TransitionId) (s : StateId)
  /-- A loop is to be less isolated than the graph around it demands. -/
  | weakIsolation (requested required : Isolation)
  /-- A label has none of the operators that the operation is for. -/
  | wrongOperator (expected : List Operator) (found : Expr)
  /-- A state to be bypassed has a self-loop. -/
  | selfLoop (s : StateId)
  /-- A transition to be folded is no self-loop. -/
  | notSelfLoop (t : TransitionId)
  /-- A state has more than one self-loop. -/
  | severalSelfLoops (s : StateId)
  /-- Two states are joined by fewer than two transitions. -/
  | notParallel (source target : StateId)
  /-- A label is not a single symbol. -/
  | compoundLabel (t : TransitionId)
  /-- A step is to be recorded while later steps are undone. -/
  | notAtEnd
  /-- A position lies beyond the end of the history. -/
  | outOfRange (position length : Nat)
  /-- An operator with any number of operands is given none. -/
  | noOperands (op : Operator)
  deriving DecidableEq

def Error.message : Error → String
  | malformed reason => s!"invalid regular expression: {reason.message}"
  | unknownState s => s!"state {s} does not exist in this automaton"
  | unknownTransition t => s!"transition {t} does not exist in this automaton"
  | stateExists s => s!"state {s} already exists in this automaton"
  | transitionExists t => s!"transition {t} already exists in this automaton"
  | startRemoval => "the start state cannot be removed"
  | foreignState s => s!"handle state {s} belongs to a different automaton"
  | foreignTransition t => s!"handle transition {t} belongs to a different automaton"
  | stateInUse s => s!"state {s} still has incoming transitions from other states"
  | misplaced t s => s!"transition {t} does not originate from state {s}"
  | weakIsolation requested required =>
    s!"isolation level {requested} is weaker than the required {required}"
  | wrongOperator expected found =>
    let names := String.intercalate " or " (expected.map Operator.name)
    s!"expected a {names} expression, got '{found}'"
  | selfLoop s => s!"state {s} has a self-loop, remove it first"
  | notSelfLoop t => s!"transition {t} is not a self-loop"
  | severalSelfLoops s => s!"state {s} has more than one self-loop, conjoin them first"
  | notParallel source target => s!"no parallel transitions from {source} to {target}"
  | compoundLabel t => s!"transition {t} carries a compound label"
  | notAtEnd => "cannot execute a new command while not at the end of the history"
  | outOfRange position length =>
    s!"history index {position} is out of range 0..={length}"
  | noOperands op => s!"a {op.name} needs at least one operand"

end RegularForms
