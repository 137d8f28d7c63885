import RegularForms.Expansion.Plan

/-!
# Expanding every label

`expandAll` expands one transition after the other, always the first whose label is
compound, until every label is a single symbol. Each expansion takes one operator out of
the labels, so there are as many steps as there are operators to begin with.
-/

namespace RegularForms

namespace Automaton

def compoundTransitions (a : Automaton) : List TransitionId :=
  (a.transitions.filter fun t => !t.label.isSymbol).map Transition.id

def operatorCount (a : Automaton) : Nat :=
  Expr.operatorCountList (a.transitions.map Transition.label)

end Automaton

namespace Expansion

open Rewriting

/-- Looks for a compound label and expands it, at most the given number of times. -/
def expandFirst : Nat → Rewriting Unit
  | 0 => pure ()
  | looks + 1 => do
    match (← graph).compoundTransitions with
    | [] => pure ()
    | t :: _ =>
      carryOut? (plan? t)
      expandFirst looks

def expandAll : Rewriting Unit := do
  expandFirst ((← graph).operatorCount + 1)

end Expansion

end RegularForms
