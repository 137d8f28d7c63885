import RegularForms.Elimination.Isolate
import RegularForms.Elimination.Plan
import RegularForms.Rewriting

/-!
# Eliminating all states

`eliminateAll` turns an automaton into an expression. It isolates the accepting and the
start state and then eliminates every other state in ascending order; the label of the
transition that is left between the two is the expression. An automaton that accepts
nothing has none.
-/

namespace RegularForms

namespace Elimination

open Rewriting

def eliminate (s : StateId) : Rewriting Unit := do
  (parallelPairs (← graph) s).forM fun (source, target) =>
    carryOut (joinParallel source target)
  match ← ask (fun a => singleLoop? a s) with
  | some t => carryOut (foldLoop t)
  | none => pure ()
  carryOut (bypass s)

/-- Eliminates all states but the start state and the given accepting state, and returns
the label between these. -/
def eliminateTo (final : StateId) : Rewriting (Option Expr) := do
  let start := (← graph).start
  ((← graph).stateIds.filter fun s => s ≠ start ∧ s ≠ final).forM eliminate
  if ← ask (fun a => hasParallel a start final) then
    carryOut (joinParallel start final)
  let between ← ask fun a => parallel a start final
  return between.head?.map fun t => t.label.simplify

/-- Turns an automaton into an expression for its language, if that is not empty. -/
def eliminateAll : Rewriting (Option Expr) := do
  Pruning.prune
  if (← graph).hasAccepting then
    carryOut? fun a => .ok (isolateFinal? a)
    carryOut? fun a => .ok (isolateInitial? a)
    match (← graph).states.find? State.accepting with
    | some final => eliminateTo final.id
    | none => return none
  else return none

end Elimination

end RegularForms
