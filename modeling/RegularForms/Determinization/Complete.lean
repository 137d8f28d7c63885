import RegularForms.Determinization.Epsilon
import RegularForms.Determinization.Subset
import RegularForms.Rewriting

/-!
# Making an automaton deterministic

`determinizeAll` works in three passes. The `ε` transitions are removed state by state,
then the states that shared an `ε`-closure are merged, and at last each state that has
several transitions on a symbol gets a single one, into a state that stands for a set.
What the start state does not reach is pruned before and after the last pass.

The last pass comes to an end because no state is treated twice for the same symbol, and
the states that can come up are those it begins with and one for each set of them.
-/

namespace RegularForms

namespace Determinization

open Rewriting

def removeAllEpsilon : Rewriting Unit := do
  (← graph).stateIds.forM fun s => do
    if ((← graph).out s).any Transition.isEpsilon then carryOut (removeEpsilon s)
    else pure ()

/-- Merges the states of every class; a class with the start state is merged into
that. -/
def mergeAllEquivalent (table : ClosureTable) : Rewriting Unit := do
  let a ← graph
  let (first, others) := a.stateIds.partition a.isStart
  (first ++ others).forM fun s => do
    let a ← graph
    if a.hasState s && table.hasOthers a s then carryOut (mergeEquivalent table s)
    else pure ()

/-- The first state reached from the start that has several transitions on a symbol,
with the first such symbol. -/
def ambiguity? (a : Automaton) : Option (StateId × Char) :=
  a.reachableStates.findSome? fun s =>
    (ambiguousSymbols (a.out s)).head?.map fun c => (s, c)

/-- Looks for a state with several transitions on a symbol and treats it, at most the
given number of times. -/
def determinizeFirst : Nat → SubsetTable → Rewriting Unit
  | 0, _ => pure ()
  | looks + 1, table => do
    match ambiguity? (← graph) with
    | none => pure ()
    | some (s, c) =>
      let (p, table) ← ask (determinize table s c)
      enact p
      determinizeFirst looks table

def symbols (a : Automaton) : List Char :=
  distinct (a.transitions.filterMap fun t => t.label.symbol?)

def determinizeStates : Rewriting Unit := do
  let a ← graph
  determinizeFirst ((a.nodes.length + Nat.pow 2 a.nodes.length) * ((symbols a).length + 1)) .empty

/-- Turns an automaton whose labels are single symbols into a deterministic one with the
same language. A state need not have a transition on every symbol. -/
def determinizeAll : Rewriting Unit := do
  let a ← graph
  match a.transitions.find? fun t => !t.label.isSymbol with
  | some t => throw (.compoundLabel t.id)
  | none =>
    let table := ClosureTable.ofGraph a
    removeAllEpsilon
    mergeAllEquivalent table
    Pruning.prune
    determinizeStates
    Pruning.prune

end Determinization

end RegularForms
