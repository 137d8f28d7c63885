import RegularForms.Automaton.Query
import RegularForms.Expr.Simplify
import RegularForms.Rewriting

/-!
# Eliminating a state

A state is eliminated in three steps. Transitions that run in parallel are joined into
one labelled with the choice of their labels; a self-loop is folded into the other
transitions that leave its state; and what is then left is bypassed: each transition
into the state is put before each transition out of it, and the state goes.

The new labels are simplified only a little, enough to do away with `ε*` and `εr`.
-/

namespace RegularForms

namespace Elimination

def lightDepth : Nat := 2

def lighten (e : Expr) : Expr := e.simplifyTo lightDepth

/-- The self-loop of a state, if it has one; more than one is refused. -/
def singleLoop? (a : Automaton) (s : StateId) : Except Error (Option TransitionId) := do
  match (← a.outgoing s).filter Transition.isLoop with
  | [] => return none
  | [t] => return some t.id
  | _ => throw (.severalSelfLoops s)

def parallel (a : Automaton) (source target : StateId) : Except Error (List Transition) :=
  return (← a.outgoing source).filter fun t => t.target == target

def hasParallel (a : Automaton) (source target : StateId) : Except Error Bool :=
  return decide (1 < (← parallel a source target).length)

/-- The pairs of states joined by more than one transition, among those with `s` at one
end, in ascending order. -/
def parallelPairs (a : Automaton) (s : StateId) : List (StateId × StateId) :=
  let ends := (a.out s ++ (a.into s).filter fun t => !t.isLoop).map fun t =>
    (t.source, t.target)
  ((distinct ends).filter fun p => 1 < ends.count p).mergeSort fun p q =>
    ((p.1.order q.1).then (p.2.order q.2)).isLE

/-- Folds a self-loop labelled `r` into the other transitions that leave its state: one
labelled `s` becomes one labelled `r*s`. -/
def foldLoop (t : TransitionId) (a : Automaton) : Except Error Plan := do
  let loop ← a.transition t
  if loop.isLoop then
    let s := loop.source
    let _ ← singleLoop? a s
    let others := (a.out s).filter fun u => u.id ≠ t
    let fresh := a.freshTransitions (others.map fun u =>
      (s, u.target, lighten (.join .sequence [.star loop.label, u.label])))
    let swaps := (others.zip fresh).flatMap fun (old, new) =>
      [Edit.removeTransition old, .addTransition new]
    return ⟨.batch (.foldLoop t) (.removeTransition loop :: swaps), a.reserve 0 fresh.length⟩
  else throw (.notSelfLoop t)

def joinParallel (source target : StateId) (a : Automaton) : Except Error Plan := do
  let old ← parallel a source target
  if old.length < 2 then throw (.notParallel source target)
  else
    let label := lighten (.join .choice (old.map Transition.label))
    let fresh := a.freshTransitions [(source, target, label)]
    return ⟨.batch (.joinParallel source target)
        (old.map .removeTransition ++ fresh.map .addTransition),
      a.reserve 0 fresh.length⟩

/-- Removes a state after leading each transition into it past it along each transition
out of it. The start state and a state with a self-loop are refused. -/
def bypass (s : StateId) (a : Automaton) : Except Error Plan := do
  if a.isStart s then throw .startRemoval
  else
    let out ← a.outgoing s
    if out.any Transition.isLoop then throw (.selfLoop s)
    else
      let into ← a.incoming s
      let fresh := a.freshTransitions (into.flatMap fun t => out.map fun u =>
        (t.source, u.target, lighten (.join .sequence [t.label, u.label])))
      return ⟨.batch (.bypass s)
          (fresh.map .addTransition ++ into.map .removeTransition ++
            out.map .removeTransition ++ [.removeState s]),
        a.reserve 0 fresh.length⟩

end Elimination

end RegularForms
