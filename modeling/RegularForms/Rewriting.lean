import RegularForms.Automaton.Reach
import RegularForms.History

/-!
# Rewriting a graph step by step

A conversion is a sequence of edits, each planned by looking at the graph that the
edits before it have left. `Plan` is one such edit along with the automaton that has
handed out what the edit adds. `Rewriting` is the monad of conversions: they work on a
`Session`, a graph and the history in which its edits are recorded, if there is one. A
conversion that is refused keeps what has been done up to then.

The plainest conversion is pruning, which removes every state that the start state does not
reach, each after the transitions that others have into it.
-/

namespace RegularForms

/-- An edit to be applied, and the automaton after planning it, which differs from the
one before only in what it has handed out. -/
structure Plan where
  edit : Edit
  graph : Automaton

structure Session where
  graph : Automaton
  history : Option History

abbrev Rewriting := ExceptT Error (StateM Session)

namespace Rewriting

def runOn {α : Type} (conversion : Rewriting α) (graph : Automaton)
    (history : Option History) : Except Error α × Session :=
  conversion.run.run ⟨graph, history⟩

def check : Option Error → Rewriting Unit
  | none => pure ()
  | some err => throw err

def graph : Rewriting Automaton := return (← get).graph

def ask {α : Type} (question : Automaton → Except Error α) : Rewriting α := do
  MonadExcept.ofExcept (question (← graph))

def perform (s : Step) : Rewriting Unit := do
  match ← get with
  | ⟨a, some h⟩ =>
    let m := h.record s a
    set (⟨m.graph, some m.history⟩ : Session)
    check m.refusal
  | ⟨a, none⟩ =>
    let r := s.apply a
    set (⟨r.graph, none⟩ : Session)
    check r.refusal

def enact (p : Plan) : Rewriting Unit := do
  modify fun s => { s with graph := p.graph }
  perform (.ofEdit p.edit)

def carryOut (plan : Automaton → Except Error Plan) : Rewriting Unit := do
  enact (← ask plan)

def carryOut? (plan? : Automaton → Except Error (Option Plan)) : Rewriting Unit := do
  match ← ask plan? with
  | some p => enact p
  | none => pure ()

end Rewriting

/-! ## Pruning -/

namespace Pruning

open Rewriting

/-- Removes a state after the transitions that lead into it from other states. -/
def detach (s : StateId) (a : Automaton) : Except Error Plan := do
  let into ← a.incoming s
  let others := into.filter fun t => t.source ≠ s
  return ⟨.batch (.detachState s) (others.map .removeTransition ++ [.removeState s]), a⟩

def prune : Rewriting Unit := do
  (← graph).unreachableStates.forM fun s => do
    if (← graph).hasState s then carryOut (detach s) else pure ()

end Pruning

end RegularForms
