import RegularForms.Automaton.Query
import RegularForms.Rewriting

/-!
# Isolating the start and the final state

Before states are eliminated the graph is brought into a form with one accepting state
that nothing leaves, and a start state that nothing enters; the two are different.
-/

namespace RegularForms

namespace Elimination

/-- Joins all accepting states to a new one that takes over. Nothing is to be done when
no state is accepting, or when just one is, which is not the start state and which no
transition leaves. -/
def isolateFinal? (a : Automaton) : Option Plan :=
  let finals := (a.states.filter State.accepting).map State.id
  let needed := match finals with
    | [] => false
    | [f] => !(a.out f).isEmpty || a.isStart f
    | _ => true
  if needed then
    let final := a.freshState 0
    let joins := a.freshTransitions (finals.map fun f => (f, final.id, .epsilon))
    let switches := (finals.zip joins).flatMap fun (f, t) =>
      [Edit.setAccepting f false, .addTransition t]
    some ⟨.batch .isolateFinal
        ([.addState final, .setAccepting final.id true] ++ switches),
      a.reserve 1 joins.length⟩
  else none

/-- Moves all transitions of the start state to a copy of it that an `ε` transition
leads to. Nothing is to be done when no transition leads into the start state. -/
def isolateInitial? (a : Automaton) : Option Plan :=
  let start := a.start
  if (a.into start).isEmpty then none
  else
    let moved := (a.out start).filter (fun t => !t.isLoop) ++ a.into start
    let twin := a.freshState 0
    let moveEnd (s : StateId) : StateId := if s = start then twin.id else s
    let accept :=
      if a.accepting start then [Edit.setAccepting twin.id true] else []
    let fresh := a.freshTransitions
      ((start, twin.id, .epsilon) ::
        moved.map fun t => (moveEnd t.source, moveEnd t.target, t.label))
    some ⟨.batch .isolateInitial
        (moved.map .removeTransition ++ [.addState twin] ++ accept ++
          fresh.map .addTransition),
      a.reserve 1 fresh.length⟩

end Elimination

end RegularForms
