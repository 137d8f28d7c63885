import RegularForms.Automaton.Arc
import RegularForms.Automaton.Reach
import RegularForms.Rewriting

/-!
# Removing the empty word

The `ε` transitions that leave a state can be removed when the state itself gets a copy
of every other transition that leaves a state of its `ε`-closure, and becomes accepting
if its closure reaches an accepting state.

Two states with the same `ε`-closure reach each other through `ε` alone. The closures of
all states, and the classes of states that share one, are taken down in a
`ClosureTable` while the `ε` transitions are still there. Once they have been removed,
the states of a class have the same transitions, and all but one of them can go: the
transitions into them are led to the one that stays.
-/

namespace RegularForms

namespace Determinization

/-- The transitions that a state needs instead of its `ε` transitions: one for each
target and label that its closure offers and it does not have already. -/
def epsilonFree (a : Automaton) (s : StateId) (closure : StateSet) : List Transition :=
  let offered := closure.flatMap fun r => (a.out r).filter fun t => !t.isEpsilon
  (Transition.onePerArc Transition.orderByTarget (fun t => t.source == s) offered).filter
    fun t => t.source ≠ s

def removeEpsilon (s : StateId) (a : Automaton) : Except Error Plan := do
  let closure ← a.epsilonClosure s
  let accept :=
    if !a.accepting s && closure.any a.accepting then [Edit.setAccepting s true] else []
  let dropped := (a.out s).filter Transition.isEpsilon
  let copies := a.freshTransitions
    ((epsilonFree a s closure).map fun t => (s, t.target, t.label))
  return ⟨.batch (.removeEpsilon s)
      (accept ++ dropped.map .removeTransition ++ copies.map .addTransition),
    a.reserve 0 copies.length⟩

end Determinization

/-! ## Equivalent states -/

/-- The `ε`-closures of the states of a graph, in ascending order of the states, and the
classes of states with equal closures, in ascending order of their first members. -/
structure ClosureTable where
  closures : List (StateId × StateSet)
  classes : List StateSet

namespace ClosureTable

def empty : ClosureTable := ⟨[], []⟩

def ofGraph (a : Automaton) : ClosureTable :=
  let closures := a.stateIds.map fun s => (s, a.closure [s])
  let values := distinct (closures.map Prod.snd)
  ⟨closures, values.map fun value => (closures.filter fun p => p.2 = value).map Prod.fst⟩

def closure? (c : ClosureTable) (s : StateId) : Option StateSet :=
  (c.closures.find? fun p => p.1 == s).map Prod.snd

def class? (c : ClosureTable) (s : StateId) : Option StateSet :=
  c.classes.find? fun members => s ∈ members

def equivalent (c : ClosureTable) (s t : StateId) : Bool :=
  match c.class? s with
  | some members => t ∈ members
  | none => false

/-- Whether a graph has another state of the class of `s`. -/
def hasOthers (c : ClosureTable) (a : Automaton) (s : StateId) : Bool :=
  match c.class? s with
  | some members => members.any fun t => t ≠ s && a.hasState t
  | none => false

def hasEquivalent (c : ClosureTable) (a : Automaton) : Bool :=
  c.classes.any fun members => 1 < (members.filter a.hasState).length

def retain (c : ClosureTable) (a : Automaton) : ClosureTable :=
  ⟨c.closures.filter fun p => a.hasState p.1,
    (c.classes.map fun members => members.filter a.hasState).filter fun members =>
      !members.isEmpty⟩

end ClosureTable

namespace Determinization

/-- The transitions into merged states that have to be led to `s` instead: one for each
source and label that stays and has no transition to `s` yet. -/
def redirected (s : StateId) (removed : StateSet) (incoming : List Transition) :
    List Transition :=
  let staying := (incoming.filter fun t => t.source ∉ removed)
  (Transition.onePerArc Transition.orderBySource (fun t => t.target == s) staying).filter
    fun t => t.target ≠ s

def mergeEquivalent (table : ClosureTable) (s : StateId) (a : Automaton) :
    Except Error Plan := do
  let _ ← a.state s
  let members := ((table.class? s).getD []).filter a.hasState
  let removed := members.filter fun t => t ≠ s
  let incoming := (a.transitions.filter fun t => t.target ∈ members).mergeSort
    (Transition.notAfter Transition.orderBySource fun t => t.target == s)
  let into := incoming.filter fun t => t.target ∈ removed
  let away := removed.flatMap fun r => (a.out r).filter fun t => t.target ∉ removed
  let fresh := a.freshTransitions
    ((redirected s removed incoming).map fun t => (t.source, s, t.label))
  return ⟨.batch (.mergeEquivalent s)
      (into.map .removeTransition ++ away.map .removeTransition ++
        removed.map .removeState ++ fresh.map .addTransition),
    a.reserve 0 fresh.length⟩

end Determinization

end RegularForms
