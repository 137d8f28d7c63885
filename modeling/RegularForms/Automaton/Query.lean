import RegularForms.Automaton.Basic
import RegularForms.Error

/-!
# Looking at a graph

A look-up by identifier is refused for an identifier of another automaton, and for
one that is not in the graph. `node?` and `out` are the look-ups without a refusal.
-/

namespace RegularForms

namespace Automaton

/-! ## Look-ups without refusal -/

def node? (a : Automaton) (s : StateId) : Option Node :=
  a.nodes.find? fun n => n.id == s

/-- The transitions that leave a state, none if it is not in the graph. -/
def out (a : Automaton) (s : StateId) : List Transition :=
  match a.node? s with
  | some n => n.out
  | none => []

/-- The transitions that end at a state, self-loops included. -/
def into (a : Automaton) (s : StateId) : List Transition :=
  a.transitions.filter fun t => t.target == s

def hasState (a : Automaton) (s : StateId) : Bool :=
  s.owner == a.owner && (a.node? s).isSome

def accepting (a : Automaton) (s : StateId) : Bool :=
  match a.node? s with
  | some n => n.state.accepting
  | none => false

def isStart (a : Automaton) (s : StateId) : Bool := s == a.start

def stateAt? (a : Automaton) (index : Nat) : Option StateId :=
  let s : StateId := ⟨a.owner, index⟩
  (a.node? s).map fun _ => s

def hasAccepting (a : Automaton) : Bool := a.states.any State.accepting

def hasEpsilon (a : Automaton) : Bool := a.transitions.any Transition.isEpsilon

/-! ## Look-ups with refusal -/

def checkState (a : Automaton) (s : StateId) : Except Error Unit :=
  if s.owner = a.owner then .ok () else .error (.foreignState s)

def checkTransition (a : Automaton) (t : TransitionId) : Except Error Unit :=
  if t.owner = a.owner then .ok () else .error (.foreignTransition t)

def node (a : Automaton) (s : StateId) : Except Error Node := do
  a.checkState s
  match a.node? s with
  | some n => .ok n
  | none => .error (.unknownState s)

def state (a : Automaton) (s : StateId) : Except Error State := return (← a.node s).state

def outgoing (a : Automaton) (s : StateId) : Except Error (List Transition) :=
  return (← a.node s).out

def incoming (a : Automaton) (s : StateId) : Except Error (List Transition) := do
  let _ ← a.node s
  return a.into s

def isAccepting (a : Automaton) (s : StateId) : Except Error Bool :=
  return (← a.node s).state.accepting

def transition (a : Automaton) (t : TransitionId) : Except Error Transition := do
  a.checkTransition t
  match a.transitions.find? fun u => u.id == t with
  | some u => .ok u
  | none => .error (.unknownTransition t)

/-! ## Laws -/

theorem node?_eq_some {a : Automaton} {s : StateId} {n : Node} (h : a.node? s = some n) :
    n ∈ a.nodes ∧ n.id = s :=
  ⟨List.mem_of_find?_eq_some h, by simpa using List.find?_some h⟩

theorem node?_eq_none_iff {a : Automaton} {s : StateId} :
    a.node? s = none ↔ s ∉ a.stateIds := by
  simp [node?, mem_stateIds]

theorem mem_into {a : Automaton} {s : StateId} {t : Transition} :
    t ∈ a.into s ↔ t ∈ a.transitions ∧ t.target = s := by
  simp [into]

/-- A node is found exactly for a state of this automaton that is in the graph. -/
theorem node_eq_ok_iff {a : Automaton} {s : StateId} {n : Node} :
    a.node s = .ok n ↔ s.owner = a.owner ∧ a.node? s = some n := by
  unfold node checkState
  by_cases h : s.owner = a.owner
  · cases hn : a.node? s <;> simp [h, bind, Except.bind]
  · simp [h, bind, Except.bind]

end Automaton

end RegularForms
