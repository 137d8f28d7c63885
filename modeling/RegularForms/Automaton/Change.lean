import RegularForms.Automaton.Query

/-!
# Changing a graph

The five changes of a graph: a state comes or goes, a transition comes or goes, and a
state becomes accepting or not. Each is refused when it would leave the graph with a
transition into a state that is not there, with one identifier used twice, with an
identifier of another automaton, or without its start state. A refused change changes
nothing, and no change touches the counters.
-/

namespace RegularForms

namespace Automaton

def updateNode (a : Automaton) (s : StateId) (f : Node → Node) : Automaton :=
  { a with nodes := a.nodes.map fun n => if n.id = s then f n else n }

def insertNode (a : Automaton) (n : Node) : Automaton :=
  { a with nodes := Ident.insertAt Node.id n a.nodes }

def eraseNode (a : Automaton) (s : StateId) : Automaton :=
  { a with nodes := a.nodes.filter fun n => n.id ≠ s }

/-- What stands against a transition that is to be added along with its source `s`.
It may lead to `s` itself, or to a state of the graph. -/
def refusal? (a : Automaton) (s : StateId) (t : Transition) : Option Error :=
  if t.id.owner ≠ a.owner then some (.foreignTransition t.id)
  else if t.target.owner ≠ a.owner then some (.foreignState t.target)
  else if t.source ≠ s then some (.misplaced t.id s)
  else if t.target ≠ s ∧ a.node? t.target = none then some (.unknownState t.target)
  else none

end Automaton

/-- The first identifier that two neighbours in a list of transitions share. -/
def repeated? : List Transition → Option TransitionId
  | t :: u :: ts => if t.id = u.id then some t.id else repeated? (u :: ts)
  | _ => none

namespace Automaton

/-- Adds a state together with the transitions that leave it. -/
def addState (a : Automaton) (s : State) (out : List Transition) :
    Except Error Automaton := do
  a.checkState s.id
  if (a.node? s.id).isSome then .error (.stateExists s.id)
  else
    let sorted := Ident.sort Transition.id out
    match sorted.findSome? (a.refusal? s.id) with
    | some err => .error err
    | none =>
      match repeated? sorted with
      | some t => .error (.transitionExists t)
      | none => .ok (a.insertNode ⟨s, sorted⟩)

/-- Removes a state along with the transitions that leave it; these are returned with
the state. It must not be the start state, and no other state may have a transition
into it. -/
def removeState (a : Automaton) (s : StateId) : Except Error (Node × Automaton) := do
  a.checkState s
  if s = a.start then .error .startRemoval
  else
    match a.node? s with
    | none => .error (.unknownState s)
    | some n =>
      if (a.into s).any fun t => t.source ≠ s then .error (.stateInUse s)
      else .ok (n, a.eraseNode s)

def addTransition (a : Automaton) (t : Transition) : Except Error Automaton := do
  a.checkTransition t.id
  a.checkState t.source
  a.checkState t.target
  match a.node? t.target, a.node? t.source with
  | none, _ => .error (.unknownState t.target)
  | some _, none => .error (.unknownState t.source)
  | some _, some n =>
    if n.out.any fun u => u.id = t.id then .error (.transitionExists t.id)
    else
      .ok (a.updateNode t.source fun n =>
        { n with out := Ident.insertAt Transition.id t n.out })

def removeTransition (a : Automaton) (s : StateId) (t : TransitionId) :
    Except Error (Transition × Automaton) := do
  a.checkTransition t
  a.checkState s
  match (a.out s).find? fun u => u.id = t with
  | none => .error (.unknownTransition t)
  | some u =>
    .ok (u, a.updateNode s fun n => { n with out := n.out.filter fun u => u.id ≠ t })

/-- Makes a state accepting or not, and returns what it was before. -/
def setAccepting (a : Automaton) (s : StateId) (accepting : Bool) :
    Except Error (Bool × Automaton) := do
  a.checkState s
  match a.node? s with
  | none => .error (.unknownState s)
  | some n =>
    .ok (n.state.accepting,
      a.updateNode s fun n => { n with state := { n.state with accepting := accepting } })

/-! ## The counters stay -/

@[simp] theorem owner_updateNode (a : Automaton) (s : StateId) (f : Node → Node) :
    (a.updateNode s f).owner = a.owner := rfl

@[simp] theorem start_updateNode (a : Automaton) (s : StateId) (f : Node → Node) :
    (a.updateNode s f).start = a.start := rfl

@[simp] theorem owner_insertNode (a : Automaton) (n : Node) :
    (a.insertNode n).owner = a.owner := rfl

@[simp] theorem start_insertNode (a : Automaton) (n : Node) :
    (a.insertNode n).start = a.start := rfl

@[simp] theorem owner_eraseNode (a : Automaton) (s : StateId) :
    (a.eraseNode s).owner = a.owner := rfl

@[simp] theorem start_eraseNode (a : Automaton) (s : StateId) :
    (a.eraseNode s).start = a.start := rfl

theorem mem_nodes_insertNode {a : Automaton} {m n : Node} :
    m ∈ (a.insertNode n).nodes ↔ m = n ∨ m ∈ a.nodes :=
  Ident.mem_insertAt

theorem mem_nodes_eraseNode {a : Automaton} {s : StateId} {n : Node} :
    n ∈ (a.eraseNode s).nodes ↔ n ∈ a.nodes ∧ n.id ≠ s := by
  simp [eraseNode]

theorem mem_nodes_updateNode {a : Automaton} {s : StateId} {f : Node → Node} {m : Node} :
    m ∈ (a.updateNode s f).nodes ↔
      ∃ n ∈ a.nodes, (if n.id = s then f n else n) = m := by
  simp [updateNode]

end Automaton

end RegularForms
