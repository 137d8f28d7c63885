import RegularForms.Automaton.Ident
import RegularForms.Expr.Printer

/-!
# Automata

An automaton is a graph of states joined by transitions whose labels are regular
expressions. Each state of the graph is kept in a `Node` together with the
transitions that leave it; nodes are in ascending order of their states, and the
transitions of a node in ascending order too.

States and transitions are first handed out, which only uses up an identifier, and
become part of the graph later. Two counters say which indexes have been used; they
never go back, so an identifier is handed out only once. They are 32 bits wide in the
program, and are taken not to overflow: here they have no bound.

The first line of the written form names the start state. Each state of the graph has a
line of its own, in ascending order: the state, the label and target of each of its
transitions, and whether it is accepting.
-/

namespace RegularForms

structure State where
  id : StateId
  accepting : Bool
  deriving DecidableEq

structure Transition where
  id : TransitionId
  source : StateId
  target : StateId
  label : Expr
  deriving DecidableEq

namespace Transition

def isEpsilon (t : Transition) : Bool := t.label.isEpsilon

def isLoop (t : Transition) : Bool := t.source == t.target

end Transition

structure Node where
  state : State
  out : List Transition
  deriving DecidableEq

abbrev Node.id (n : Node) : StateId := n.state.id

/-- A graph of states and transitions with a start state. The counters are taken not to
overflow. -/
structure Automaton where
  /-- The stamp that its identifiers carry. -/
  owner : Nat
  start : StateId
  /-- The index of the next state to be handed out, a 32-bit number in the program. -/
  nextState : Nat
  /-- The index of the next transition to be handed out, a 32-bit number in the program. -/
  nextTransition : Nat
  nodes : List Node
  deriving DecidableEq

namespace Automaton

/-! ## Handing out -/

/-- The `i`-th of the states that are handed out next. It is not accepting. -/
def freshState (a : Automaton) (i : Nat) : State :=
  ⟨⟨a.owner, a.nextState + i⟩, false⟩

def freshTransition (a : Automaton) (i : Nat) (source target : StateId) (label : Expr) :
    Transition :=
  ⟨⟨a.owner, a.nextTransition + i⟩, source, target, label⟩

def freshTransitions (a : Automaton) (arcs : List (StateId × StateId × Expr)) :
    List Transition :=
  arcs.mapIdx fun i (source, target, label) => a.freshTransition i source target label

def reserve (a : Automaton) (states transitions : Nat) : Automaton :=
  { a with
    nextState := a.nextState + states
    nextTransition := a.nextTransition + transitions }

@[simp] theorem reserve_zero (a : Automaton) : a.reserve 0 0 = a := rfl

@[simp] theorem nodes_reserve (a : Automaton) (m n : Nat) : (a.reserve m n).nodes = a.nodes :=
  rfl

@[simp] theorem start_reserve (a : Automaton) (m n : Nat) : (a.reserve m n).start = a.start :=
  rfl

@[simp] theorem owner_reserve (a : Automaton) (m n : Nat) : (a.reserve m n).owner = a.owner :=
  rfl

theorem reserve_reserve (a : Automaton) (m n k l : Nat) :
    (a.reserve m n).reserve k l = a.reserve (m + k) (n + l) := by
  simp [reserve, Nat.add_assoc]

@[simp] theorem length_freshTransitions (a : Automaton)
    (arcs : List (StateId × StateId × Expr)) :
    (a.freshTransitions arcs).length = arcs.length := by
  simp [freshTransitions]

/-! ## Whole automata -/

def new (owner : Nat) : Automaton :=
  ⟨owner, ⟨owner, 0⟩, 1, 0, [⟨⟨⟨owner, 0⟩, false⟩, []⟩]⟩

/-- A start state joined to an accepting state by one transition labelled `e`. -/
def ofExpr (owner : Nat) (e : Expr) : Automaton :=
  let start : StateId := ⟨owner, 0⟩
  let final : StateId := ⟨owner, 1⟩
  ⟨owner, start, 2, 1,
    [⟨⟨start, false⟩, [⟨⟨owner, 0⟩, start, final, e⟩]⟩, ⟨⟨final, true⟩, []⟩]⟩

/-- Drops the whole graph and starts over with a fresh start state. The counters go
on. -/
def clear (a : Automaton) : Automaton :=
  let start := a.freshState 0
  { a.reserve 1 0 with start := start.id, nodes := [⟨start, []⟩] }

end Automaton

/-- The identifier with the same index under another stamp. -/
def Ident.withOwner {kind : Kind} (i : Ident kind) (owner : Nat) : Ident kind :=
  { i with owner := owner }

def Transition.withOwner (t : Transition) (owner : Nat) : Transition :=
  ⟨t.id.withOwner owner, t.source.withOwner owner, t.target.withOwner owner, t.label⟩

def Node.withOwner (n : Node) (owner : Nat) : Node :=
  ⟨⟨n.id.withOwner owner, n.state.accepting⟩, n.out.map (·.withOwner owner)⟩

namespace Automaton

/-- An independent automaton of the same shape, with a stamp of its own. Indexes and
counters are kept. -/
def copy (a : Automaton) (owner : Nat) : Automaton :=
  { a with
    owner := owner
    start := a.start.withOwner owner
    nodes := a.nodes.map (·.withOwner owner) }

def states (a : Automaton) : List State := a.nodes.map Node.state

def stateIds (a : Automaton) : List StateId := a.nodes.map Node.id

/-- The transitions of the graph, grouped by their source in ascending order. -/
def transitions (a : Automaton) : List Transition := a.nodes.flatMap Node.out

theorem mem_transitions {a : Automaton} {t : Transition} :
    t ∈ a.transitions ↔ ∃ n ∈ a.nodes, t ∈ n.out := by
  simp [transitions]

theorem mem_stateIds {a : Automaton} {s : StateId} :
    s ∈ a.stateIds ↔ ∃ n ∈ a.nodes, n.id = s := by
  simp [stateIds]

end Automaton

/-! ## The written form -/

def Transition.print (t : Transition) : String :=
  s!"{t.source} -{t.label}-> {t.target}"

instance : ToString Transition := ⟨Transition.print⟩

def Node.print (n : Node) : String :=
  let arcs := n.out.map fun t => s!"{t.label}:{t.target},"
  s!"{n.id}: {String.join arcs}{n.state.accepting}"

def Automaton.print (a : Automaton) : String :=
  String.intercalate "\n" (s!"start {a.start}" :: a.nodes.map Node.print)

instance : ToString Automaton := ⟨Automaton.print⟩

end RegularForms
