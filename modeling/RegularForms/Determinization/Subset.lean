import RegularForms.Automaton.Arc
import RegularForms.Automaton.StateSet
import RegularForms.Rewriting

/-!
# States that stand for sets

When several transitions on one symbol leave a state, they are replaced by one, into a
state that stands for the set of their targets. A `SubsetTable` says which states stand
for which sets, so that each set gets one state only; a target that stands for a set
itself counts as the members of that set.
-/

namespace RegularForms

structure Binding where
  state : State
  set : StateSet
  deriving DecidableEq

/-- The states that stand for sets, in ascending order. -/
structure SubsetTable where
  bindings : List Binding
  deriving DecidableEq

namespace SubsetTable

def empty : SubsetTable := ⟨[]⟩

def stateFor? (table : SubsetTable) (set : StateSet) : Option State :=
  (table.bindings.find? fun b => b.set == set).map Binding.state

def setOf? (table : SubsetTable) (s : StateId) : Option StateSet :=
  (table.bindings.find? fun b => b.state.id == s).map Binding.set

/-- The states that a state counts as: the members of the set it stands for, or just
the state itself. -/
def members (table : SubsetTable) (s : StateId) : List StateId :=
  (table.setOf? s).getD [s]

def expand (table : SubsetTable) (ss : List StateId) : StateSet :=
  StateSet.ofList (ss.flatMap table.members)

def unbind (table : SubsetTable) (s : StateId) : SubsetTable :=
  ⟨table.bindings.filter fun b => b.state.id ≠ s⟩

/-- Lets a state stand for a set, whatever it stood for before. -/
def bind (table : SubsetTable) (s : State) (set : StateSet) : SubsetTable :=
  ⟨Ident.insertAt (fun b => b.state.id) ⟨s, set⟩ (table.unbind s.id).bindings⟩

/-- Drops the bindings to sets with a member that a graph does not have. -/
def retain (table : SubsetTable) (a : Automaton) : SubsetTable :=
  ⟨table.bindings.filter fun b => b.set.all a.hasState⟩

def size (table : SubsetTable) : Nat := table.bindings.length

end SubsetTable

namespace Determinization

/-- The symbols on more than one of the given transitions, in ascending order; `ε` is
not one of them. -/
def ambiguousSymbols (ts : List Transition) : List Char :=
  let symbols := ts.filterMap fun t => if t.isEpsilon then none else t.label.symbol?
  ((distinct symbols).filter fun c => 1 < symbols.count c).mergeSort
    fun c d => c.toNat ≤ d.toNat

def hasAmbiguity (a : Automaton) : Bool :=
  a.nodes.any fun n => !(ambiguousSymbols n.out).isEmpty

/-- Replaces the transitions on a symbol that leave a state by one. It leads into the
state that stands for the set of their targets; when the graph does not have that state
yet, it is added with the transitions that leave the targets. -/
def determinize (table : SubsetTable) (s : StateId) (symbol : Char) (a : Automaton) :
    Except Error (Plan × SubsetTable) := do
  let old := (← a.outgoing s).filter fun t => t.label.symbol? == some symbol
  let targets := StateSet.ofList (old.map Transition.target)
  let set := table.expand targets
  let (target, created, table) := match table.stateFor? set with
    | some state => (state, 0, table)
    | none => (a.freshState 0, 1, table.bind (a.freshState 0) set)
  let link := (s, target.id, Expr.sym symbol)
  if a.hasState target.id then
    let fresh := a.freshTransitions [link]
    return (⟨.batch (.determinize s symbol)
        (old.map .removeTransition ++ fresh.map .addTransition),
      a.reserve created fresh.length⟩, table)
  else
    let accept :=
      if set.any fun t => a.hasState t && a.accepting t then
        [Edit.setAccepting target.id true]
      else []
    let offered := Transition.onePerArc Transition.orderByTarget (fun _ => false)
      (targets.flatMap a.out)
    let fresh := a.freshTransitions
      (link :: offered.map fun t => (target.id, t.target, t.label))
    return (⟨.batch (.determinize s symbol)
        (old.map .removeTransition ++ [.addState target] ++ accept ++
          fresh.map .addTransition),
      a.reserve created fresh.length⟩, table)

end Determinization

end RegularForms
