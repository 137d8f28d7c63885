import RegularForms.Automaton.Query
import RegularForms.Automaton.StateSet

/-!
# Reachability and acceptance

`reachFrom` finds the states that can be reached from given ones through transitions
that pass a test. It proceeds in layers: the states that one step leads to from the
last layer, and that were not seen before, make the next layer, and the search ends
with an empty layer. There are no more layers than states in the graph.

A word is run through an automaton whose labels are single symbols. The run keeps the
set of states that the part read so far leads to, closed under `ε`. The symbol `ε`
stands for the empty word in a label and is never read from a word.
-/

namespace RegularForms

namespace Automaton

def stepTargets (a : Automaton) (follow : Transition → Bool) (sources : List StateId) :
    List StateId :=
  sources.flatMap fun s => ((a.out s).filter follow).map Transition.target

/-- Adds to `seen` what is reachable from its last layer, in at most `layers` steps. -/
def reachLayers (a : Automaton) (follow : Transition → Bool) :
    Nat → StateSet → StateSet → StateSet
  | 0, seen, _ => seen
  | layers + 1, seen, last =>
    let next := StateSet.ofList ((a.stepTargets follow last).filter fun s => s ∉ seen)
    if next.isEmpty then seen
    else reachLayers a follow layers (seen.union next) next

def reachFrom (a : Automaton) (follow : Transition → Bool) (set : StateSet) : StateSet :=
  a.reachLayers follow a.nodes.length set set

def reachable (a : Automaton) (follow : Transition → Bool) (s : StateId) :
    Except Error StateSet := do
  let _ ← a.node s
  return a.reachFrom follow [s]

def closure (a : Automaton) (set : StateSet) : StateSet :=
  a.reachFrom Transition.isEpsilon set

def epsilonClosure (a : Automaton) (s : StateId) : Except Error StateSet :=
  a.reachable Transition.isEpsilon s

def reachableStates (a : Automaton) : StateSet :=
  a.reachFrom (fun _ => true) [a.start]

def unreachableStates (a : Automaton) : List StateId :=
  a.stateIds.filter fun s => s ∉ a.reachableStates

theorem mem_stepTargets {a : Automaton} {follow : Transition → Bool} {sources : List StateId}
    {s : StateId} :
    s ∈ a.stepTargets follow sources ↔
      ∃ r ∈ sources, ∃ t ∈ a.out r, follow t = true ∧ t.target = s := by
  simp [stepTargets, and_assoc]

theorem subset_reachLayers {a : Automaton} {follow : Transition → Bool} (layers : Nat)
    {seen last : StateSet} {s : StateId} (h : s ∈ seen) :
    s ∈ a.reachLayers follow layers seen last := by
  induction layers generalizing seen last with
  | zero => exact h
  | succ layers ih =>
      simp only [reachLayers]
      split
      · exact h
      · exact ih (StateSet.mem_union.2 (.inl h))

/-- A state is reachable from itself. -/
theorem mem_reachFrom_self {a : Automaton} {follow : Transition → Bool} {set : StateSet}
    {s : StateId} (h : s ∈ set) : s ∈ a.reachFrom follow set :=
  subset_reachLayers _ h

theorem ascending_reachLayers {a : Automaton} {follow : Transition → Bool} (layers : Nat)
    {seen last : StateSet} (h : Ident.Ascending id seen) :
    Ident.Ascending id (a.reachLayers follow layers seen last) := by
  induction layers generalizing seen last with
  | zero => exact h
  | succ layers ih =>
      simp only [reachLayers]
      split
      · exact h
      · exact ih (StateSet.ascending_union h _)

/-! ## Accepting a word -/

def readsSymbol (c : Char) (t : Transition) : Bool :=
  t.label.symbol? == some c && !t.isEpsilon

def readSymbol (a : Automaton) (current : StateSet) (c : Char) : StateSet :=
  a.closure (StateSet.ofList (a.stepTargets (readsSymbol c) current))

/-- The states that reading a word leads to from the start state, closed under `ε`. -/
def readWord (a : Automaton) (word : List Char) : StateSet :=
  word.foldl a.readSymbol (a.closure [a.start])

/-- Whether some reading of a word ends in an accepting state. Every label must be a
single symbol. -/
def accepts (a : Automaton) (word : String) : Except Error Bool :=
  match a.transitions.find? fun t => !t.label.isSymbol with
  | some t => .error (.compoundLabel t.id)
  | none => .ok ((a.readWord word.toList).any a.accepting)

@[simp] theorem readWord_nil (a : Automaton) : a.readWord [] = a.closure [a.start] := rfl

end Automaton

end RegularForms
