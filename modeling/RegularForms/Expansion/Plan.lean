import RegularForms.Automaton.Query
import RegularForms.Repetition
import RegularForms.Rewriting

/-!
# Expanding a label

A transition whose label is not a single symbol can be expanded: other transitions,
labelled with the operands of the label, take its place. A choice becomes parallel
transitions and a sequence a chain through new states. An option gets an `ε` transition
beside it. A star or a plus becomes a loop, and how much of it runs through new states is
the isolation it is expanded with; `requiredIsolation` is the least that keeps the rest
of the graph from getting into the loop half-way or out of it too early.
-/

namespace RegularForms

namespace Automaton

def labelled (a : Automaton) (ops : List Operator) (t : TransitionId) :
    Except Error Transition := do
  let u ← a.transition t
  if u.label.operator ∈ ops then return u
  else throw (.wrongOperator ops u.label)

def joinedByEpsilon (a : Automaton) (source target : StateId) : Bool :=
  (a.out source).any fun t => t.target == target && t.isEpsilon

/-- The least isolation with which a transition may be expanded into a loop. The start
needs isolating when the loop could be left there by other means: another transition
leaves it, or it is accepting. The end needs isolating when the loop could be entered
there by other means: another transition leads into it, or it is the start state. -/
def requiredIsolation (a : Automaton) (t : Transition) : Except Error Isolation := do
  let out ← a.outgoing t.source
  let accepting ← a.isAccepting t.source
  let into ← a.incoming t.target
  return ⟨out.any (fun u => u.id ≠ t.id) || accepting,
    into.any (fun u => u.id ≠ t.id) || a.isStart t.target⟩

end Automaton

namespace Expansion

def replace (a : Automaton) (purpose : Purpose) (t : Transition) (states : Nat)
    (arcs : List (StateId × StateId × Expr)) : Plan :=
  ⟨.batch purpose
      (.removeTransition t :: ((List.range states).map fun i => .addState (a.freshState i)) ++
        (a.freshTransitions arcs).map .addTransition),
    a.reserve states arcs.length⟩

def choice (t : TransitionId) (a : Automaton) : Except Error Plan := do
  let u ← a.labelled [.choice] t
  return replace a (.expandChoice t) u 0
    (u.label.operands.map fun e => (u.source, u.target, e))

/-- The transitions of a chain that passes through the given states, labelled with the
given expressions. -/
def chain (points : List StateId) (labels : List Expr) : List (StateId × StateId × Expr) :=
  points.zip (points.tail.zip labels)

def sequence (t : TransitionId) (a : Automaton) : Except Error Plan := do
  let u ← a.labelled [.sequence] t
  let between := u.label.operands.length - 1
  let points := u.source :: (List.range between).map (fun i => (a.freshState i).id) ++ [u.target]
  return replace a (.expandSequence t) u between (chain points u.label.operands)

/-- The `ε` transition that lets a walk pass from one state to another, unless there is
one already. -/
def skip (a : Automaton) (source target : StateId) : List (StateId × StateId × Expr) :=
  if a.joinedByEpsilon source target then [] else [(source, target, .epsilon)]

def option (t : TransitionId) (a : Automaton) : Except Error Plan := do
  let u ← a.labelled [.option] t
  return replace a (.expandOption t) u 0
    (skip a u.source u.target ++ u.label.operands.map fun e => (u.source, u.target, e))

/-- The transitions of a loop that has no state of its own: the operand of a star leads
back, past an `ε` transition forth, and the operand of a plus leads forth, before an
`ε` transition back. -/
def sharedLoop (a : Automaton) (u : Transition) : List (StateId × StateId × Expr) :=
  let bodies := u.label.operands
  if u.label.operator = .star then
    skip a u.source u.target ++ bodies.map fun e => (u.target, u.source, e)
  else
    (bodies.map fun e => (u.source, u.target, e)) ++ [(u.target, u.source, .epsilon)]

/-- The transitions of a loop from `start` to `finish`, at least one of which is a state
of its own: `ε` transitions into it, out of it, back through it and, for a star, past
it; and the operand through it. -/
def isolatedLoop (a : Automaton) (u : Transition) (start finish : StateId) :
    List (StateId × StateId × Expr) :=
  let entry := if start = u.source then [] else [(u.source, start, .epsilon)]
  let exit := if finish = u.target then [] else [(finish, u.target, .epsilon)]
  let past := if u.label.operator = .star then skip a u.source u.target else []
  distinct (entry ++ exit ++ [(finish, start, .epsilon)] ++ past) ++
    u.label.operands.map fun e => (start, finish, e)

/-- Expands a star or a plus into a loop with the given isolation, which must cover the
required one. -/
def iteration (isolation : Isolation) (t : TransitionId) (a : Automaton) :
    Except Error Plan := do
  let u ← a.labelled [.star, .plus] t
  let required ← a.requiredIsolation u
  if isolation.covers required then
    if isolation = .none then
      return replace a (.expandIteration t isolation) u 0 (sharedLoop a u)
    else
      let start := if isolation.start then (a.freshState 0).id else u.source
      let finish :=
        if isolation.finish then (a.freshState isolation.start.toNat).id else u.target
      return replace a (.expandIteration t isolation) u
        (isolation.start.toNat + isolation.finish.toNat) (isolatedLoop a u start finish)
  else throw (.weakIsolation isolation required)

/-- The expansion of a transition by the operator of its label, with no more isolation
than required. A single symbol needs none. -/
def plan? (t : TransitionId) (a : Automaton) : Except Error (Option Plan) := do
  let u ← a.transition t
  match u.label.operator with
  | .symbol => return none
  | .choice => some <$> choice t a
  | .sequence => some <$> sequence t a
  | .option => some <$> option t a
  | .star | .plus => do
    let isolation ← a.requiredIsolation u
    some <$> iteration isolation t a

end Expansion

end RegularForms
