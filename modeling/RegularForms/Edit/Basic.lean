import RegularForms.Automaton.Basic
import RegularForms.Isolation

/-!
# Edits

An edit says what is to be done to a graph. The simple edits add or remove one state
or one transition, or make one state accepting or not. A batch does several edits in
turn and says what they are good for. An edit that adds something names the very state
or transition, identifier included, so that doing it again after taking it back brings
back the same thing. The log shows an edit by its description: a batch is described by
its purpose alone, not by its members.
-/

namespace RegularForms

inductive Purpose where
  /-- A transition labelled with a choice becomes one for each operand. -/
  | expandChoice (t : TransitionId)
  /-- A transition labelled with a sequence becomes a chain. -/
  | expandSequence (t : TransitionId)
  /-- A transition labelled with an option becomes one that can be skipped. -/
  | expandOption (t : TransitionId)
  /-- A transition labelled with a star or a plus becomes a loop. -/
  | expandIteration (t : TransitionId) (isolation : Isolation)
  /-- The `ε` transitions that leave a state go. -/
  | removeEpsilon (s : StateId)
  /-- The states that are equivalent to one are merged into it. -/
  | mergeEquivalent (s : StateId)
  /-- The transitions on one symbol that leave a state become one. -/
  | determinize (s : StateId) (symbol : Char)
  /-- A state goes along with all transitions into it. -/
  | detachState (s : StateId)
  /-- There is one accepting state, and no transition leaves it. -/
  | isolateFinal
  /-- No transition leads into the start state. -/
  | isolateInitial
  /-- A self-loop is folded into the other transitions that leave its state. -/
  | foldLoop (t : TransitionId)
  /-- The transitions from one state to another become one. -/
  | joinParallel (source target : StateId)
  /-- A state goes, and transitions past it take its place. -/
  | bypass (s : StateId)
  deriving DecidableEq

inductive Edit where
  | addState (s : State)
  | removeState (s : StateId)
  | addTransition (t : Transition)
  | removeTransition (t : Transition)
  | setAccepting (s : StateId) (accepting : Bool)
  | batch (purpose : Purpose) (edits : List Edit)

/-- Induction on edits: in the case of a batch the hypothesis covers every member. -/
@[elab_as_elim]
theorem Edit.ind {motive : Edit → Prop}
    (addState : ∀ s, motive (.addState s))
    (removeState : ∀ s, motive (.removeState s))
    (addTransition : ∀ t, motive (.addTransition t))
    (removeTransition : ∀ t, motive (.removeTransition t))
    (setAccepting : ∀ s accepting, motive (.setAccepting s accepting))
    (batch : ∀ purpose edits, (∀ e ∈ edits, motive e) → motive (.batch purpose edits))
    (e : Edit) : motive e := by
  refine @Edit.rec motive (fun es => ∀ e ∈ es, motive e) addState removeState addTransition
    removeTransition setAccepting batch (fun _ h => nomatch h) (fun e es he hes d hd => ?_) e
  rcases List.mem_cons.1 hd with rfl | hd
  · exact he
  · exact hes d hd

/-! ## Descriptions -/

def Purpose.describe : Purpose → String
  | expandChoice t => s!"break down choice on transition {t}"
  | expandSequence t => s!"break down sequence on transition {t}"
  | expandOption t => s!"break down option on transition {t}"
  | expandIteration t isolation =>
    s!"break down iteration on transition {t} ({isolation})"
  | removeEpsilon s => s!"remove ε transitions from state {s}"
  | mergeEquivalent s => s!"merge states equivalent to {s}"
  | determinize s symbol => s!"remove non-determinism on '{symbol}' from state {s}"
  | detachState s => s!"remove state {s} and its incoming transitions"
  | isolateFinal => "isolate the final state"
  | isolateInitial => "isolate the initial state"
  | foldLoop t => s!"remove loop transition {t}"
  | joinParallel source target => s!"conjoin transitions from {source} to {target}"
  | bypass s => s!"bypass state {s}"

def Edit.describe : Edit → String
  | addState s => s!"add state {s.id}"
  | removeState s => s!"remove state {s}"
  | addTransition t => s!"add transition {t}"
  | removeTransition t => s!"remove transition {t}"
  | setAccepting s true => s!"make state {s} accepting"
  | setAccepting s false => s!"make state {s} non-accepting"
  | batch purpose _ => purpose.describe

end RegularForms
