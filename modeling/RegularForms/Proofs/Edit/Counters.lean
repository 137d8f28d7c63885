import RegularForms.Edit.Apply

/-!
# Edits and the counters

What has been handed out plays no part when an edit is applied or reverted: with other
counters the graph changes in the same way, the same backup is left behind, and the edit is
refused for the same reason. So edits made while more and more is handed out can be made
again without handing out anything.
-/

namespace RegularForms

namespace Automaton

def recount (a : Automaton) (i j : Nat) : Automaton :=
  { a with nextState := i, nextTransition := j }

variable (a : Automaton) (i j : Nat)

@[simp] theorem start_recount : (a.recount i j).start = a.start := rfl

/-! ## Looking at a graph -/

@[simp] theorem checkState_recount (s : StateId) :
    (a.recount i j).checkState s = a.checkState s := rfl

@[simp] theorem checkTransition_recount (t : TransitionId) :
    (a.recount i j).checkTransition t = a.checkTransition t := rfl

@[simp] theorem node?_recount (s : StateId) : (a.recount i j).node? s = a.node? s := rfl

@[simp] theorem out_recount (s : StateId) : (a.recount i j).out s = a.out s := rfl

@[simp] theorem into_recount (s : StateId) : (a.recount i j).into s = a.into s := rfl

@[simp] theorem refusal?_recount (s : StateId) :
    (a.recount i j).refusal? s = a.refusal? s := rfl

/-! ## Changing a graph -/

theorem addState_recount (s : State) (out : List Transition) :
    (a.recount i j).addState s out = (a.addState s out).map (·.recount i j) := by
  simp only [addState, checkState_recount, node?_recount, refusal?_recount, bind, Except.bind]
  cases a.checkState s.id with
  | error err => rfl
  | ok _ =>
      by_cases hnode : (a.node? s.id).isSome = true
      · simp only [hnode, ↓reduceIte]
        rfl
      · simp only [hnode, Bool.false_eq_true, ↓reduceIte]
        cases (Ident.sort Transition.id out).findSome? (a.refusal? s.id) with
        | some err => rfl
        | none => cases repeated? (Ident.sort Transition.id out) <;> rfl

theorem removeState_recount (s : StateId) :
    (a.recount i j).removeState s =
      (a.removeState s).map (Prod.map id (·.recount i j)) := by
  simp only [removeState, checkState_recount, start_recount, node?_recount, into_recount, bind,
    Except.bind]
  cases a.checkState s with
  | error err => rfl
  | ok _ =>
      by_cases hstart : s = a.start
      · simp only [hstart, ↓reduceIte]
        rfl
      · simp only [hstart, ↓reduceIte]
        cases a.node? s with
        | none => rfl
        | some node =>
            by_cases hinto : ((a.into s).any fun t => t.source ≠ s) = true <;>
              simp only [hinto, ↓reduceIte] <;> rfl

theorem addTransition_recount (t : Transition) :
    (a.recount i j).addTransition t = (a.addTransition t).map (·.recount i j) := by
  simp only [addTransition, checkTransition_recount, checkState_recount, node?_recount, bind,
    Except.bind]
  rcases a.checkTransition t.id with _ | _
  · rfl
  rcases a.checkState t.source with _ | _
  · rfl
  rcases a.checkState t.target with _ | _
  · rfl
  cases a.node? t.target with
  | none => rfl
  | some _ =>
      cases a.node? t.source with
      | none => rfl
      | some node =>
          by_cases hout : (node.out.any fun u => u.id = t.id) = true <;>
            simp only [hout, ↓reduceIte] <;> rfl

theorem removeTransition_recount (s : StateId) (t : TransitionId) :
    (a.recount i j).removeTransition s t =
      (a.removeTransition s t).map (Prod.map id (·.recount i j)) := by
  simp only [removeTransition, checkTransition_recount, checkState_recount, out_recount, bind,
    Except.bind]
  rcases a.checkTransition t with _ | _
  · rfl
  rcases a.checkState s with _ | _
  · rfl
  cases (a.out s).find? fun u => u.id = t <;> rfl

theorem setAccepting_recount (s : StateId) (accepting : Bool) :
    (a.recount i j).setAccepting s accepting =
      (a.setAccepting s accepting).map (Prod.map id (·.recount i j)) := by
  simp only [setAccepting, checkState_recount, node?_recount, bind, Except.bind]
  rcases a.checkState s with _ | _
  · rfl
  cases a.node? s <;> rfl

end Automaton

/-! ## Outcomes -/

def Outcome.recount (r : Outcome) (i j : Nat) : Outcome := { r with graph := r.graph.recount i j }

def BatchOutcome.recount (r : BatchOutcome) (i j : Nat) : BatchOutcome :=
  { r with graph := r.graph.recount i j }

theorem Outcome.ofChange_recount (backup : Backup) (a : Automaton) (i j : Nat)
    (r : Except Error Automaton) :
    Outcome.ofChange backup (a.recount i j) (r.map (·.recount i j)) =
      (Outcome.ofChange backup a r).recount i j := by
  cases r <;> rfl

theorem Outcome.ofChange_map_snd_recount {α : Type} (backup : Backup) (a : Automaton) (i j : Nat)
    (r : Except Error (α × Automaton)) :
    Outcome.ofChange backup (a.recount i j)
        ((r.map (Prod.map id (·.recount i j))).map Prod.snd) =
      (Outcome.ofChange backup a (r.map Prod.snd)).recount i j := by
  cases r <;> rfl

namespace Edit

open Automaton

/-- Applying or reverting an edit does not look at the counters. -/
def Oblivious (e : Edit) : Prop :=
  ∀ backup a i j, e.apply backup (a.recount i j) = (e.apply backup a).recount i j ∧
    e.revert backup (a.recount i j) = (e.revert backup a).recount i j

variable {es : List Edit}

theorem Oblivious.applyAll (hes : ∀ e ∈ es, e.Oblivious) (backups : List Backup)
    (a : Automaton) (i j : Nat) :
    applyAll es backups (a.recount i j) = (applyAll es backups a).recount i j := by
  induction es generalizing a backups with
  | nil => rfl
  | cons e es ih =>
      have happly := fun backup a => (hes e (by simp) backup a i j).1
      have hrevert := fun backup a => (hes e (by simp) backup a i j).2
      have ih := ih fun d hd => hes d (by simp [hd])
      simp only [Edit.applyAll, happly, Outcome.recount, ih, BatchOutcome.recount, hrevert]
      cases (e.apply (backups.headD .nothing) a).refusal with
      | some err => rfl
      | none =>
          dsimp only
          cases (Edit.applyAll es backups.tail
            (e.apply (backups.headD .nothing) a).graph).refusal <;> rfl

theorem Oblivious.reapplyAll (hes : ∀ e ∈ es, e.Oblivious) (backups : List Backup)
    (a : Automaton) (i j : Nat) :
    reapplyAll es backups (a.recount i j) = (reapplyAll es backups a).recount i j := by
  induction es generalizing a backups with
  | nil => rfl
  | cons e es ih =>
      have happly := fun backup a => (hes e (by simp) backup a i j).1
      have ih := ih fun d hd => hes d (by simp [hd])
      simp only [Edit.reapplyAll, happly, Outcome.recount, ih, BatchOutcome.recount]

theorem Oblivious.revertAll (hes : ∀ e ∈ es, e.Oblivious) (backups : List Backup)
    (a : Automaton) (i j : Nat) :
    revertAll es backups (a.recount i j) = (revertAll es backups a).recount i j := by
  induction es generalizing a backups with
  | nil => rfl
  | cons e es ih =>
      have hrevert := fun backup a => (hes e (by simp) backup a i j).2
      have hes' : ∀ d ∈ es, d.Oblivious := fun d hd => hes d (by simp [hd])
      simp only [Edit.revertAll, ih hes', BatchOutcome.recount, hrevert, Outcome.recount,
        Oblivious.reapplyAll hes']
      cases (Edit.revertAll es backups.tail a).refusal with
      | some err => rfl
      | none =>
          dsimp only
          cases (e.revert (backups.headD .nothing)
            (Edit.revertAll es backups.tail a).graph).refusal <;> rfl

theorem oblivious (e : Edit) : e.Oblivious := by
  induction e using Edit.ind with
  | addState s =>
      intro backup a i j
      constructor
      · rw [apply, addState_recount, Outcome.ofChange_recount, apply]
      · rw [revert, removeState_recount, Outcome.ofChange_map_snd_recount, revert]
  | removeState s =>
      intro backup a i j
      constructor
      · rw [apply, removeState_recount, apply]
        cases a.removeState s <;> rfl
      · cases backup with
        | node node =>
            rw [revert, addState_recount, Outcome.ofChange_recount, revert]
        | _ => rfl
  | addTransition t =>
      intro backup a i j
      constructor
      · rw [apply, addTransition_recount, Outcome.ofChange_recount, apply]
      · rw [revert, removeTransition_recount, Outcome.ofChange_map_snd_recount, revert]
  | removeTransition t =>
      intro backup a i j
      constructor
      · rw [apply, removeTransition_recount, Outcome.ofChange_map_snd_recount, apply]
      · rw [revert, addTransition_recount, Outcome.ofChange_recount, revert]
  | setAccepting s accepting =>
      intro backup a i j
      constructor
      · rw [apply, setAccepting_recount, apply]
        cases a.setAccepting s accepting <;> rfl
      · cases backup with
        | flag previous =>
            rw [revert, setAccepting_recount, Outcome.ofChange_map_snd_recount, revert]
        | _ => rfl
  | batch purpose edits ih =>
      intro backup a i j
      constructor
      · simp only [apply, Oblivious.applyAll ih]
        rfl
      · simp only [revert, Oblivious.revertAll ih]
        rfl

end Edit

end RegularForms
