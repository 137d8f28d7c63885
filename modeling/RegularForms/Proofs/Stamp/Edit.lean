import RegularForms.Edit.Basic
import RegularForms.History
import RegularForms.Proofs.Stamp.Graph

/-!
# Edits and histories with exchanged stamps

An edit with exchanged stamps does to a graph with exchanged stamps what it did before, and
leaves behind the same backup with exchanged stamps, also when a batch is refused half-way
and what has been done is taken back. So a history moves back and forth in the same way.
-/

namespace RegularForms

open Stamped

variable {f : Nat → Nat} {σ : Nat ↪o Nat}

/-! ## Edits and what they remember -/

def Purpose.exchange (f : Nat → Nat) : Purpose → Purpose
  | expandChoice t => expandChoice (restamp f t)
  | expandSequence t => expandSequence (restamp f t)
  | expandOption t => expandOption (restamp f t)
  | expandIteration t isolation => expandIteration (restamp f t) isolation
  | removeEpsilon s => removeEpsilon (restamp f s)
  | mergeEquivalent s => mergeEquivalent (restamp f s)
  | determinize s symbol => determinize (restamp f s) symbol
  | detachState s => detachState (restamp f s)
  | isolateFinal => isolateFinal
  | isolateInitial => isolateInitial
  | foldLoop t => foldLoop (restamp f t)
  | joinParallel source target =>
    joinParallel (restamp f source) (restamp f target)
  | bypass s => bypass (restamp f s)

instance : Stamped Purpose where
  restamp := Purpose.exchange
  restamp_id purpose := by cases purpose <;> rfl
  restamp_restamp f g purpose := by cases purpose <;> rfl

mutual
def Edit.exchange (f : Nat → Nat) : Edit → Edit
  | addState s => addState (restamp f s)
  | removeState s => removeState (restamp f s)
  | addTransition t => addTransition (restamp f t)
  | removeTransition t => removeTransition (restamp f t)
  | setAccepting s accepting => setAccepting (restamp f s) accepting
  | batch purpose edits => batch (restamp f purpose) (exchangeAll f edits)
def Edit.exchangeAll (f : Nat → Nat) : List Edit → List Edit
  | [] => []
  | e :: es => e.exchange f :: exchangeAll f es
end

theorem Edit.exchangeAll_eq (f : Nat → Nat) (es : List Edit) :
    exchangeAll f es = es.map (Edit.exchange f) := by
  induction es with
  | nil => rfl
  | cons e es ih => rw [exchangeAll, ih, List.map_cons]

theorem Edit.exchange_batch (f : Nat → Nat) (purpose : Purpose) (es : List Edit) :
    (batch purpose es).exchange f = batch (restamp f purpose) (es.map (Edit.exchange f)) := by
  rw [Edit.exchange, exchangeAll_eq]

instance : Stamped Edit where
  restamp := Edit.exchange
  restamp_id e := by
    induction e using Edit.ind with
    | batch purpose es ih =>
        rw [Edit.exchange_batch, restamp_id, List.map_congr_left ih, List.map_id']
    | _ => rfl
  restamp_restamp f g e := by
    induction e using Edit.ind with
    | batch purpose es ih =>
        rw [Edit.exchange_batch, Edit.exchange_batch, Edit.exchange_batch, restamp_restamp,
          List.map_map, ← List.map_congr_left ih]
        rfl
    | _ => rfl

@[simp] theorem Edit.restamp_batch (purpose : Purpose) (es : List Edit) :
    restamp f (Edit.batch purpose es) = .batch (restamp f purpose) (es.map (restamp f)) :=
  Edit.exchange_batch f purpose es

@[simp] theorem Edit.restamp_addState (s : State) :
    restamp f (Edit.addState s) = .addState (restamp f s) := rfl

@[simp] theorem Edit.restamp_removeState (s : StateId) :
    restamp f (Edit.removeState s) = .removeState (restamp f s) := rfl

@[simp] theorem Edit.restamp_addTransition (t : Transition) :
    restamp f (Edit.addTransition t) = .addTransition (restamp f t) := rfl

@[simp] theorem Edit.restamp_removeTransition (t : Transition) :
    restamp f (Edit.removeTransition t) = .removeTransition (restamp f t) := rfl

@[simp] theorem Edit.restamp_setAccepting (s : StateId) (accepting : Bool) :
    restamp f (Edit.setAccepting s accepting) = .setAccepting (restamp f s) accepting := rfl

/-- Stamps are not part of the description. -/
@[simp] theorem Edit.describe_restamp (e : Edit) :
    (restamp f e).describe = e.describe := by
  cases e with
  | batch purpose es => cases purpose <;> rfl
  | setAccepting s accepting => cases accepting <;> rfl
  | _ => rfl

mutual
def Backup.exchange (f : Nat → Nat) : Backup → Backup
  | nothing => nothing
  | node n => node (restamp f n)
  | flag accepting => flag accepting
  | batch backups => batch (exchangeAll f backups)
def Backup.exchangeAll (f : Nat → Nat) : List Backup → List Backup
  | [] => []
  | backup :: backups => backup.exchange f :: exchangeAll f backups
end

/-- Induction on backups: in the case of a batch the hypothesis covers every member. -/
theorem Backup.ind {motive : Backup → Prop} (nothing : motive .nothing)
    (node : ∀ n, motive (.node n)) (flag : ∀ accepting, motive (.flag accepting))
    (batch : ∀ backups, (∀ backup ∈ backups, motive backup) → motive (.batch backups))
    (backup : Backup) : motive backup := by
  refine @Backup.rec motive (fun backups => ∀ backup ∈ backups, motive backup) nothing node flag
    batch (fun _ h => nomatch h) (fun backup backups h hs other hother => ?_) backup
  rcases List.mem_cons.1 hother with rfl | hother
  · exact h
  · exact hs other hother

theorem Backup.exchange_batch (f : Nat → Nat) (backups : List Backup) :
    (batch backups).exchange f = batch (backups.map (Backup.exchange f)) := by
  have hall : exchangeAll f backups = backups.map (Backup.exchange f) := by
    induction backups with
    | nil => rfl
    | cons backup backups ih => rw [exchangeAll, ih, List.map_cons]
  rw [Backup.exchange, hall]

instance : Stamped Backup where
  restamp := Backup.exchange
  restamp_id backup := by
    induction backup using Backup.ind with
    | node n => exact congrArg Backup.node (restamp_id n)
    | batch backups ih => rw [Backup.exchange_batch, List.map_congr_left ih, List.map_id']
    | _ => rfl
  restamp_restamp f g backup := by
    induction backup using Backup.ind with
    | node n => exact congrArg Backup.node (restamp_restamp f g n)
    | batch backups ih =>
        rw [Backup.exchange_batch, Backup.exchange_batch, Backup.exchange_batch, List.map_map,
          ← List.map_congr_left ih]
        rfl
    | _ => rfl

@[simp] theorem Backup.restamp_batch (backups : List Backup) :
    restamp f (Backup.batch backups) = .batch (backups.map (restamp f)) :=
  Backup.exchange_batch f backups

@[simp] theorem Backup.parts_restamp (backup : Backup) :
    (restamp f backup).parts = backup.parts.map (restamp f) := by
  cases backup with
  | batch backups => rw [Backup.restamp_batch]; rfl
  | _ => rfl

/-! ## Applying and reverting -/

instance : Stamped Outcome where
  restamp f r := ⟨restamp f r.backup, restamp f r.graph, restamp f r.refusal⟩
  restamp_id r := by rw [restamp_id, restamp_id, restamp_id]
  restamp_restamp f g r := by rw [restamp_restamp, restamp_restamp, restamp_restamp]

instance : Stamped BatchOutcome where
  restamp f r := ⟨restamp f r.backups, restamp f r.graph, restamp f r.refusal⟩
  restamp_id r := by rw [restamp_id, restamp_id, restamp_id]
  restamp_restamp f g r := by rw [restamp_restamp, restamp_restamp, restamp_restamp]

@[simp] theorem Outcome.backup_restamp (r : Outcome) :
    (restamp f r).backup = restamp f r.backup := rfl

@[simp] theorem Outcome.graph_restamp (r : Outcome) :
    (restamp f r).graph = restamp f r.graph := rfl

@[simp] theorem Outcome.refusal_restamp (r : Outcome) :
    (restamp f r).refusal = r.refusal.map (restamp f) := rfl

@[simp] theorem BatchOutcome.backups_restamp (r : BatchOutcome) :
    (restamp f r).backups = r.backups.map (restamp f) := rfl

@[simp] theorem BatchOutcome.graph_restamp (r : BatchOutcome) :
    (restamp f r).graph = restamp f r.graph := rfl

@[simp] theorem BatchOutcome.refusal_restamp (r : BatchOutcome) :
    (restamp f r).refusal = r.refusal.map (restamp f) := rfl

theorem Outcome.ofChange_restamp (backup : Backup) (a : Automaton) (r : Except Error Automaton) :
    ofChange (restamp f backup) (restamp f a) (restamp f r) = restamp f (ofChange backup a r) := by
  cases r <;> rfl

theorem Outcome.ofChange_map_snd_restamp {α : Type} [Stamped α] (backup : Backup) (a : Automaton)
    (r : Except Error (α × Automaton)) :
    ofChange (restamp f backup) (restamp f a) ((restamp f r).map Prod.snd) =
      restamp f (ofChange backup a (r.map Prod.snd)) := by
  cases r <;> rfl

theorem headD_restamp (backups : List Backup) :
    (backups.map (restamp f)).headD .nothing = restamp f (backups.headD .nothing) := by
  cases backups <;> rfl

theorem tail_restamp (backups : List Backup) :
    (backups.map (restamp f)).tail = backups.tail.map (restamp f) :=
  List.map_tail.symm

namespace Edit

open Automaton

/-- Applying and reverting an edit goes along with embeddings of the stamps. -/
def Travels (e : Edit) : Prop :=
  ∀ (σ : Nat ↪o Nat) backup a,
    (restamp σ e).apply (restamp σ backup) (restamp σ a) =
        restamp σ (e.apply backup a) ∧
      (restamp σ e).revert (restamp σ backup) (restamp σ a) =
        restamp σ (e.revert backup a)

variable {es : List Edit}

theorem Travels.applyAll (hes : ∀ e ∈ es, e.Travels) (backups : List Backup) (a : Automaton) :
    applyAll (es.map (restamp σ)) (backups.map (restamp σ))
        (restamp σ a) =
      restamp σ (applyAll es backups a) := by
  induction es generalizing a backups with
  | nil => rfl
  | cons e es ih =>
      have happly := fun backup a => (hes e (by simp) σ backup a).1
      have hrevert := fun backup a => (hes e (by simp) σ backup a).2
      have ih := ih fun d hd => hes d (by simp [hd])
      simp only [List.map_cons, Edit.applyAll, headD_restamp, happly, tail_restamp,
        Outcome.backup_restamp, Outcome.graph_restamp, Outcome.refusal_restamp, ih,
        BatchOutcome.backups_restamp, BatchOutcome.graph_restamp, BatchOutcome.refusal_restamp,
        hrevert]
      cases (e.apply (backups.headD .nothing) a).refusal with
      | some err => rfl
      | none =>
          dsimp only [Option.map]
          cases (Edit.applyAll es backups.tail
            (e.apply (backups.headD .nothing) a).graph).refusal <;> rfl

theorem Travels.reapplyAll (hes : ∀ e ∈ es, e.Travels) (backups : List Backup) (a : Automaton) :
    reapplyAll (es.map (restamp σ)) (backups.map (restamp σ))
        (restamp σ a) =
      restamp σ (reapplyAll es backups a) := by
  induction es generalizing a backups with
  | nil => rfl
  | cons e es ih =>
      have happly := fun backup a => (hes e (by simp) σ backup a).1
      have ih := ih fun d hd => hes d (by simp [hd])
      simp only [List.map_cons, Edit.reapplyAll, headD_restamp, happly, tail_restamp,
        Outcome.backup_restamp, Outcome.graph_restamp, ih, BatchOutcome.backups_restamp,
        BatchOutcome.graph_restamp]
      rfl

theorem Travels.revertAll (hes : ∀ e ∈ es, e.Travels) (backups : List Backup) (a : Automaton) :
    revertAll (es.map (restamp σ)) (backups.map (restamp σ))
        (restamp σ a) =
      restamp σ (revertAll es backups a) := by
  induction es generalizing a backups with
  | nil => rfl
  | cons e es ih =>
      have hrevert := fun backup a => (hes e (by simp) σ backup a).2
      have hes' : ∀ d ∈ es, d.Travels := fun d hd => hes d (by simp [hd])
      simp only [List.map_cons, Edit.revertAll, headD_restamp, hrevert, tail_restamp,
        Outcome.backup_restamp, Outcome.graph_restamp, Outcome.refusal_restamp, ih hes',
        BatchOutcome.backups_restamp, BatchOutcome.graph_restamp, BatchOutcome.refusal_restamp,
        Travels.reapplyAll hes']
      cases (Edit.revertAll es backups.tail a).refusal with
      | some err => rfl
      | none =>
          dsimp only [Option.map]
          cases (e.revert (backups.headD .nothing)
            (Edit.revertAll es backups.tail a).graph).refusal <;> rfl

theorem travels (e : Edit) : e.Travels := by
  induction e using Edit.ind with
  | addState s =>
      intro σ backup a
      have hadd := addState_restamp (σ := σ) a s []
      have hremove := removeState_restamp (σ := σ) a s.id
      constructor
      · exact (congrArg _ hadd).trans (Outcome.ofChange_restamp ..)
      · exact (congrArg (fun r => Outcome.ofChange _ _ (r.map Prod.snd)) hremove).trans
          (Outcome.ofChange_map_snd_restamp ..)
  | removeState s =>
      intro σ backup a
      constructor
      · show apply (removeState (restamp σ s)) _ _ = _
        rw [apply, removeState_restamp, apply]
        cases a.removeState s <;> rfl
      · cases backup with
        | node n =>
            exact (congrArg _ (addState_restamp a n.state n.out)).trans
              (Outcome.ofChange_restamp .nothing ..)
        | _ => rfl
  | addTransition t =>
      intro σ backup a
      have hremove := removeTransition_restamp (σ := σ) a t.source t.id
      constructor
      · exact (congrArg _ (addTransition_restamp a t)).trans (Outcome.ofChange_restamp ..)
      · exact (congrArg (fun r => Outcome.ofChange _ _ (r.map Prod.snd)) hremove).trans
          (Outcome.ofChange_map_snd_restamp ..)
  | removeTransition t =>
      intro σ backup a
      have hremove := removeTransition_restamp (σ := σ) a t.source t.id
      constructor
      · exact (congrArg (fun r => Outcome.ofChange _ _ (r.map Prod.snd)) hremove).trans
          (Outcome.ofChange_map_snd_restamp ..)
      · exact (congrArg _ (addTransition_restamp a t)).trans (Outcome.ofChange_restamp ..)
  | setAccepting s accepting =>
      intro σ backup a
      constructor
      · show apply (setAccepting (restamp σ s) accepting) _ _ = _
        rw [apply, setAccepting_restamp, apply]
        cases a.setAccepting s accepting <;> rfl
      · cases backup with
        | flag previous =>
            exact (congrArg (fun r => Outcome.ofChange _ _ (r.map Prod.snd))
              (setAccepting_restamp a s previous)).trans
                (Outcome.ofChange_map_snd_restamp .nothing ..)
        | _ => rfl
  | batch purpose edits ih =>
      intro σ backup a
      rw [restamp_batch]
      constructor
      · rw [apply, Backup.parts_restamp, Travels.applyAll ih, apply]
        exact congrArg (Outcome.mk · _ _) (Backup.restamp_batch _).symm
      · rw [revert, Backup.parts_restamp, Travels.revertAll ih, revert]
        exact congrArg (Outcome.mk · _ _) (Backup.restamp_batch _).symm

@[simp] theorem apply_restamp (e : Edit) (backup : Backup) (a : Automaton) :
    (restamp σ e).apply (restamp σ backup) (restamp σ a) =
      restamp σ (e.apply backup a) :=
  (e.travels σ backup a).1

@[simp] theorem revert_restamp (e : Edit) (backup : Backup) (a : Automaton) :
    (restamp σ e).revert (restamp σ backup) (restamp σ a) =
      restamp σ (e.revert backup a) :=
  (e.travels σ backup a).2

end Edit

/-! ## Histories -/

instance : Stamped Step where
  restamp f s := ⟨restamp f s.edit, restamp f s.backup⟩
  restamp_id s := by rw [restamp_id, restamp_id]
  restamp_restamp f g s := by rw [restamp_restamp, restamp_restamp]

namespace Step

variable (s : Step)

@[simp] theorem edit_restamp : (restamp f s).edit = restamp f s.edit := rfl

@[simp] theorem backup_restamp : (restamp f s).backup = restamp f s.backup := rfl

@[simp] theorem ofEdit_restamp (e : Edit) : ofEdit (restamp f e) = restamp f (ofEdit e) := rfl

@[simp] theorem batch_restamp (purpose : Purpose) (steps : List Step) :
    batch (restamp f purpose) (steps.map (restamp f)) = restamp f (batch purpose steps) := by
  have hedits : (steps.map (restamp f)).map edit = (steps.map edit).map (restamp f) := by
    rw [List.map_map, List.map_map]; rfl
  have hbackups : (steps.map (restamp f)).map backup = (steps.map backup).map (restamp f) := by
    rw [List.map_map, List.map_map]; rfl
  rw [batch, hedits, hbackups, ← Edit.restamp_batch, ← Backup.restamp_batch]
  rfl

@[simp] theorem apply_restamp (a : Automaton) :
    (restamp σ s).apply (restamp σ a) = restamp σ (s.apply a) :=
  s.edit.apply_restamp s.backup a

@[simp] theorem revert_restamp (a : Automaton) :
    (restamp σ s).revert (restamp σ a) = restamp σ (s.revert a) :=
  s.edit.revert_restamp s.backup a

@[simp] theorem remember_restamp (backup : Backup) :
    (restamp f s).remember (restamp f backup) = restamp f (s.remember backup) := rfl

end Step

instance : Plain Event := .trivial Event

instance : Stamped History where
  restamp f h := ⟨restamp f h.done, restamp f h.undone, h.clobber, h.events⟩
  restamp_id h := by rw [restamp_id, restamp_id]
  restamp_restamp f g h := by rw [restamp_restamp, restamp_restamp]

instance : Stamped Moved where
  restamp f m := ⟨restamp f m.history, restamp f m.graph, restamp f m.refusal⟩
  restamp_id m := by rw [restamp_id, restamp_id, restamp_id]
  restamp_restamp f g m := by rw [restamp_restamp, restamp_restamp, restamp_restamp]

@[simp] theorem Moved.history_restamp (m : Moved) :
    (restamp f m).history = restamp f m.history := rfl

@[simp] theorem Moved.graph_restamp (m : Moved) : (restamp f m).graph = restamp f m.graph := rfl

@[simp] theorem Moved.refusal_restamp (m : Moved) :
    (restamp f m).refusal = m.refusal.map (restamp f) := rfl

namespace History

variable (h : History) (a : Automaton)

@[simp] theorem done_restamp : (restamp f h).done = h.done.map (restamp f) := rfl

@[simp] theorem undone_restamp : (restamp f h).undone = h.undone.map (restamp f) := rfl

@[simp] theorem clobber_restamp : (restamp f h).clobber = h.clobber := rfl

@[simp] theorem events_restamp : (restamp f h).events = h.events := rfl

@[simp] theorem cursor_restamp : (restamp f h).cursor = h.cursor := by
  simp [cursor]

@[simp] theorem length_restamp : (restamp f h).length = h.length := by
  simp [length]

@[simp] theorem setClobber_restamp (clobber : Bool) :
    (restamp f h).setClobber clobber = restamp f (h.setClobber clobber) := rfl

@[simp] theorem clear_restamp : (restamp f h).clear = restamp f h.clear := rfl

@[simp] theorem announce_restamp (event : Event) :
    (restamp f h).announce event = restamp f (h.announce event) := rfl

@[simp] theorem dropUndone_restamp : (restamp f h).dropUndone = restamp f h.dropUndone := by
  rw [dropUndone, undone_restamp, List.length_map]
  rfl

@[simp] theorem record_restamp (s : Step) :
    (restamp σ h).record (restamp σ s) (restamp σ a) = restamp σ (h.record s a) := by
  simp only [record, undone_restamp, clobber_restamp, List.isEmpty_map, Step.apply_restamp,
    Outcome.refusal_restamp, Outcome.backup_restamp, Outcome.graph_restamp, done_restamp,
    dropUndone_restamp, Step.remember_restamp]
  split
  · rfl
  · cases (s.apply a).refusal with
    | some err => rfl
    | none =>
        have hcursor := cursor_restamp (f := σ)
          { h.dropUndone with done := s.remember (s.apply a).backup :: h.done }
        exact congrArg (fun position => Moved.mk (announce _ (.cursor position)) _ none) hcursor

@[simp] theorem back_restamp : (restamp σ h).back (restamp σ a) = restamp σ (h.back a) := by
  obtain ⟨done, undone, clobber, events⟩ := h
  cases done with
  | nil => rfl
  | cons s done =>
      show back ⟨restamp σ s :: done.map (restamp σ), undone.map (restamp σ), clobber, events⟩ _ = _
      simp only [back, Step.revert_restamp, Outcome.refusal_restamp, Outcome.backup_restamp,
        Outcome.graph_restamp, Step.remember_restamp]
      cases (s.revert a).refusal with
      | some err => rfl
      | none =>
          have hcursor := cursor_restamp (f := σ)
            ⟨done, s.remember (s.revert a).backup :: undone, clobber, events⟩
          exact congrArg (fun position => Moved.mk (announce _ (.cursor position)) _ none) hcursor

@[simp] theorem forward_restamp :
    (restamp σ h).forward (restamp σ a) = restamp σ (h.forward a) := by
  obtain ⟨done, undone, clobber, events⟩ := h
  cases undone with
  | nil => rfl
  | cons s undone =>
      show forward
        ⟨done.map (restamp σ), restamp σ s :: undone.map (restamp σ), clobber, events⟩ _ = _
      simp only [forward, Step.apply_restamp, Outcome.refusal_restamp, Outcome.backup_restamp,
        Outcome.graph_restamp, Step.remember_restamp]
      cases (s.apply a).refusal with
      | some err => rfl
      | none =>
          have hcursor := cursor_restamp (f := σ)
            ⟨s.remember (s.apply a).backup :: done, undone, clobber, events⟩
          exact congrArg (fun position => Moved.mk (announce _ (.cursor position)) _ none) hcursor

theorem moveBy_restamp {move : History → Automaton → Moved}
    (hmove : ∀ h a, move (restamp σ h) (restamp σ a) = restamp σ (move h a)) (n : Nat) :
    moveBy move n (restamp σ h) (restamp σ a) = restamp σ (moveBy move n h a) := by
  induction n generalizing h a with
  | zero => rfl
  | succ n ih =>
      rw [moveBy, moveBy, hmove, Moved.refusal_restamp]
      cases (move h a).refusal with
      | some err => rfl
      | none => exact ih _ _

@[simp] theorem seek_restamp (position : Nat) :
    (restamp σ h).seek position (restamp σ a) = restamp σ (h.seek position a) := by
  simp only [seek, length_restamp, cursor_restamp, moveBy_restamp h a back_restamp,
    moveBy_restamp h a forward_restamp]
  split
  · rfl
  · split <;> rfl

end History

end RegularForms
