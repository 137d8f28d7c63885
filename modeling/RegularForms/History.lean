import RegularForms.Edit.Apply

/-!
# The history of a graph

A history records the edits made to a graph, so that one can go back and forth among
them. It is split at the cursor: the steps before it are done, the steps after it are
undone. A new step is recorded at the cursor; if there are undone steps then, they are
either dropped or stand in the way, depending on how the history is set up.

Every movement of the cursor and every dropped step is announced as an event.
-/

namespace RegularForms

/-- An edit together with what it remembers from the last time it was applied. -/
structure Step where
  edit : Edit
  backup : Backup

namespace Step

def ofEdit (e : Edit) : Step := ⟨e, .nothing⟩

/-- The batch of some steps, which goes on remembering what they remember. -/
def batch (purpose : Purpose) (steps : List Step) : Step :=
  ⟨.batch purpose (steps.map Step.edit), .batch (steps.map Step.backup)⟩

def apply (s : Step) (a : Automaton) : Outcome := s.edit.apply s.backup a

def revert (s : Step) (a : Automaton) : Outcome := s.edit.revert s.backup a

def remember (s : Step) (backup : Backup) : Step := { s with backup := backup }

@[simp] theorem edit_remember (s : Step) (backup : Backup) :
    (s.remember backup).edit = s.edit := rfl

end Step

inductive Event where
  /-- The cursor is now at this position. -/
  | cursor (position : Nat)
  /-- One undone step was dropped. -/
  | clobbered
  /-- All steps were dropped. -/
  | cleared
  deriving DecidableEq

/-- Recorded steps with a cursor between those done and those undone. -/
structure History where
  /-- The steps before the cursor, latest first. -/
  done : List Step
  /-- The steps after the cursor, next first. -/
  undone : List Step
  /-- Whether a new step replaces the undone ones. -/
  clobber : Bool
  /-- What has been announced, latest first. -/
  events : List Event

structure Moved where
  history : History
  graph : Automaton
  /-- Why the operation was refused, or stopped, if it was. -/
  refusal : Option Error

namespace History

def new (clobber : Bool) : History := ⟨[], [], clobber, []⟩

def cursor (h : History) : Nat := h.done.length

def length (h : History) : Nat := h.done.length + h.undone.length

def steps (h : History) : List Step := h.done.reverse ++ h.undone

def announce (h : History) (event : Event) : History :=
  { h with events := event :: h.events }

def setClobber (h : History) (clobber : Bool) : History := { h with clobber := clobber }

def clear (h : History) : History :=
  { h with done := [], undone := [] }.announce .cleared

def dropUndone (h : History) : History :=
  { h with
    undone := []
    events := List.replicate h.undone.length .clobbered ++ h.events }

def record (h : History) (s : Step) (a : Automaton) : Moved :=
  if !h.undone.isEmpty && !h.clobber then ⟨h, a, some .notAtEnd⟩
  else
    let r := s.apply a
    match r.refusal with
    | some err => ⟨h, r.graph, some err⟩
    | none =>
      let cleared := h.dropUndone
      let recorded := { cleared with done := s.remember r.backup :: h.done }
      ⟨recorded.announce (.cursor recorded.cursor), r.graph, none⟩

/-- Reverts the last step done. At the beginning there is nothing to do. -/
def back (h : History) (a : Automaton) : Moved :=
  match h.done with
  | [] => ⟨h, a, none⟩
  | s :: done =>
    let r := s.revert a
    match r.refusal with
    | some err => ⟨{ h with done := s.remember r.backup :: done }, r.graph, some err⟩
    | none =>
      let moved := { h with done := done, undone := s.remember r.backup :: h.undone }
      ⟨moved.announce (.cursor moved.cursor), r.graph, none⟩

/-- Applies the first undone step again. At the end there is nothing to do. -/
def forward (h : History) (a : Automaton) : Moved :=
  match h.undone with
  | [] => ⟨h, a, none⟩
  | s :: undone =>
    let r := s.apply a
    match r.refusal with
    | some err => ⟨{ h with undone := s.remember r.backup :: undone }, r.graph, some err⟩
    | none =>
      let moved := { h with done := s.remember r.backup :: h.done, undone := undone }
      ⟨moved.announce (.cursor moved.cursor), r.graph, none⟩

/-- Goes on with a movement a number of times, or until it is refused. -/
def moveBy (move : History → Automaton → Moved) : Nat → History → Automaton → Moved
  | 0, h, a => ⟨h, a, none⟩
  | n + 1, h, a =>
    let m := move h a
    match m.refusal with
    | some _ => m
    | none => moveBy move n m.history m.graph

def seek (h : History) (position : Nat) (a : Automaton) : Moved :=
  if h.length < position then ⟨h, a, some (.outOfRange position h.length)⟩
  else if position ≤ h.cursor then moveBy back (h.cursor - position) h a
  else moveBy forward (position - h.cursor) h a

theorem length_steps (h : History) : h.steps.length = h.length := by
  simp [steps, length]

theorem cursor_le_length (h : History) : h.cursor ≤ h.length :=
  Nat.le_add_right _ _

@[simp] theorem cursor_announce (h : History) (event : Event) :
    (h.announce event).cursor = h.cursor := rfl

@[simp] theorem length_announce (h : History) (event : Event) :
    (h.announce event).length = h.length := rfl

@[simp] theorem steps_announce (h : History) (event : Event) :
    (h.announce event).steps = h.steps := rfl

end History

end RegularForms
