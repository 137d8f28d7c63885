import RegularForms.History
import RegularForms.Proofs.Edit.Effect

/-!
# Going back and forth

A history is sound for a graph when every step before the cursor can be reverted in turn,
every step after it can be applied in turn, and each graph that is come across on the way
has a property `P`, which may depend on the edits that have led to it. Moving the cursor
keeps a history sound. So it can be moved to every position, as often as one likes, and the
graph always has the property. Recording one more step keeps a history sound, too.
-/

namespace RegularForms

namespace History

def past (h : History) : List Edit := h.done.map Step.edit

def edits (h : History) : List Edit := h.steps.map Step.edit

theorem edits_eq (h : History) : h.edits = h.past.reverse ++ h.undone.map Step.edit := by
  rw [edits, steps, List.map_append, List.map_reverse, past]

@[simp] theorem edits_announce (h : History) (event : Event) :
    (h.announce event).edits = h.edits := rfl

theorem length_edits (h : History) : h.edits.length = h.length := by
  rw [edits, List.length_map, length_steps]

theorem length_eq_of_edits_eq {h k : History} (heq : h.edits = k.edits) :
    h.length = k.length := by
  rw [← length_edits, heq, length_edits]

/-- The edits before the cursor are the first ones, as many as the cursor says. -/
theorem take_cursor_edits (h : History) : h.edits.take h.cursor = h.past.reverse := by
  rw [edits_eq]
  exact List.take_left' (by rw [List.length_reverse, past, List.length_map, cursor])

/-- The steps, latest first, can be reverted one after the other, through graphs with a
property of the edits that have led to them. -/
def Trail (P : List Edit → Automaton → Prop) : List Step → Automaton → Prop
  | [], b => P [] b
  | s :: done, b =>
    P (s.edit :: done.map Step.edit) b ∧
      ∃ a, s.edit.Joins a b ∧ s.edit.Retracts s.backup b a ∧ Trail P done a

/-- After some edits, latest first, the steps, next first, can be applied one after the
other, through graphs with a property of the edits that have led to them. -/
def Ahead (P : List Edit → Automaton → Prop) : List Edit → List Step → Automaton → Prop
  | _, [], _ => True
  | es, s :: undone, a =>
    ∃ b, P (s.edit :: es) b ∧ s.edit.Joins a b ∧ Ahead P (s.edit :: es) undone b

/-- One can go back and forth in a history of a graph, through graphs with a property of the
edits that have led to them. -/
def Sound (P : List Edit → Automaton → Prop) (h : History) (a : Automaton) : Prop :=
  Trail P h.done a ∧ Ahead P h.past h.undone a

variable {P Q : List Edit → Automaton → Prop}

theorem Trail.holds {done : List Step} {a : Automaton} (h : Trail P done a) :
    P (done.map Step.edit) a := by
  cases done with
  | nil => exact h
  | cons s done => exact h.1

/-- Handing out states and transitions does not stand in the way of going back. -/
theorem Trail.reserve {m n : Nat} (hPQ : ∀ es a, P es a → Q es (a.reserve m n))
    {done : List Step} {a : Automaton} (h : Trail P done a) : Trail Q done (a.reserve m n) := by
  induction done generalizing a with
  | nil => exact hPQ [] a h
  | cons s done ih =>
      obtain ⟨hb, a', hjoins, hretracts, htrail⟩ := h
      exact ⟨hPQ _ a hb, a'.reserve m n, hjoins.reserve m n, hretracts.reserve m n, ih htrail⟩

/-- Handing out states and transitions does not stand in the way of going on. -/
theorem Ahead.reserve {m n : Nat} (hPQ : ∀ es a, P es a → Q es (a.reserve m n))
    {es : List Edit} {undone : List Step} {a : Automaton} (h : Ahead P es undone a) :
    Ahead Q es undone (a.reserve m n) := by
  induction undone generalizing es a with
  | nil => trivial
  | cons s undone ih =>
      obtain ⟨b, hb, hjoins, hahead⟩ := h
      exact ⟨b.reserve m n, hPQ _ b hb, hjoins.reserve m n, ih hahead⟩

theorem sound_of_steps_eq_nil {h : History} {a : Automaton} (hempty : h.steps = [])
    (ha : P [] a) : Sound P h a := by
  obtain ⟨done, undone, clobber, events⟩ := h
  obtain ⟨hdone, rfl⟩ := List.append_eq_nil_iff.1 hempty
  obtain rfl := List.reverse_eq_nil_iff.1 hdone
  exact ⟨ha, trivial⟩

theorem Sound.holds {h : History} {a : Automaton} (hs : Sound P h a) : P h.past a :=
  hs.1.holds

theorem Sound.reserve {m n : Nat} (hPQ : ∀ es a, P es a → Q es (a.reserve m n)) {h : History}
    {a : Automaton} (hs : Sound P h a) : Sound Q h (a.reserve m n) :=
  ⟨hs.1.reserve hPQ, hs.2.reserve hPQ⟩

/-! ## Recording -/

/-- Undone steps that are not to be dropped stand in the way of a new step. -/
theorem record_of_blocked {h : History} (hblocked : ¬ (h.undone = [] ∨ h.clobber = true))
    (s : Step) (a : Automaton) : h.record s a = ⟨h, a, some .notAtEnd⟩ :=
  if_pos (by simpa using hblocked)

/-- A step that is refused when it is applied to the graph is not recorded. -/
theorem record_of_refused {h : History} {s : Step} {a : Automaton} {left : Backup} {err : Error}
    (hs : s.apply a = ⟨left, a, some err⟩) :
    (h.record s a).history = h ∧ (h.record s a).graph = a := by
  unfold record
  split
  · exact ⟨rfl, rfl⟩
  · rw [hs]
    exact ⟨rfl, rfl⟩

/-- A step that joins the graph to another one is recorded unless undone steps stand in the
way. -/
theorem exists_record_eq {h : History} {s : Step} {a b : Automaton} (hjoins : s.edit.Joins a b)
    (hfree : h.undone = [] ∨ h.clobber = true) :
    ∃ left, s.edit.Retracts left b a ∧ h.record s a =
      ⟨announce { h.dropUndone with done := s.remember left :: h.done } (.cursor (h.cursor + 1)),
        b, none⟩ := by
  obtain ⟨left, happly, hretracts⟩ := hjoins.apply_eq s.backup
  have hr : s.apply a = ⟨left, b, none⟩ := happly
  have hopen : ¬ (!h.undone.isEmpty && !h.clobber) = true := by
    rcases hfree with hfree | hfree <;> simp [hfree]
  refine ⟨left, hretracts, ?_⟩
  rw [record, if_neg hopen, hr]
  rfl

/-- Recording a step that joins the graph to another one keeps a history sound. -/
theorem Sound.record {h : History} {a b : Automaton} (hs : Sound P h a) {s : Step}
    (hjoins : s.edit.Joins a b) (hb : P (s.edit :: h.past) b) :
    Sound P (h.record s a).history (h.record s a).graph := by
  by_cases hfree : h.undone = [] ∨ h.clobber = true
  · obtain ⟨left, hretracts, hrecord⟩ := exists_record_eq hjoins hfree
    rw [hrecord]
    exact ⟨⟨hb, a, hjoins, hretracts, hs.1⟩, trivial⟩
  · rwa [record_of_blocked hfree]

/-! ## Moving the cursor -/

/-- A movement that is not refused, keeps a history sound and does not touch its edits, but
moves the cursor to a position. -/
def Moves (P : List Edit → Automaton → Prop) (h : History) (position : Nat) (m : Moved) :
    Prop :=
  m.refusal = none ∧ Sound P m.history m.graph ∧ m.history.edits = h.edits ∧
    m.history.cursor = position

theorem Sound.back {h : History} {a : Automaton} (hs : Sound P h a) :
    Moves P h (h.cursor - 1) (h.back a) := by
  obtain ⟨done, undone, clobber, events⟩ := h
  cases done with
  | nil => exact ⟨rfl, hs, rfl, rfl⟩
  | cons s done =>
      obtain ⟨⟨hP, b, hjoins, hretracts, htrail⟩, hundone⟩ := hs
      obtain ⟨used, hrevert⟩ := hretracts.revert_eq
      have hr : s.revert a = ⟨used, b, none⟩ := hrevert
      have hmoved : History.back ⟨s :: done, undone, clobber, events⟩ a =
          ⟨announce ⟨done, s.remember used :: undone, clobber, events⟩ (.cursor done.length),
            b, none⟩ := by
        simp only [History.back, hr]
        rfl
      rw [hmoved]
      refine ⟨rfl, ⟨htrail, a, hP, hjoins, hundone⟩, ?_, rfl⟩
      rw [edits_announce]
      simp [edits, steps]

theorem Sound.forward {h : History} {a : Automaton} (hs : Sound P h a) :
    Moves P h (min (h.cursor + 1) h.length) (h.forward a) := by
  obtain ⟨done, undone, clobber, events⟩ := h
  cases undone with
  | nil => exact ⟨rfl, hs, rfl, (Nat.min_eq_right (Nat.le_succ done.length)).symm⟩
  | cons s undone =>
      obtain ⟨hdone, b, hP, hjoins, hahead⟩ := hs
      obtain ⟨left, happly, hretracts⟩ := hjoins.apply_eq s.backup
      have hr : s.apply a = ⟨left, b, none⟩ := happly
      have hmoved : History.forward ⟨done, s :: undone, clobber, events⟩ a =
          ⟨announce ⟨s.remember left :: done, undone, clobber, events⟩
            (.cursor (done.length + 1)), b, none⟩ := by
        simp only [History.forward, hr]
        rfl
      rw [hmoved]
      refine ⟨rfl, ⟨⟨hP, a, hjoins, hretracts, hdone⟩, hahead⟩, ?_, ?_⟩
      · rw [edits_announce]
        simp [edits, steps]
      · refine (Nat.min_eq_left ?_).symm
        exact Nat.add_le_add_left (Nat.le_add_left 1 undone.length) done.length

theorem Sound.moveBy_back (n : Nat) {h : History} {a : Automaton} (hs : Sound P h a) :
    Moves P h (h.cursor - n) (moveBy History.back n h a) := by
  induction n generalizing h a with
  | zero => exact ⟨rfl, hs, rfl, rfl⟩
  | succ n ih =>
      obtain ⟨hrefusal, hsound, hedits, hcursor⟩ := hs.back
      obtain ⟨hrefusal', hsound', hedits', hcursor'⟩ := ih hsound
      simp only [moveBy, hrefusal]
      refine ⟨hrefusal', hsound', hedits'.trans hedits, hcursor'.trans ?_⟩
      rw [hcursor, Nat.sub_sub, Nat.add_comm]

theorem Sound.moveBy_forward (n : Nat) {h : History} {a : Automaton} (hs : Sound P h a) :
    Moves P h (min (h.cursor + n) h.length) (moveBy History.forward n h a) := by
  induction n generalizing h a with
  | zero => exact ⟨rfl, hs, rfl, (Nat.min_eq_left h.cursor_le_length).symm⟩
  | succ n ih =>
      obtain ⟨hrefusal, hsound, hedits, hcursor⟩ := hs.forward
      obtain ⟨hrefusal', hsound', hedits', hcursor'⟩ := ih hsound
      simp only [moveBy, hrefusal]
      refine ⟨hrefusal', hsound', hedits'.trans hedits, hcursor'.trans ?_⟩
      rw [hcursor, length_eq_of_edits_eq hedits]
      omega

/-- In a sound history the cursor can be moved to every position. -/
theorem Sound.seek {h : History} {a : Automaton} (hs : Sound P h a) {position : Nat}
    (hle : position ≤ h.length) : Moves P h position (h.seek position a) := by
  unfold History.seek
  rw [if_neg (Nat.not_lt.2 hle)]
  by_cases hback : position ≤ h.cursor
  · rw [if_pos hback]
    have hmoves := hs.moveBy_back (h.cursor - position)
    rwa [Nat.sub_sub_self hback] at hmoves
  · rw [if_neg hback]
    have hmoves := hs.moveBy_forward (position - h.cursor)
    rwa [Nat.add_sub_cancel' (Nat.le_of_not_le hback), Nat.min_eq_left hle] at hmoves

/-- Moves the cursor to several positions in turn, until a movement is refused. -/
def seekAll : List Nat → History → Automaton → Moved
  | [], h, a => ⟨h, a, none⟩
  | position :: positions, h, a =>
    let m := h.seek position a
    match m.refusal with
    | some _ => m
    | none => seekAll positions m.history m.graph

/-- One can seek among the positions of a sound history at will. -/
theorem Sound.seekAll {positions : List Nat} {h : History} {a : Automaton} (hs : Sound P h a)
    (hle : ∀ position ∈ positions, position ≤ h.length) :
    (seekAll positions h a).refusal = none ∧
      Sound P (seekAll positions h a).history (seekAll positions h a).graph := by
  induction positions generalizing h a with
  | nil => exact ⟨rfl, hs⟩
  | cons position positions ih =>
      obtain ⟨hposition, hpositions⟩ := List.forall_mem_cons.1 hle
      obtain ⟨hrefusal, hsound, hedits, -⟩ := hs.seek hposition
      simp only [History.seekAll, hrefusal]
      exact ih hsound fun i hi => length_eq_of_edits_eq hedits ▸ hpositions i hi

end History

end RegularForms
