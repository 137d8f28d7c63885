import RegularForms.History

/-!
# What the events tell

Someone who hears the events of a history, but does not see it, can still say where its
cursor is and how many steps it has. The picture made from the events is right after every
operation, whatever is recorded, on whatever graphs, and whether it is refused or not: a seek
that stops midway has announced the part of the way that it went.

The events do not say how many steps there are, only that one more or fewer is there. So it
has to be shown of each operation that it takes the right picture from before to the right
picture after, and not of the events alone.
-/

namespace RegularForms

/-- A picture of a history, made from its events. -/
structure Mirror where
  /-- Where the cursor is. -/
  cursor : Nat
  /-- How many steps there are. -/
  length : Nat
  deriving DecidableEq

namespace Mirror

def blank : Mirror := ⟨0, 0⟩

/-- The picture after one more event. A step can only be dropped where there is one. -/
def heed (m : Mirror) : Event → Option Mirror
  | .cursor position => some ⟨position, max m.length position⟩
  | .clobbered => if m.length = 0 then none else some ⟨m.cursor, m.length - 1⟩
  | .cleared => some blank

def heedAll (m : Mirror) : List Event → Option Mirror
  | [] => some m
  | event :: events => (m.heedAll events).bind fun k => k.heed event

/-- Where there is a step, one can be dropped. -/
theorem heed_clobbered (cursor length : Nat) :
    heed ⟨cursor, length + 1⟩ .clobbered = some ⟨cursor, length⟩ := by
  rw [heed, if_neg (Nat.succ_ne_zero length)]
  rfl

theorem heedAll_append {m : Mirror} (news old : List Event) :
    m.heedAll (news ++ old) = (m.heedAll old).bind fun k => k.heedAll news := by
  induction news with
  | nil => exact (Option.bind_fun_some _).symm
  | cons event news ih =>
      rw [List.cons_append, heedAll, ih, Option.bind_assoc]
      rfl

/-- Steps that are dropped one by one are gone in the picture, too. -/
theorem heedAll_replicate_clobbered (cursor length n : Nat) :
    heedAll ⟨cursor, length + n⟩ (List.replicate n .clobbered) = some ⟨cursor, length⟩ := by
  induction n generalizing length with
  | zero => rfl
  | succ n ih =>
      have hrest := ih (length + 1)
      rw [Nat.add_right_comm, Nat.add_assoc] at hrest
      rw [List.replicate_succ, heedAll, hrest, Option.bind_some, heed_clobbered]

end Mirror

namespace History

variable {h k l : History}

def mirror (h : History) : Mirror := ⟨h.cursor, h.length⟩

/-- The events between two moments take the right picture from one to the other. -/
def Tells (h k : History) : Prop :=
  ∃ news, k.events = news ++ h.events ∧ h.mirror.heedAll news = some k.mirror

theorem Tells.trans (hk : Tells h k) (hl : Tells k l) : Tells h l := by
  obtain ⟨news, hevents, hheed⟩ := hk
  obtain ⟨news', hevents', hheed'⟩ := hl
  refine ⟨news' ++ news, ?_, ?_⟩
  · rw [hevents', hevents, List.append_assoc]
  · rw [Mirror.heedAll_append, hheed, Option.bind_some, hheed']

/-- What is not announced must not show. -/
theorem tells_of_mirror_eq (hevents : k.events = h.events) (hmirror : k.mirror = h.mirror) :
    Tells h k :=
  ⟨[], hevents, congrArg some hmirror.symm⟩

theorem Tells.refl (h : History) : Tells h h := tells_of_mirror_eq rfl rfl

theorem tells_announce {event : Event} (hheed : h.mirror.heed event = some k.mirror)
    (hevents : k.events = h.events) : Tells h (k.announce event) :=
  ⟨[event], congrArg (event :: ·) hevents, hheed⟩

/-- A cursor that moves among the steps, or past the last one to a new step, is announced. -/
theorem tells_announce_cursor (hevents : k.events = h.events)
    (hlength : k.length = max h.length k.cursor) : Tells h (k.announce (.cursor k.cursor)) := by
  refine tells_announce ?_ hevents
  rw [mirror, mirror, hlength]
  rfl

theorem tells_dropUndone (h : History) : Tells h h.dropUndone :=
  ⟨_, rfl, Mirror.heedAll_replicate_clobbered h.cursor h.done.length h.undone.length⟩

theorem tells_clear (h : History) : Tells h h.clear :=
  tells_announce rfl rfl

/-! ## One operation -/

theorem tells_record (h : History) (s : Step) (a : Automaton) :
    Tells h (h.record s a).history := by
  unfold record
  split
  · exact .refl h
  · dsimp only
    split
    · exact .refl h
    · refine (tells_dropUndone h).trans (tells_announce_cursor rfl ?_)
      -- the undone steps are gone, so the new step is the last one
      exact (Nat.max_eq_right (Nat.le_succ h.done.length)).symm

theorem tells_back (h : History) (a : Automaton) : Tells h (h.back a).history := by
  obtain ⟨done, undone, clobber, events⟩ := h
  cases done with
  | nil => exact .refl _
  | cons s done =>
      simp only [back]
      split
      · exact tells_of_mirror_eq rfl rfl
      · refine tells_announce_cursor rfl ?_
        simp only [length, cursor, List.length_cons]
        omega

theorem tells_forward (h : History) (a : Automaton) : Tells h (h.forward a).history := by
  obtain ⟨done, undone, clobber, events⟩ := h
  cases undone with
  | nil => exact .refl _
  | cons s undone =>
      simp only [forward]
      split
      · exact tells_of_mirror_eq rfl rfl
      · refine tells_announce_cursor rfl ?_
        simp only [length, cursor, List.length_cons]
        omega

/-- Going on with a movement tells as much of the way as it goes. -/
theorem tells_moveBy {move : History → Automaton → Moved}
    (hmove : ∀ h a, Tells h (move h a).history) (n : Nat) (h : History) (a : Automaton) :
    Tells h (moveBy move n h a).history := by
  induction n generalizing h a with
  | zero => exact .refl h
  | succ n ih =>
      simp only [moveBy]
      split
      · exact hmove h a
      · exact (hmove h a).trans (ih _ _)

theorem tells_seek (h : History) (position : Nat) (a : Automaton) :
    Tells h (h.seek position a).history := by
  unfold seek
  split
  · exact .refl h
  · split
    · exact tells_moveBy tells_back _ h a
    · exact tells_moveBy tells_forward _ h a

/-! ## A run of operations -/

inductive Operation where
  | record (s : Step)
  | back
  | forward
  | seek (position : Nat)
  | clear
  | setClobber (clobber : Bool)

def operate (h : History) (a : Automaton) : Operation → Moved
  | .record s => h.record s a
  | .back => h.back a
  | .forward => h.forward a
  | .seek position => h.seek position a
  | .clear => ⟨h.clear, a, none⟩
  | .setClobber clobber => ⟨h.setClobber clobber, a, none⟩

theorem tells_operate (h : History) (a : Automaton) (o : Operation) :
    Tells h (h.operate a o).history := by
  cases o with
  | record s => exact tells_record h s a
  | back => exact tells_back h a
  | forward => exact tells_forward h a
  | seek position => exact tells_seek h position a
  | clear => exact tells_clear h
  | setClobber clobber => exact tells_of_mirror_eq rfl rfl

/-- Performs operations in turn, each on a graph of its own, whether or not those before
have been refused. -/
def operateAll : List (Operation × Automaton) → History → History
  | [], h => h
  | (o, a) :: calls, h => operateAll calls (h.operate a o).history

theorem tells_operateAll (calls : List (Operation × Automaton)) (h : History) :
    Tells h (operateAll calls h) := by
  induction calls generalizing h with
  | nil => exact .refl h
  | cons call calls ih => exact (tells_operate h call.2 call.1).trans (ih _)

/-- Who begins to listen to a history when it has no step, and starts from the blank
picture, has the right picture after every run of operations. -/
theorem mirror_operateAll {h : History} (hempty : h.steps = [])
    (calls : List (Operation × Automaton)) :
    ∃ news, (operateAll calls h).events = news ++ h.events ∧
      Mirror.blank.heedAll news =
        some ⟨(operateAll calls h).cursor, (operateAll calls h).length⟩ := by
  obtain ⟨news, hevents, hheed⟩ := tells_operateAll calls h
  have hlength : h.length = 0 := by rw [← length_steps, hempty, List.length_nil]
  have hcursor : h.cursor = 0 := Nat.le_zero.1 (hlength ▸ h.cursor_le_length)
  have hblank : h.mirror = .blank := by rw [mirror, hcursor, hlength]; rfl
  exact ⟨news, hevents, hblank ▸ hheed⟩

/-- A step is recorded and undone, a seek past the end is refused, and another step follows. -/
def undoneAndDropped : List (Operation × Automaton) :=
  [(.record (.ofEdit (.addState ⟨⟨0, 1⟩, false⟩)), (Automaton.new 0).reserve 1 0),
    (.back, ((Automaton.new 0).reserve 1 0).insertNode ⟨⟨⟨0, 1⟩, false⟩, []⟩),
    (.seek 2, .new 0), (.record (.ofEdit (.setAccepting ⟨0, 0⟩ true)), .new 0)]

/-- The second step drops the first. -/
theorem mirror_operateAll_dropped :
    (new true).steps = [] ∧
      (operateAll undoneAndDropped (new true)).events =
        [.cursor 1, .clobbered, .cursor 0, .cursor 1] ∧
      (operateAll undoneAndDropped (new true)).mirror = ⟨1, 1⟩ ∧
      Mirror.blank.heedAll [.cursor 1, .clobbered, .cursor 0, .cursor 1] = some ⟨1, 1⟩ := by
  have hevents : (operateAll undoneAndDropped (new true)).events =
      [.cursor 1, .clobbered, .cursor 0, .cursor 1] := by decide
  have hmirror : (operateAll undoneAndDropped (new true)).mirror = ⟨1, 1⟩ := by decide
  obtain ⟨news, hnews, hheed⟩ := mirror_operateAll (h := new true) rfl undoneAndDropped
  obtain rfl := (List.append_nil news).symm.trans (hnews.symm.trans hevents)
  exact ⟨rfl, hevents, hmirror, hheed.trans (congrArg some hmirror)⟩

end History

end RegularForms
