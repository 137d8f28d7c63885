import RegularForms.Edit.Apply
import RegularForms.Proofs.Automaton.Change

/-!
# What edits do

`Fits` says when an edit is not refused, and `effect` what it then does; both look at the
outline of a graph only. An edit `Joins` two graphs when applying it leads from the first
to the second, and reverting it with the backup that is left behind leads back to the
first. An edit that fits a valid automaton joins it to a valid one with the outline that
`effect` says. Joining is not disturbed by handing out more states and transitions.
-/

namespace RegularForms

namespace Edit

open Automaton

mutual
def effect : Edit → Outline → Outline
  | addState s, o =>
    { o with
      states := insert s.id o.states
      finals := o.finals ∪ {r | r = s.id ∧ s.accepting = true} }
  | removeState s, o =>
    { o with
      states := o.states \ {s}
      transitions := o.transitions \ {t | t.source = s}
      finals := o.finals \ {s} }
  | addTransition t, o => { o with transitions := insert t o.transitions }
  | removeTransition t, o => { o with transitions := o.transitions \ {t} }
  | setAccepting s accepting, o =>
    { o with finals := if accepting then insert s o.finals else o.finals \ {s} }
  | batch _ edits, o => effectAll edits o
def effectAll : List Edit → Outline → Outline
  | [], o => o
  | e :: es, o => effectAll es (effect e o)
end

mutual
/-- Nothing stands against an edit. -/
def Fits : Edit → Outline → Prop
  | addState s, o => s.id ∉ o.states ∧ s.id.owner = o.owner ∧ s.id.index < o.nextState
  | removeState s, o =>
    s ∈ o.states ∧ s ≠ o.start ∧ ∀ t ∈ o.transitions, t.target = s → t.source = s
  | addTransition t, o =>
    t.source ∈ o.states ∧ t.target ∈ o.states ∧
      (t.id.owner = o.owner ∧ t.id.index < o.nextTransition) ∧
        ∀ u ∈ o.transitions, u.id ≠ t.id
  | removeTransition t, o => t ∈ o.transitions
  | setAccepting s _, o => s ∈ o.states
  | batch _ edits, o => FitsAll edits o
def FitsAll : List Edit → Outline → Prop
  | [], _ => True
  | e :: es, o => Fits e o ∧ FitsAll es (effect e o)
end

/-- Reverting an edit with a backup leads from one graph back to another. -/
def Retracts (e : Edit) (left : Backup) (b a : Automaton) : Prop :=
  ∀ m n, ∃ used, e.revert left (b.reserve m n) = ⟨used, a.reserve m n, none⟩

/-- Applying an edit leads from one graph to another, and reverting it leads back. -/
def Joins (e : Edit) (a b : Automaton) : Prop :=
  ∀ backup, ∃ left, (∀ m n, e.apply backup (a.reserve m n) = ⟨left, b.reserve m n, none⟩) ∧
    e.Retracts left b a

/-- Applying edits in turn leads from one graph to another, and reverting them in the
opposite order leads back. -/
def JoinsAll (es : List Edit) (a b : Automaton) : Prop :=
  ∀ backups, ∃ left,
    (∀ m n, applyAll es backups (a.reserve m n) = ⟨left, b.reserve m n, none⟩) ∧
      ∀ m n, ∃ used, revertAll es left (b.reserve m n) = ⟨used, a.reserve m n, none⟩

/-- Reverting an edit, with nothing handed out since. -/
theorem Retracts.revert_eq {e : Edit} {left : Backup} {a b : Automaton}
    (h : e.Retracts left b a) : ∃ used, e.revert left b = ⟨used, a, none⟩ := h 0 0

/-- Applying an edit, with nothing handed out before. -/
theorem Joins.apply_eq {e : Edit} {a b : Automaton} (h : e.Joins a b) (backup : Backup) :
    ∃ left, e.apply backup a = ⟨left, b, none⟩ ∧ e.Retracts left b a := by
  obtain ⟨left, happly, hretracts⟩ := h backup
  exact ⟨left, happly 0 0, hretracts⟩

theorem Retracts.reserve {e : Edit} {left : Backup} {a b : Automaton}
    (h : e.Retracts left b a) (m n : Nat) :
    e.Retracts left (b.reserve m n) (a.reserve m n) := by
  intro k l
  rw [reserve_reserve, reserve_reserve]
  exact h (m + k) (n + l)

theorem Joins.reserve {e : Edit} {a b : Automaton} (h : e.Joins a b) (m n : Nat) :
    e.Joins (a.reserve m n) (b.reserve m n) := by
  intro backup
  obtain ⟨left, happly, hback⟩ := h backup
  refine ⟨left, fun k l => ?_, hback.reserve m n⟩
  rw [reserve_reserve, reserve_reserve]
  exact happly (m + k) (n + l)

theorem joinsAll_nil (a : Automaton) : JoinsAll [] a a :=
  fun _ => ⟨[], fun _ _ => rfl, fun _ _ => ⟨[], rfl⟩⟩

theorem JoinsAll.cons {e : Edit} {es : List Edit} {a b c : Automaton} (h : e.Joins a b)
    (hs : JoinsAll es b c) : JoinsAll (e :: es) a c := by
  intro backups
  obtain ⟨left, happly, hback⟩ := h (backups.headD .nothing)
  obtain ⟨lefts, happlies, hbacks⟩ := hs backups.tail
  refine ⟨left :: lefts, fun m n => ?_, fun m n => ?_⟩
  · simp only [applyAll, happly, happlies]
  · obtain ⟨useds, hrevertAll⟩ := hbacks m n
    obtain ⟨used, hrevert⟩ := hback m n
    refine ⟨used :: useds, ?_⟩
    simp only [revertAll, List.tail_cons, List.headD_cons, hrevertAll, hrevert]

theorem Joins.batch {es : List Edit} {a b : Automaton} (h : JoinsAll es a b)
    (purpose : Purpose) : (Edit.batch purpose es).Joins a b := by
  intro backup
  obtain ⟨lefts, happlies, hbacks⟩ := h backup.parts
  refine ⟨.batch lefts, fun m n => ?_, fun m n => ?_⟩
  · simp only [apply, happlies]
  · obtain ⟨useds, hrevertAll⟩ := hbacks m n
    exact ⟨.batch useds, by simp only [revert, Backup.parts, hrevertAll]⟩

/-! ## Opposite edits -/

/-- Reverting one of two edits is applying the other, and neither remembers anything. -/
structure Opposite (d e : Edit) : Prop where
  revert_left : ∀ backup a, d.revert backup a = e.apply backup a
  revert_right : ∀ backup a, e.revert backup a = d.apply backup a
  backup_left : ∀ backup a, (d.apply backup a).backup = backup
  backup_right : ∀ backup a, (e.apply backup a).backup = backup

theorem Opposite.symm {d e : Edit} (h : Opposite d e) : Opposite e d :=
  ⟨h.revert_right, h.revert_left, h.backup_right, h.backup_left⟩

theorem backup_ofChange (backup : Backup) (a : Automaton) (r : Except Error Automaton) :
    (Outcome.ofChange backup a r).backup = backup := by
  cases r <;> rfl

theorem opposite_transition (t : Transition) : Opposite (addTransition t) (removeTransition t) :=
  ⟨fun _ _ => rfl, fun _ _ => rfl, fun _ _ => backup_ofChange _ _ _,
    fun _ _ => backup_ofChange _ _ _⟩

/-- The opposite edit leads the other way. -/
theorem Opposite.joins {d e : Edit} {a b : Automaton} (h : Opposite d e)
    (hjoins : d.Joins a b) : e.Joins b a := by
  intro backup
  obtain ⟨left, happly, hback⟩ := hjoins backup
  obtain rfl : left = backup := by
    rw [← h.backup_left backup (a.reserve 0 0), happly]
  refine ⟨left, fun m n => ?_, fun m n => ⟨left, (h.revert_right _ _).trans (happly m n)⟩⟩
  obtain ⟨used, hrevert⟩ := hback m n
  rw [h.revert_left] at hrevert
  obtain rfl : used = left := by
    rw [← h.backup_right left (b.reserve m n), hrevert]
  exact hrevert

/-! ## Simple edits -/

variable {a : Automaton}

theorem joins_addState (ha : a.Valid) {s : State} (h : (addState s).Fits a.outline) :
    (addState s).Joins a (a.insertNode ⟨s, []⟩) := by
  obtain ⟨hfresh, howner, hindex⟩ := h
  refine fun backup => ⟨backup, fun m n => ?_, fun m n => ⟨backup, ?_⟩⟩
  · have hadd : (a.reserve m n).addState s [] = .ok ((a.reserve m n).insertNode ⟨s, []⟩) :=
      addState_eq hfresh howner
    rw [apply, hadd]
    rfl
  have hv := ha.reserve m n
  have hnew : s.id ∉ (a.reserve m n).stateIds := hfresh
  have hne : s.id ≠ a.start := fun heq => hnew (heq ▸ hv.start_mem)
  have hissued : s.id.owner = (a.reserve m n).owner ∧ s.id.index < (a.reserve m n).nextState :=
    ⟨howner, Nat.lt_add_right m hindex⟩
  have hremove := (hv.insertState hnew hissued).removeState_eq (n := ⟨s, []⟩)
    (mem_nodes_insertNode.2 (.inl rfl)) hne ?_
  · rw [eraseNode_insertNode (n := ⟨s, []⟩) hnew] at hremove
    rw [revert]
    exact congrArg (fun r => Outcome.ofChange backup _ (Except.map Prod.snd r)) hremove
  · intro t ht htarget
    rcases mem_transitions_insertNode.1 ht with ht | ht
    · nomatch ht
    · have hmem := hv.target_mem t ht
      rw [htarget] at hmem
      exact absurd hmem hnew

theorem joins_removeState (ha : a.Valid) {s : StateId} (h : (removeState s).Fits a.outline) :
    (removeState s).Joins a (a.eraseNode s) := by
  obtain ⟨hmem, hstart, hinto⟩ := h
  obtain ⟨node, hnode, rfl, -⟩ := ha.exists_node hmem
  refine fun backup => ⟨.node node, fun m n => ?_, fun m n => ⟨.nothing, ?_⟩⟩
  · rw [apply, (ha.reserve m n).removeState_eq hnode hstart hinto]
    rfl
  · rw [revert]
    exact congrArg (Outcome.ofChange .nothing _) ((ha.reserve m n).addState_eraseNode hnode)

theorem joins_addTransition (ha : a.Valid) {t : Transition}
    (h : (addTransition t).Fits a.outline) : (addTransition t).Joins a (a.link t) := by
  obtain ⟨hsource, htarget, ⟨howner, hindex⟩, hfresh⟩ := h
  refine fun backup => ⟨backup, fun m n => ?_, fun m n => ⟨backup, ?_⟩⟩
  · rw [apply, (ha.reserve m n).addTransition_eq hsource htarget howner hfresh]
    rfl
  have hv := ha.reserve m n
  have hnew : ∀ u ∈ (a.reserve m n).transitions, u.id ≠ t.id := hfresh
  have hissued : t.id.owner = (a.reserve m n).owner ∧
      t.id.index < (a.reserve m n).nextTransition :=
    ⟨howner, Nat.lt_add_right n hindex⟩
  have hmem : t ∈ ((a.reserve m n).link t).transitions :=
    (mem_transitions_link hv hsource).2 (.inl rfl)
  have hremove := (hv.link htarget hissued hnew).removeTransition_eq hmem
  rw [unlink_link hnew] at hremove
  rw [revert]
  exact congrArg (fun r => Outcome.ofChange backup _ (Except.map Prod.snd r)) hremove

theorem joins_removeTransition (ha : a.Valid) {t : Transition}
    (h : (removeTransition t).Fits a.outline) :
    (removeTransition t).Joins a (a.unlink t.source t.id) := by
  have ht : t ∈ a.transitions := h
  have hsource : t.source ∈ (a.unlink t.source t.id).stateIds := by
    rw [stateIds_unlink]
    exact ha.source_mem ht
  have htarget : t.target ∈ (a.unlink t.source t.id).stateIds := by
    rw [stateIds_unlink]
    exact ha.target_mem t ht
  have hfits : (addTransition t).Fits (a.unlink t.source t.id).outline := by
    refine ⟨hsource, htarget, ha.transition_issued t ht, fun u hu hid => ?_⟩
    obtain ⟨hu, hne⟩ := (mem_transitions_unlink ha ht).1 hu
    exact hne (ha.eq_of_id_eq u hu t ht hid)
  have hjoins := joins_addTransition (ha.unlink t.source t.id) hfits
  rw [link_unlink ha ht] at hjoins
  exact (opposite_transition t).joins hjoins

theorem joins_setAccepting (ha : a.Valid) {s : StateId} {accepting : Bool}
    (h : (setAccepting s accepting).Fits a.outline) :
    (setAccepting s accepting).Joins a (a.mark s accepting) := by
  refine fun backup => ⟨.flag (a.accepting s), fun m n => ?_, fun m n => ⟨.nothing, ?_⟩⟩
  · rw [apply, (ha.reserve m n).setAccepting_eq h accepting]
    rfl
  have hv := ha.reserve m n
  have hs : s ∈ ((a.reserve m n).mark s accepting).stateIds := by
    rw [stateIds_mark]
    exact h
  have hback := (hv.mark s accepting).setAccepting_eq hs ((a.reserve m n).accepting s)
  rw [mark_mark hv] at hback
  rw [revert]
  exact congrArg (fun r => Outcome.ofChange .nothing _ (Except.map Prod.snd r)) hback

/-! ## All edits -/

/-- An edit that fits a valid automaton joins it to a valid one with the expected outline. -/
theorem Fits.exists_joins (e : Edit) (ha : a.Valid) (h : e.Fits a.outline) :
    ∃ b : Automaton, e.Joins a b ∧ b.Valid ∧ b.outline = e.effect a.outline := by
  induction e using Edit.ind generalizing a with
  | addState s =>
      obtain ⟨hnew, hissued⟩ := id h
      exact ⟨_, joins_addState ha h, ha.insertState hnew hissued,
        outline_insertState ha hnew hissued⟩
  | removeState s =>
      obtain ⟨-, hstart, hinto⟩ := id h
      exact ⟨_, joins_removeState ha h, ha.eraseNode hstart hinto,
        outline_eraseNode ha hstart hinto⟩
  | addTransition t =>
      obtain ⟨hsource, htarget, hissued, hnew⟩ := id h
      have hb := ha.link htarget hissued hnew
      exact ⟨_, joins_addTransition ha h, hb, outline_link ha hsource hb⟩
  | removeTransition t =>
      exact ⟨_, joins_removeTransition ha h, ha.unlink _ _, outline_unlink ha h⟩
  | setAccepting s accepting =>
      exact ⟨_, joins_setAccepting ha h, ha.mark _ _, outline_mark ha h accepting⟩
  | batch purpose edits ih =>
      have key : ∃ b : Automaton, JoinsAll edits a b ∧ b.Valid ∧
          b.outline = effectAll edits a.outline := by
        have hall : FitsAll edits a.outline := h
        clear h
        induction edits generalizing a with
        | nil => exact ⟨a, joinsAll_nil a, ha, rfl⟩
        | cons e es ihs =>
            obtain ⟨b, hjoin, hb, hbo⟩ := ih e (by simp) ha hall.1
            obtain ⟨c, hjoins, hc, hco⟩ := ihs (fun d hd => ih d (by simp [hd])) hb
              (hbo ▸ hall.2)
            exact ⟨c, .cons hjoin hjoins, hc, by rw [hco, hbo]; rfl⟩
      obtain ⟨b, hjoins, hb, hbo⟩ := key
      exact ⟨b, .batch hjoins purpose, hb, hbo⟩

end Edit

end RegularForms
