import RegularForms.Proofs.Edit.Refusal

/-!
# What it means that an edit has been applied or reverted

When an edit has been applied without a refusal, its kind tells what it has found in the graph,
what it has made of it and what it remembers. When an edit is reverted, its kind tells what
comes of it if it is not refused; a simple edit that is refused leaves the graph alone.
-/

namespace RegularForms

namespace Edit

open Automaton

variable {issued : Set Transition} {stock : Stock} {a b : Automaton} {backup left : Backup}

/-! ## Applying -/

theorem of_ofChange_eq {r : Except Error Automaton}
    (h : Outcome.ofChange backup a r = ⟨left, b, none⟩) : r = .ok b := by
  cases r with
  | ok c => rw [(Outcome.mk.inj h).2.1]
  | error err => nomatch (Outcome.mk.inj h).2.2

theorem of_apply_addState {s : State} (h : (addState s).apply backup a = ⟨left, b, none⟩) :
    a.addState s [] = .ok b ∧ s.id ∉ a.stateIds ∧ b = a.insertNode ⟨s, []⟩ := by
  have hok : a.addState s [] = .ok b := of_ofChange_eq h
  obtain ⟨-, hnew, -, -, hb⟩ := of_addState hok
  exact ⟨hok, hnew, hb⟩

theorem of_apply_removeState {s : StateId}
    (h : (removeState s).apply backup a = ⟨left, b, none⟩) :
    ∃ n ∈ a.nodes, n.id = s ∧ left = .node n ∧ b = a.eraseNode s := by
  rw [apply] at h
  split at h
  · next n c hok =>
      obtain ⟨rfl, rfl, -⟩ := Outcome.mk.inj h
      obtain ⟨-, hnode, -, hb⟩ := of_removeState hok
      obtain ⟨hn, hns⟩ := node?_eq_some hnode
      exact ⟨n, hn, hns, rfl, hb⟩
  · cases h

theorem of_apply_addTransition {t : Transition} (ha : Stocked issued stock a)
    (ht : t ∈ stock.transitions) (h : (addTransition t).apply backup a = ⟨left, b, none⟩) :
    (addTransition t).Fits a.outline ∧ b = a.link t := by
  obtain ⟨-, -, -, hb⟩ := of_addTransition (of_ofChange_eq h)
  rcases fits_or_refused_addTransition ha ht with hfits | hrefused
  · exact ⟨hfits, hb⟩
  · exact absurd h (hrefused.apply_ne backup left b)

theorem of_apply_removeTransition {t : Transition} (ha : Stocked issued stock a)
    (ht : t ∈ stock.transitions) (h : (removeTransition t).apply backup a = ⟨left, b, none⟩) :
    t ∈ a.transitions ∧ b = a.unlink t.source t.id := by
  obtain ⟨u, hok⟩ := ok_of_map_snd (of_ofChange_eq h)
  obtain ⟨-, -, hb⟩ := of_removeTransition hok
  rcases fits_or_refused_removeTransition ha ht with hfits | hrefused
  · exact ⟨hfits, hb⟩
  · exact absurd h (hrefused.apply_ne backup left b)

theorem of_apply_setAccepting {s : StateId} {accepting : Bool} (ha : a.Valid)
    (h : (setAccepting s accepting).apply backup a = ⟨left, b, none⟩) :
    s ∈ a.stateIds ∧ left = .flag (a.accepting s) ∧ b = a.mark s accepting := by
  rw [apply] at h
  split at h
  · next previous c hok =>
      obtain ⟨rfl, rfl, -⟩ := Outcome.mk.inj h
      obtain ⟨hs, hb⟩ := of_setAccepting hok
      rw [ha.setAccepting_eq hs] at hok
      obtain ⟨rfl, -⟩ := Prod.mk.inj (Except.ok.inj hok)
      exact ⟨hs, rfl, hb⟩
  · cases h

theorem of_apply_batch {purpose : Purpose} {es : List Edit}
    (h : (batch purpose es).apply backup a = ⟨left, b, none⟩) :
    ∃ lefts, left = .batch lefts ∧ applyAll es backup.parts a = ⟨lefts, b, none⟩ := by
  rcases happlies : applyAll es backup.parts a with ⟨lefts, c, refusal⟩
  simp only [apply, happlies] at h
  obtain ⟨rfl, rfl, rfl⟩ := Outcome.mk.inj h
  exact ⟨lefts, rfl, rfl⟩

theorem of_applyAll_cons {e : Edit} {es : List Edit} {backups lefts : List Backup}
    (h : applyAll (e :: es) backups a = ⟨lefts, b, none⟩) :
    ∃ left c rest, e.apply (backups.headD .nothing) a = ⟨left, c, none⟩ ∧
      applyAll es backups.tail c = ⟨rest, b, none⟩ ∧ lefts = left :: rest := by
  rw [applyAll] at h
  rcases hfirst : e.apply (backups.headD .nothing) a with ⟨left, c, _ | err⟩
  · rcases hrest : applyAll es backups.tail c with ⟨rest, d, _ | err⟩
    · simp only [hfirst, hrest] at h
      obtain ⟨rfl, rfl, -⟩ := BatchOutcome.mk.inj h
      exact ⟨left, c, rest, rfl, hrest, rfl⟩
    · simp only [hfirst, hrest] at h
      cases h
  · simp only [hfirst] at h
    cases h

/-- Edits that can be applied in turn do not need to be passed over. -/
theorem reapplyAll_eq_of_applyAll_eq {es : List Edit} {backups lefts : List Backup}
    (h : applyAll es backups a = ⟨lefts, b, none⟩) :
    reapplyAll es backups a = ⟨lefts, b, none⟩ := by
  induction es generalizing a backups lefts with
  | nil => exact h
  | cons e es ih =>
      obtain ⟨left, c, rest, hfirst, hrest, rfl⟩ := of_applyAll_cons h
      simp only [reapplyAll, hfirst, ih hrest]

theorem stocked_of_apply_eq {e : Edit} (ha : Stocked issued stock a) (he : e.From stock)
    (happly : e.apply backup a = ⟨left, b, none⟩) : Stocked issued stock b := by
  rcases settled issued stock e a ha he with ⟨c, hjoins, hc⟩ | hrefused
  · obtain ⟨left', happly', -⟩ := hjoins.apply_eq backup
    obtain ⟨-, rfl, -⟩ := Outcome.mk.inj (happly'.symm.trans happly)
    exact hc
  · exact absurd happly (hrefused.apply_ne backup left b)

/-! ## Reverting -/

theorem revert_addState_cases (s : State) (left : Backup) (a : Automaton) :
    (∃ n ∈ a.nodes, n.id = s.id ∧ a.removeState s.id = .ok (n, a.eraseNode s.id) ∧
        (addState s).revert left a = ⟨left, a.eraseNode s.id, none⟩) ∨
      ∃ err, (addState s).revert left a = ⟨left, a, some err⟩ := by
  cases hremove : a.removeState s.id with
  | error err =>
      refine .inr ⟨err, ?_⟩
      rw [revert, hremove]
      rfl
  | ok r =>
      obtain ⟨n, b⟩ := r
      obtain ⟨-, hnode, -, rfl⟩ := of_removeState hremove
      obtain ⟨hn, hns⟩ := node?_eq_some hnode
      refine .inl ⟨n, hn, hns, rfl, ?_⟩
      rw [revert, hremove]
      rfl

/-- A state is put back with its transitions. -/
theorem revert_removeState_cases (s : StateId) {n : Node}
    (hn : Ident.Ascending Transition.id n.out) (a : Automaton) :
    (n.id ∉ a.stateIds ∧ a.addState n.state n.out = .ok (a.insertNode n) ∧
        (removeState s).revert (.node n) a = ⟨.nothing, a.insertNode n, none⟩) ∨
      ∃ err, (removeState s).revert (.node n) a = ⟨.nothing, a, some err⟩ := by
  cases hadd : a.addState n.state n.out with
  | error err =>
      refine .inr ⟨err, ?_⟩
      rw [revert, hadd]
      rfl
  | ok b =>
      obtain ⟨-, hnew, -, -, hb⟩ := of_addState hadd
      rw [hn.sort_eq] at hb
      subst hb
      refine .inl ⟨hnew, rfl, ?_⟩
      rw [revert, hadd]
      rfl

theorem revert_setAccepting_cases (s : StateId) (accepting previous : Bool) (a : Automaton) :
    (∃ current, s ∈ a.stateIds ∧ a.setAccepting s previous = .ok (current, a.mark s previous) ∧
        (setAccepting s accepting).revert (.flag previous) a =
          ⟨.nothing, a.mark s previous, none⟩) ∨
      ∃ err, (setAccepting s accepting).revert (.flag previous) a = ⟨.nothing, a, some err⟩ := by
  cases hset : a.setAccepting s previous with
  | error err =>
      refine .inr ⟨err, ?_⟩
      rw [revert, hset]
      rfl
  | ok r =>
      obtain ⟨current, b⟩ := r
      obtain ⟨hs, rfl⟩ := of_setAccepting hset
      refine .inl ⟨current, hs, rfl, ?_⟩
      rw [revert, hset]
      rfl

/-! ## Opposite edits -/

theorem Opposite.apply_eq {d e : Edit} (h : Opposite d e) (hjoins : d.Joins a b)
    (backup : Backup) : d.apply backup a = ⟨backup, b, none⟩ := by
  obtain ⟨left, happly, -⟩ := hjoins.apply_eq backup
  obtain rfl : left = backup := by rw [← h.backup_left backup a, happly]
  exact happly

/-- An edit is reverted by applying its opposite. -/
theorem Opposite.revert_eq {d e : Edit} (h : Opposite d e) (hjoins : d.Joins a b)
    (backup : Backup) : e.revert backup a = ⟨backup, b, none⟩ :=
  (h.revert_right backup a).trans (h.apply_eq hjoins backup)

theorem Opposite.revert_eq_of_refused {d e : Edit} (h : Opposite d e) (hd : d.Refused a)
    (backup : Backup) : ∃ err, e.revert backup a = ⟨backup, a, some err⟩ := by
  obtain ⟨left, err, happly⟩ := hd backup
  obtain rfl : left = backup := by rw [← h.backup_left backup a, happly]
  exact ⟨err, (h.revert_right left a).trans happly⟩

end Edit

end RegularForms
