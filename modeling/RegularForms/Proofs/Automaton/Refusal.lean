import RegularForms.Proofs.Automaton.Change

/-!
# Changes that are not refused

When a change of a graph is not refused, everything that it checks is in order, and the
graph is changed in the expected way. Together with what is known of the identifiers that
have been handed out, this is enough for a valid automaton to stay valid.
-/

namespace RegularForms

namespace Ident

variable {kind : Kind} {α : Type} {key : α → Ident kind}

/-- Things in ascending order of their identifiers, which may be shared. -/
def Ordered (key : α → Ident kind) (xs : List α) : Prop :=
  xs.Pairwise fun x y => ¬ (key y).before (key x) = true

theorem Ordered.insertAt {x : α} {xs : List α} (h : Ordered key xs) :
    Ordered key (insertAt key x xs) := by
  induction xs with
  | nil => exact List.pairwise_singleton _ _
  | cons y ys ih =>
      obtain ⟨hy, hys⟩ := List.pairwise_cons.1 h
      rw [Ident.insertAt]
      split
      · next hxy =>
          refine List.pairwise_cons.2 ⟨fun z hz hzx => ?_, h⟩
          rcases List.mem_cons.1 hz with rfl | hz
          · have hloop := before_trans hxy hzx
            rw [not_before_self] at hloop
            cases hloop
          · exact hy z hz (before_trans hzx hxy)
      · next hxy =>
          refine List.pairwise_cons.2 ⟨fun z hz hzy => ?_, ih hys⟩
          rcases mem_insertAt.1 hz with rfl | hz
          · exact hxy hzy
          · exact hy z hz hzy

theorem ordered_sort (key : α → Ident kind) (xs : List α) : Ordered key (sort key xs) := by
  have hfold : ∀ ys : List α, Ordered key ys →
      Ordered key (xs.foldl (fun sorted x => insertAt key x sorted) ys) := by
    induction xs with
    | nil => exact fun _ h => h
    | cons x xs ih => exact fun ys h => ih _ h.insertAt
  exact hfold [] List.Pairwise.nil

end Ident

/-- Ordered transitions of which no two neighbours share an identifier are ascending. -/
theorem ascending_of_repeated? {ts : List Transition} (h : Ident.Ordered Transition.id ts)
    (hr : repeated? ts = none) : Ident.Ascending Transition.id ts := by
  induction ts with
  | nil => exact List.Pairwise.nil
  | cons t ts ih =>
      obtain ⟨ht, hts⟩ := List.pairwise_cons.1 h
      cases ts with
      | nil => exact List.pairwise_singleton _ _
      | cons u us =>
          rw [repeated?] at hr
          split at hr
          · cases hr
          · next hne =>
              have hasc := ih hts hr
              have htu : t.id.before u.id = true :=
                (Ident.before_or_before hne).resolve_right (ht u List.mem_cons_self)
              refine List.pairwise_cons.2 ⟨fun v hv => ?_, hasc⟩
              rcases List.mem_cons.1 hv with rfl | hv
              · exact htu
              · exact Ident.before_trans htu ((List.pairwise_cons.1 hasc).1 v hv)

namespace Automaton

variable {a b : Automaton}

theorem of_addState {s : State} {out : List Transition} (h : a.addState s out = .ok b) :
    s.id.owner = a.owner ∧ s.id ∉ a.stateIds ∧ (∀ t ∈ out, a.refusal? s.id t = none) ∧
      Ident.Ascending Transition.id (Ident.sort Transition.id out) ∧
        b = a.insertNode ⟨s, Ident.sort Transition.id out⟩ := by
  simp only [addState, checkState, bind, Except.bind] at h
  by_cases howner : s.id.owner = a.owner
  · rw [if_pos howner] at h
    dsimp only at h
    by_cases hnode : (a.node? s.id).isSome = true
    · rw [if_pos hnode] at h
      cases h
    · rw [if_neg hnode] at h
      split at h
      · cases h
      · next hrefusal =>
          split at h
          · cases h
          · next hrepeated =>
              have hnone : a.node? s.id = none := by simpa using hnode
              refine ⟨howner, node?_eq_none_iff.1 hnone, fun t ht => ?_,
                ascending_of_repeated? (Ident.ordered_sort _ _) hrepeated,
                (Except.ok.inj h).symm⟩
              exact List.findSome?_eq_none_iff.1 hrefusal t (Ident.mem_sort.2 ht)
  · rw [if_neg howner] at h
    cases h

theorem of_refusal?_eq_none {s : StateId} {t : Transition} (h : a.refusal? s t = none) :
    t.id.owner = a.owner ∧ t.source = s ∧ (t.target = s ∨ t.target ∈ a.stateIds) := by
  unfold refusal? at h
  split at h
  · cases h
  next howner =>
  split at h
  · cases h
  split at h
  · cases h
  next hsource =>
  split at h
  · cases h
  next htarget =>
  refine ⟨not_not.1 howner, not_not.1 hsource, ?_⟩
  by_cases hts : t.target = s
  · exact .inl hts
  · refine .inr (not_not.1 fun hmem => htarget ⟨hts, node?_eq_none_iff.2 hmem⟩)

theorem of_removeState {s : StateId} {n : Node} (h : a.removeState s = .ok (n, b)) :
    s ≠ a.start ∧ a.node? s = some n ∧
      (∀ t ∈ a.transitions, t.target = s → t.source = s) ∧ b = a.eraseNode s := by
  simp only [removeState, checkState, bind, Except.bind] at h
  by_cases howner : s.owner = a.owner
  · rw [if_pos howner] at h
    dsimp only at h
    by_cases hstart : s = a.start
    · simp only [if_pos hstart] at h
      cases h
    · simp only [if_neg hstart] at h
      split at h
      · cases h
      · next m hnode =>
          split at h
          · cases h
          · next hany =>
              obtain ⟨rfl, rfl⟩ := Prod.mk.inj (Except.ok.inj h)
              refine ⟨hstart, hnode, fun t ht hts => not_not.1 fun hne => hany ?_, rfl⟩
              exact List.any_eq_true.2 ⟨t, mem_into.2 ⟨ht, hts⟩, decide_eq_true hne⟩
  · rw [if_neg howner] at h
    cases h

theorem of_addTransition {t : Transition} (h : a.addTransition t = .ok b) :
    t.id.owner = a.owner ∧ t.target ∈ a.stateIds ∧
      (∃ n, a.node? t.source = some n ∧ ∀ u ∈ n.out, u.id ≠ t.id) ∧ b = a.link t := by
  simp only [addTransition, checkTransition, checkState, bind, Except.bind] at h
  by_cases howner : t.id.owner = a.owner
  · rw [if_pos howner] at h
    dsimp only at h
    by_cases hsource : t.source.owner = a.owner
    · rw [if_pos hsource] at h
      dsimp only at h
      by_cases htarget : t.target.owner = a.owner
      · rw [if_pos htarget] at h
        dsimp only at h
        cases hto : a.node? t.target with
        | none =>
            simp only [hto] at h
            cases h
        | some m =>
            cases hfrom : a.node? t.source with
            | none =>
                simp only [hto, hfrom] at h
                cases h
            | some n =>
                simp only [hto, hfrom] at h
                split at h
                · cases h
                · next hany =>
                    obtain ⟨hm, hmt⟩ := node?_eq_some hto
                    refine ⟨howner, mem_stateIds.2 ⟨m, hm, hmt⟩, ⟨n, rfl, fun u hu hid => ?_⟩,
                      (Except.ok.inj h).symm⟩
                    exact hany (List.any_eq_true.2 ⟨u, hu, decide_eq_true hid⟩)
      · rw [if_neg htarget] at h
        cases h
    · rw [if_neg hsource] at h
      cases h
  · rw [if_neg howner] at h
    cases h

theorem of_removeTransition {s : StateId} {t : TransitionId} {u : Transition}
    (h : a.removeTransition s t = .ok (u, b)) :
    u ∈ a.out s ∧ u.id = t ∧ b = a.unlink s t := by
  simp only [removeTransition, checkTransition, checkState, bind, Except.bind] at h
  by_cases howner : t.owner = a.owner
  · rw [if_pos howner] at h
    dsimp only at h
    by_cases hsource : s.owner = a.owner
    · rw [if_pos hsource] at h
      dsimp only at h
      split at h
      · cases h
      · next v hfind =>
          obtain ⟨rfl, rfl⟩ := Prod.mk.inj (Except.ok.inj h)
          exact ⟨List.mem_of_find?_eq_some hfind,
            of_decide_eq_true (List.find?_some hfind :), rfl⟩
    · rw [if_neg hsource] at h
      cases h
  · rw [if_neg howner] at h
    cases h

theorem of_setAccepting {s : StateId} {accepting previous : Bool}
    (h : a.setAccepting s accepting = .ok (previous, b)) :
    s ∈ a.stateIds ∧ b = a.mark s accepting := by
  simp only [setAccepting, checkState, bind, Except.bind] at h
  by_cases howner : s.owner = a.owner
  · rw [if_pos howner] at h
    dsimp only at h
    split at h
    · cases h
    · next n hnode =>
        obtain ⟨hn, hns⟩ := node?_eq_some hnode
        exact ⟨mem_stateIds.2 ⟨n, hn, hns⟩, (Prod.mk.inj (Except.ok.inj h)).2.symm⟩
  · rw [if_neg howner] at h
    cases h

end Automaton

end RegularForms
