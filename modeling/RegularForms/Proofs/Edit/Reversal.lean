import RegularForms.Proofs.Edit.Inversion

/-!
# Taking an edit back later

An edit may be reverted when other changes have been made to the graph since. When one of
the members of a batch cannot be taken back, those that have been taken back are applied
again. This restores the graph if every state that the edit adds and every flag that it sets
is found as the edit has left it, for only then applying the member again makes the same of
it: a state that is added comes without transitions.

Two graphs `Agree` when they have the same nodes for the states that are added, and the same
flags where flags are set. The edit is reverted on the graph that it has led to and on the
graph of later side by side; the graphs agree all the time.
-/

namespace RegularForms

namespace Automaton

/-- Where two graphs share one of the states `added`, they have the same node for it; where
they share one of the states `flagged`, it is accepting in both or in neither. -/
structure Agree (added flagged : Set StateId) (b x : Automaton) : Prop where
  node_eq : ∀ m ∈ b.nodes, ∀ n ∈ x.nodes, m.id = n.id → n.id ∈ added → m = n
  flag_eq : ∀ m ∈ b.nodes, ∀ n ∈ x.nodes, m.id = n.id → n.id ∈ flagged →
    m.state.accepting = n.state.accepting

variable {added flagged : Set StateId} {a b x : Automaton}

theorem Agree.of_subset {b' x' : Automaton} (h : Agree added flagged b x)
    (hb : b'.nodes ⊆ b.nodes) (hx : x'.nodes ⊆ x.nodes) : Agree added flagged b' x' where
  node_eq m hm n hn := h.node_eq m (hb hm) n (hx hn)
  flag_eq m hm n hn := h.flag_eq m (hb hm) n (hx hn)

/-- The same change of a node is made in both graphs. -/
theorem Agree.updateNode (h : Agree added flagged b x) {s : StateId} {f : Node → Node}
    (hf : ∀ n, (f n).id = n.id)
    (hflag : ∀ m n, m.state.accepting = n.state.accepting →
      (f m).state.accepting = (f n).state.accepting) :
    Agree added flagged (b.updateNode s f) (x.updateNode s f) := by
  have hcases : ∀ m ∈ (b.updateNode s f).nodes, ∀ n ∈ (x.updateNode s f).nodes, m.id = n.id →
      ∃ k ∈ b.nodes, ∃ l ∈ x.nodes, k.id = l.id ∧ l.id = n.id ∧
        (m = f k ∧ n = f l ∨ m = k ∧ n = l) := by
    intro m hm n hn heq
    obtain ⟨k, hk, rfl⟩ := mem_nodes_updateNode.1 hm
    obtain ⟨l, hl, rfl⟩ := mem_nodes_updateNode.1 hn
    by_cases hks : k.id = s <;> by_cases hls : l.id = s
    · rw [if_pos hls, hf]
      exact ⟨k, hk, l, hl, hks.trans hls.symm, rfl, .inl ⟨if_pos hks, rfl⟩⟩
    · rw [if_pos hks, if_neg hls, hf] at heq
      exact absurd (heq.symm.trans hks) hls
    · rw [if_neg hks, if_pos hls, hf] at heq
      exact absurd (heq.trans hls) hks
    · rw [if_neg hks, if_neg hls] at heq
      rw [if_neg hls]
      exact ⟨k, hk, l, hl, heq, rfl, .inr ⟨if_neg hks, rfl⟩⟩
  refine ⟨fun m hm n hn heq hadded => ?_, fun m hm n hn heq hflagged => ?_⟩
  · obtain ⟨k, hk, l, hl, hkl, hln, hor⟩ := hcases m hm n hn heq
    obtain rfl := h.node_eq k hk l hl hkl (hln ▸ hadded)
    rcases hor with ⟨rfl, rfl⟩ | ⟨rfl, rfl⟩ <;> rfl
  · obtain ⟨k, hk, l, hl, hkl, hln, hor⟩ := hcases m hm n hn heq
    have hsame := h.flag_eq k hk l hl hkl (hln ▸ hflagged)
    rcases hor with ⟨rfl, rfl⟩ | ⟨rfl, rfl⟩
    · exact hflag k l hsame
    · exact hsame

/-- A node that is taken out of one graph is put into the other. -/
theorem Agree.insertNode {n : Node} (h : Agree added flagged (a.eraseNode n.id) x)
    (ha : a.Valid) (hn : n ∈ a.nodes) (hnew : n.id ∉ x.stateIds) :
    Agree added flagged a (x.insertNode n) := by
  have hcases : ∀ k ∈ a.nodes, ∀ m ∈ (x.insertNode n).nodes, k.id = m.id →
      k = m ∨ k ∈ (a.eraseNode n.id).nodes ∧ m ∈ x.nodes := by
    intro k hk m hm heq
    rcases mem_nodes_insertNode.1 hm with rfl | hm
    · exact .inl (ha.ascending.eq_of_key_eq hk hn heq)
    · refine .inr ⟨mem_nodes_eraseNode.2 ⟨hk, fun hkn => hnew ?_⟩, hm⟩
      exact mem_stateIds.2 ⟨m, hm, heq.symm.trans hkn⟩
  refine ⟨fun k hk m hm heq hadded => ?_, fun k hk m hm heq hflagged => ?_⟩
  · rcases hcases k hk m hm heq with rfl | ⟨hk, hm⟩
    · rfl
    · exact h.node_eq k hk m hm heq hadded
  · rcases hcases k hk m hm heq with rfl | ⟨hk, hm⟩
    · rfl
    · exact h.flag_eq k hk m hm heq hflagged

theorem Agree.accepting_eq (h : Agree added flagged b x) (hb : b.Valid) (hx : x.Valid)
    {s : StateId} (hs : s ∈ flagged) (hsb : s ∈ b.stateIds) (hsx : s ∈ x.stateIds) :
    b.accepting s = x.accepting s := by
  obtain ⟨m, hm, hms, hmnode⟩ := hb.exists_node hsb
  obtain ⟨n, hn, hns, hnnode⟩ := hx.exists_node hsx
  rw [accepting, accepting, hmnode, hnnode]
  exact h.flag_eq m hm n hn (hms.trans hns.symm) (hns ▸ hs)

end Automaton

namespace Edit

open Automaton

mutual
def added : Edit → Set StateId
  | addState s => {s.id}
  | batch _ edits => addedAll edits
  | _ => ∅
def addedAll : List Edit → Set StateId
  | [] => ∅
  | e :: es => added e ∪ addedAll es
end

mutual
def flagged : Edit → Set StateId
  | setAccepting s _ => {s}
  | batch _ edits => flaggedAll edits
  | _ => ∅
def flaggedAll : List Edit → Set StateId
  | [] => ∅
  | e :: es => flagged e ∪ flaggedAll es
end

/-- Reverting an edit leads to a graph with a property, and applying it again leads back; or
reverting it is refused and leaves the graph alone. -/
def Undone (e : Edit) (left : Backup) (x : Automaton) (P : Automaton → Prop) : Prop :=
  (∃ used z, e.revert left x = ⟨used, z, none⟩ ∧ e.Joins z x ∧ P z) ∨
    ∃ used err, e.revert left x = ⟨used, x, some err⟩

def UndoneAll (es : List Edit) (lefts : List Backup) (x : Automaton) (P : Automaton → Prop) :
    Prop :=
  (∃ used z, revertAll es lefts x = ⟨used, z, none⟩ ∧ JoinsAll es z x ∧ P z) ∨
    ∃ used err, revertAll es lefts x = ⟨used, x, some err⟩

variable {a b x z : Automaton} {P Q : Automaton → Prop}

theorem JoinsAll.graph_reapplyAll {es : List Edit} (h : JoinsAll es a b)
    (backups : List Backup) : (reapplyAll es backups a).graph = b := by
  obtain ⟨lefts, happlies, -⟩ := h backups
  have hagain := reapplyAll_eq_of_applyAll_eq (happlies 0 0)
  exact congrArg BatchOutcome.graph hagain

/-- The last edits are undone first. If the first edit cannot be undone then, they are applied
again. -/
theorem UndoneAll.cons {e : Edit} {es : List Edit} {left : Backup} {lefts : List Backup}
    (hrest : UndoneAll es lefts x P) (hfirst : ∀ z, P z → e.Undone left z Q) :
    UndoneAll (e :: es) (left :: lefts) x Q := by
  rcases hrest with ⟨useds, z, hreverts, hagain, hz⟩ | ⟨useds, err, hreverts⟩
  · rcases hfirst z hz with ⟨used, y, hrevert, hjoins, hy⟩ | ⟨used, err, hrevert⟩
    · refine .inl ⟨used :: useds, y, ?_, .cons hjoins hagain, hy⟩
      simp only [revertAll, List.tail_cons, List.headD_cons, hreverts, hrevert]
    · refine .inr ⟨used :: (reapplyAll es useds z).backups, err, ?_⟩
      simp only [revertAll, List.tail_cons, List.headD_cons, hreverts, hrevert,
        hagain.graph_reapplyAll]
  · refine .inr ⟨left :: useds, err, ?_⟩
    simp only [revertAll, List.tail_cons, List.headD_cons, hreverts]

theorem UndoneAll.batch {es : List Edit} {lefts : List Backup} (h : UndoneAll es lefts x P)
    (purpose : Purpose) : (Edit.batch purpose es).Undone (.batch lefts) x P := by
  rcases h with ⟨useds, z, hreverts, hagain, hz⟩ | ⟨useds, err, hreverts⟩
  · refine .inl ⟨.batch useds, z, ?_, .batch hagain purpose, hz⟩
    simp only [revert, Backup.parts, hreverts]
  · refine .inr ⟨.batch useds, err, ?_⟩
    simp only [revert, Backup.parts, hreverts]

/-! ## Simple edits -/

variable {issued issued' : Set Transition} {stock stock' : Stock} {A F : Set StateId}

/-- An edit is undone where its opposite can be applied. -/
theorem Opposite.undone_of_joins {d e : Edit} (h : Opposite d e) (hjoins : d.Joins x z)
    (hz : P z) (left : Backup) : e.Undone left x P :=
  .inl ⟨left, z, h.revert_eq hjoins left, h.joins hjoins, hz⟩

theorem Opposite.undone_of_refused {d e : Edit} (h : Opposite d e) (hd : d.Refused x)
    (left : Backup) : e.Undone left x P := by
  obtain ⟨err, hrevert⟩ := h.revert_eq_of_refused hd left
  exact .inr ⟨left, err, hrevert⟩

/-- A state that is found as it was added is taken out, and can be added again. -/
theorem undone_addState {s : State} (hx : Stocked issued' stock' x) (hs : s.id ∈ A)
    (h : Agree A F (a.insertNode ⟨s, []⟩) x) (left : Backup) :
    (addState s).Undone left x fun z => Stocked issued' stock' z ∧ Agree A F a z := by
  rcases revert_addState_cases s left x with ⟨n, hn, hns, hremove, hrevert⟩ | ⟨err, hrevert⟩
  · obtain rfl : ⟨s, []⟩ = n :=
      h.node_eq _ (mem_nodes_insertNode.2 (.inl rfl)) n hn hns.symm (hns ▸ hs)
    have hz := (hx.removeState hremove).1
    have hfits : (addState s).Fits (x.eraseNode s.id).outline :=
      ⟨fun hmem => (mem_stateIds_eraseNode.1 hmem).2 rfl,
        hx.1.valid.state_issued _ (mem_stateIds.2 ⟨_, hn, rfl⟩)⟩
    have hjoins := joins_addState hz.1.valid hfits
    rw [insertNode_eraseNode (n := ⟨s, []⟩) hx.1.valid hn] at hjoins
    exact .inl ⟨left, _, hrevert, hjoins, hz,
      h.of_subset (fun m hm => mem_nodes_insertNode.2 (.inr hm))
        fun m hm => (mem_nodes_eraseNode.1 hm).1⟩
  · exact .inr ⟨left, err, hrevert⟩

/-- A state that was removed comes back with its transitions, and can be removed again: no
other state has a transition into it yet. -/
theorem undone_removeState {n : Node} (ha : a.Valid) (hn : n ∈ a.nodes)
    (hx : Stocked issued' stock' x) (hstate : n.id ∈ stock'.states)
    (hout : ∀ t ∈ n.out, t ∈ stock'.transitions) (h : Agree A F (a.eraseNode n.id) x) :
    (removeState n.id).Undone (.node n) x
      fun z => Stocked issued' stock' z ∧ Agree A F a z := by
  rcases revert_removeState_cases n.id (ha.out_ascending n hn) x with
    ⟨hnew, hadd, hrevert⟩ | ⟨err, hrevert⟩
  · have hz := hx.addState hstate hout hadd
    have hfits : (removeState n.id).Fits (x.insertNode n).outline := by
      refine ⟨mem_stateIds_insertNode.2 (.inl rfl), fun heq => ?_, fun t ht hts => ?_⟩
      · have hstart : n.id = x.start := heq
        exact hnew (hstart ▸ hx.1.valid.start_mem)
      · rcases mem_transitions_insertNode.1 ht with ht | ht
        · exact ha.source_eq n hn t ht
        · have hmem := hx.1.valid.target_mem t ht
          rw [hts] at hmem
          exact absurd hmem hnew
    have hjoins := joins_removeState hz.1.valid hfits
    rw [eraseNode_insertNode hnew] at hjoins
    exact .inl ⟨.nothing, _, hrevert, hjoins, hz, h.insertNode ha hn hnew⟩
  · exact .inr ⟨.nothing, err, hrevert⟩

theorem undone_addTransition {t : Transition} (hx : Stocked issued' stock' x)
    (he : (removeTransition t).From stock') (hnew : ∀ u ∈ a.transitions, u.id ≠ t.id)
    (h : Agree A F (a.link t) x) (left : Backup) :
    (addTransition t).Undone left x fun z => Stocked issued' stock' z ∧ Agree A F a z := by
  rcases fits_or_refused_removeTransition hx he with hfits | hrefused
  · have hjoins := joins_removeTransition hx.1.valid hfits
    have hback : Agree A F ((a.link t).unlink t.source t.id) (x.unlink t.source t.id) :=
      h.updateNode (fun _ => rfl) fun _ _ hflag => hflag
    rw [unlink_link hnew] at hback
    exact (opposite_transition t).symm.undone_of_joins hjoins ⟨hjoins.stocked hx he, hback⟩ left
  · exact (opposite_transition t).symm.undone_of_refused hrefused left

theorem undone_removeTransition {t : Transition} (ha : a.Valid) (hx : Stocked issued' stock' x)
    (he : (addTransition t).From stock') (ht : t ∈ a.transitions)
    (h : Agree A F (a.unlink t.source t.id) x) (left : Backup) :
    (removeTransition t).Undone left x fun z => Stocked issued' stock' z ∧ Agree A F a z := by
  rcases fits_or_refused_addTransition hx he with hfits | hrefused
  · have hjoins := joins_addTransition hx.1.valid hfits
    have hback : Agree A F ((a.unlink t.source t.id).link t) (x.link t) :=
      h.updateNode (fun _ => rfl) fun _ _ hflag => hflag
    rw [link_unlink ha ht] at hback
    exact (opposite_transition t).undone_of_joins hjoins ⟨hjoins.stocked hx he, hback⟩ left
  · exact (opposite_transition t).undone_of_refused hrefused left

/-- A flag that is found as it was set gets its value of before, and can be set again. -/
theorem undone_setAccepting {s : StateId} {accepting : Bool} (ha : a.Valid)
    (hsa : s ∈ a.stateIds) (hx : Stocked issued' stock' x) (hs : s ∈ F)
    (h : Agree A F (a.mark s accepting) x) :
    (setAccepting s accepting).Undone (.flag (a.accepting s)) x
      fun z => Stocked issued' stock' z ∧ Agree A F a z := by
  rcases revert_setAccepting_cases s accepting (a.accepting s) x with
    ⟨current, hsx, hset, hrevert⟩ | ⟨err, hrevert⟩
  · have hz := hx.setAccepting hset
    have hcurrent : x.accepting s = accepting := by
      rw [← h.accepting_eq (ha.mark s accepting) hx.1.valid hs (stateIds_mark.symm ▸ hsa) hsx]
      exact Bool.eq_iff_iff.2 (ha.accepting_mark_self hsa accepting)
    have hmem : s ∈ (x.mark s (a.accepting s)).stateIds := stateIds_mark.symm ▸ hsx
    have hfits : (setAccepting s accepting).Fits (x.mark s (a.accepting s)).outline := hmem
    have hjoins := joins_setAccepting hz.1.valid hfits
    rw [← hcurrent, mark_mark hx.1.valid, hcurrent] at hjoins
    have hback : Agree A F ((a.mark s accepting).mark s (a.accepting s))
        (x.mark s (a.accepting s)) :=
      h.updateNode (fun _ => rfl) fun _ _ _ => rfl
    rw [mark_mark ha] at hback
    exact .inl ⟨.nothing, _, hrevert, hjoins, hz, hback⟩
  · exact .inr ⟨.nothing, err, hrevert⟩

/-! ## All edits -/

/-- An edit that has led from one graph to another is undone on every graph that agrees with
the second one, and leads to a graph that agrees with the first one. -/
def Recoverable (issued issued' : Set Transition) (stock stock' : Stock) (A F : Set StateId)
    (e : Edit) : Prop :=
  ∀ a b x backup left, Stocked issued stock a → e.From stock →
    e.apply backup a = ⟨left, b, none⟩ → Stocked issued' stock' x → e.added ⊆ A →
      e.flagged ⊆ F → Agree A F b x →
        e.Undone left x fun z => Stocked issued' stock' z ∧ Agree A F a z

/-- The members of a batch are undone from last to first, on two graphs side by side. -/
theorem Recoverable.undoneAll {es : List Edit}
    (hes : ∀ e ∈ es, Recoverable issued issued' stock stock' A F e)
    {backups lefts : List Backup} (ha : Stocked issued stock a) (hfrom : AllFrom stock es)
    (happly : applyAll es backups a = ⟨lefts, b, none⟩) (hx : Stocked issued' stock' x)
    (hadded : addedAll es ⊆ A) (hflagged : flaggedAll es ⊆ F) (h : Agree A F b x) :
    UndoneAll es lefts x fun z => Stocked issued' stock' z ∧ Agree A F a z := by
  induction es generalizing a backups lefts with
  | nil =>
      obtain ⟨rfl, rfl, -⟩ := BatchOutcome.mk.inj happly
      exact .inl ⟨[], x, rfl, joinsAll_nil x, hx, h⟩
  | cons e es ih =>
      obtain ⟨left, c, rest, hfirst, hrest, rfl⟩ := of_applyAll_cons happly
      obtain ⟨haddede, haddedes⟩ := Set.union_subset_iff.1 hadded
      obtain ⟨hflaggede, hflaggedes⟩ := Set.union_subset_iff.1 hflagged
      have hundone := ih (fun d hd => hes d (by simp [hd]))
        (stocked_of_apply_eq ha hfrom.1 hfirst) hfrom.2 hrest haddedes hflaggedes
      refine hundone.cons fun z hz => ?_
      exact hes e (by simp) a c z _ left ha hfrom.1 hfirst hz.1 haddede hflaggede hz.2

theorem recoverable (hle : stock.Within stock') (A F : Set StateId) (e : Edit) :
    Recoverable issued issued' stock stock' A F e := by
  induction e using Edit.ind with
  | addState s =>
      intro a b x backup left ha he happly hx hadded hflagged h
      obtain ⟨-, -, rfl⟩ := of_apply_addState happly
      exact undone_addState hx (hadded rfl) h left
  | removeState s =>
      intro a b x backup left ha he happly hx hadded hflagged h
      obtain ⟨n, hn, rfl, rfl, rfl⟩ := of_apply_removeState happly
      exact undone_removeState ha.1.valid hn hx
        (hle.states (ha.state_mem (mem_stateIds.2 ⟨n, hn, rfl⟩)))
        (fun t ht => hle.transitions (ha.transition_mem (mem_transitions.2 ⟨n, hn, ht⟩))) h
  | addTransition t =>
      intro a b x backup left ha he happly hx hadded hflagged h
      obtain ⟨⟨-, -, -, hnew⟩, rfl⟩ := of_apply_addTransition ha he happly
      exact undone_addTransition hx (hle.transitions he) hnew h left
  | removeTransition t =>
      intro a b x backup left ha he happly hx hadded hflagged h
      obtain ⟨ht, rfl⟩ := of_apply_removeTransition ha he happly
      exact undone_removeTransition ha.1.valid hx (hle.transitions he) ht h left
  | setAccepting s accepting =>
      intro a b x backup left ha he happly hx hadded hflagged h
      obtain ⟨hs, rfl, rfl⟩ := of_apply_setAccepting ha.1.valid happly
      exact undone_setAccepting ha.1.valid hs hx (hflagged rfl) h
  | batch purpose edits ih =>
      intro a b x backup left ha he happly hx hadded hflagged h
      obtain ⟨lefts, rfl, happlies⟩ := of_apply_batch happly
      exact (Recoverable.undoneAll ih ha he happlies hx hadded hflagged h).batch purpose

/-- Where an edit that is reverted later is refused, the graph stays as it is, provided that
what the edit has added and set is as the edit has left it. -/
theorem graph_revert_of_refusal {e : Edit} {backup left : Backup}
    (hle : stock.Within stock') (ha : Stocked issued stock a) (he : e.From stock)
    (happly : e.apply backup a = ⟨left, b, none⟩) (hx : Stocked issued' stock' x)
    (h : Agree e.added e.flagged b x) (hrefusal : (e.revert left x).refusal ≠ none) :
    (e.revert left x).graph = x := by
  rcases recoverable hle e.added e.flagged e a b x backup left ha he happly hx subset_rfl
    subset_rfl h with ⟨used, z, hrevert, -⟩ | ⟨used, err, hrevert⟩
  · rw [hrevert] at hrefusal
    exact absurd rfl hrefusal
  · rw [hrevert]

end Edit

end RegularForms
