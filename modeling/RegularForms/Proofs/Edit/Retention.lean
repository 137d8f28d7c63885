import RegularForms.Proofs.Automaton.Aspect
import RegularForms.Proofs.Edit.Inversion

/-!
# What an edit still remembers when it could not be taken back

Reverting a batch that is refused at one of its members applies the members again that have
been reverted before. The graph need not be the same as before then, but the members remember
the same as before: whatever has been done to the graph since the edit was first applied, the
flags that are overwritten once more and the states that are removed once more are those which
reverting the members has just brought back. Only the member that is refused may have lost what
it remembered, namely if it is to put back a state or a flag.

The invariant is that the graph on which the members are applied again is a `Blend`. At the
places that a member brings back it looks like the graph to which the member was first applied;
everywhere else it looks like the graph that reverting the member has led to.
-/

namespace RegularForms

namespace Automaton

variable {issued issued' : Set Transition} {stock stock' : Stock} {a b : Automaton}

def Supplies (issued : Set Transition) (stock stock' : Stock) : Prop :=
  ∀ c, Stocked issued stock c →
    (∀ s ∈ c.stateIds, s ∈ stock'.states) ∧ ∀ t ∈ c.transitions, t ∈ stock'.transitions

theorem supplies_of_within (hle : stock.Within stock') : Supplies issued stock stock' :=
  fun _ hc => ⟨fun _ hs => hle.states (hc.state_mem hs),
    fun _ ht => hle.transitions (hc.transition_mem ht)⟩

/-- What belongs to another automaton is always at hand. -/
theorem supplies_of_owner_ne (ha : Stocked issued stock a) (hb : Stocked issued' stock' b)
    (hne : b.owner ≠ a.owner) : Supplies issued stock stock' := by
  intro c hc
  have howner : b.owner ≠ c.owner := fun heq => hne (heq.trans (hc.owner_eq ha))
  obtain ⟨-, rfl⟩ := hb
  refine ⟨fun s hs heq => ?_, fun t ht heq => ?_⟩
  · exact absurd (heq.symm.trans (hc.1.valid.state_issued s hs).1) howner
  · exact absurd (heq.symm.trans (hc.1.valid.transition_issued t ht).1) howner

end Automaton

namespace Edit

open Automaton

mutual
/-- The places that reverting an edit brings back, whatever they have come to look like. -/
def renewed : Edit → Set (StateId × Aspect)
  | addState s => {k | k.1 = s.id}
  | removeState s => {k | k.1 = s}
  | setAccepting s _ => {(s, .flag)}
  | batch _ edits => renewedAll edits
  | _ => ∅
def renewedAll : List Edit → Set (StateId × Aspect)
  | [] => ∅
  | e :: es => renewed e ∪ renewedAll es
end

mutual
/-- Reverting an edit is refused where a state or a flag is to be put back. What was remembered
of it is used up. -/
def Forgets : Edit → Backup → Automaton → Prop
  | removeState s, left, x => ((removeState s).revert left x).refusal ≠ none
  | setAccepting s accepting, left, x => ((setAccepting s accepting).revert left x).refusal ≠ none
  | batch _ edits, left, x => ForgetsAll edits left.parts x
  | _, _, _ => False
def ForgetsAll : List Edit → List Backup → Automaton → Prop
  | [], _, _ => False
  | e :: es, lefts, x =>
    ForgetsAll es lefts.tail x ∨
      (revertAll es lefts.tail x).refusal = none ∧
        Forgets e (lefts.headD .nothing) (revertAll es lefts.tail x).graph
end

variable {issued issued' : Set Transition} {stock stock' : Stock} {a b c x y : Automaton}

/-- Applied to a blend of the graphs to which it was applied first and has been reverted to, an
edit leaves the given backup and a blend of the graphs from which these two have come. -/
def Renews (issued : Set Transition) (stock : Stock) (e : Edit) (used left : Backup)
    (a b x y : Automaton) : Prop :=
  ∀ S z, e.renewed ⊆ S → Stocked issued stock z → Blend S a y z →
    ∃ z', e.apply used z = ⟨left, z', none⟩ ∧ Stocked issued stock z' ∧ Blend S b x z'

def RenewsAll (issued : Set Transition) (stock : Stock) (es : List Edit)
    (useds lefts : List Backup) (a b x y : Automaton) : Prop :=
  ∀ S z, renewedAll es ⊆ S → Stocked issued stock z → Blend S a y z →
    ∃ z', applyAll es useds z = ⟨lefts, z', none⟩ ∧ Stocked issued stock z' ∧ Blend S b x z'

/-- An edit that has led from `a` to `b` is reverted on `x`. Either this leads to a graph that
looks like `a` where `x` looks like `b`, and the edit leaves the same backup when it is applied
again; or it is refused, and the backup is the same unless it is used up. -/
def Retained (issued : Set Transition) (stock : Stock) (e : Edit) (left : Backup)
    (a b x : Automaton) : Prop :=
  (∃ used y, e.revert left x = ⟨used, y, none⟩ ∧ Stocked issued stock y ∧
      Carried e.renewed b x a y ∧ Renews issued stock e used left a b x y) ∨
    ∃ used z err, e.revert left x = ⟨used, z, some err⟩ ∧
      (e.Forgets left x ∨ used = left ∧ Stocked issued stock z ∧ ∃ S, Blend S b x z)

def RetainedAll (issued : Set Transition) (stock : Stock) (es : List Edit) (lefts : List Backup)
    (a b x : Automaton) : Prop :=
  (∃ useds y, revertAll es lefts x = ⟨useds, y, none⟩ ∧ Stocked issued stock y ∧
      Carried (renewedAll es) b x a y ∧ RenewsAll issued stock es useds lefts a b x y) ∨
    ∃ useds z err, revertAll es lefts x = ⟨useds, z, some err⟩ ∧
      (ForgetsAll es lefts x ∨ useds = lefts ∧ Stocked issued stock z ∧ ∃ S, Blend S b x z)

/-! ## Simple edits -/

/-- A refusal that leaves the graph and the backup alone. -/
theorem retained_of_refused {e : Edit} {left : Backup} {err : Error} (hx : Stocked issued stock x)
    (hrevert : e.revert left x = ⟨left, x, some err⟩) : e.Retained issued stock left a b x :=
  .inr ⟨left, x, err, hrevert, .inr ⟨rfl, hx, ∅, .refl b x⟩⟩

theorem retained_addState {s : State} (hx : Stocked issued stock x) (hs : s.id ∈ stock.states)
    (hnew : s.id ∉ a.stateIds) (left : Backup) :
    (addState s).Retained issued stock left a (a.insertNode ⟨s, []⟩) x := by
  rcases revert_addState_cases s left x with ⟨n, hn, hns, hremove, hrevert⟩ | ⟨err, hrevert⟩
  · have hy := (hx.removeState hremove).1
    have hsx : s.id ∈ x.stateIds := mem_stateIds.2 ⟨n, hn, hns⟩
    have hout : s.id ∉ (x.eraseNode s.id).stateIds :=
      fun hmem => (mem_stateIds_eraseNode.1 hmem).2 rfl
    have hcarried := carried_eraseNode s.id (a.insertNode ⟨s, []⟩) x
    rw [eraseNode_insertNode (n := ⟨s, []⟩) hnew] at hcarried
    refine .inl ⟨left, _, hrevert, hy, hcarried, fun S z hS hz h => ?_⟩
    have hsz : s.id ∉ z.stateIds := fun hmem => hout ((h.mem_stateIds _).1 hmem)
    have howner : s.id.owner = z.owner :=
      (hx.1.valid.state_issued _ hsx).1.trans (hx.owner_eq hz)
    have hadd := addState_eq hsz howner
    refine ⟨z.insertNode ⟨s, []⟩, ?_, hz.addState hs (List.forall_mem_nil _) hadd, ?_⟩
    · rw [apply, hadd]
      rfl
    · exact (h.insertNode (n := ⟨s, []⟩) hnew hout).trans
        (blend_insertNode_eraseNode hx.1.valid hsx hnew) hS
  · exact retained_of_refused hx hrevert

theorem retained_removeState {n : Node} (ha : a.Valid) (hn : n ∈ a.nodes)
    (hx : Stocked issued stock x) (hstate : n.id ∈ stock.states)
    (hout : ∀ t ∈ n.out, t ∈ stock.transitions) :
    (removeState n.id).Retained issued stock (.node n) a (a.eraseNode n.id) x := by
  rcases revert_removeState_cases n.id (ha.out_ascending n hn) x with
    ⟨hnew, hadd, hrevert⟩ | ⟨err, hrevert⟩
  · have hy := hx.addState hstate hout hadd
    have hcarried := carried_insertNode (b := a.eraseNode n.id) (n := n)
      (fun hmem => (mem_stateIds_eraseNode.1 hmem).2 rfl) hnew
    rw [insertNode_eraseNode ha hn] at hcarried
    refine .inl ⟨.nothing, _, hrevert, hy, hcarried, fun S z hS hz h => ?_⟩
    have hnode : z.node? n.id = some n :=
      (node?_eq_of_look_eq fun p => h.look_eq (n.id, p) (hS rfl)).trans
        (ha.node?_eq_some_iff.2 ⟨hn, rfl⟩)
    have hstart : n.id ≠ z.start := by
      intro heq
      have hxstart : n.id = x.start := heq.trans h.start_eq
      exact hnew (hxstart ▸ hx.1.valid.start_mem)
    have hinto : ∀ t ∈ z.transitions, t.target = n.id → t.source = n.id := by
      intro t ht htn
      rcases mem_transitions_insertNode.1 (h.transitions_subset ht) with ht | ht
      · exact ha.source_eq n hn t ht
      · have hmem := hx.1.valid.target_mem t ht
        rw [htn] at hmem
        exact absurd hmem hnew
    have hremove := hz.1.valid.removeState_eq (node?_eq_some hnode).1 hstart hinto
    have hblend := h.eraseNode hy.1.valid hz.1.valid n.id
    rw [eraseNode_insertNode hnew] at hblend
    refine ⟨z.eraseNode n.id, ?_, (hz.removeState hremove).1, hblend⟩
    rw [apply, hremove]
  · refine .inr ⟨.nothing, x, err, hrevert, .inl ?_⟩
    rw [Forgets, hrevert]
    exact Option.some_ne_none err

theorem retained_addTransition {t : Transition} (hx : Stocked issued stock x)
    (ht : t ∈ stock.transitions) (hnew : ∀ u ∈ a.transitions, u.id ≠ t.id) (left : Backup) :
    (addTransition t).Retained issued stock left a (a.link t) x := by
  have hopposite := opposite_transition t
  have hfrom : (removeTransition t).From stock := ht
  rcases fits_or_refused_removeTransition hx hfrom with htx | hrefused
  · have htx : t ∈ x.transitions := htx
    have hback := joins_removeTransition hx.1.valid htx
    have hy := hback.stocked hx hfrom
    have hcarried := carried_unlink t.source t.id (a.link t) x
    rw [unlink_link hnew] at hcarried
    refine .inl ⟨left, _, hopposite.symm.revert_eq hback left, hy, hcarried,
      fun S z hS hz h => ?_⟩
    have hids : ∀ s, s ∈ z.stateIds ↔ s ∈ x.stateIds := fun s =>
      (h.mem_stateIds s).trans (by rw [stateIds_unlink])
    have hissued := hz.1.issued_bound t (hx.1.mem_issued t htx)
    have hfits : (addTransition t).Fits z.outline := by
      refine ⟨(hids _).2 (hx.1.valid.source_mem htx), (hids _).2 (hx.1.valid.target_mem t htx),
        hissued, fun u hu hid => ?_⟩
      obtain ⟨hux, hne⟩ :=
        (mem_transitions_unlink hx.1.valid htx).1 (h.transitions_subset hu)
      exact hne (hx.1.valid.eq_of_id_eq u hux t htx hid)
    have hjoins := joins_addTransition hz.1.valid hfits
    have hblend := h.link hy.1.valid hz.1.valid (t := t)
      (stateIds_unlink.symm ▸ hx.1.valid.source_mem htx)
    rw [link_unlink hx.1.valid htx] at hblend
    exact ⟨z.link t, hopposite.apply_eq hjoins left, hjoins.stocked hz ht, hblend⟩
  · obtain ⟨err, hrevert⟩ := hopposite.symm.revert_eq_of_refused hrefused left
    exact retained_of_refused hx hrevert

theorem retained_removeTransition {t : Transition} (ha : a.Valid) (hx : Stocked issued stock x)
    (ht : t ∈ stock.transitions) (hta : t ∈ a.transitions) (left : Backup) :
    (removeTransition t).Retained issued stock left a (a.unlink t.source t.id) x := by
  have hopposite := opposite_transition t
  have hfrom : (addTransition t).From stock := ht
  rcases fits_or_refused_addTransition hx hfrom with hfits | hrefused
  · have hback := joins_addTransition hx.1.valid hfits
    have hy := hback.stocked hx hfrom
    obtain ⟨hsource, -, -, hnew⟩ := hfits
    have hty : t ∈ (x.link t).transitions :=
      (mem_transitions_link hx.1.valid hsource).2 (.inl rfl)
    have hcarried := carried_link t (a.unlink t.source t.id) x
    rw [link_unlink ha hta] at hcarried
    refine .inl ⟨left, _, hopposite.revert_eq hback left, hy, hcarried, fun S z hS hz h => ?_⟩
    have htz := h.mem_transitions ha hy.1.valid hz.1.valid hta hty
    have hjoins := joins_removeTransition hz.1.valid htz
    have hblend := h.unlink hy.1.valid hz.1.valid hty htz
    rw [unlink_link hnew] at hblend
    exact ⟨z.unlink t.source t.id, hopposite.symm.apply_eq hjoins left, hjoins.stocked hz ht,
      hblend⟩
  · obtain ⟨err, hrevert⟩ := hopposite.revert_eq_of_refused hrefused left
    exact retained_of_refused hx hrevert

theorem retained_setAccepting {s : StateId} {accepting : Bool} (ha : a.Valid)
    (hsa : s ∈ a.stateIds) (hx : Stocked issued stock x) :
    (setAccepting s accepting).Retained issued stock (.flag (a.accepting s)) a
      (a.mark s accepting) x := by
  rcases revert_setAccepting_cases s accepting (a.accepting s) x with
    ⟨current, hsx, hset, hrevert⟩ | ⟨err, hrevert⟩
  · have hcarried := carried_mark (b := a.mark s accepting) (stateIds_mark.symm ▸ hsa) hsx
      (a.accepting s)
    rw [mark_mark ha] at hcarried
    refine .inl ⟨.nothing, _, hrevert, hx.setAccepting hset, hcarried, fun S z hS hz h => ?_⟩
    have hsz : s ∈ z.stateIds := (h.mem_stateIds s).2 (stateIds_mark.symm ▸ hsx)
    have hflag : z.accepting s = a.accepting s := accepting_eq_of_look_eq (h.look_eq _ (hS rfl))
    have hagain := hz.1.valid.setAccepting_eq hsz accepting
    rw [hflag] at hagain
    refine ⟨z.mark s accepting, ?_, hz.setAccepting hagain,
      (h.mark s accepting).trans (blend_mark_mark hsa hsx _ accepting) hS⟩
    rw [apply, hagain]
  · refine .inr ⟨.nothing, x, err, hrevert, .inl ?_⟩
    rw [Forgets, hrevert]
    exact Option.some_ne_none err

/-! ## Batches -/

theorem retainedAll_nil (hx : Stocked issued stock x) : RetainedAll issued stock [] [] a a x :=
  .inl ⟨[], x, rfl, hx, .refl a x, fun _ z _ hz h => ⟨z, rfl, hz, h⟩⟩

/-- The last edits are reverted first. If the first edit cannot be reverted then, they are applied
again, to a graph that looks like the one in between or like the one they were reverted to. -/
theorem RetainedAll.cons {e : Edit} {es : List Edit} {left : Backup} {lefts : List Backup}
    (hrest : RetainedAll issued stock es lefts c b x)
    (hfirst : ∀ y, Stocked issued stock y → e.Retained issued stock left a c y) :
    RetainedAll issued stock (e :: es) (left :: lefts) a b x := by
  rcases hrest with ⟨useds, y, hreverts, hy, hcarried, hrenews⟩ |
    ⟨useds, z, err, hreverts, hkept⟩
  · rcases hfirst y hy with ⟨used, w, hrevert, hw, hcarried', hrenews'⟩ |
      ⟨used, z, err, hrevert, hkept⟩
    · refine .inl ⟨used :: useds, w, ?_, hw, hcarried.trans hcarried', fun S z hS hz h => ?_⟩
      · simp only [revertAll, List.tail_cons, List.headD_cons, hreverts, hrevert]
      · obtain ⟨hSe, hSes⟩ := Set.union_subset_iff.1 hS
        obtain ⟨z', happly, hz', h'⟩ := hrenews' S z hSe hz h
        obtain ⟨z'', happlies, hz'', h''⟩ := hrenews S z' hSes hz' h'
        refine ⟨z'', ?_, hz'', h''⟩
        simp only [applyAll, List.tail_cons, List.headD_cons, happly, happlies]
    · rcases hkept with hforgets | ⟨rfl, hz, S, h⟩
      · refine .inr ⟨used :: (reapplyAll es useds z).backups, (reapplyAll es useds z).graph, err,
          ?_, .inl (.inr ?_)⟩
        · simp only [revertAll, List.tail_cons, List.headD_cons, hreverts, hrevert]
        · simp only [List.tail_cons, List.headD_cons, hreverts]
          exact ⟨trivial, hforgets⟩
      · -- The places of `es` look like `c` in both graphs that `z` is a blend of.
        obtain ⟨z', happlies, hz', h'⟩ :=
          hrenews _ z Set.subset_union_right hz (h.extend hcarried.look_eq_of_mem)
        refine .inr ⟨used :: lefts, z', err, ?_, .inr ⟨rfl, hz', _, h'⟩⟩
        simp only [revertAll, List.tail_cons, List.headD_cons, hreverts, hrevert,
          reapplyAll_eq_of_applyAll_eq happlies]
  · refine .inr ⟨left :: useds, z, err, ?_, ?_⟩
    · simp only [revertAll, List.tail_cons, List.headD_cons, hreverts]
    · exact hkept.imp .inl (And.imp_left (congrArg (left :: ·)))

theorem RetainedAll.batch {es : List Edit} {lefts : List Backup}
    (h : RetainedAll issued stock es lefts a b x) (purpose : Purpose) :
    (Edit.batch purpose es).Retained issued stock (.batch lefts) a b x := by
  rcases h with ⟨useds, y, hreverts, hy, hcarried, hrenews⟩ | ⟨useds, z, err, hreverts, hkept⟩
  · refine .inl ⟨.batch useds, y, ?_, hy, hcarried, fun S z hS hz h => ?_⟩
    · simp only [revert, Backup.parts, hreverts]
    · obtain ⟨z', happlies, hz', h'⟩ := hrenews S z hS hz h
      refine ⟨z', ?_, hz', h'⟩
      simp only [apply, Backup.parts, happlies]
  · refine .inr ⟨.batch useds, z, err, ?_, ?_⟩
    · simp only [revert, Backup.parts, hreverts]
    · exact hkept.imp_right (And.imp_left (congrArg Backup.batch))

/-! ## All edits -/

/-- However an edit has been applied and whatever has been done since, reverting it leaves what
it remembers in order. -/
def Retentive (issued issued' : Set Transition) (stock stock' : Stock) (e : Edit) : Prop :=
  ∀ a b x backup left, Stocked issued stock a → e.From stock →
    e.apply backup a = ⟨left, b, none⟩ → Stocked issued' stock' x →
      e.Retained issued' stock' left a b x

theorem Retentive.retainedAll {es : List Edit}
    (hes : ∀ e ∈ es, Retentive issued issued' stock stock' e) {backups lefts : List Backup}
    (ha : Stocked issued stock a) (hfrom : AllFrom stock es)
    (happly : applyAll es backups a = ⟨lefts, b, none⟩) (hx : Stocked issued' stock' x) :
    RetainedAll issued' stock' es lefts a b x := by
  induction es generalizing a backups lefts with
  | nil =>
      obtain ⟨rfl, rfl, -⟩ := BatchOutcome.mk.inj happly
      exact retainedAll_nil hx
  | cons e es ih =>
      obtain ⟨left, c, rest, hfirst, hrest, rfl⟩ := of_applyAll_cons happly
      have hretained := ih (fun d hd => hes d (by simp [hd]))
        (stocked_of_apply_eq ha hfrom.1 hfirst) hfrom.2 hrest
      exact hretained.cons fun y hy => hes e (by simp) a c y _ left ha hfrom.1 hfirst hy

theorem retentive (hsupplies : Supplies issued stock stock') (e : Edit) :
    Retentive issued issued' stock stock' e := by
  induction e using Edit.ind with
  | addState s =>
      intro a b x backup left ha he happly hx
      obtain ⟨hstates, -⟩ := hsupplies b (stocked_of_apply_eq ha he happly)
      obtain ⟨-, hnew, rfl⟩ := of_apply_addState happly
      exact retained_addState hx (hstates _ (mem_stateIds_insertNode.2 (.inl rfl))) hnew left
  | removeState s =>
      intro a b x backup left ha he happly hx
      obtain ⟨hstates, htransitions⟩ := hsupplies a ha
      obtain ⟨n, hn, rfl, rfl, rfl⟩ := of_apply_removeState happly
      exact retained_removeState ha.1.valid hn hx (hstates _ (mem_stateIds.2 ⟨n, hn, rfl⟩))
        fun t ht => htransitions t (mem_transitions.2 ⟨n, hn, ht⟩)
  | addTransition t =>
      intro a b x backup left ha he happly hx
      obtain ⟨-, htransitions⟩ := hsupplies b (stocked_of_apply_eq ha he happly)
      obtain ⟨⟨hsource, -, -, hnew⟩, rfl⟩ := of_apply_addTransition ha he happly
      have ht := htransitions t ((mem_transitions_link ha.1.valid hsource).2 (.inl rfl))
      exact retained_addTransition hx ht hnew left
  | removeTransition t =>
      intro a b x backup left ha he happly hx
      obtain ⟨ht, rfl⟩ := of_apply_removeTransition ha he happly
      exact retained_removeTransition ha.1.valid hx ((hsupplies a ha).2 t ht) ht left
  | setAccepting s accepting =>
      intro a b x backup left ha he happly hx
      obtain ⟨hs, rfl, rfl⟩ := of_apply_setAccepting ha.1.valid happly
      exact retained_setAccepting ha.1.valid hs hx
  | batch purpose edits ih =>
      intro a b x backup left ha he happly hx
      obtain ⟨lefts, rfl, happlies⟩ := of_apply_batch happly
      exact (Retentive.retainedAll ih ha he happlies hx).batch purpose

/-- Where an edit that is reverted later is refused, it remembers just what it did, unless the
refusal comes where a state or a flag is to be put back. -/
theorem backup_revert_of_refusal {e : Edit} {backup left : Backup}
    (hsupplies : Supplies issued stock stock') (ha : Stocked issued stock a) (he : e.From stock)
    (happly : e.apply backup a = ⟨left, b, none⟩) (hx : Stocked issued' stock' x)
    (hrefusal : (e.revert left x).refusal ≠ none) (hkept : ¬ e.Forgets left x) :
    (e.revert left x).backup = left := by
  rcases retentive hsupplies e a b x backup left ha he happly hx with
    ⟨used, y, hrevert, -⟩ | ⟨used, z, err, hrevert, hor⟩
  · rw [hrevert] at hrefusal
    exact absurd rfl hrefusal
  · rw [hrevert]
    exact (hor.resolve_left hkept).1

end Edit

end RegularForms
