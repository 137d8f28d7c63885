import Mathlib.Order.BooleanAlgebra.Set
import RegularForms.Proofs.Edit.Effect

/-!
# Batches of like edits

The batches of the conversions are put together from lists of edits of one kind: the
transitions that go, the states that go or come, and the transitions that are handed out
to come. What such a list does, and when nothing stands against it, is said here once for
each kind, together with what the transitions that are handed out look like.
-/

namespace RegularForms

def Transition.arc (t : Transition) : StateId × StateId × Expr := (t.source, t.target, t.label)

namespace Edit

variable {o : Outline}

@[simp] theorem effectAll_nil (o : Outline) : effectAll [] o = o := rfl

@[simp] theorem effectAll_cons (e : Edit) (es : List Edit) (o : Outline) :
    effectAll (e :: es) o = effectAll es (e.effect o) := rfl

theorem effectAll_append (es fs : List Edit) (o : Outline) :
    effectAll (es ++ fs) o = effectAll fs (effectAll es o) := by
  induction es generalizing o with
  | nil => rfl
  | cons e es ih => exact ih (e.effect o)

@[simp] theorem fitsAll_nil (o : Outline) : FitsAll [] o := trivial

@[simp] theorem fitsAll_cons (e : Edit) (es : List Edit) (o : Outline) :
    FitsAll (e :: es) o ↔ e.Fits o ∧ FitsAll es (e.effect o) := Iff.rfl

theorem fitsAll_append (es fs : List Edit) (o : Outline) :
    FitsAll (es ++ fs) o ↔ FitsAll es o ∧ FitsAll fs (effectAll es o) := by
  induction es generalizing o with
  | nil => exact (and_iff_right trivial).symm
  | cons e es ih => rw [List.cons_append, fitsAll_cons, ih, fitsAll_cons, effectAll_cons, and_assoc]

/-! ## Transitions that go -/

theorem effectAll_removeTransition (ts : List Transition) (o : Outline) :
    effectAll (ts.map removeTransition) o =
      { o with transitions := o.transitions \ {t | t ∈ ts} } := by
  induction ts generalizing o with
  | nil => exact Outline.ext rfl rfl rfl rfl rfl (by simp) rfl
  | cons t ts ih =>
      rw [List.map_cons, effectAll_cons, ih]
      refine Outline.ext rfl rfl rfl rfl rfl (Set.ext fun u => ?_) rfl
      show (u ∈ o.transitions ∧ u ≠ t) ∧ u ∉ ts ↔ u ∈ o.transitions ∧ u ∉ t :: ts
      rw [List.mem_cons, not_or, and_assoc]

theorem fitsAll_removeTransition {ts : List Transition} (hnodup : ts.Nodup)
    (h : ∀ t ∈ ts, t ∈ o.transitions) : FitsAll (ts.map removeTransition) o := by
  induction ts generalizing o with
  | nil => trivial
  | cons t ts ih =>
      obtain ⟨ht, hts⟩ := List.nodup_cons.1 hnodup
      refine ⟨h t (by simp), ih hts fun u hu => ?_⟩
      exact ⟨h u (by simp [hu]), fun hut => ht (hut ▸ hu)⟩

/-! ## States that go -/

theorem effectAll_removeState (ss : List StateId) (o : Outline) :
    effectAll (ss.map removeState) o =
      { o with
        states := o.states \ {s | s ∈ ss}
        transitions := o.transitions \ {t | t.source ∈ ss}
        finals := o.finals \ {s | s ∈ ss} } := by
  induction ss generalizing o with
  | nil => exact Outline.ext rfl rfl rfl rfl (by simp) (by simp) (by simp)
  | cons s ss ih =>
      rw [List.map_cons, effectAll_cons, ih]
      refine Outline.ext rfl rfl rfl rfl (Set.ext fun r => ?_) (Set.ext fun t => ?_)
        (Set.ext fun r => ?_)
      · show (r ∈ o.states ∧ r ≠ s) ∧ r ∉ ss ↔ r ∈ o.states ∧ r ∉ s :: ss
        rw [List.mem_cons, not_or, and_assoc]
      · show (t ∈ o.transitions ∧ t.source ≠ s) ∧ t.source ∉ ss ↔
          t ∈ o.transitions ∧ t.source ∉ s :: ss
        rw [List.mem_cons, not_or, and_assoc]
      · show (r ∈ o.finals ∧ r ≠ s) ∧ r ∉ ss ↔ r ∈ o.finals ∧ r ∉ s :: ss
        rw [List.mem_cons, not_or, and_assoc]

theorem fitsAll_removeState {ss : List StateId} (hnodup : ss.Nodup)
    (hmem : ∀ s ∈ ss, s ∈ o.states ∧ s ≠ o.start)
    (hinto : ∀ t ∈ o.transitions, t.target ∈ ss → t.source = t.target) :
    FitsAll (ss.map removeState) o := by
  induction ss generalizing o with
  | nil => trivial
  | cons s ss ih =>
      obtain ⟨hs, hss⟩ := List.nodup_cons.1 hnodup
      refine ⟨⟨(hmem s (by simp)).1, (hmem s (by simp)).2, fun t ht hts => ?_⟩,
        ih hss (fun r hr => ?_) fun t ht hts => ?_⟩
      · rw [hinto t ht (by simp [hts]), hts]
      · obtain ⟨hmr, hstart⟩ := hmem r (by simp [hr])
        exact ⟨⟨hmr, fun hrs => hs (hrs ▸ hr)⟩, hstart⟩
      · exact hinto t ht.1 (by simp [hts])

/-! ## States that come -/

theorem effectAll_addState {ss : List State} (h : ∀ s ∈ ss, s.accepting = false) (o : Outline) :
    effectAll (ss.map addState) o = { o with states := o.states ∪ {r | r ∈ ss.map State.id} } := by
  induction ss generalizing o with
  | nil => exact Outline.ext rfl rfl rfl rfl (by simp) rfl rfl
  | cons s ss ih =>
      rw [List.map_cons, effectAll_cons, ih fun r hr => h r (by simp [hr])]
      refine Outline.ext rfl rfl rfl rfl (Set.ext fun r => ?_) rfl (Set.ext fun r => ?_)
      · show (r = s.id ∨ r ∈ o.states) ∨ r ∈ ss.map State.id ↔
          r ∈ o.states ∨ r ∈ (s :: ss).map State.id
        rw [List.map_cons, List.mem_cons, or_left_comm, or_assoc]
      · show r ∈ o.finals ∨ r = s.id ∧ s.accepting = true ↔ r ∈ o.finals
        rw [h s (by simp)]
        simp

theorem fitsAll_addState {ss : List State} (hnodup : (ss.map State.id).Nodup)
    (h : ∀ s ∈ ss, s.id ∉ o.states ∧ s.id.owner = o.owner ∧ s.id.index < o.nextState) :
    FitsAll (ss.map addState) o := by
  induction ss generalizing o with
  | nil => trivial
  | cons s ss ih =>
      obtain ⟨hs, hss⟩ := List.nodup_cons.1 hnodup
      refine ⟨h s (by simp), ih hss fun r hr => ?_⟩
      obtain ⟨hnew, hissued⟩ := h r (by simp [hr])
      refine ⟨?_, hissued⟩
      rintro (hrs | hmem)
      · exact hs (hrs ▸ List.mem_map_of_mem hr)
      · exact hnew hmem

/-! ## Transitions that come -/

theorem effectAll_addTransition (ts : List Transition) (o : Outline) :
    effectAll (ts.map addTransition) o =
      { o with transitions := o.transitions ∪ {t | t ∈ ts} } := by
  induction ts generalizing o with
  | nil => exact Outline.ext rfl rfl rfl rfl rfl (by simp) rfl
  | cons t ts ih =>
      rw [List.map_cons, effectAll_cons, ih]
      refine Outline.ext rfl rfl rfl rfl rfl (Set.ext fun u => ?_) rfl
      show (u = t ∨ u ∈ o.transitions) ∨ u ∈ ts ↔ u ∈ o.transitions ∨ u ∈ t :: ts
      rw [List.mem_cons, or_left_comm, or_assoc]

theorem fitsAll_addTransition {ts : List Transition}
    (hnodup : (ts.map Transition.id).Nodup)
    (h : ∀ t ∈ ts, (addTransition t).Fits o) : FitsAll (ts.map addTransition) o := by
  induction ts generalizing o with
  | nil => trivial
  | cons t ts ih =>
      obtain ⟨ht, hts⟩ := List.nodup_cons.1 hnodup
      refine ⟨h t (by simp), ih hts fun u hu => ?_⟩
      obtain ⟨hsource, htarget, hissued, hnew⟩ := h u (by simp [hu])
      refine ⟨hsource, htarget, hissued, ?_⟩
      rintro v (rfl | hv)
      · exact fun heq => ht (heq ▸ List.mem_map_of_mem hu)
      · exact hnew v hv

/-! ## A state that starts accepting -/

theorem effectAll_accept (c : Prop) [Decidable c] (s : StateId) (o : Outline) :
    effectAll (if c then [setAccepting s true] else []) o =
      { o with finals := {r | r ∈ o.finals ∨ r = s ∧ c} } := by
  split
  · next hc =>
      refine Outline.ext rfl rfl rfl rfl rfl rfl (Set.ext fun r => ?_)
      show r = s ∨ r ∈ o.finals ↔ r ∈ o.finals ∨ r = s ∧ c
      rw [and_iff_left hc, or_comm]
  · next hc =>
      refine Outline.ext rfl rfl rfl rfl rfl rfl (Set.ext fun r => ?_)
      exact (or_iff_left fun h => hc h.2).symm

theorem fitsAll_accept {c : Prop} [Decidable c] {s : StateId} (hs : s ∈ o.states) :
    FitsAll (if c then [setAccepting s true] else []) o := by
  split
  · exact ⟨hs, trivial⟩
  · trivial

/-! ## Taking turns -/

/-- Transitions that go take turns with transitions that come. -/
theorem effectAll_swap {ps : List (Transition × Transition)}
    (h : ∀ p ∈ ps, ∀ q ∈ ps, p.2 ≠ q.1) (o : Outline) :
    effectAll (ps.flatMap fun p => [removeTransition p.1, addTransition p.2]) o =
      { o with
        transitions :=
          (o.transitions \ {t | t ∈ ps.map Prod.fst}) ∪ {t | t ∈ ps.map Prod.snd} } := by
  induction ps generalizing o with
  | nil => exact Outline.ext rfl rfl rfl rfl rfl (by simp) rfl
  | cons p ps ih =>
      rw [List.flatMap_cons, effectAll_append,
        ih fun q hq r hr => h q (List.mem_cons_of_mem p hq) r (List.mem_cons_of_mem p hr)]
      refine Outline.ext rfl rfl rfl rfl rfl (Set.ext fun t => ?_) rfl
      show ((t = p.2 ∨ t ∈ o.transitions ∧ t ≠ p.1) ∧ t ∉ ps.map Prod.fst) ∨ t ∈ ps.map Prod.snd ↔
        (t ∈ o.transitions ∧ t ∉ (p :: ps).map Prod.fst) ∨ t ∈ (p :: ps).map Prod.snd
      have hnew : p.2 ∉ ps.map Prod.fst := by
        intro hmem
        obtain ⟨q, hq, heq⟩ := List.mem_map.1 hmem
        exact h p List.mem_cons_self q (List.mem_cons_of_mem p hq) heq.symm
      rw [List.map_cons, List.map_cons, List.mem_cons, List.mem_cons]
      constructor
      · rintro (⟨rfl | ⟨ht, hne⟩, hno⟩ | ht)
        · exact .inr (.inl rfl)
        · exact .inl ⟨ht, fun hor => hor.elim hne hno⟩
        · exact .inr (.inr ht)
      · rintro (⟨ht, hno⟩ | rfl | ht)
        · exact .inl ⟨.inr ⟨ht, fun heq => hno (.inl heq)⟩, fun hmem => hno (.inr hmem)⟩
        · exact .inl ⟨.inl rfl, hnew⟩
        · exact .inr ht

theorem fitsAll_swap {ps : List (Transition × Transition)}
    (hold : (ps.map Prod.fst).Nodup) (hnew : ((ps.map Prod.snd).map Transition.id).Nodup)
    (hmem : ∀ p ∈ ps, p.1 ∈ o.transitions) (h : ∀ p ∈ ps, (addTransition p.2).Fits o) :
    FitsAll (ps.flatMap fun p => [removeTransition p.1, addTransition p.2]) o := by
  induction ps generalizing o with
  | nil => trivial
  | cons p ps ih =>
      obtain ⟨hp, hold⟩ := List.nodup_cons.1 hold
      obtain ⟨hpid, hnew⟩ := List.nodup_cons.1 hnew
      obtain ⟨hsource, htarget, hissued, hfresh⟩ := h p List.mem_cons_self
      rw [List.flatMap_cons, fitsAll_append]
      refine ⟨⟨hmem p List.mem_cons_self, ⟨hsource, htarget, hissued, fun u hu => hfresh u hu.1⟩,
        trivial⟩, ih hold hnew (fun q hq => ?_) fun q hq => ?_⟩
      · refine .inr ⟨hmem q (List.mem_cons_of_mem p hq), fun heq => hp ?_⟩
        exact heq ▸ List.mem_map_of_mem hq
      · obtain ⟨hqs, hqt, hqi, hqf⟩ := h q (List.mem_cons_of_mem p hq)
        refine ⟨hqs, hqt, hqi, ?_⟩
        rintro u (rfl | hu)
        · exact fun heq => hpid (heq ▸ List.mem_map_of_mem (List.mem_map_of_mem hq))
        · exact hqf u hu.1

/-- States that stop accepting take turns with transitions that come. -/
theorem effectAll_switch (ps : List (StateId × Transition)) (o : Outline) :
    effectAll (ps.flatMap fun p => [setAccepting p.1 false, addTransition p.2]) o =
      { o with
        transitions := o.transitions ∪ {t | t ∈ ps.map Prod.snd}
        finals := o.finals \ {s | s ∈ ps.map Prod.fst} } := by
  induction ps generalizing o with
  | nil => exact Outline.ext rfl rfl rfl rfl rfl (by simp) (by simp)
  | cons p ps ih =>
      rw [List.flatMap_cons, effectAll_append, ih]
      refine Outline.ext rfl rfl rfl rfl rfl (Set.ext fun t => ?_) (Set.ext fun s => ?_)
      · show (t = p.2 ∨ t ∈ o.transitions) ∨ t ∈ ps.map Prod.snd ↔
          t ∈ o.transitions ∨ t ∈ (p :: ps).map Prod.snd
        rw [List.map_cons, List.mem_cons, or_left_comm, or_assoc]
      · show (s ∈ o.finals ∧ s ≠ p.1) ∧ s ∉ ps.map Prod.fst ↔
          s ∈ o.finals ∧ s ∉ (p :: ps).map Prod.fst
        rw [List.map_cons, List.mem_cons, not_or, and_assoc]

theorem fitsAll_switch {ps : List (StateId × Transition)}
    (hnew : ((ps.map Prod.snd).map Transition.id).Nodup)
    (h : ∀ p ∈ ps, p.1 ∈ o.states ∧ (addTransition p.2).Fits o) :
    FitsAll (ps.flatMap fun p => [setAccepting p.1 false, addTransition p.2]) o := by
  induction ps generalizing o with
  | nil => trivial
  | cons p ps ih =>
      obtain ⟨hpid, hnew⟩ := List.nodup_cons.1 hnew
      obtain ⟨hstate, hfits⟩ := h p List.mem_cons_self
      rw [List.flatMap_cons, fitsAll_append]
      refine ⟨⟨hstate, hfits, trivial⟩, ih hnew fun q hq => ?_⟩
      obtain ⟨hqstate, hqs, hqt, hqi, hqf⟩ := h q (List.mem_cons_of_mem p hq)
      refine ⟨hqstate, hqs, hqt, hqi, ?_⟩
      rintro u (rfl | hu)
      · exact fun heq => hpid (heq ▸ List.mem_map_of_mem (List.mem_map_of_mem hq))
      · exact hqf u hu

end Edit

/-! ## Transitions that are handed out -/

namespace Automaton

variable {a : Automaton}

theorem mem_freshTransitions {arcs : List (StateId × StateId × Expr)} {t : Transition} :
    t ∈ a.freshTransitions arcs ↔
      ∃ i, ∃ x, arcs[i]? = some x ∧ t = a.freshTransition i x.1 x.2.1 x.2.2 := by
  rw [freshTransitions, List.mem_iff_getElem?]
  refine exists_congr fun i => ?_
  rw [List.getElem?_mapIdx, Option.map_eq_some_iff]
  exact exists_congr fun x => and_congr_right fun _ => eq_comm

/-- Transitions are handed out along the arcs that are asked for. -/
theorem map_arc_freshTransitions (arcs : List (StateId × StateId × Expr)) :
    (a.freshTransitions arcs).map Transition.arc = arcs := by
  refine List.ext_getElem (by simp) fun i hi _ => ?_
  simp [freshTransitions, freshTransition, Transition.arc]

theorem arc_mem_of_mem_freshTransitions {arcs : List (StateId × StateId × Expr)}
    {t : Transition} (h : t ∈ a.freshTransitions arcs) : t.arc ∈ arcs := by
  have hmem := List.mem_map_of_mem (f := Transition.arc) h
  rwa [map_arc_freshTransitions] at hmem

theorem exists_mem_freshTransitions {arcs : List (StateId × StateId × Expr)}
    {x : StateId × StateId × Expr} (h : x ∈ arcs) :
    ∃ t ∈ a.freshTransitions arcs, t.arc = x := by
  rw [← map_arc_freshTransitions (a := a) arcs] at h
  exact List.mem_map.1 h

theorem index_of_mem_freshTransitions {arcs : List (StateId × StateId × Expr)}
    {t : Transition} (h : t ∈ a.freshTransitions arcs) :
    t.id.owner = a.owner ∧ a.nextTransition ≤ t.id.index ∧
      t.id.index < a.nextTransition + arcs.length := by
  obtain ⟨i, x, hx, rfl⟩ := mem_freshTransitions.1 h
  obtain ⟨hi, -⟩ := List.getElem?_eq_some_iff.1 hx
  exact ⟨rfl, Nat.le_add_right _ _, Nat.add_lt_add_left hi _⟩

theorem Valid.notMem_of_mem_freshTransitions (ha : a.Valid)
    {arcs : List (StateId × StateId × Expr)} {t : Transition}
    (h : t ∈ a.freshTransitions arcs) : t ∉ a.transitions := by
  intro ht
  exact absurd (ha.transition_issued t ht).2 (Nat.not_lt.2 (index_of_mem_freshTransitions h).2.1)

theorem add_length_freshTransitions (arcs : List (StateId × StateId × Expr)) :
    a.nextTransition + (a.freshTransitions arcs).length = a.nextTransition + arcs.length :=
  congrArg (a.nextTransition + ·) (length_freshTransitions a arcs)

theorem nodup_freshTransitions (arcs : List (StateId × StateId × Expr)) :
    ((a.freshTransitions arcs).map Transition.id).Nodup := by
  have hids : (a.freshTransitions arcs).map Transition.id =
      (List.range arcs.length).map fun i => (⟨a.owner, a.nextTransition + i⟩ : TransitionId) := by
    refine List.ext_getElem (by simp) fun i hi _ => ?_
    simp [freshTransitions, freshTransition]
  rw [hids]
  refine List.Nodup.map (fun i j hij => ?_) List.nodup_range
  simpa using hij

/-- A transition that has just been handed out can be added between states of the graph. -/
theorem Valid.fits_freshTransition (ha : a.Valid) {arcs : List (StateId × StateId × Expr)}
    {o : Outline} (howner : o.owner = a.owner)
    (hnext : o.nextTransition = a.nextTransition + arcs.length)
    (hsub : ∀ t ∈ o.transitions, t ∈ a.transitions)
    (hends : ∀ x ∈ arcs, x.1 ∈ o.states ∧ x.2.1 ∈ o.states) {t : Transition}
    (ht : t ∈ a.freshTransitions arcs) : (Edit.addTransition t).Fits o := by
  obtain ⟨hsource, htarget⟩ := hends _ (arc_mem_of_mem_freshTransitions ht)
  obtain ⟨hid, hlow, hhigh⟩ := index_of_mem_freshTransitions ht
  refine ⟨hsource, htarget, ⟨hid.trans howner.symm, hnext ▸ hhigh⟩, fun u hu heq => ?_⟩
  have hold := (ha.transition_issued u (hsub u hu)).2
  rw [heq] at hold
  exact absurd hlow (Nat.not_le.2 hold)

theorem Valid.fitsAll_freshTransitions (ha : a.Valid)
    {arcs : List (StateId × StateId × Expr)} {o : Outline} (howner : o.owner = a.owner)
    (hnext : o.nextTransition = a.nextTransition + arcs.length)
    (hsub : ∀ t ∈ o.transitions, t ∈ a.transitions)
    (hends : ∀ x ∈ arcs, x.1 ∈ o.states ∧ x.2.1 ∈ o.states) :
    Edit.FitsAll ((a.freshTransitions arcs).map .addTransition) o :=
  Edit.fitsAll_addTransition (nodup_freshTransitions arcs) fun _ ht =>
    ha.fits_freshTransition howner hnext hsub hends ht

theorem Valid.freshState_notMem (ha : a.Valid) (i : Nat) : (a.freshState i).id ∉ a.stateIds := by
  intro h
  exact absurd (ha.state_issued _ h).2 (Nat.not_lt.2 (Nat.le_add_right _ _))

theorem Valid.ne_freshState (ha : a.Valid) {s : StateId} (hs : s ∈ a.stateIds) (i : Nat) :
    s ≠ (a.freshState i).id := fun h => ha.freshState_notMem i (h ▸ hs)

def freshIds (a : Automaton) (n : Nat) : Set StateId := {s | ∃ i < n, s = (a.freshState i).id}

theorem effectAll_freshStates (a : Automaton) (n : Nat) (o : Outline) :
    Edit.effectAll ((List.range n).map fun i => .addState (a.freshState i)) o =
      { o with states := o.states ∪ a.freshIds n } := by
  have hmap : ((List.range n).map fun i => Edit.addState (a.freshState i)) =
      ((List.range n).map a.freshState).map .addState := by
    rw [List.map_map]
    rfl
  have hplain : ∀ s ∈ (List.range n).map a.freshState, s.accepting = false := by
    intro s hs
    obtain ⟨i, -, rfl⟩ := List.mem_map.1 hs
    rfl
  rw [hmap, Edit.effectAll_addState hplain]
  refine Outline.ext rfl rfl rfl rfl (Set.ext fun s => or_congr Iff.rfl ?_) rfl rfl
  show s ∈ ((List.range n).map a.freshState).map State.id ↔ ∃ i < n, s = (a.freshState i).id
  simp only [List.mem_map, List.mem_range]
  constructor
  · rintro ⟨r, ⟨i, hi, rfl⟩, rfl⟩
    exact ⟨i, hi, rfl⟩
  · rintro ⟨i, hi, rfl⟩
    exact ⟨_, ⟨i, hi, rfl⟩, rfl⟩

/-- States that have just been handed out can be added. -/
theorem Valid.fitsAll_freshStates (ha : a.Valid) {n : Nat} {o : Outline}
    (howner : o.owner = a.owner) (hnext : o.nextState = a.nextState + n)
    (hsub : ∀ s ∈ o.states, s ∈ a.stateIds) :
    Edit.FitsAll ((List.range n).map fun i => .addState (a.freshState i)) o := by
  have hmap : ((List.range n).map fun i => Edit.addState (a.freshState i)) =
      ((List.range n).map a.freshState).map .addState := by
    rw [List.map_map]
    rfl
  have hnodup : (((List.range n).map a.freshState).map State.id).Nodup := by
    rw [List.map_map]
    refine List.Nodup.map (fun i j hij => ?_) List.nodup_range
    simpa [freshState] using hij
  rw [hmap]
  refine Edit.fitsAll_addState hnodup fun s hs => ?_
  obtain ⟨i, hi, rfl⟩ := List.mem_map.1 hs
  refine ⟨fun h => ha.freshState_notMem i (hsub _ h), howner.symm, ?_⟩
  rw [hnext]
  exact Nat.add_lt_add_left (List.mem_range.1 hi) _

end Automaton

end RegularForms
