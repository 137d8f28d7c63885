import RegularForms.Elimination.Complete
import RegularForms.Proofs.Elimination.Plan
import RegularForms.Proofs.Rewriting

/-!
# Eliminating one state

While states are eliminated, nothing leads into the start state, the only accepting state
has nothing leaving it, and the states besides these two are those that are still to be
eliminated. The joins of parallel transitions leave a state with one self-loop at most;
folding it makes the state ready to be bypassed. So no step is refused.
-/

namespace RegularForms

namespace Elimination

open Automaton Rewriting

variable {a b c : Automaton} {s r final : StateId} {remaining : List StateId}
  {l : Language Char}

/-! ## Which transitions are parallel -/

/-- The ends of the transitions at a state, each self-loop once. -/
def endsAt (a : Automaton) (s : StateId) : List (StateId × StateId) :=
  (a.out s ++ (a.into s).filter fun t => !t.isLoop).map fun t => (t.source, t.target)

theorem nodup_at (ha : a.Valid) : (a.out s ++ (a.into s).filter fun t => !t.isLoop).Nodup := by
  refine (ha.nodup_out s).append ((ha.nodup_transitions.filter _).filter _)
    fun t ht hti => ?_
  obtain ⟨hti, hloop⟩ := List.mem_filter.1 hti
  rw [Transition.isLoop, (ha.mem_out.1 ht).2, (mem_into.1 hti).2] at hloop
  simp at hloop

theorem count_endsAt (p : StateId × StateId) : (endsAt a s).count p =
    ((a.out s ++ (a.into s).filter fun t => !t.isLoop).filter fun t =>
      (t.source, t.target) == p).length := by
  rw [endsAt, List.count_eq_countP, List.countP_map, List.countP_eq_length_filter]
  rfl

theorem count_endsAt_le (ha : a.Valid) (p : StateId × StateId) :
    (endsAt a s).count p ≤ (between a p.1 p.2).length := by
  rw [count_endsAt]
  refine ((nodup_at ha).filter _).subperm (fun t ht => ?_) |>.length_le
  obtain ⟨hmem, hp⟩ := List.mem_filter.1 ht
  have hp := beq_iff_eq.1 hp
  refine (mem_between ha).2 ⟨?_, congrArg Prod.fst hp, congrArg Prod.snd hp⟩
  rcases List.mem_append.1 hmem with hout | hinto
  · exact (ha.mem_out.1 hout).1
  · exact (mem_into.1 (List.mem_of_mem_filter hinto)).1

theorem length_between_self_le (ha : a.Valid) :
    (between a s s).length ≤ (endsAt a s).count (s, s) := by
  rw [count_endsAt]
  refine (nodup_between ha).subperm (fun t ht => ?_) |>.length_le
  obtain ⟨ht, hs, hr⟩ := (mem_between ha).1 ht
  refine List.mem_filter.2 ⟨List.mem_append_left _ (ha.mem_out.2 ⟨ht, hs⟩), ?_⟩
  rw [hs, hr]
  exact beq_self_eq_true _

theorem mem_parallelPairs {p : StateId × StateId} :
    p ∈ parallelPairs a s ↔ p ∈ endsAt a s ∧ 1 < (endsAt a s).count p := by
  rw [parallelPairs, List.mem_mergeSort, List.mem_filter, mem_distinct, decide_eq_true_eq]
  rfl

theorem nodup_parallelPairs : (parallelPairs a s).Nodup :=
  (List.mergeSort_perm _ _).nodup_iff.2 ((nodup_distinct _).filter _)

/-! ## The frame of an elimination -/

structure Framed (l : Language Char) (start final : StateId) (remaining : List StateId)
    (a : Automaton) : Prop where
  valid : a.Valid
  worded : a.Worded
  language_eq : a.language = l
  start_eq : a.start = start
  initial : Initial a
  isolated : Final a final
  mem_stateIds : ∀ s, s ∈ a.stateIds ↔ s = a.start ∨ s = final ∨ s ∈ remaining
  nodup : (a.start :: final :: remaining).Nodup

/-- A step of the elimination leaves the frame, with fewer states remaining if the step
drops some. -/
theorem Framed.reduce {start : StateId} (h : Framed l start final remaining a)
    {gone : Transition → Prop} {arcs : List (StateId × StateId × Expr)} {dropped : Set StateId}
    (hr : Reduced a gone arcs dropped b) (hk : Keeps a b)
    (harcs : ∀ x ∈ arcs, x.1 ≠ final ∧ x.2.1 ≠ a.start) {rest : List StateId}
    (hrest : ∀ s, s ∈ rest ↔ s ∈ remaining ∧ s ∉ dropped) (hnodup : rest.Nodup)
    (hdropped : ∀ s ∈ dropped, s ∈ remaining) : Framed l start final rest b := by
  obtain ⟨hstart, hfr⟩ := List.nodup_cons.1 h.nodup
  obtain ⟨hfinal, -⟩ := List.nodup_cons.1 hfr
  have hstartKept : a.start ∉ dropped := fun hd => hstart (List.mem_cons_of_mem _ (hdropped _ hd))
  have hfinalKept : final ∉ dropped := fun hd => hfinal (hdropped _ hd)
  refine ⟨hk.valid, hk.worded h.worded, hk.language_eq.trans h.language_eq,
    hk.start_eq.trans h.start_eq, fun t ht => ?_, ⟨fun s => ?_, ?_, fun t ht => ?_⟩,
    fun s => ?_, ?_⟩
  · rw [hk.start_eq]
    rcases (hr.rewired.mem_transitions t).1 ht with ⟨ht, -⟩ | ht
    · exact h.initial t ht
    · exact (harcs _ (arc_mem_of_mem_freshTransitions ht)).2
  · rw [hr.accepting_iff, h.isolated.accepting_iff]
    exact ⟨And.left, fun heq => ⟨heq, heq ▸ hfinalKept⟩⟩
  · rw [hk.start_eq]
    exact h.isolated.ne_start
  · rcases (hr.rewired.mem_transitions t).1 ht with ⟨ht, -⟩ | ht
    · exact h.isolated.source_ne t ht
    · exact (harcs _ (arc_mem_of_mem_freshTransitions ht)).1
  · rw [hr.mem_stateIds, h.mem_stateIds, hk.start_eq, hrest]
    constructor
    · rintro ⟨rfl | rfl | hs, hd⟩
      · exact .inl rfl
      · exact .inr (.inl rfl)
      · exact .inr (.inr ⟨hs, hd⟩)
    · rintro (rfl | rfl | ⟨hs, hd⟩)
      · exact ⟨.inl rfl, hstartKept⟩
      · exact ⟨.inr (.inl rfl), hfinalKept⟩
      · exact ⟨.inr (.inr hs), hd⟩
  · rw [hk.start_eq]
    refine List.nodup_cons.2 ⟨fun hmem => ?_, List.nodup_cons.2 ⟨fun hmem => ?_, hnodup⟩⟩
    · rcases List.mem_cons.1 hmem with heq | hmem
      · exact h.isolated.ne_start heq.symm
      · exact hstart (List.mem_cons_of_mem _ ((hrest _).1 hmem).1)
    · exact hfinal ((hrest _).1 hmem).1

theorem Framed.nodup_remaining {start : StateId} (h : Framed l start final remaining a) :
    remaining.Nodup :=
  (List.nodup_cons.1 (List.nodup_cons.1 h.nodup).2).2

/-- A step that drops no state leaves the frame as it is. -/
theorem Framed.reduce_same {start : StateId} (h : Framed l start final remaining a)
    {gone : Transition → Prop} {arcs : List (StateId × StateId × Expr)}
    (hr : Reduced a gone arcs ∅ b) (hk : Keeps a b)
    (harcs : ∀ x ∈ arcs, x.1 ≠ final ∧ x.2.1 ≠ a.start) :
    Framed l start final remaining b :=
  h.reduce hr hk harcs (fun _ => (and_iff_left (Set.notMem_empty _)).symm) h.nodup_remaining
    fun _ hs => hs.elim

/-! ## Eliminating one state -/

/-- Joining the transitions between two states leaves one there and the others as they
are. -/
theorem length_between_of_joined (ha : a.Valid) (hb : b.Valid) {p : StateId × StateId}
    {e : Expr}
    (h : a.Rewired b (fun t => t.source = p.1 ∧ t.target = p.2) [(p.1, p.2, e)]) :
    (between b p.1 p.2).length ≤ 1 ∧
      ∀ q, q ≠ p → (between b q.1 q.2).length = (between a q.1 q.2).length := by
  refine ⟨?_, fun q hq => ?_⟩
  · have hsub : between b p.1 p.2 ⊆ a.freshTransitions [(p.1, p.2, e)] := by
      intro t ht
      obtain ⟨ht, hends⟩ := (mem_between hb).1 ht
      exact ((h.mem_transitions t).1 ht).resolve_left fun hstay => hstay.2 hends
    have hle := ((nodup_between hb).subperm hsub).length_le
    rwa [length_freshTransitions] at hle
  · refine List.Perm.length_eq ((List.perm_ext_iff_of_nodup (nodup_between hb)
      (nodup_between ha)).2 fun t => ?_)
    rw [mem_between hb, mem_between ha, h.mem_transitions]
    constructor
    · rintro ⟨⟨ht, -⟩ | ht, hs, hr⟩
      · exact ⟨ht, hs, hr⟩
      · have harc := List.mem_singleton.1 (arc_mem_of_mem_freshTransitions ht)
        have hsource : t.source = p.1 := congrArg Prod.fst harc
        have htarget : t.target = p.2 := congrArg (fun x => x.2.1) harc
        exact absurd (Prod.ext (hs.symm.trans hsource) (hr.symm.trans htarget)) hq
    · rintro ⟨ht, hs, hr⟩
      refine ⟨.inl ⟨ht, fun hends => hq ?_⟩, hs, hr⟩
      exact Prod.ext (hs.symm.trans hends.1) (hr.symm.trans hends.2)

/-- Pairs of states that are joined by several transitions, among which the self-loops of
a state are if it has several. -/
def Joinable (s : StateId) (ps : List (StateId × StateId)) (a : Automaton) : Prop :=
  ps.Nodup ∧ (∀ p ∈ ps, 2 ≤ (between a p.1 p.2).length) ∧
    ((s, s) ∈ ps ∨ (between a s s).length ≤ 1)

theorem joinable_parallelPairs (ha : a.Valid) : Joinable s (parallelPairs a s) a := by
  refine ⟨nodup_parallelPairs, fun p hp => ?_, ?_⟩
  · exact (mem_parallelPairs.1 hp).2.trans_le (count_endsAt_le ha p)
  · by_cases hcount : 1 < (endsAt a s).count (s, s)
    · refine .inl (mem_parallelPairs.2 ⟨?_, hcount⟩)
      exact List.count_pos_iff.1 (Nat.lt_trans Nat.zero_lt_one hcount)
    · exact .inr ((length_between_self_le ha).trans (Nat.le_of_not_lt hcount))

theorem Joinable.tail (ha : a.Valid) (hb : b.Valid) {p : StateId × StateId}
    {ps : List (StateId × StateId)} {e : Expr} (h : Joinable s (p :: ps) a)
    (hr : a.Rewired b (fun t => t.source = p.1 ∧ t.target = p.2) [(p.1, p.2, e)]) :
    Joinable s ps b := by
  obtain ⟨hnodup, hall, hself⟩ := h
  obtain ⟨hp, hps⟩ := List.nodup_cons.1 hnodup
  obtain ⟨hjoined, hothers⟩ := length_between_of_joined ha hb hr
  refine ⟨hps, fun q hq => ?_, ?_⟩
  · rw [hothers q fun heq => hp (heq ▸ hq)]
    exact hall q (List.mem_cons_of_mem p hq)
  · by_cases hsp : (s, s) = p
    · subst hsp
      exact .inr hjoined
    · rcases hself with hmem | hle
      · exact .inl ((List.mem_cons.1 hmem).resolve_left hsp)
      · refine .inr ?_
        rw [hothers (s, s) hsp]
        exact hle

/-- Folding the only self-loop of a state leaves it without one. -/
theorem loopless_of_folded (ha : a.Valid) {loop : Transition} (hloop : loop ∈ a.transitions)
    (honly : ∀ t ∈ a.transitions, t.source = loop.source → t.target = loop.source → t = loop)
    (h : Reduced a (fun t => t.source = loop.source) (foldArcs a loop) ∅ b) :
    Loopless b loop.source := by
  intro t ht hts htt
  rcases (h.rewired.mem_transitions t).1 ht with ⟨-, hno⟩ | ht
  · exact hno hts
  · obtain ⟨u, hu, hus, hne, harc⟩ :=
      (mem_foldArcs ha hloop).1 (arc_mem_of_mem_freshTransitions ht)
    have htarget : t.target = u.target := congrArg (fun x => x.2.1) harc
    exact hne (honly u hu hus (htarget.symm.trans htt))

theorem Framed.head {start : StateId} (h : Framed l start final (s :: remaining) a) :
    s ∈ a.stateIds ∧ s ≠ a.start ∧ s ≠ final ∧ ¬ a.accepting s = true := by
  obtain ⟨hstart, hfr⟩ := List.nodup_cons.1 h.nodup
  obtain ⟨hfinal, -⟩ := List.nodup_cons.1 hfr
  have hne : s ≠ final := fun heq => hfinal (heq ▸ List.mem_cons_self)
  refine ⟨(h.mem_stateIds s).2 (.inr (.inr List.mem_cons_self)), fun heq => ?_, hne,
    fun hacc => hne ((h.isolated.accepting_iff s).1 hacc)⟩
  exact hstart (heq ▸ List.mem_cons_of_mem _ List.mem_cons_self)

/-- Joining some parallel transitions leaves the others to be joined. -/
theorem Framed.achieves_join {start : StateId} (h : Framed l start final remaining a)
    {p : StateId × StateId} {ps : List (StateId × StateId)} (hjoinable : Joinable s (p :: ps) a) :
    Achieves (fun b => b.language = l) (carryOut (joinParallel p.1 p.2)) a
      fun _ b => Framed l start final remaining b ∧ Joinable s ps b := by
  have hlen := hjoinable.2.1 p List.mem_cons_self
  obtain ⟨q, b, hplan, hperforms, hr, hk⟩ := exists_joinParallel h.valid hlen
  refine achieves_carryOut language_reserve_eq hplan hperforms
    (hk.language_eq.trans h.language_eq) ⟨h.reduce_same hr hk fun x hx => ?_,
      hjoinable.tail h.valid hk.valid hr.rewired⟩
  obtain ⟨t, ht⟩ := List.exists_mem_of_length_pos (Nat.lt_of_lt_of_le Nat.zero_lt_two hlen)
  obtain ⟨ht, hsource, htarget⟩ := (mem_between h.valid).1 ht
  rw [List.mem_singleton.1 hx]
  exact ⟨hsource ▸ h.isolated.source_ne t ht, htarget ▸ h.initial t ht⟩

/-- Bypassing the first of the states that remain. -/
theorem Framed.achieves_bypass {start : StateId} (h : Framed l start final (s :: remaining) a)
    (hloopless : Loopless a s) :
    Achieves (fun b => b.language = l) (carryOut (bypass s)) a
      fun _ b => Framed l start final remaining b := by
  obtain ⟨hs, hstart, -, hacc⟩ := h.head
  obtain ⟨p, b, hplan, hperforms, hr, hk⟩ := exists_bypass h.valid hs hstart hloopless hacc
  refine achieves_carryOut language_reserve_eq hplan hperforms
    (hk.language_eq.trans h.language_eq) ?_
  obtain ⟨hsr, hremaining⟩ := List.nodup_cons.1 h.nodup_remaining
  refine h.reduce hr hk (fun x hx => ?_) (fun q => ?_) hremaining fun q hq => ?_
  · obtain ⟨t, ht, u, hu, -, -, rfl⟩ := (mem_bypassArcs h.valid).1 hx
    exact ⟨h.isolated.source_ne t ht, h.initial u hu⟩
  · rw [List.mem_cons]
    constructor
    · exact fun hq => ⟨.inr hq, fun heq => hsr (heq ▸ hq)⟩
    · exact fun hq => hq.1.resolve_left hq.2
  · exact hq ▸ List.mem_cons_self

/-- Folding the only self-loop of the first of the states that remain makes it ready to be
bypassed. -/
theorem Framed.achieves_fold {start : StateId} (h : Framed l start final (s :: remaining) a)
    {loop : Transition} (hloop : between a s s = [loop]) :
    Achieves (fun b => b.language = l) (carryOut (foldLoop loop.id)) a
      fun _ b => Framed l start final (s :: remaining) b ∧ Loopless b s := by
  obtain ⟨hs, -, hne, hacc⟩ := h.head
  have hmem : ∀ t, t = loop ↔ t ∈ a.transitions ∧ t.source = s ∧ t.target = s := by
    intro t
    rw [← List.mem_singleton, ← hloop, mem_between h.valid]
  have hsingle := singleLoop?_eq h.valid hs (hloop ▸ le_rfl)
  rw [hloop] at hsingle
  obtain ⟨ht, rfl, htarget⟩ := (hmem loop).1 rfl
  obtain ⟨p, b, hplan, hperforms, hr, hk⟩ := exists_foldLoop h.valid ht htarget hsingle hacc
  refine achieves_carryOut language_reserve_eq hplan hperforms
    (hk.language_eq.trans h.language_eq) ⟨h.reduce_same hr hk fun x hx => ?_, ?_⟩
  · obtain ⟨u, hu, -, -, rfl⟩ := (mem_foldArcs h.valid ht).1 hx
    exact ⟨hne, h.initial u hu⟩
  · exact loopless_of_folded h.valid ht (fun u hu hus hut => (hmem u).2 ⟨hu, hus, hut⟩) hr

/-- Eliminating a state takes it from those that remain. -/
theorem achieves_eliminate {start : StateId} (h : Framed l start final (s :: remaining) a) :
    Achieves (fun b => b.language = l) (eliminate s) a
      fun _ b => Framed l start final remaining b := by
  refine Achieves.graph (Achieves.bind ((achieves_forM (I := fun ps b =>
    Framed l start final (s :: remaining) b ∧ Joinable s ps b)
      (fun p ps b hb => hb.1.achieves_join hb.2) ⟨h, joinable_parallelPairs h.valid⟩).mono ?_))
  rintro _ b ⟨hb, -, -, hself⟩
  have hle := hself.resolve_left List.not_mem_nil
  refine Achieves.ask (singleLoop?_eq hb.valid hb.head.1 hle) ?_
  match hloops : between b s s with
  | [] =>
      refine hb.achieves_bypass fun t ht hts htt => ?_
      have hno := (mem_between hb.valid).2 ⟨ht, hts, htt⟩
      rw [hloops] at hno
      nomatch hno
  | [loop] =>
      refine Achieves.bind ((hb.achieves_fold hloops).mono ?_)
      exact fun _ c hc => hc.1.achieves_bypass hc.2
  | t :: u :: ts =>
      rw [hloops] at hle
      exact absurd (Nat.le_of_succ_le_succ hle) (Nat.not_succ_le_zero _)

end Elimination

end RegularForms
