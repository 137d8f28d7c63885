import RegularForms.Elimination.Plan
import RegularForms.Proofs.Automaton.Query
import RegularForms.Proofs.Elimination.Isolate
import RegularForms.Proofs.Expr.Simplify

/-!
# The steps of an elimination

Joining parallel transitions, folding a self-loop and bypassing a state each leave the
states that stay their languages, provided that a state whose loop is folded, or that is
bypassed, is not accepting. A label that is put before another one, or after a star, or
beside others, stands for the product, or the star, or the sum; simplifying it a little
changes nothing.
-/

namespace RegularForms

open scoped Computability

namespace Elimination

open Automaton

variable {a b : Automaton} {s r : StateId}

theorem language_lighten (e : Expr) : (lighten e).language = e.language :=
  Expr.language_simplifyTo lightDepth e

/-- A step of an elimination: some transitions have gone, others have come along arcs, and
some states have gone. -/
structure Reduced (a : Automaton) (gone : Transition → Prop)
    (arcs : List (StateId × StateId × Expr)) (dropped : Set StateId) (b : Automaton) : Prop where
  valid : b.Valid
  rewired : a.Rewired b gone arcs
  mem_stateIds : ∀ s, s ∈ b.stateIds ↔ s ∈ a.stateIds ∧ s ∉ dropped
  accepting_iff : ∀ s, b.accepting s = true ↔ a.accepting s = true ∧ s ∉ dropped

variable {gone : Transition → Prop} {arcs : List (StateId × StateId × Expr)}
  {dropped : Set StateId}

/-- Nothing new can be read after a step whose arcs can read nothing new. -/
theorem Reduced.language_le (h : Reduced a gone arcs dropped b)
    (hle : ∀ x ∈ arcs, x.2.2.language * a.languageFrom x.2.1 ≤ a.languageFrom x.1) :
    b.language ≤ a.language := by
  rw [language, language, h.rewired.start_eq]
  exact h.rewired.languageFrom_le
    (fun q hq => one_le_languageFrom ((h.accepting_iff q).1 hq).1)
    (fun t ht _ => label_mul_languageFrom_le ht) hle a.start

/-- A step keeps what an elimination needs when its arcs can read nothing new, and what is
lost with the transitions that have gone can still be read. -/
theorem Reduced.keeps (h : Reduced a gone arcs dropped b)
    (hle : ∀ x ∈ arcs, x.2.2.language * a.languageFrom x.2.1 ≤ a.languageFrom x.1)
    {N : StateId → Language Char} (hstart : N a.start ≤ b.languageFrom a.start)
    (hnil : ∀ q, a.accepting q = true → 1 ≤ N q)
    (hstep : ∀ t ∈ a.transitions, t.label.language * N t.target ≤ N t.source)
    (hworded : a.Worded → ∀ x ∈ arcs, ∃ w, w ∈ x.2.2.language) : Keeps a b where
  valid := h.valid
  start_eq := h.rewired.start_eq
  language_eq := by
    refine (h.language_le hle).antisymm ?_
    rw [language, language, h.rewired.start_eq]
    exact (Automaton.languageFrom_le hnil hstep a.start).trans hstart
  worded hw :=
    h.rewired.forall_label (R := fun e => ∃ w, w ∈ e.language) hw (hworded hw)

/-- A step that drops no state. -/
theorem reduced_of_rewired (hb : b.Valid) (hr : a.Rewired b gone arcs)
    (hstates : ∀ s, s ∈ b.stateIds ↔ s ∈ a.stateIds)
    (hacc : ∀ s, b.accepting s = true ↔ a.accepting s = true) : Reduced a gone arcs ∅ b where
  valid := hb
  rewired := hr
  mem_stateIds s := (hstates s).trans (and_iff_left (Set.notMem_empty s)).symm
  accepting_iff s := (hacc s).trans (and_iff_left (Set.notMem_empty s)).symm

/-! ## Parallel transitions -/

def between (a : Automaton) (s r : StateId) : List Transition :=
  (a.out s).filter fun t => t.target == r

theorem mem_between (ha : a.Valid) {t : Transition} :
    t ∈ between a s r ↔ t ∈ a.transitions ∧ t.source = s ∧ t.target = r := by
  rw [between, List.mem_filter, ha.mem_out, beq_iff_eq, and_assoc]

theorem nodup_between (ha : a.Valid) : (between a s r).Nodup :=
  (ha.nodup_out s).filter _

theorem parallel_eq (ha : a.Valid) (hs : s ∈ a.stateIds) :
    parallel a s r = .ok (between a s r) := by
  rw [parallel, ha.outgoing_eq hs]
  rfl

def joinLabel (a : Automaton) (s r : StateId) : Expr :=
  lighten (.join .choice ((between a s r).map Transition.label))

theorem language_joinLabel : (joinLabel a s r).language =
    Expr.total ((between a s r).map Transition.label) := by
  rw [joinLabel, language_lighten, Expr.language_join_choice]

theorem mem_stateIds_of_mem_between {t : Transition} (ha : a.Valid) (h : t ∈ between a s r) :
    s ∈ a.stateIds ∧ r ∈ a.stateIds := by
  obtain ⟨ht, rfl, rfl⟩ := (mem_between ha).1 h
  exact ⟨ha.source_mem ht, ha.target_mem t ht⟩

theorem keeps_of_joined (ha : a.Valid) (hne : between a s r ≠ [])
    (h : Reduced a (fun t => t.source = s ∧ t.target = r) [(s, r, joinLabel a s r)] ∅ b) :
    Keeps a b := by
  refine h.keeps (N := b.languageFrom) (fun x hx => ?_) le_rfl (fun q hq => ?_)
    (fun t ht => ?_) fun hw x hx => ?_
  · rw [List.mem_singleton.1 hx, language_joinLabel]
    refine Expr.total_mul_le fun d hd => ?_
    obtain ⟨t, ht, rfl⟩ := List.mem_map.1 hd
    obtain ⟨htmem, rfl, rfl⟩ := (mem_between ha).1 ht
    exact label_mul_languageFrom_le htmem
  · exact one_le_languageFrom ((h.accepting_iff q).2 ⟨hq, Set.notMem_empty q⟩)
  · by_cases hgone : t.source = s ∧ t.target = r
    · have harc := h.rewired.arc_mul_languageFrom_le (List.mem_singleton.2 rfl)
      rw [language_joinLabel] at harc
      have hlabel := Expr.language_le_total
        (List.mem_map_of_mem (f := Transition.label) ((mem_between ha).2 ⟨ht, hgone⟩))
      rw [hgone.1, hgone.2]
      exact (mul_le_mul_left hlabel _).trans harc
    · exact h.rewired.stay_mul_languageFrom_le ht hgone
  · obtain ⟨t, ht⟩ := List.exists_mem_of_ne_nil _ hne
    obtain ⟨w, hw⟩ := hw t ((mem_between ha).1 ht).1
    rw [List.mem_singleton.1 hx, language_joinLabel]
    exact ⟨w, Expr.mem_total.2 ⟨t.label, List.mem_map_of_mem ht, hw⟩⟩

def joining (a : Automaton) (s r : StateId) : Plan :=
  ⟨.batch (.joinParallel s r) ((between a s r).map .removeTransition ++
    (a.freshTransitions [(s, r, joinLabel a s r)]).map .addTransition), a.reserve 0 1⟩

theorem joinParallel_eq (ha : a.Valid) (hs : s ∈ a.stateIds)
    (hlen : 2 ≤ (between a s r).length) : joinParallel s r a = .ok (joining a s r) := by
  rw [joinParallel, parallel_eq ha hs]
  exact if_neg (Nat.not_lt.2 hlen)

theorem exists_joined (ha : a.Valid) (hs : s ∈ a.stateIds) (hr : r ∈ a.stateIds) :
    ∃ b, (joining a s r).Performs a b ∧
      Reduced a (fun t => t.source = s ∧ t.target = r) [(s, r, joinLabel a s r)] ∅ b := by
  have hfits : (joining a s r).edit.Fits (joining a s r).graph.outline := by
    show Edit.FitsAll (_ ++ _) _
    rw [Edit.fitsAll_append, Edit.effectAll_removeTransition]
    refine ⟨Edit.fitsAll_removeTransition (nodup_between ha) fun t ht => ((mem_between ha).1 ht).1,
      ha.fitsAll_freshTransitions rfl rfl (fun t ht => ht.1) fun x hx => ?_⟩
    rw [List.mem_singleton.1 hx]
    exact ⟨hs, hr⟩
  obtain ⟨b, hperforms, hb, hbo⟩ := ha.exists_performs rfl hfits
  have hbo : b.outline = Edit.effectAll (_ ++ _) _ := hbo
  rw [Edit.effectAll_append, Edit.effectAll_removeTransition, Edit.effectAll_addTransition] at hbo
  exact ⟨b, hperforms, reduced_of_rewired hb
    (.of_outline hbo rfl (fun _ => Iff.rfl) fun _ => mem_between ha)
    (fun _ => mem_stateIds_of_outline hbo) fun _ => accepting_of_outline hbo⟩

/-- The transitions from one state to another can be joined if there are at least two. -/
theorem exists_joinParallel (ha : a.Valid) (hlen : 2 ≤ (between a s r).length) :
    ∃ p b, joinParallel s r a = .ok p ∧ p.Performs a b ∧
      Reduced a (fun t => t.source = s ∧ t.target = r) [(s, r, joinLabel a s r)] ∅ b ∧
        Keeps a b := by
  obtain ⟨t, ht⟩ := List.exists_mem_of_length_pos (Nat.lt_of_lt_of_le Nat.zero_lt_two hlen)
  obtain ⟨hs, hr⟩ := mem_stateIds_of_mem_between ha ht
  obtain ⟨b, hperforms, hreduced⟩ := exists_joined ha hs hr
  exact ⟨_, b, joinParallel_eq ha hs hlen, hperforms, hreduced,
    keeps_of_joined ha (List.ne_nil_of_mem ht) hreduced⟩

/-- The transitions from one state to another are joined just when there are at least two. -/
theorem joinParallel_eq_ok_iff (ha : a.Valid) {p : Plan} :
    joinParallel s r a = .ok p ↔ 2 ≤ (between a s r).length ∧ p = joining a s r := by
  constructor
  · intro h
    obtain ⟨old, hold, h⟩ := bind_eq_ok_iff.1 h
    obtain ⟨ts, hout, -⟩ := bind_eq_ok_iff.1 hold
    have hs := mem_stateIds_of_outgoing_eq hout
    rw [parallel_eq ha hs] at hold
    obtain rfl := Except.ok.inj hold
    split at h
    · nomatch h
    · next hlen => exact ⟨Nat.le_of_not_lt hlen, (Except.ok.inj h).symm⟩
  · rintro ⟨hlen, rfl⟩
    obtain ⟨t, ht⟩ := List.exists_mem_of_length_pos (Nat.lt_of_lt_of_le Nat.zero_lt_two hlen)
    exact joinParallel_eq ha (mem_stateIds_of_mem_between ha ht).1 hlen

/-! ## Self-loops -/

theorem loops_eq_between (ha : a.Valid) : (a.out s).filter Transition.isLoop = between a s s := by
  refine List.filter_congr fun t ht => ?_
  rw [Transition.isLoop, (ha.mem_out.1 ht).2]
  exact Bool.beq_comm

theorem singleLoop?_eq (ha : a.Valid) (hs : s ∈ a.stateIds)
    (hle : (between a s s).length ≤ 1) :
    singleLoop? a s = .ok ((between a s s).head?.map Transition.id) := by
  rw [singleLoop?, ha.outgoing_eq hs]
  dsimp only [bind, Except.bind]
  rw [loops_eq_between ha]
  rcases h : between a s s with _ | ⟨t, _ | ⟨u, ts⟩⟩
  · rfl
  · rfl
  · rw [h] at hle
    exact absurd (Nat.le_of_succ_le_succ hle) (Nat.not_succ_le_zero _)

/-- A state that has several self-loops has no single one. -/
theorem length_between_of_singleLoop? (ha : a.Valid) {o : Option TransitionId}
    (h : singleLoop? a s = .ok o) :
    (between a s s).length ≤ 1 := by
  obtain ⟨ts, hout, h⟩ := bind_eq_ok_iff.1 h
  have hs := mem_stateIds_of_outgoing_eq hout
  obtain rfl := Except.ok.inj ((ha.outgoing_eq hs).symm.trans hout)
  rw [loops_eq_between ha] at h
  rcases hloops : between a s s with _ | ⟨t, _ | ⟨u, ts⟩⟩
  · exact Nat.zero_le 1
  · exact le_rfl
  · rw [hloops] at h
    nomatch h

def foldArcs (a : Automaton) (loop : Transition) : List (StateId × StateId × Expr) :=
  ((a.out loop.source).filter fun u => u.id ≠ loop.id).map fun u =>
    (loop.source, u.target, lighten (.join .sequence [.star loop.label, u.label]))

def otherOut (a : Automaton) (loop : Transition) : List Transition :=
  (a.out loop.source).filter fun u => u.id ≠ loop.id

theorem mem_otherOut (ha : a.Valid) {loop t : Transition} (hloop : loop ∈ a.transitions) :
    t ∈ otherOut a loop ↔ t ∈ a.transitions ∧ t.source = loop.source ∧ t ≠ loop := by
  rw [otherOut, List.mem_filter, ha.mem_out, decide_eq_true_eq, and_assoc]
  refine and_congr_right fun ht => and_congr_right fun _ => not_congr ⟨fun hid => ?_, ?_⟩
  · exact ha.eq_of_id_eq t ht loop hloop hid
  · exact congrArg Transition.id

theorem nodup_otherOut (ha : a.Valid) (loop : Transition) : (otherOut a loop).Nodup :=
  (ha.nodup_out _).filter _

theorem length_freshTransitions_foldArcs (a : Automaton) (loop : Transition) :
    (a.freshTransitions (foldArcs a loop)).length = (otherOut a loop).length := by
  rw [length_freshTransitions, foldArcs, List.length_map, otherOut]

theorem mem_foldArcs (ha : a.Valid) {loop : Transition} (hloop : loop ∈ a.transitions)
    {x : StateId × StateId × Expr} :
    x ∈ foldArcs a loop ↔ ∃ u ∈ a.transitions, u.source = loop.source ∧ u ≠ loop ∧
      x = (loop.source, u.target, lighten (.join .sequence [.star loop.label, u.label])) := by
  rw [foldArcs, List.mem_map]
  refine exists_congr fun u => ?_
  rw [← otherOut, mem_otherOut ha hloop, eq_comm (a := x), and_assoc, and_assoc]

theorem language_foldLabel (d e : Expr) :
    (lighten (.join .sequence [.star d, e])).language = d.language∗ * e.language := by
  rw [language_lighten, Expr.language_join_sequence, Expr.product_cons, Expr.product_cons,
    Expr.product_nil, mul_one, Expr.language_star]

/-- What can be read in `b` along the transitions of `a` that leave the state of a self-loop
besides it. -/
def besideLoop (a b : Automaton) (loop : Transition) : Language Char :=
  {w | ∃ u ∈ a.transitions, u.source = loop.source ∧ u ≠ loop ∧
    w ∈ u.label.language * b.languageFrom u.target}

/-- What is still read from a state when a self-loop has been folded. From the state of the
loop it is what goes on elsewhere, after any number of rounds. -/
def pastLoop (a b : Automaton) (loop : Transition) (s : StateId) : Language Char :=
  if s = loop.source then loop.label.language∗ * besideLoop a b loop else b.languageFrom s

theorem pastLoop_of_eq {loop : Transition} (hs : s = loop.source) :
    pastLoop a b loop s = loop.label.language∗ * besideLoop a b loop := if_pos hs

theorem pastLoop_of_ne {loop : Transition} (hs : s ≠ loop.source) :
    pastLoop a b loop s = b.languageFrom s := if_neg hs

theorem pastLoop_le (ha : a.Valid) {loop : Transition} (hloop : loop ∈ a.transitions)
    (h : Reduced a (fun t => t.source = loop.source) (foldArcs a loop) ∅ b) (s : StateId) :
    pastLoop a b loop s ≤ b.languageFrom s := by
  by_cases hs : s = loop.source
  · rw [pastLoop_of_eq hs, hs]
    intro w hw
    obtain ⟨v, hv, v', ⟨u, hu, hus, hne, hv'⟩, rfl⟩ := Language.mem_mul.1 hw
    have harc := h.rewired.arc_mul_languageFrom_le
      ((mem_foldArcs ha hloop).2 ⟨u, hu, hus, hne, rfl⟩)
    rw [language_foldLabel, mul_assoc] at harc
    exact harc (Language.append_mem_mul hv hv')
  · rw [pastLoop_of_ne hs]

/-- A round of a folded loop is taken in by the star before the next label. -/
theorem label_mul_pastLoop_le (ha : a.Valid) {loop : Transition} (hloop : loop ∈ a.transitions)
    (htarget : loop.target = loop.source)
    (h : Reduced a (fun t => t.source = loop.source) (foldArcs a loop) ∅ b) {t : Transition}
    (ht : t ∈ a.transitions) :
    t.label.language * pastLoop a b loop t.target ≤ pastLoop a b loop t.source := by
  by_cases htl : t = loop
  · rw [htl, htarget, pastLoop_of_eq rfl, ← mul_assoc]
    exact mul_le_mul_left mul_kstar_le_kstar _
  have hle : t.label.language * pastLoop a b loop t.target ≤
      t.label.language * b.languageFrom t.target :=
    mul_le_mul_right (pastLoop_le ha hloop h t.target) _
  by_cases hts : t.source = loop.source
  · have hbeside : t.label.language * b.languageFrom t.target ≤ besideLoop a b loop :=
      fun w hw => ⟨t, ht, hts, htl, hw⟩
    rw [pastLoop_of_eq hts]
    calc t.label.language * pastLoop a b loop t.target
        ≤ besideLoop a b loop := hle.trans hbeside
      _ = 1 * besideLoop a b loop := (one_mul _).symm
      _ ≤ loop.label.language∗ * besideLoop a b loop := mul_le_mul_left one_le_kstar _
  · rw [pastLoop_of_ne hts]
    exact hle.trans (h.rewired.stay_mul_languageFrom_le ht hts)

/-- The arcs of a folded self-loop can read nothing new. -/
theorem foldArcs_mul_le (ha : a.Valid) {loop : Transition} (hloop : loop ∈ a.transitions)
    (htarget : loop.target = loop.source) {x : StateId × StateId × Expr}
    (hx : x ∈ foldArcs a loop) : x.2.2.language * a.languageFrom x.2.1 ≤ a.languageFrom x.1 := by
  obtain ⟨u, hu, hus, -, rfl⟩ := (mem_foldArcs ha hloop).1 hx
  have hround := label_mul_languageFrom_le hloop
  rw [htarget] at hround
  rw [language_foldLabel, mul_assoc]
  exact kstar_mul_le (hus ▸ label_mul_languageFrom_le hu) hround

theorem keeps_of_folded (ha : a.Valid) {loop : Transition} (hloop : loop ∈ a.transitions)
    (htarget : loop.target = loop.source) (hacc : ¬ a.accepting loop.source = true)
    (h : Reduced a (fun t => t.source = loop.source) (foldArcs a loop) ∅ b) : Keeps a b := by
  refine h.keeps (N := pastLoop a b loop) (fun x hx => foldArcs_mul_le ha hloop htarget hx)
    (pastLoop_le ha hloop h a.start) (fun q hq => ?_)
    (fun t ht => label_mul_pastLoop_le ha hloop htarget h ht) fun hw x hx => ?_
  · have hqs : q ≠ loop.source := fun heq => hacc (heq ▸ hq)
    rw [pastLoop_of_ne hqs]
    exact one_le_languageFrom ((h.accepting_iff q).2 ⟨hq, Set.notMem_empty q⟩)
  · obtain ⟨u, hu, -, -, rfl⟩ := (mem_foldArcs ha hloop).1 hx
    obtain ⟨w, hw⟩ := hw u hu
    refine ⟨[] ++ w, ?_⟩
    rw [language_foldLabel]
    exact Language.append_mem_mul (Language.nil_mem_kstar _) hw

def folding (a : Automaton) (loop : Transition) : Plan :=
  let fresh := a.freshTransitions (foldArcs a loop)
  ⟨.batch (.foldLoop loop.id) (.removeTransition loop ::
    ((otherOut a loop).zip fresh).flatMap fun p => [.removeTransition p.1, .addTransition p.2]),
    a.reserve 0 fresh.length⟩

theorem foldLoop_eq (ha : a.Valid) {loop : Transition} (hloop : loop ∈ a.transitions)
    (htarget : loop.target = loop.source)
    (honly : singleLoop? a loop.source = .ok (some loop.id)) :
    foldLoop loop.id a = .ok (folding a loop) := by
  have hisLoop : loop.isLoop = true := beq_iff_eq.2 htarget.symm
  rw [foldLoop, ha.transition_eq hloop]
  show (if loop.isLoop then _ else _) = _
  rw [if_pos hisLoop, honly]
  rfl

/-- A self-loop that has no other beside it. -/
theorem between_self_eq (ha : a.Valid) {loop : Transition} (hloop : loop ∈ a.transitions)
    (htarget : loop.target = loop.source)
    (hlen : (between a loop.source loop.source).length ≤ 1) :
    between a loop.source loop.source = [loop] := by
  have hmem := (mem_between ha).2 ⟨hloop, rfl, htarget⟩
  obtain ⟨u, hu⟩ := List.length_eq_one_iff.1 (hlen.antisymm (List.length_pos_of_mem hmem))
  rw [hu] at hmem ⊢
  rw [List.mem_singleton.1 hmem]

theorem length_between_self_le_one_iff (ha : a.Valid) {loop : Transition}
    (hloop : loop ∈ a.transitions) (htarget : loop.target = loop.source) :
    (between a loop.source loop.source).length ≤ 1 ↔
      ∀ u ∈ a.transitions, u.source = loop.source → u.target = loop.source → u = loop := by
  constructor
  · intro hlen u hu hus hut
    have humem := (mem_between ha).2 ⟨hu, hus, hut⟩
    rw [between_self_eq ha hloop htarget hlen] at humem
    exact List.mem_singleton.1 humem
  · intro honly
    have hsub : between a loop.source loop.source ⊆ [loop] := by
      intro u hu
      obtain ⟨hu, hus, hut⟩ := (mem_between ha).1 hu
      exact List.mem_singleton.2 (honly u hu hus hut)
    exact ((nodup_between ha).subperm hsub).length_le

/-- A self-loop is folded just when it is the only one of its state. -/
theorem foldLoop_eq_ok_iff (ha : a.Valid) {t : TransitionId} {p : Plan} :
    foldLoop t a = .ok p ↔ ∃ loop ∈ a.transitions, loop.id = t ∧ loop.target = loop.source ∧
      (∀ u ∈ a.transitions, u.source = loop.source → u.target = loop.source → u = loop) ∧
        p = folding a loop := by
  constructor
  · intro h
    obtain ⟨loop, hfound, h⟩ := bind_eq_ok_iff.1 h
    obtain ⟨hloop, rfl⟩ := mem_transitions_of_transition_eq hfound
    split at h
    · next hisLoop =>
        obtain ⟨o, hsingle, h⟩ := bind_eq_ok_iff.1 h
        have htarget := (beq_iff_eq.1 hisLoop).symm
        exact ⟨loop, hloop, rfl, htarget, (length_between_self_le_one_iff ha hloop htarget).1
          (length_between_of_singleLoop? ha hsingle), (Except.ok.inj h).symm⟩
    · nomatch h
  · rintro ⟨loop, hloop, rfl, htarget, honly, rfl⟩
    have hlen := (length_between_self_le_one_iff ha hloop htarget).2 honly
    refine foldLoop_eq ha hloop htarget ((singleLoop?_eq ha (ha.source_mem hloop) hlen).trans ?_)
    rw [between_self_eq ha hloop htarget hlen]
    rfl

/-- Each of the other transitions is replaced by one that comes along. -/
theorem mem_zip_otherOut (ha : a.Valid) {loop : Transition} (hloop : loop ∈ a.transitions)
    {x : Transition × Transition}
    (hx : x ∈ (otherOut a loop).zip (a.freshTransitions (foldArcs a loop))) :
    (x.1 ∈ a.transitions ∧ x.1.source = loop.source ∧ x.1 ≠ loop) ∧
      x.2 ∈ a.freshTransitions (foldArcs a loop) :=
  have hmem := List.of_mem_zip hx
  ⟨(mem_otherOut ha hloop).1 hmem.1, hmem.2⟩

theorem map_fst_zip_otherOut (a : Automaton) (loop : Transition) :
    ((otherOut a loop).zip (a.freshTransitions (foldArcs a loop))).map Prod.fst =
      otherOut a loop :=
  List.map_fst_zip (length_freshTransitions_foldArcs a loop).ge

theorem map_snd_zip_otherOut (a : Automaton) (loop : Transition) :
    ((otherOut a loop).zip (a.freshTransitions (foldArcs a loop))).map Prod.snd =
      a.freshTransitions (foldArcs a loop) :=
  List.map_snd_zip (length_freshTransitions_foldArcs a loop).le

theorem fits_folding (ha : a.Valid) {loop : Transition} (hloop : loop ∈ a.transitions) :
    (folding a loop).edit.Fits (folding a loop).graph.outline := by
  refine ⟨hloop, Edit.fitsAll_swap ?_ ?_ (fun p hp => ?_) fun p hp => ?_⟩
  · rw [map_fst_zip_otherOut]
    exact nodup_otherOut ha loop
  · rw [map_snd_zip_otherOut]
    exact nodup_freshTransitions _
  · obtain ⟨⟨ht, -, hne⟩, -⟩ := mem_zip_otherOut ha hloop hp
    exact ⟨ht, hne⟩
  · refine ha.fits_freshTransition rfl (add_length_freshTransitions _) (fun t ht => ?_)
      (fun x hx => ?_) (mem_zip_otherOut ha hloop hp).2
    · exact ht.1
    · obtain ⟨u, hu, -, -, rfl⟩ := (mem_foldArcs ha hloop).1 hx
      exact ⟨ha.source_mem hloop, ha.target_mem u hu⟩

theorem exists_folded (ha : a.Valid) {loop : Transition} (hloop : loop ∈ a.transitions) :
    ∃ b, (folding a loop).Performs a b ∧
      Reduced a (fun t => t.source = loop.source) (foldArcs a loop) ∅ b := by
  obtain ⟨b, hperforms, hb, hbo⟩ := ha.exists_performs rfl (fits_folding ha hloop)
  have hbo : b.outline = Edit.effectAll (_ :: _) _ := hbo
  have hswap : ∀ p ∈ (otherOut a loop).zip (a.freshTransitions (foldArcs a loop)),
      ∀ q ∈ (otherOut a loop).zip (a.freshTransitions (foldArcs a loop)), p.2 ≠ q.1 := by
    intro p hp q hq heq
    refine ha.notMem_of_mem_freshTransitions (mem_zip_otherOut ha hloop hp).2 ?_
    exact heq ▸ (mem_zip_otherOut ha hloop hq).1.1
  rw [Edit.effectAll_cons, Edit.effectAll_swap hswap, map_fst_zip_otherOut,
    map_snd_zip_otherOut] at hbo
  refine ⟨b, hperforms, reduced_of_rewired hb ⟨start_of_outline hbo, fun t => ?_⟩
    (fun _ => mem_stateIds_of_outline hbo) fun _ => accepting_of_outline hbo⟩
  rw [mem_transitions_of_outline hbo]
  show ((t ∈ a.transitions ∧ ¬ t = loop) ∧ t ∉ otherOut a loop) ∨ t ∈ a.freshTransitions _ ↔ _
  refine or_congr_left ?_
  rw [mem_otherOut ha hloop]
  constructor
  · rintro ⟨⟨ht, hne⟩, hno⟩
    exact ⟨ht, fun hts => hno ⟨ht, hts, hne⟩⟩
  · rintro ⟨ht, hts⟩
    exact ⟨⟨ht, fun h => hts (h ▸ rfl)⟩, fun h => hts h.2.1⟩

/-- The only self-loop of a state that is not accepting can be folded. -/
theorem exists_foldLoop (ha : a.Valid) {loop : Transition} (hloop : loop ∈ a.transitions)
    (htarget : loop.target = loop.source) (honly : singleLoop? a loop.source = .ok (some loop.id))
    (hacc : ¬ a.accepting loop.source = true) :
    ∃ p b, foldLoop loop.id a = .ok p ∧ p.Performs a b ∧
      Reduced a (fun t => t.source = loop.source) (foldArcs a loop) ∅ b ∧ Keeps a b := by
  obtain ⟨b, hperforms, hreduced⟩ := exists_folded ha hloop
  exact ⟨_, b, foldLoop_eq ha hloop htarget honly, hperforms, hreduced,
    keeps_of_folded ha hloop htarget hacc hreduced⟩

/-! ## Bypassing a state -/

def bypassArcs (a : Automaton) (s : StateId) : List (StateId × StateId × Expr) :=
  (a.into s).flatMap fun t => (a.out s).map fun u =>
    (t.source, u.target, lighten (.join .sequence [t.label, u.label]))

theorem mem_bypassArcs (ha : a.Valid) {x : StateId × StateId × Expr} :
    x ∈ bypassArcs a s ↔ ∃ t ∈ a.transitions, ∃ u ∈ a.transitions, t.target = s ∧ u.source = s ∧
      x = (t.source, u.target, lighten (.join .sequence [t.label, u.label])) := by
  simp only [bypassArcs, List.mem_flatMap, List.mem_map, mem_into, ha.mem_out]
  constructor
  · rintro ⟨t, ⟨ht, hts⟩, u, ⟨hu, hus⟩, rfl⟩
    exact ⟨t, ht, u, hu, hts, hus, rfl⟩
  · rintro ⟨t, ht, u, hu, hts, hus, rfl⟩
    exact ⟨t, ⟨ht, hts⟩, u, ⟨hu, hus⟩, rfl⟩

theorem language_bypassLabel (d e : Expr) :
    (lighten (.join .sequence [d, e])).language = d.language * e.language := by
  rw [language_lighten, Expr.language_join_sequence, Expr.product_cons, Expr.product_cons,
    Expr.product_nil, mul_one]

def Loopless (a : Automaton) (s : StateId) : Prop :=
  ∀ t ∈ a.transitions, t.source = s → t.target ≠ s

def afterState (a b : Automaton) (s : StateId) : Language Char :=
  {w | ∃ u ∈ a.transitions, u.source = s ∧ w ∈ u.label.language * b.languageFrom u.target}

def pastState (a b : Automaton) (s r : StateId) : Language Char :=
  if r = s then afterState a b s else b.languageFrom r

theorem label_mul_pastState_le (ha : a.Valid) (hloopless : Loopless a s)
    (h : Reduced a (fun t => t.source = s ∨ t.target = s) (bypassArcs a s) {s} b)
    {t : Transition} (ht : t ∈ a.transitions) :
    t.label.language * pastState a b s t.target ≤ pastState a b s t.source := by
  rw [pastState, pastState]
  by_cases hts : t.source = s
  · rw [if_neg (hloopless t ht hts), if_pos hts]
    intro w hw
    exact ⟨t, ht, hts, hw⟩
  rw [if_neg hts]
  by_cases htt : t.target = s
  · rw [if_pos htt]
    intro w hw
    obtain ⟨v, hv, v', ⟨u, hu, hus, hv'⟩, rfl⟩ := Language.mem_mul.1 hw
    have harc := h.rewired.arc_mul_languageFrom_le
      ((mem_bypassArcs ha).2 ⟨t, ht, u, hu, htt, hus, rfl⟩)
    rw [language_bypassLabel, mul_assoc] at harc
    exact harc (Language.append_mem_mul hv hv')
  · rw [if_neg htt]
    exact h.rewired.stay_mul_languageFrom_le ht (not_or.2 ⟨hts, htt⟩)

/-- The arcs past a state can read nothing that cannot be read through it. -/
theorem bypassArcs_mul_le (ha : a.Valid) {M : StateId → Language Char}
    (hstep : ∀ t ∈ a.transitions, t.label.language * M t.target ≤ M t.source)
    {x : StateId × StateId × Expr} (hx : x ∈ bypassArcs a s) :
    x.2.2.language * M x.2.1 ≤ M x.1 := by
  obtain ⟨t, ht, u, hu, hts, hus, rfl⟩ := (mem_bypassArcs ha).1 hx
  rw [language_bypassLabel, mul_assoc]
  calc t.label.language * (u.label.language * M u.target)
      ≤ t.label.language * M u.source := mul_le_mul_right (hstep u hu) _
    _ = t.label.language * M t.target := by rw [hus, hts]
    _ ≤ M t.source := hstep t ht

theorem keeps_of_bypassed (ha : a.Valid) (hstart : s ≠ a.start) (hloopless : Loopless a s)
    (hacc : ¬ a.accepting s = true)
    (h : Reduced a (fun t => t.source = s ∨ t.target = s) (bypassArcs a s) {s} b) :
    Keeps a b := by
  refine h.keeps (N := pastState a b s)
    (fun x hx => bypassArcs_mul_le ha (fun _ => label_mul_languageFrom_le) hx)
    (if_neg hstart.symm).le (fun q hq => ?_) (fun t ht => label_mul_pastState_le ha hloopless h ht)
    fun hw x hx => ?_
  · have hqs : q ≠ s := fun heq => hacc (heq ▸ hq)
    rw [pastState, if_neg hqs]
    exact one_le_languageFrom ((h.accepting_iff q).2 ⟨hq, hqs⟩)
  · obtain ⟨t, ht, u, hu, -, -, rfl⟩ := (mem_bypassArcs ha).1 hx
    obtain ⟨v, hv⟩ := hw t ht
    obtain ⟨v', hv'⟩ := hw u hu
    refine ⟨v ++ v', ?_⟩
    rw [language_bypassLabel]
    exact Language.append_mem_mul hv hv'

def bypassing (a : Automaton) (s : StateId) : Plan :=
  let fresh := a.freshTransitions (bypassArcs a s)
  ⟨.batch (.bypass s) (fresh.map .addTransition ++ (a.into s).map .removeTransition ++
    (a.out s).map .removeTransition ++ [.removeState s]), a.reserve 0 fresh.length⟩

theorem bypass_eq (ha : a.Valid) (hs : s ∈ a.stateIds) (hstart : s ≠ a.start)
    (hloopless : Loopless a s) : bypass s a = .ok (bypassing a s) := by
  have hnoStart : ¬ a.isStart s = true := fun h => hstart (beq_iff_eq.1 h)
  have hnoLoop : ¬ (a.out s).any Transition.isLoop = true := by
    intro hany
    obtain ⟨t, ht, hloop⟩ := List.any_eq_true.1 hany
    obtain ⟨ht, hts⟩ := ha.mem_out.1 ht
    exact hloopless t ht hts ((beq_iff_eq.1 hloop).symm.trans hts)
  rw [bypass, if_neg hnoStart, ha.outgoing_eq hs]
  show (if (a.out s).any Transition.isLoop then _ else _) = _
  rw [if_neg hnoLoop, ha.incoming_eq hs]
  rfl

/-- A state is bypassed just when it is in the graph, is not the start state and has no
self-loop. -/
theorem bypass_eq_ok_iff (ha : a.Valid) {p : Plan} :
    bypass s a = .ok p ↔
      s ∈ a.stateIds ∧ s ≠ a.start ∧ Loopless a s ∧ p = bypassing a s := by
  constructor
  · intro h
    unfold bypass at h
    split at h
    · nomatch h
    next hstart =>
    obtain ⟨out, hout, h⟩ := bind_eq_ok_iff.1 h
    have hs := mem_stateIds_of_outgoing_eq hout
    obtain rfl := Except.ok.inj ((ha.outgoing_eq hs).symm.trans hout)
    split at h
    · nomatch h
    next hany =>
    have hne : s ≠ a.start := fun heq => hstart (beq_iff_eq.2 heq)
    have hloopless : Loopless a s := by
      intro t ht hts htt
      refine hany (List.any_eq_true.2 ⟨t, ha.mem_out.2 ⟨ht, hts⟩, ?_⟩)
      exact beq_iff_eq.2 (hts.trans htt.symm)
    rw [ha.incoming_eq hs] at h
    exact ⟨hs, hne, hloopless, (Except.ok.inj h).symm⟩
  · rintro ⟨hs, hstart, hloopless, rfl⟩
    exact bypass_eq ha hs hstart hloopless

/-- The arcs past a state do not touch it. -/
theorem ends_of_mem_bypassArcs (ha : a.Valid) (hloopless : Loopless a s)
    {x : StateId × StateId × Expr} (hx : x ∈ bypassArcs a s) :
    (x.1 ≠ s ∧ x.2.1 ≠ s) ∧ x.1 ∈ a.stateIds ∧ x.2.1 ∈ a.stateIds := by
  obtain ⟨t, ht, u, hu, hts, hus, rfl⟩ := (mem_bypassArcs ha).1 hx
  exact ⟨⟨fun h => hloopless t ht h hts, hloopless u hu hus⟩, ha.source_mem ht,
    ha.target_mem u hu⟩

theorem away_of_mem_freshTransitions (ha : a.Valid) (hloopless : Loopless a s) {t : Transition}
    (ht : t ∈ a.freshTransitions (bypassArcs a s)) : t.source ≠ s ∧ t.target ≠ s :=
  (ends_of_mem_bypassArcs ha hloopless (arc_mem_of_mem_freshTransitions ht)).1

/-- When the arcs past a state have come along, everything that touches it can go, and then
the state itself. -/
theorem fits_bypassing (ha : a.Valid) (hs : s ∈ a.stateIds) (hstart : s ≠ a.start)
    (hloopless : Loopless a s) :
    (bypassing a s).edit.Fits (bypassing a s).graph.outline := by
  show Edit.FitsAll (((_ ++ _) ++ _) ++ [_]) _
  simp only [Edit.fitsAll_append, Edit.effectAll_append, Edit.effectAll_addTransition,
    Edit.effectAll_removeTransition]
  refine ⟨⟨⟨?_, ?_⟩, ?_⟩, ⟨hs, hstart, ?_⟩, trivial⟩
  · exact ha.fitsAll_freshTransitions rfl (add_length_freshTransitions _) (fun t ht => ht)
      fun x hx => (ends_of_mem_bypassArcs ha hloopless hx).2
  · exact Edit.fitsAll_removeTransition (ha.nodup_transitions.filter _)
      fun t ht => .inl (mem_into.1 ht).1
  · refine Edit.fitsAll_removeTransition (ha.nodup_out s) fun t ht => ?_
    obtain ⟨ht, hts⟩ := ha.mem_out.1 ht
    exact ⟨.inl ht, fun hin => hloopless t ht hts (mem_into.1 hin).2⟩
  · rintro t ⟨⟨ht | ht, hin⟩, -⟩ hts
    · exact absurd (mem_into.2 ⟨ht, hts⟩) hin
    · exact absurd hts (away_of_mem_freshTransitions ha hloopless ht).2

theorem exists_bypassed (ha : a.Valid) (hs : s ∈ a.stateIds) (hstart : s ≠ a.start)
    (hloopless : Loopless a s) :
    ∃ b, (bypassing a s).Performs a b ∧
      Reduced a (fun t => t.source = s ∨ t.target = s) (bypassArcs a s) {s} b := by
  have hfits := fits_bypassing ha hs hstart hloopless
  obtain ⟨b, hperforms, hb, hbo⟩ := ha.exists_performs rfl hfits
  have hbo : b.outline = Edit.effectAll (((_ ++ _) ++ _) ++ [_]) _ := hbo
  simp only [Edit.effectAll_append, Edit.effectAll_addTransition,
    Edit.effectAll_removeTransition] at hbo
  refine ⟨b, hperforms, hb, ⟨start_of_outline hbo, fun t => ?_⟩,
    fun q => mem_stateIds_of_outline hbo, fun q => accepting_of_outline hbo⟩
  rw [mem_transitions_of_outline hbo]
  show (((t ∈ a.transitions ∨ t ∈ a.freshTransitions _) ∧ t ∉ a.into s) ∧ t ∉ a.out s) ∧
    ¬ t.source = s ↔ _
  rw [mem_into, ha.mem_out]
  constructor
  · rintro ⟨⟨⟨ht | ht, hin⟩, -⟩, hts⟩
    · exact .inl ⟨ht, not_or.2 ⟨hts, fun htt => hin ⟨ht, htt⟩⟩⟩
    · exact .inr ht
  · rintro (⟨ht, hno⟩ | ht)
    · obtain ⟨hts, htt⟩ := not_or.1 hno
      exact ⟨⟨⟨.inl ht, fun h => htt h.2⟩, fun h => hts h.2⟩, hts⟩
    · obtain ⟨hts, htt⟩ := away_of_mem_freshTransitions ha hloopless ht
      exact ⟨⟨⟨.inr ht, fun h => htt h.2⟩, fun h => hts h.2⟩, hts⟩

/-- A state without a self-loop that is neither the start state nor accepting can be
bypassed. -/
theorem exists_bypass (ha : a.Valid) (hs : s ∈ a.stateIds) (hstart : s ≠ a.start)
    (hloopless : Loopless a s) (hacc : ¬ a.accepting s = true) :
    ∃ p b, bypass s a = .ok p ∧ p.Performs a b ∧
      Reduced a (fun t => t.source = s ∨ t.target = s) (bypassArcs a s) {s} b ∧ Keeps a b := by
  obtain ⟨b, hperforms, hreduced⟩ := exists_bypassed ha hs hstart hloopless
  exact ⟨_, b, bypass_eq ha hs hstart hloopless, hperforms, hreduced,
    keeps_of_bypassed ha hstart hloopless hacc hreduced⟩

end Elimination

end RegularForms
