import RegularForms.Determinization.Complete
import RegularForms.Proofs.Automaton.Query
import RegularForms.Proofs.Determinization.Offer

/-!
# Removing the empty word

Removing the `ε` transitions of a state gives it the arcs that it offers, and makes it
accepting if it ends. What the states of the graph offer, and which of them end, is not
touched by this, although the closures get smaller. So the states may be treated in any
order, and when all have been treated each has just the arcs that it offered to begin
with.
-/

namespace RegularForms

namespace Determinization

open Automaton Rewriting

variable {a b c : Automaton} {s r : StateId} {e : Expr}

/-- The `ε` transitions of a state have been removed. -/
structure Flattened (a : Automaton) (s : StateId) (b : Automaton) : Prop where
  valid : b.Valid
  start_eq : b.start = a.start
  mem_stateIds : ∀ q, q ∈ b.stateIds ↔ q ∈ a.stateIds
  hasArc_self : ∀ e r, b.HasArc s e r ↔ a.Offers s e r
  hasArc_of_ne : ∀ q e r, q ≠ s → (b.HasArc q e r ↔ a.HasArc q e r)
  accepting_self : b.accepting s = true ↔ a.Ends s
  accepting_of_ne : ∀ q, q ≠ s → (b.accepting q = true ↔ a.accepting q = true)

/-- The state has no `ε` transition left, and other states have theirs. -/
theorem Flattened.stepsTo_iff (h : Flattened a s b) (p q : StateId) :
    b.StepsTo Transition.isEpsilon p q ↔ p ≠ s ∧ a.StepsTo Transition.isEpsilon p q := by
  rw [stepsTo_isEpsilon_iff, stepsTo_isEpsilon_iff]
  constructor
  · rintro ⟨e, heps, harc⟩
    by_cases hps : p = s
    · subst hps
      obtain ⟨-, -, hno, -⟩ := (h.hasArc_self e q).1 harc
      rw [heps] at hno
      nomatch hno
    · exact ⟨hps, e, heps, (h.hasArc_of_ne p e q hps).1 harc⟩
  · rintro ⟨hps, e, heps, harc⟩
    exact ⟨e, heps, (h.hasArc_of_ne p e q hps).2 harc⟩

theorem Flattened.offers_iff (h : Flattened a s b) (q : StateId) (e : Expr) (r : StateId) :
    b.Offers q e r ↔ a.Offers q e r := by
  refine closes_iff_of_flattened h.stepsTo_iff ?_ (fun p hps => ?_) q
  · rw [h.hasArc_self]
    refine and_iff_right_of_imp ?_
    rintro ⟨-, -, hno, -⟩
    exact hno
  · rw [h.hasArc_of_ne p e r hps]

theorem Flattened.ends_iff (h : Flattened a s b) (q : StateId) : b.Ends q ↔ a.Ends q :=
  closes_iff_of_flattened h.stepsTo_iff h.accepting_self h.accepting_of_ne q

/-! ## The plan -/

def copiedArcs (a : Automaton) (s : StateId) : List (StateId × StateId × Expr) :=
  (epsilonFree a s (a.closure [s])).map fun t => (s, t.target, t.label)

theorem mem_offered (ha : a.Valid) {t : Transition} :
    t ∈ (a.closure [s]).flatMap (fun r => (a.out r).filter fun t => !t.isEpsilon) ↔
      t ∈ a.transitions ∧ t.isEpsilon = false ∧ a.LeadsTo Transition.isEpsilon s t.source := by
  rw [List.mem_flatMap]
  constructor
  · rintro ⟨r, hr, ht⟩
    obtain ⟨ht, hno⟩ := List.mem_filter.1 ht
    obtain ⟨htmem, rfl⟩ := ha.mem_out.1 ht
    obtain ⟨q, hq, hlead⟩ := ha.mem_closure.1 hr
    exact ⟨htmem, Bool.not_eq_true' _ ▸ hno, List.mem_singleton.1 hq ▸ hlead⟩
  · rintro ⟨ht, hno, hlead⟩
    refine ⟨t.source, ha.mem_closure.2 ⟨s, List.mem_singleton.2 rfl, hlead⟩, ?_⟩
    exact List.mem_filter.2 ⟨ha.mem_out.2 ⟨ht, rfl⟩, by rw [hno]; rfl⟩

theorem offers_of_mem_copiedArcs (ha : a.Valid) {x : StateId × StateId × Expr}
    (hx : x ∈ copiedArcs a s) : x.1 = s ∧ a.Offers s x.2.2 x.2.1 := by
  obtain ⟨t, ht, rfl⟩ := List.mem_map.1 hx
  have ht := Transition.mem_of_mem_onePerArc (List.mem_of_mem_filter ht)
  obtain ⟨ht, hno, hlead⟩ := (mem_offered ha).1 ht
  exact ⟨rfl, t.source, hlead, hno, hasArc_of_mem ht⟩

/-- A state has what it offers already, or gets it. -/
theorem cases_of_offers (ha : a.Valid) (h : a.Offers s e r) :
    (∃ t ∈ a.transitions, t.isEpsilon = false ∧ t.source = s ∧ t.label = e ∧ t.target = r) ∨
      (s, r, e) ∈ copiedArcs a s := by
  obtain ⟨p, hlead, hno, t, ht, rfl, rfl, rfl⟩ := h
  obtain ⟨u, hu, htarget, hlabel⟩ := Transition.exists_onePerArc_orderByTarget
    (fun t => t.source == s) ((mem_offered ha).2 ⟨ht, hno, hlead⟩)
  rw [← htarget, ← hlabel]
  by_cases hus : u.source = s
  · obtain ⟨hu, huno, -⟩ := (mem_offered ha).1 (Transition.mem_of_mem_onePerArc hu)
    exact .inl ⟨u, hu, huno, hus, rfl, rfl⟩
  · refine .inr (List.mem_map.2 ⟨u, List.mem_filter.2 ⟨hu, ?_⟩, rfl⟩)
    exact decide_eq_true hus

def removal (a : Automaton) (s : StateId) : Plan :=
  let accept :=
    if !a.accepting s && (a.closure [s]).any a.accepting then [Edit.setAccepting s true] else []
  let fresh := a.freshTransitions (copiedArcs a s)
  ⟨.batch (.removeEpsilon s)
      (accept ++ ((a.out s).filter Transition.isEpsilon).map .removeTransition ++
        fresh.map .addTransition),
    a.reserve 0 fresh.length⟩

theorem removeEpsilon_eq (ha : a.Valid) (hs : s ∈ a.stateIds) :
    removeEpsilon s a = .ok (removal a s) := by
  rw [removeEpsilon, ha.epsilonClosure_eq hs]
  rfl

/-- A state has got the arcs of its closure for its `ε` transitions. -/
structure Copied (a : Automaton) (s : StateId) (b : Automaton) : Prop where
  valid : b.Valid
  rewired : a.Rewired b (fun t => t.source = s ∧ t.isEpsilon = true) (copiedArcs a s)
  mem_stateIds : ∀ q, q ∈ b.stateIds ↔ q ∈ a.stateIds
  accepting_iff : ∀ q, b.accepting q = true ↔ a.accepting q = true ∨ q = s ∧ a.Ends s

theorem any_closure_iff (ha : a.Valid) : (a.closure [s]).any a.accepting = true ↔ a.Ends s := by
  rw [List.any_eq_true]
  refine exists_congr fun p => and_congr_left fun _ => ?_
  simp [ha.mem_closure]

theorem exists_copied (ha : a.Valid) (hs : s ∈ a.stateIds) :
    ∃ b, (removal a s).Performs a b ∧ Copied a s b := by
  have hdropped : ∀ t, t ∈ (a.out s).filter Transition.isEpsilon ↔
      t ∈ a.transitions ∧ t.source = s ∧ t.isEpsilon = true := by
    intro t
    rw [List.mem_filter, ha.mem_out, and_assoc]
  have hfits : (removal a s).edit.Fits (removal a s).graph.outline := by
    show Edit.FitsAll ((_ ++ _) ++ _) _
    simp only [Edit.fitsAll_append, Edit.effectAll_append, Edit.effectAll_accept,
      Edit.effectAll_removeTransition]
    refine ⟨⟨Edit.fitsAll_accept hs, Edit.fitsAll_removeTransition ((ha.nodup_out s).filter _)
      fun t ht => ((hdropped t).1 ht).1⟩, ha.fitsAll_freshTransitions rfl
        (add_length_freshTransitions _) (fun t ht => ht.1) fun x hx => ?_⟩
    obtain ⟨hxs, p, -, -, harc⟩ := offers_of_mem_copiedArcs ha hx
    exact ⟨hxs ▸ hs, (ha.mem_of_hasArc harc).2⟩
  obtain ⟨b, hperforms, hb, hbo⟩ := ha.exists_performs rfl hfits
  have hbo : b.outline = Edit.effectAll ((_ ++ _) ++ _) _ := hbo
  simp only [Edit.effectAll_append, Edit.effectAll_accept, Edit.effectAll_removeTransition,
    Edit.effectAll_addTransition] at hbo
  refine ⟨b, hperforms, hb, .of_outline hbo rfl (fun _ => Iff.rfl) hdropped,
    fun q => mem_stateIds_of_outline hbo, fun q => ?_⟩
  rw [accepting_of_outline hbo]
  show a.accepting q = true ∨
    q = s ∧ (!a.accepting s && (a.closure [s]).any a.accepting) = true ↔ _
  rw [Bool.and_eq_true, any_closure_iff ha, Bool.not_eq_true']
  constructor
  · exact fun h => h.imp_right fun h => ⟨h.1, h.2.2⟩
  · rintro (h | ⟨rfl, h⟩)
    · exact .inl h
    · by_cases hacc : a.accepting q = true
      · exact .inl hacc
      · exact .inr ⟨rfl, Bool.eq_false_iff.2 hacc, h⟩

theorem Copied.flattened (h : Copied a s b) (ha : a.Valid) : Flattened a s b where
  valid := h.valid
  start_eq := h.rewired.start_eq
  mem_stateIds := h.mem_stateIds
  hasArc_self e r := by
    rw [h.rewired.hasArc_iff]
    constructor
    · rintro (⟨t, ht, hstay, rfl, rfl, rfl⟩ | harc)
      · exact closes_self ⟨Bool.eq_false_iff.2 fun h => hstay ⟨rfl, h⟩, hasArc_of_mem ht⟩
      · exact (offers_of_mem_copiedArcs ha harc).2
    · intro hoffers
      refine (cases_of_offers ha hoffers).imp_left ?_
      rintro ⟨t, ht, hno, hts, hlabel, htarget⟩
      refine ⟨t, ht, fun heps => ?_, hts, hlabel, htarget⟩
      rw [hno] at heps
      nomatch heps.2
  hasArc_of_ne q e r hqs := by
    rw [h.rewired.hasArc_iff]
    constructor
    · rintro (⟨t, ht, -, rfl, rfl, rfl⟩ | harc)
      · exact hasArc_of_mem ht
      · exact absurd (offers_of_mem_copiedArcs ha harc).1 hqs
    · rintro ⟨t, ht, rfl, rfl, rfl⟩
      exact .inl ⟨t, ht, fun h => hqs h.1, rfl, rfl, rfl⟩
  accepting_self := by
    rw [h.accepting_iff]
    exact ⟨fun h => h.elim ends_self And.right, fun h => .inr ⟨rfl, h⟩⟩
  accepting_of_ne q hqs := by
    rw [h.accepting_iff]
    exact or_iff_left fun h => hqs h.1

theorem exists_removeEpsilon (ha : a.Valid) (hs : s ∈ a.stateIds) :
    ∃ p b, removeEpsilon s a = .ok p ∧ p.Performs a b ∧ Flattened a s b := by
  obtain ⟨b, hperforms, hb⟩ := exists_copied ha hs
  exact ⟨_, b, removeEpsilon_eq ha hs, hperforms, hb.flattened ha⟩

/-! ## All states -/

/-- The `ε` transitions of all states but some have been removed. -/
structure Freed (a : Automaton) (left : List StateId) (b : Automaton) : Prop where
  valid : b.Valid
  start_eq : b.start = a.start
  mem_stateIds : ∀ q, q ∈ b.stateIds ↔ q ∈ a.stateIds
  offers_iff : ∀ q e r, b.Offers q e r ↔ a.Offers q e r
  ends_iff : ∀ q, b.Ends q ↔ a.Ends q
  source_mem : ∀ t ∈ b.transitions, t.isEpsilon = true → t.source ∈ left

variable {left : List StateId}

theorem Freed.languageFrom_eq (h : Freed a left b) (q : StateId) :
    b.languageFrom q = a.languageFrom q :=
  languageFrom_congr h.offers_iff h.ends_iff q

theorem Freed.language_eq (h : Freed a left b) : b.language = a.language := by
  rw [language, h.languageFrom_eq, h.start_eq, language]

/-- Where all `ε` transitions have been removed, the arcs are those that were offered. -/
theorem Freed.hasArc_iff (h : Freed a [] b) : b.HasArc s e r ↔ a.Offers s e r := by
  rw [← h.offers_iff, offers_iff_of_no_epsilon fun t ht _ => ?_]
  exact Bool.eq_false_iff.2 fun heps => nomatch h.source_mem t ht heps

theorem Freed.accepting_iff (h : Freed a [] b) : b.accepting s = true ↔ a.Ends s := by
  rw [← h.ends_iff, ends_iff_of_no_epsilon fun t ht _ => ?_]
  exact Bool.eq_false_iff.2 fun heps => nomatch h.source_mem t ht heps

theorem Freed.flatten (h : Freed a (s :: left) b) (hc : Flattened b s c) : Freed a left c where
  valid := hc.valid
  start_eq := hc.start_eq.trans h.start_eq
  mem_stateIds q := (hc.mem_stateIds q).trans (h.mem_stateIds q)
  offers_iff q e r := (hc.offers_iff q e r).trans (h.offers_iff q e r)
  ends_iff q := (hc.ends_iff q).trans (h.ends_iff q)
  source_mem t ht heps := by
    obtain ⟨hts, hstep⟩ := (hc.stepsTo_iff t.source t.target).1 ⟨t, ht, heps, rfl, rfl⟩
    obtain ⟨u, hu, hueps, hus, -⟩ := hstep
    exact hus ▸ (List.mem_cons.1 (h.source_mem u hu hueps)).resolve_left (hus ▸ hts)

/-- Removing the `ε` transitions of all states leaves each with the arcs that it offered. -/
theorem achieves_removeAllEpsilon {l : Language Char} (ha : a.Valid) (hl : a.language = l) :
    Achieves (fun b => b.language = l) removeAllEpsilon a fun _ => Freed a [] := by
  have hfirst : Freed a a.stateIds a :=
    ⟨ha, rfl, fun _ => Iff.rfl, fun _ _ _ => Iff.rfl, fun _ => Iff.rfl,
      fun t ht _ => ha.source_mem ht⟩
  refine Achieves.graph ((achieves_forM (I := fun ss b => (∀ s ∈ ss, s ∈ a.stateIds) ∧
    Freed a ss b) ?_ ⟨fun s hs => hs, hfirst⟩).mono fun _ b hb => hb.2)
  rintro s ss b ⟨hmem, hb⟩
  obtain ⟨hs, hss⟩ := List.forall_mem_cons.1 hmem
  refine Achieves.graph ?_
  by_cases hany : (b.out s).any Transition.isEpsilon = true
  · rw [if_pos hany]
    obtain ⟨p, c, hplan, hperforms, hc⟩ := exists_removeEpsilon hb.valid ((hb.mem_stateIds s).2 hs)
    have hfreed := hb.flatten hc
    exact achieves_carryOut language_reserve_eq hplan hperforms (hfreed.language_eq.trans hl)
      ⟨hss, hfreed⟩
  · rw [if_neg hany]
    refine achieves_pure ⟨hss, { hb with source_mem := fun t ht heps => ?_ }⟩
    refine (List.mem_cons.1 (hb.source_mem t ht heps)).resolve_left fun hts => hany ?_
    exact List.any_eq_true.2 ⟨t, hb.valid.mem_out.2 ⟨ht, hts⟩, heps⟩

end Determinization

end RegularForms
