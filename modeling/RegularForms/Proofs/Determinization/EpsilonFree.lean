import RegularForms.Proofs.Automaton.Ledger
import RegularForms.Proofs.Determinization.Epsilon

/-!
# The graph without the empty word

Each treated state looks at its closure in a graph in which others have lost their `ε`
transitions already, so it finds fewer states there than it had to begin with. What these
can no longer be asked for they have had copied before, so nothing is missed, whatever the
order. A transition is copied only where there is none like it, and only once: in the end
the new transitions are those that were offered and not there, each once.
-/

namespace RegularForms

namespace Determinization

open Automaton Rewriting

variable {a b c : Automaton} {s : StateId} {order : List StateId}

/-! ## What is added -/

theorem nodup_copiedArcs (a : Automaton) (s : StateId) : (copiedArcs a s).Nodup := by
  refine List.pairwise_map.2 (List.Pairwise.imp ?_ (List.Pairwise.filter _
    (Transition.pairwise_onePerArc (fun t => t.source == s) _)))
  intro t u hne heq
  have hkey : Transition.orderByTarget t u = .eq :=
    Transition.orderByTarget_eq_iff.2 ⟨congrArg (fun x => x.2.1) heq, congrArg (fun x => x.2.2) heq⟩
  rw [hkey] at hne
  nomatch hne

/-- A state gets no transition that it has. -/
theorem not_hasArc_of_mem_copiedArcs (ha : a.Valid) {x : StateId × StateId × Expr}
    (hx : x ∈ copiedArcs a s) : ¬ a.HasArc x.1 x.2.2 x.2.1 := by
  obtain ⟨t, ht, rfl⟩ := List.mem_map.1 hx
  obtain ⟨ht, hts⟩ := List.mem_filter.1 ht
  obtain ⟨-, hno, -⟩ := (mem_offered ha).1 (Transition.mem_of_mem_onePerArc ht)
  rintro ⟨u, hu, hus, hlabel, htarget⟩
  -- such a transition would have been kept in the place of the other one
  have hkey : Transition.orderByTarget t u = .eq :=
    Transition.orderByTarget_eq_iff.2 ⟨htarget.symm, hlabel.symm⟩
  have hpreferred := Transition.preferred_of_mem_onePerArc ht hkey ((mem_offered ha).2
    ⟨hu, (congrArg Expr.isEpsilon hlabel).trans hno, hus ▸ .refl⟩) (beq_iff_eq.2 hus)
  exact of_decide_eq_true hts (beq_iff_eq.1 hpreferred)

/-- Only `ε` transitions have gone, and a transition that has come along is the only one
with its ends and its label. -/
structure Sparing (a b : Automaton) : Prop where
  kept : ∀ t ∈ a.transitions, t.isEpsilon = false → t ∈ b.transitions
  eq_of_arc_eq : ∀ t ∈ b.transitions, t ∉ a.transitions →
    ∀ u ∈ b.transitions, u.arc = t.arc → u = t

theorem Sparing.refl (a : Automaton) : Sparing a a :=
  ⟨fun _ ht _ => ht, fun _ ht hno => absurd ht hno⟩

theorem Sparing.trans (h : Sparing a b) (h' : Sparing b c) : Sparing a c where
  kept t ht hno := h'.kept t (h.kept t ht hno) hno
  eq_of_arc_eq t ht hta u hu heq := by
    by_cases htb : t ∈ b.transitions
    · by_cases hub : u ∈ b.transitions
      · exact h.eq_of_arc_eq t htb hta u hub heq
      · exact (h'.eq_of_arc_eq u hu hub t ht heq.symm).symm
    · exact h'.eq_of_arc_eq t ht htb u hu heq

theorem Copied.sparing (h : Copied a s b) (ha : a.Valid) : Sparing a b where
  kept t ht hno := (h.rewired.mem_transitions t).2 <| .inl ⟨ht, fun hgone => by
    rw [hno] at hgone
    nomatch hgone.2⟩
  eq_of_arc_eq t ht hta u hu heq := by
    have ht := ((h.rewired.mem_transitions t).1 ht).resolve_left fun h => hta h.1
    rcases (h.rewired.mem_transitions u).1 hu with ⟨hua, -⟩ | hu
    · refine absurd ?_ (not_hasArc_of_mem_copiedArcs ha (arc_mem_of_mem_freshTransitions ht))
      rw [← heq]
      exact hasArc_of_mem hua
    · refine List.inj_on_of_nodup_map ?_ hu ht heq
      rw [map_arc_freshTransitions]
      exact nodup_copiedArcs a s

/-! ## All states -/

def removeEpsilonOf (order : List StateId) : Rewriting Unit :=
  order.forM fun s => carryOut (removeEpsilon s)

/-- The states are treated in any order, and may be left out if they have no `ε`
transition. -/
theorem achieves_removeEpsilonOf {l : Language Char} (ha : a.Valid) (hl : a.language = l)
    (hmem : ∀ s ∈ order, s ∈ a.stateIds)
    (hall : ∀ t ∈ a.transitions, t.isEpsilon = true → t.source ∈ order) :
    Achieves (fun b => b.language = l) (removeEpsilonOf order) a
      fun _ b => Freed a [] b ∧ Sparing a b := by
  have hfirst : Freed a order a :=
    ⟨ha, rfl, fun _ => Iff.rfl, fun _ _ _ => Iff.rfl, fun _ => Iff.rfl, hall⟩
  refine (achieves_forM (I := fun ss b => (∀ s ∈ ss, s ∈ a.stateIds) ∧ Freed a ss b ∧
    Sparing a b) ?_ ⟨hmem, hfirst, .refl a⟩).mono fun _ b hb => hb.2
  rintro s ss b ⟨hmem, hb, hspare⟩
  obtain ⟨hs, hss⟩ := List.forall_mem_cons.1 hmem
  have hsb := (hb.mem_stateIds s).2 hs
  obtain ⟨c, hperforms, hc⟩ := exists_copied hb.valid hsb
  have hfreed := hb.flatten (hc.flattened hb.valid)
  exact achieves_carryOut language_reserve_eq (removeEpsilon_eq hb.valid hsb) hperforms
    (hfreed.language_eq.trans hl) ⟨hss, hfreed, hspare.trans (hc.sparing hb.valid)⟩

/-- The automaton without `ε` transitions whose states have what their closures had. -/
structure EpsilonFree (a b : Automaton) : Prop where
  valid : b.Valid
  start_eq : b.start = a.start
  mem_stateIds : ∀ s, s ∈ b.stateIds ↔ s ∈ a.stateIds
  accepting_iff : ∀ s, b.accepting s = true ↔ ∃ p ∈ a.closure [s], a.accepting p = true
  hasArc_iff : ∀ s e r, b.HasArc s e r ↔
    ∃ p ∈ a.closure [s], e.isEpsilon = false ∧ a.HasArc p e r
  no_epsilon : ∀ t ∈ b.transitions, t.isEpsilon = false
  sparing : Sparing a b

theorem exists_mem_closure_iff (ha : a.Valid) {F : StateId → Prop} :
    (∃ p ∈ a.closure [s], F p) ↔ a.Closes F s := by
  refine exists_congr fun p => and_congr_left fun _ => ?_
  simp [ha.mem_closure]

theorem Freed.epsilonFree (h : Freed a [] b) (ha : a.Valid) (hspare : Sparing a b) :
    EpsilonFree a b where
  valid := h.valid
  start_eq := h.start_eq
  mem_stateIds := h.mem_stateIds
  accepting_iff _ := h.accepting_iff.trans (exists_mem_closure_iff ha).symm
  hasArc_iff _ _ _ := h.hasArc_iff.trans (exists_mem_closure_iff ha).symm
  no_epsilon t ht := Bool.eq_false_iff.2 fun heps => nomatch h.source_mem t ht heps
  sparing := hspare

/-! ## Any two orders -/

/-- The transitions are those that were there and those that have come along. -/
theorem EpsilonFree.perm_transitions (h : EpsilonFree a b) (ha : a.Valid) :
    b.transitions.Perm ((a.transitions.filter fun t => !t.isEpsilon) ++
      b.transitions.filter fun t => t ∉ a.transitions) := by
  have hdisjoint : (a.transitions.filter fun t => !t.isEpsilon).Disjoint
      (b.transitions.filter fun t => t ∉ a.transitions) := by
    intro t hold hnew
    exact of_decide_eq_true (List.mem_filter.1 hnew).2 (List.mem_of_mem_filter hold)
  rw [List.perm_ext_iff_of_nodup h.valid.nodup_transitions
    ((ha.nodup_transitions.filter _).append (h.valid.nodup_transitions.filter _) hdisjoint)]
  intro t
  rw [List.mem_append, List.mem_filter, List.mem_filter, Bool.not_eq_true', decide_eq_true_eq]
  constructor
  · intro ht
    by_cases hta : t ∈ a.transitions
    · exact .inl ⟨hta, h.no_epsilon t ht⟩
    · exact .inr ⟨ht, hta⟩
  · rintro (⟨hta, hno⟩ | ⟨ht, -⟩)
    · exact h.sparing.kept t hta hno
    · exact ht

/-- What has come along is what was offered and not there. -/
theorem EpsilonFree.mem_map_arc_iff (h : EpsilonFree a b) {x : StateId × StateId × Expr} :
    x ∈ (b.transitions.filter fun t => t ∉ a.transitions).map Transition.arc ↔
      (∃ p ∈ a.closure [x.1], x.2.2.isEpsilon = false ∧ a.HasArc p x.2.2 x.2.1) ∧
        ¬ a.HasArc x.1 x.2.2 x.2.1 := by
  rw [← h.hasArc_iff, List.mem_map]
  constructor
  · rintro ⟨t, ht, rfl⟩
    obtain ⟨ht, hta⟩ := List.mem_filter.1 ht
    refine ⟨hasArc_of_mem ht, ?_⟩
    rintro ⟨u, hua, hsource, hlabel, htarget⟩
    have hu := h.sparing.kept u hua ((congrArg Expr.isEpsilon hlabel).trans (h.no_epsilon t ht))
    have heq : u.arc = t.arc := by
      rw [Transition.arc, hsource, hlabel, htarget]
    exact of_decide_eq_true hta (h.sparing.eq_of_arc_eq t ht (of_decide_eq_true hta) u hu heq ▸ hua)
  · rintro ⟨⟨t, ht, hsource, hlabel, htarget⟩, hno⟩
    refine ⟨t, List.mem_filter.2 ⟨ht, decide_eq_true fun hta => hno ?_⟩, ?_⟩
    · exact ⟨t, hta, hsource, hlabel, htarget⟩
    · rw [Transition.arc, hsource, hlabel, htarget]

theorem EpsilonFree.nodup_map_arc (h : EpsilonFree a b) :
    ((b.transitions.filter fun t => t ∉ a.transitions).map Transition.arc).Nodup := by
  refine (h.valid.nodup_transitions.filter _).map_on fun t ht u hu heq => ?_
  obtain ⟨hu, hua⟩ := List.mem_filter.1 hu
  exact h.sparing.eq_of_arc_eq u hu (of_decide_eq_true hua) t (List.mem_of_mem_filter ht) heq

theorem EpsilonFree.perm_map_arc (h : EpsilonFree a b) (ha : a.Valid) :
    (b.transitions.map Transition.arc).Perm
      ((a.transitions.filter fun t => !t.isEpsilon).map Transition.arc ++
        (b.transitions.filter fun t => t ∉ a.transitions).map Transition.arc) := by
  rw [← List.map_append]
  exact (h.perm_transitions ha).map _

/-- Two such automata differ at most in the names of their transitions. -/
theorem EpsilonFree.perm_arcs (h : EpsilonFree a b) (h' : EpsilonFree a c) (ha : a.Valid) :
    (b.transitions.map Transition.arc).Perm (c.transitions.map Transition.arc) := by
  have hnew : ((b.transitions.filter fun t => t ∉ a.transitions).map Transition.arc).Perm
      ((c.transitions.filter fun t => t ∉ a.transitions).map Transition.arc) :=
    (List.perm_ext_iff_of_nodup h.nodup_map_arc h'.nodup_map_arc).2 fun x =>
      h.mem_map_arc_iff.trans h'.mem_map_arc_iff.symm
  exact (h.perm_map_arc ha).trans ((hnew.append_left _).trans (h'.perm_map_arc ha).symm)

theorem exists_epsilonFree (ha : a.Valid) (horder : order.Perm a.stateIds) :
    ∃ b, (removeEpsilonOf order).runOn a none = (.ok (), ⟨b, none⟩) ∧ EpsilonFree a b ∧
      b.language = a.language := by
  obtain ⟨_, b, hrun, hfreed, hspare⟩ :=
    (achieves_removeEpsilonOf ha rfl (fun s hs => horder.mem_iff.1 hs)
      fun t ht _ => horder.mem_iff.2 (ha.source_mem ht)).runOn_none rfl
  exact ⟨b, hrun, hfreed.epsilonFree ha hspare, hfreed.language_eq⟩

/-- Removing the `ε` transitions of every state of an automaton, in any order, is not refused.
It leaves no `ε` transition, and gives each state just what its closure had to begin with,
without a transition for something that it has. So another order changes nothing but the
names of the new transitions, and the language stays. -/
theorem epsilonFree_of_perm {l : Ledger} (hl : l.Reachable) (horder : order.Perm l.graph.stateIds) :
    ∃ b, (removeEpsilonOf order).runOn l.graph none = (.ok (), ⟨b, none⟩) ∧
      EpsilonFree l.graph b ∧ b.language = l.graph.language ∧
      ∀ order' c, order'.Perm l.graph.stateIds →
        (removeEpsilonOf order').runOn l.graph none = (.ok (), ⟨c, none⟩) →
          b.start = c.start ∧ (∀ s, s ∈ b.stateIds ↔ s ∈ c.stateIds) ∧
          (∀ s, b.accepting s = c.accepting s) ∧
          (b.transitions.map Transition.arc).Perm (c.transitions.map Transition.arc) := by
  obtain ⟨b, hrun, hb, hlanguage⟩ := exists_epsilonFree hl.valid horder
  refine ⟨b, hrun, hb, hlanguage, fun order' c horder' hrun' => ?_⟩
  obtain ⟨c', hrun'', hc, -⟩ := exists_epsilonFree hl.valid horder'
  obtain rfl := graph_eq_of_runOn_eq hrun'' hrun'
  refine ⟨hb.start_eq.trans hc.start_eq.symm, fun s => ?_, fun s => ?_, hb.perm_arcs hc hl.valid⟩
  · rw [hb.mem_stateIds, hc.mem_stateIds]
  · rw [Bool.eq_iff_iff, hb.accepting_iff, hc.accepting_iff]

open Ledger (epsilonCycle reachable_epsilonCycle)

/-- The case of the two states in their descending order. -/
theorem epsilonFree_of_perm_epsilonCycle :
    epsilonCycle.Reachable ∧ [⟨0, 1⟩, ⟨0, 0⟩].Perm epsilonCycle.graph.stateIds ∧
      epsilonCycle.graph.transitions = [⟨⟨0, 0⟩, ⟨0, 0⟩, ⟨0, 1⟩, .epsilon⟩,
        ⟨⟨0, 1⟩, ⟨0, 1⟩, ⟨0, 0⟩, .epsilon⟩, ⟨⟨0, 2⟩, ⟨0, 1⟩, ⟨0, 0⟩, .sym 'a'⟩] ∧
        ∃ b, (removeEpsilonOf [⟨0, 1⟩, ⟨0, 0⟩]).runOn epsilonCycle.graph none =
            (.ok (), ⟨b, none⟩) ∧ EpsilonFree epsilonCycle.graph b ∧
          b.language = epsilonCycle.graph.language := by
  have horder : [⟨0, 1⟩, ⟨0, 0⟩].Perm epsilonCycle.graph.stateIds := List.Perm.swap _ _ _
  obtain ⟨b, hrun, hb, hlanguage, -⟩ := epsilonFree_of_perm reachable_epsilonCycle horder
  exact ⟨reachable_epsilonCycle, horder, by decide, b, hrun, hb, hlanguage⟩

end Determinization

end RegularForms
