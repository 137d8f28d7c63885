import RegularForms.Proofs.Determinization.Epsilon

/-!
# Merging equivalent states

States with one closure offer the same and end alike. While such states are merged, a
state that is left keeps an arc for everything it offered to begin with, although the arc
may lead to another state of the class. So each state that is left keeps its language. The
start state is merged into first, so that it never goes.
-/

namespace RegularForms

namespace Determinization

open Automaton Rewriting

variable {a b c : Automaton} {s r q : StateId} {e : Expr}

/-! ## Classes -/

theorem leadsTo_of_closure_eq (ha : a.Valid) (h : a.closure [s] = a.closure [r]) :
    a.LeadsTo Transition.isEpsilon s r := by
  have hr : r ∈ a.closure [r] := ha.mem_closure.2 ⟨r, List.mem_singleton.2 rfl, .refl⟩
  rw [← h] at hr
  obtain ⟨q, hq, hlead⟩ := ha.mem_closure.1 hr
  exact List.mem_singleton.1 hq ▸ hlead

theorem offers_of_closure_eq (ha : a.Valid) (h : a.closure [s] = a.closure [r])
    (hr : a.Offers r e q) : a.Offers s e q :=
  hr.head (leadsTo_of_closure_eq ha h)

theorem ends_of_closure_eq (ha : a.Valid) (h : a.closure [s] = a.closure [r]) (hr : a.Ends r) :
    a.Ends s :=
  hr.head (leadsTo_of_closure_eq ha h)

theorem languageFrom_eq_of_closure_eq (ha : a.Valid) (h : a.closure [s] = a.closure [r]) :
    a.languageFrom s = a.languageFrom r :=
  le_antisymm (leadsTo_of_closure_eq ha h.symm).languageFrom_le
    (leadsTo_of_closure_eq ha h).languageFrom_le

/-- There is one class for each closure. -/
theorem classes_ofGraph (a : Automaton) :
    (ClosureTable.ofGraph a).classes =
      (distinct (a.stateIds.map fun s => a.closure [s])).map fun value =>
        a.stateIds.filter fun s => a.closure [s] = value := by
  rw [ClosureTable.ofGraph]
  simp only [List.map_map, List.filter_map]
  exact List.map_congr_left fun value _ => List.map_id _

theorem mem_classes_ofGraph {members : StateSet} :
    members ∈ (ClosureTable.ofGraph a).classes ↔
      ∃ s ∈ a.stateIds, members = a.stateIds.filter fun t => a.closure [t] = a.closure [s] := by
  rw [classes_ofGraph, List.mem_map]
  simp only [mem_distinct, List.mem_map]
  constructor
  · rintro ⟨_, ⟨s, hs, rfl⟩, rfl⟩
    exact ⟨s, hs, rfl⟩
  · rintro ⟨s, hs, rfl⟩
    exact ⟨_, ⟨s, hs, rfl⟩, rfl⟩

/-- The states of the class of a state are those with its closure. -/
theorem exists_class? (hs : s ∈ a.stateIds) (ha : a.Valid) :
    ∃ members, (ClosureTable.ofGraph a).class? s = some members ∧ members.Nodup ∧
      ∀ t, t ∈ members ↔ t ∈ a.stateIds ∧ a.closure [t] = a.closure [s] := by
  cases hfind : (ClosureTable.ofGraph a).class? s with
  | none =>
      have hno := List.find?_eq_none.1 hfind _ (mem_classes_ofGraph.2 ⟨s, hs, rfl⟩)
      exact absurd (decide_eq_true (List.mem_filter.2 ⟨hs, decide_eq_true rfl⟩)) hno
  | some members =>
      obtain ⟨r, -, rfl⟩ := mem_classes_ofGraph.1 (List.mem_of_find?_eq_some hfind)
      have hself := List.find?_some hfind
      have hclosure := of_decide_eq_true (List.mem_filter.1 (of_decide_eq_true hself)).2
      refine ⟨_, rfl, ha.nodup_stateIds.filter _, fun t => ?_⟩
      rw [hclosure, List.mem_filter, decide_eq_true_iff]

/-! ## Graphs with some states merged -/

/-- States with one closure have been merged, after their `ε` transitions were removed. -/
structure Merged (a b : Automaton) : Prop where
  valid : b.Valid
  start_eq : b.start = a.start
  subset : ∀ s ∈ b.stateIds, s ∈ a.stateIds
  accepting_iff : ∀ s ∈ b.stateIds, (b.accepting s = true ↔ a.Ends s)
  exists_hasArc : ∀ s ∈ b.stateIds, ∀ e r, a.Offers s e r →
    ∃ r', a.closure [r'] = a.closure [r] ∧ b.HasArc s e r'
  exists_offers : ∀ s e r', b.HasArc s e r' →
    ∃ r, a.closure [r] = a.closure [r'] ∧ a.Offers s e r

theorem Freed.merged (h : Freed a [] b) : Merged a b where
  valid := h.valid
  start_eq := h.start_eq
  subset s := (h.mem_stateIds s).1
  accepting_iff _ _ := h.accepting_iff
  exists_hasArc _ _ _ r hoffers := ⟨r, rfl, h.hasArc_iff.2 hoffers⟩
  exists_offers _ _ r harc := ⟨r, rfl, h.hasArc_iff.1 harc⟩

theorem Merged.label (h : Merged a b) {t : Transition} (ht : t ∈ b.transitions) :
    t.isEpsilon = false ∧ ∃ u ∈ a.transitions, u.label = t.label := by
  obtain ⟨r, -, p, -, hno, u, hu, -, hlabel, -⟩ := h.exists_offers _ _ _ (hasArc_of_mem ht)
  exact ⟨hno, u, hu, hlabel⟩

/-- Each state that is left keeps its language. -/
theorem Merged.languageFrom_eq (ha : a.Valid) (h : Merged a b) (hs : s ∈ b.stateIds) :
    b.languageFrom s = a.languageFrom s := by
  refine le_antisymm ?_ ?_
  · refine languageFrom_le (fun q hq => ?_) (fun t ht => ?_) s
    · have hqb := h.valid.mem_stateIds_of_accepting hq
      exact ((h.accepting_iff q hqb).1 hq).one_le_languageFrom
    · obtain ⟨r, hr, hoffers⟩ := h.exists_offers _ _ _ (hasArc_of_mem ht)
      rw [← languageFrom_eq_of_closure_eq ha hr]
      exact hoffers.mul_languageFrom_le
  · have hle := languageFrom_le_of_offers (a := a)
      (M := fun q => {w | ∀ s ∈ b.stateIds, a.closure [s] = a.closure [q] → w ∈ b.languageFrom s})
      (fun q hq w hw s hs hclosure => ?_) (fun q e r hoffers w hw s hs hclosure => ?_) s
    · exact fun w hw => hle hw s hs rfl
    · have hacc := (h.accepting_iff s hs).2 (ends_of_closure_eq ha hclosure hq)
      exact one_le_languageFrom hacc hw
    · obtain ⟨u, hu, v, hv, rfl⟩ := Language.mem_mul.1 hw
      obtain ⟨r', hr', harc⟩ := h.exists_hasArc s hs e r (offers_of_closure_eq ha hclosure hoffers)
      have hv := hv r' (h.valid.mem_of_hasArc harc).2 hr'
      exact harc.mul_languageFrom_le (Language.append_mem_mul hu hv)

theorem Merged.language_eq (ha : a.Valid) (h : Merged a b) : b.language = a.language := by
  rw [language, h.languageFrom_eq ha h.valid.start_mem, h.start_eq, language]

/-! ## Merging a class -/

def redirectedArcs (s : StateId) (removed : StateSet) (incoming : List Transition) :
    List (StateId × StateId × Expr) :=
  (redirected s removed incoming).map fun t => (t.source, s, t.label)

variable {removed : StateSet} {incoming : List Transition}

theorem mem_redirectedArcs {x : StateId × StateId × Expr}
    (hx : x ∈ redirectedArcs s removed incoming) :
    ∃ t ∈ incoming, t.source ∉ removed ∧ t.target ≠ s ∧ x = (t.source, s, t.label) := by
  obtain ⟨t, ht, rfl⟩ := List.mem_map.1 hx
  obtain ⟨ht, hts⟩ := List.mem_filter.1 ht
  obtain ⟨ht, hsource⟩ := List.mem_filter.1 (Transition.mem_of_mem_onePerArc ht)
  exact ⟨t, ht, of_decide_eq_true hsource, of_decide_eq_true hts, rfl⟩

/-- What leads into the class leads to the state itself, or is redirected there. -/
theorem cases_of_mem_incoming {t : Transition} (ht : t ∈ incoming) (hsource : t.source ∉ removed) :
    (∃ u ∈ incoming, u.source = t.source ∧ u.label = t.label ∧ u.target = s) ∨
      (t.source, s, t.label) ∈ redirectedArcs s removed incoming := by
  have hstaying : t ∈ incoming.filter fun t => t.source ∉ removed :=
    List.mem_filter.2 ⟨ht, decide_eq_true hsource⟩
  obtain ⟨u, hu, hus, hlabel⟩ :=
    Transition.exists_onePerArc_orderBySource (fun t => t.target == s) hstaying
  by_cases hut : u.target = s
  · have hmem := List.mem_of_mem_filter (Transition.mem_of_mem_onePerArc hu)
    exact .inl ⟨u, hmem, hus, hlabel, hut⟩
  · rw [← hus, ← hlabel]
    exact .inr (List.mem_map.2 ⟨u, List.mem_filter.2 ⟨hu, decide_eq_true hut⟩, rfl⟩)

/-- Some states have been merged into another one. -/
structure Absorbed (a : Automaton) (s : StateId) (removed : StateSet)
    (incoming : List Transition) (b : Automaton) : Prop where
  valid : b.Valid
  rewired : a.Rewired b (fun t => t.source ∈ removed ∨ t.target ∈ removed)
    (redirectedArcs s removed incoming)
  mem_stateIds : ∀ q, q ∈ b.stateIds ↔ q ∈ a.stateIds ∧ q ∉ removed
  accepting_iff : ∀ q, b.accepting q = true ↔ a.accepting q = true ∧ q ∉ removed

def absorb (a : Automaton) (s : StateId) (removed : StateSet) (incoming : List Transition) :
    Plan :=
  let fresh := a.freshTransitions (redirectedArcs s removed incoming)
  ⟨.batch (.mergeEquivalent s)
      ((incoming.filter fun t => t.target ∈ removed).map .removeTransition ++
        (removed.flatMap fun r => (a.out r).filter fun t => t.target ∉ removed).map
          .removeTransition ++ removed.map .removeState ++ fresh.map .addTransition),
    a.reserve 0 fresh.length⟩

def leaving (a : Automaton) (removed : StateSet) : List Transition :=
  removed.flatMap fun r => (a.out r).filter fun t => t.target ∉ removed

theorem mem_leaving (ha : a.Valid) {t : Transition} :
    t ∈ leaving a removed ↔ t ∈ a.transitions ∧ t.source ∈ removed ∧ t.target ∉ removed := by
  rw [leaving, List.mem_flatMap]
  constructor
  · rintro ⟨r, hr, ht⟩
    obtain ⟨ht, htarget⟩ := List.mem_filter.1 ht
    obtain ⟨htmem, rfl⟩ := ha.mem_out.1 ht
    exact ⟨htmem, hr, of_decide_eq_true htarget⟩
  · rintro ⟨ht, hsource, htarget⟩
    exact ⟨t.source, hsource, List.mem_filter.2
      ⟨ha.mem_out.2 ⟨ht, rfl⟩, decide_eq_true htarget⟩⟩

theorem nodup_leaving (ha : a.Valid) (hnodup : removed.Nodup) : (leaving a removed).Nodup := by
  rw [leaving, List.nodup_flatMap]
  refine ⟨fun r _ => (ha.nodup_out r).filter _, hnodup.imp fun hne t ht ht' => hne ?_⟩
  exact (ha.mem_out.1 (List.mem_of_mem_filter ht)).2.symm.trans
    (ha.mem_out.1 (List.mem_of_mem_filter ht')).2

/-- States other than the start state can be merged into another one when all transitions that
lead into them are known. -/
theorem fits_absorb (ha : a.Valid) (hs : s ∈ a.stateIds) (hnodup : removed.Nodup)
    (hremoved : ∀ t ∈ removed, t ∈ a.stateIds ∧ t ≠ s ∧ t ≠ a.start)
    (hincomingNodup : incoming.Nodup) (hsub : ∀ t ∈ incoming, t ∈ a.transitions)
    (hinto : ∀ t ∈ a.transitions, t.target ∈ removed → t ∈ incoming) :
    (absorb a s removed incoming).edit.Fits (absorb a s removed incoming).graph.outline := by
  have hmem : ∀ t, t ∈ incoming.filter (fun t => t.target ∈ removed) ↔
      t ∈ incoming ∧ t.target ∈ removed := by
    intro t
    rw [List.mem_filter, decide_eq_true_eq]
  have harcs : ∀ x ∈ redirectedArcs s removed incoming,
      (x.1 ∈ a.stateIds ∧ x.1 ∉ removed) ∧ x.2.1 ∈ a.stateIds ∧ x.2.1 ∉ removed := by
    intro x hx
    obtain ⟨t, ht, hsource, -, rfl⟩ := mem_redirectedArcs hx
    exact ⟨⟨ha.source_mem (hsub t ht), hsource⟩, hs, fun h => (hremoved s h).2.1 rfl⟩
  show Edit.FitsAll (((_ ++ (leaving a removed).map _) ++ _) ++ _) _
  simp only [Edit.fitsAll_append, Edit.effectAll_append, Edit.effectAll_removeTransition,
    Edit.effectAll_removeState]
  refine ⟨⟨⟨?_, ?_⟩, ?_⟩, ?_⟩
  · exact Edit.fitsAll_removeTransition (hincomingNodup.filter _) fun t ht =>
      hsub t ((hmem t).1 ht).1
  · refine Edit.fitsAll_removeTransition (nodup_leaving ha hnodup) fun t ht => ?_
    obtain ⟨ht, -, htarget⟩ := (mem_leaving ha).1 ht
    exact ⟨ht, fun h => htarget ((hmem t).1 h).2⟩
  · refine Edit.fitsAll_removeState hnodup
      (fun r hr => ⟨(hremoved r hr).1, (hremoved r hr).2.2⟩) fun t ht htr => ?_
    exact absurd ((hmem t).2 ⟨hinto t ht.1.1 htr, htr⟩) ht.1.2
  · exact ha.fitsAll_freshTransitions rfl (add_length_freshTransitions _)
      (fun t ht => ht.1.1.1) harcs

theorem exists_absorb (ha : a.Valid) (hs : s ∈ a.stateIds) (hnodup : removed.Nodup)
    (hremoved : ∀ t ∈ removed, t ∈ a.stateIds ∧ t ≠ s ∧ t ≠ a.start)
    (hincomingNodup : incoming.Nodup)
    (hincoming : ∀ t, t ∈ incoming ↔ t ∈ a.transitions ∧ (t.target ∈ removed ∨ t.target = s)) :
    ∃ b, (absorb a s removed incoming).Performs a b ∧ Absorbed a s removed incoming b := by
  have hinto : ∀ t, t ∈ incoming.filter (fun t => t.target ∈ removed) ↔
      t ∈ a.transitions ∧ t.target ∈ removed := by
    intro t
    rw [List.mem_filter, hincoming, decide_eq_true_eq, and_assoc]
    exact and_congr_right fun _ => and_iff_right_of_imp .inl
  have hfits := fits_absorb ha hs hnodup hremoved hincomingNodup
    (fun t ht => ((hincoming t).1 ht).1) fun t ht htr => (hincoming t).2 ⟨ht, .inl htr⟩
  obtain ⟨b, hperforms, hb, hbo⟩ := ha.exists_performs rfl hfits
  have hbo : b.outline = Edit.effectAll (((_ ++ (leaving a removed).map _) ++ _) ++ _) _ := hbo
  simp only [Edit.effectAll_append, Edit.effectAll_removeTransition, Edit.effectAll_removeState,
    Edit.effectAll_addTransition] at hbo
  refine ⟨b, hperforms, hb, ⟨start_of_outline hbo, fun t => ?_⟩,
    fun q => mem_stateIds_of_outline hbo, fun q => accepting_of_outline hbo⟩
  rw [mem_transitions_of_outline hbo]
  refine or_congr_left ?_
  show ((t ∈ a.transitions ∧ t ∉ incoming.filter _) ∧ t ∉ leaving a removed) ∧
      t.source ∉ removed ↔
    t ∈ a.transitions ∧ ¬ (t.source ∈ removed ∨ t.target ∈ removed)
  rw [hinto, mem_leaving ha, not_or]
  constructor
  · rintro ⟨⟨⟨ht, hin⟩, -⟩, hsource⟩
    exact ⟨ht, hsource, fun htarget => hin ⟨ht, htarget⟩⟩
  · rintro ⟨ht, hsource, htarget⟩
    exact ⟨⟨⟨ht, fun h => htarget h.2⟩, fun h => hsource h.2.1⟩, hsource⟩

/-- The other states with the closure of one have been merged into it. -/
structure Collapsed (a b : Automaton) (s : StateId) (c : Automaton) : Prop where
  valid : c.Valid
  start_eq : c.start = b.start
  mem_stateIds : ∀ q, q ∈ c.stateIds ↔ q ∈ b.stateIds ∧ (a.closure [q] = a.closure [s] → q = s)
  accepting_iff : ∀ q ∈ c.stateIds, (c.accepting q = true ↔ b.accepting q = true)
  exists_hasArc : ∀ q ∈ c.stateIds, ∀ e r, b.HasArc q e r →
    ∃ r', a.closure [r'] = a.closure [r] ∧ c.HasArc q e r'
  exists_hasArc_before : ∀ q e r', c.HasArc q e r' →
    ∃ r, a.closure [r] = a.closure [r'] ∧ b.HasArc q e r

theorem Absorbed.collapsed (hc : Absorbed b s removed incoming c)
    (hremoved : ∀ t, t ∈ removed ↔ (t ∈ b.stateIds ∧ a.closure [t] = a.closure [s]) ∧ t ≠ s)
    (hincoming : ∀ t, t ∈ incoming ↔ t ∈ b.transitions ∧ (t.target ∈ removed ∨ t.target = s)) :
    Collapsed a b s c where
  valid := hc.valid
  start_eq := hc.rewired.start_eq
  mem_stateIds q := by
    rw [hc.mem_stateIds, hremoved]
    constructor
    · rintro ⟨hq, hno⟩
      exact ⟨hq, fun hclosure => not_not.1 fun hne => hno ⟨⟨hq, hclosure⟩, hne⟩⟩
    · rintro ⟨hq, honly⟩
      exact ⟨hq, fun hno => hno.2 (honly hno.1.2)⟩
  accepting_iff q hq := by
    rw [hc.accepting_iff, and_iff_left ((hc.mem_stateIds q).1 hq).2]
  exists_hasArc q hq e r harc := by
    obtain ⟨t, ht, rfl, rfl, rfl⟩ := harc
    have hno := ((hc.mem_stateIds _).1 hq).2
    by_cases htarget : t.target ∈ removed
    · refine ⟨s, ((hremoved _).1 htarget).1.2.symm, hc.rewired.hasArc_iff.2 ?_⟩
      refine (cases_of_mem_incoming ((hincoming t).2 ⟨ht, .inl htarget⟩) hno).imp_left ?_
      rintro ⟨u, hu, hsource, hlabel, hut⟩
      refine ⟨u, ((hincoming u).1 hu).1, not_or.2 ⟨?_, ?_⟩, hsource, hlabel, hut⟩
      · rwa [hsource]
      · rw [hut]
        exact fun hs => ((hremoved s).1 hs).2 rfl
    · exact ⟨t.target, rfl, hc.rewired.hasArc_iff.2
        (.inl ⟨t, ht, not_or.2 ⟨hno, htarget⟩, rfl, rfl, rfl⟩)⟩
  exists_hasArc_before q e r' harc := by
    rcases hc.rewired.hasArc_iff.1 harc with ⟨t, ht, -, rfl, rfl, rfl⟩ | harc
    · exact ⟨t.target, rfl, hasArc_of_mem ht⟩
    · obtain ⟨t, ht, -, hne, heq⟩ := mem_redirectedArcs harc
      obtain ⟨rfl, rfl, rfl⟩ : q = t.source ∧ r' = s ∧ e = t.label := by
        simpa using heq
      obtain ⟨ht, htarget⟩ := (hincoming t).1 ht
      exact ⟨t.target, ((hremoved _).1 (htarget.resolve_right hne)).1.2, hasArc_of_mem ht⟩

/-- Merging one more class. -/
theorem Merged.collapse (h : Merged a b) (hc : Collapsed a b s c) : Merged a c where
  valid := hc.valid
  start_eq := hc.start_eq.trans h.start_eq
  subset q hq := h.subset q ((hc.mem_stateIds q).1 hq).1
  accepting_iff q hq :=
    (hc.accepting_iff q hq).trans (h.accepting_iff q ((hc.mem_stateIds q).1 hq).1)
  exists_hasArc q hq e r hoffers := by
    obtain ⟨r', hr', harc⟩ := h.exists_hasArc q ((hc.mem_stateIds q).1 hq).1 e r hoffers
    obtain ⟨r'', hr'', harc⟩ := hc.exists_hasArc q hq e r' harc
    exact ⟨r'', hr''.trans hr', harc⟩
  exists_offers q e r' harc := by
    obtain ⟨r, hr, harc⟩ := hc.exists_hasArc_before q e r' harc
    obtain ⟨p, hp, hoffers⟩ := h.exists_offers q e r harc
    exact ⟨p, hp.trans hr, hoffers⟩

def classmates (table : ClosureTable) (s : StateId) (b : Automaton) : StateSet :=
  ((table.class? s).getD []).filter b.hasState

/-- The transitions that lead into the class of a state, in the order in which they are
looked through. -/
def intoClass (table : ClosureTable) (s : StateId) (b : Automaton) : List Transition :=
  (b.transitions.filter fun t => t.target ∈ classmates table s b).mergeSort
    (Transition.notAfter Transition.orderBySource fun t => t.target == s)

theorem mem_intoClass {table : ClosureTable} {t : Transition} :
    t ∈ intoClass table s b ↔ t ∈ b.transitions ∧ t.target ∈ classmates table s b := by
  rw [intoClass, List.mem_mergeSort, List.mem_filter, decide_eq_true_eq]

theorem nodup_intoClass (hb : b.Valid) (table : ClosureTable) (s : StateId) :
    (intoClass table s b).Nodup :=
  (List.mergeSort_perm _ _).nodup_iff.2 (hb.nodup_transitions.filter _)

theorem mergeEquivalent_eq (hb : b.Valid) (hs : s ∈ b.stateIds) (table : ClosureTable) :
    mergeEquivalent table s b = .ok (absorb b s ((classmates table s b).filter fun t => t ≠ s)
      (intoClass table s b)) := by
  obtain ⟨state, hstate⟩ := hb.exists_state_eq hs
  rw [mergeEquivalent, hstate]
  rfl

/-- The plan for a class merges the other states of it that are left into one. -/
theorem exists_mergeEquivalent_eq (ha : a.Valid) (h : Merged a b) (hs : s ∈ b.stateIds) :
    ∃ removed incoming, mergeEquivalent (ClosureTable.ofGraph a) s b =
        .ok (absorb b s removed incoming) ∧ removed.Nodup ∧ incoming.Nodup ∧
      (∀ t, t ∈ removed ↔ (t ∈ b.stateIds ∧ a.closure [t] = a.closure [s]) ∧ t ≠ s) ∧
        ∀ t, t ∈ incoming ↔ t ∈ b.transitions ∧ (t.target ∈ removed ∨ t.target = s) := by
  obtain ⟨members, hclass, hnodup, hmembers⟩ := exists_class? (h.subset s hs) ha
  have hclassmates : classmates (ClosureTable.ofGraph a) s b = members.filter b.hasState := by
    rw [classmates, hclass, Option.getD_some]
  have hfilter : ∀ t, t ∈ classmates (ClosureTable.ofGraph a) s b ↔
      t ∈ b.stateIds ∧ a.closure [t] = a.closure [s] := by
    intro t
    rw [hclassmates, List.mem_filter, hmembers, h.valid.hasState_iff]
    exact ⟨fun ht => ⟨ht.2, ht.1.2⟩, fun ht => ⟨⟨h.subset t ht.1, ht.2⟩, ht.1⟩⟩
  have hremoved : ∀ t, t ∈ (classmates (ClosureTable.ofGraph a) s b).filter (fun t => t ≠ s) ↔
      (t ∈ b.stateIds ∧ a.closure [t] = a.closure [s]) ∧ t ≠ s := by
    intro t
    rw [List.mem_filter, hfilter, decide_eq_true_eq]
  refine ⟨_, _, mergeEquivalent_eq h.valid hs _,
    (hclassmates ▸ hnodup.filter _).filter _, nodup_intoClass h.valid _ s, hremoved, fun t => ?_⟩
  rw [mem_intoClass, hfilter, hremoved]
  refine and_congr_right fun ht => ?_
  constructor
  · exact fun hmem => (eq_or_ne t.target s).symm.imp_left fun hne => ⟨hmem, hne⟩
  · rintro (hmem | heq)
    · exact hmem.1
    · rw [heq]
      exact ⟨hs, rfl⟩

theorem exists_mergeEquivalent (ha : a.Valid) (h : Merged a b) (hs : s ∈ b.stateIds)
    (hstart : ∀ t ∈ b.stateIds, a.closure [t] = a.closure [s] → t ≠ s → t ≠ b.start) :
    ∃ p c, mergeEquivalent (ClosureTable.ofGraph a) s b = .ok p ∧ p.Performs b c ∧
      Collapsed a b s c := by
  obtain ⟨removed, incoming, hplan, hnodup, hincomingNodup, hremoved, hincoming⟩ :=
    exists_mergeEquivalent_eq ha h hs
  have hgo : ∀ t ∈ removed, t ∈ b.stateIds ∧ t ≠ s ∧ t ≠ b.start := by
    intro t ht
    obtain ⟨⟨hmem, hclosure⟩, hne⟩ := (hremoved t).1 ht
    exact ⟨hmem, hne, hstart t hmem hclosure hne⟩
  obtain ⟨c, hperforms, hc⟩ := exists_absorb h.valid hs hnodup hgo hincomingNodup hincoming
  exact ⟨_, c, hplan, hperforms, hc.collapsed hremoved hincoming⟩

/-! ## All classes -/

/-- There is no other state that has the closure of the start state. -/
def StartAlone (a b : Automaton) : Prop :=
  ∀ t ∈ b.stateIds, a.closure [t] = a.closure [b.start] → t = b.start

theorem hasOthers_iff (ha : a.Valid) (h : Merged a b) (hs : s ∈ b.stateIds) :
    (ClosureTable.ofGraph a).hasOthers b s = true ↔
      ∃ t ∈ b.stateIds, a.closure [t] = a.closure [s] ∧ t ≠ s := by
  obtain ⟨members, hclass, -, hmembers⟩ := exists_class? (h.subset s hs) ha
  rw [ClosureTable.hasOthers, hclass]
  show members.any _ = true ↔ _
  rw [List.any_eq_true]
  refine exists_congr fun t => ?_
  rw [Bool.and_eq_true, decide_eq_true_eq, h.valid.hasState_iff, hmembers]
  constructor
  · rintro ⟨⟨-, hclosure⟩, hne, ht⟩
    exact ⟨ht, hclosure, hne⟩
  · rintro ⟨ht, hclosure, hne⟩
    exact ⟨⟨h.subset t ht, hclosure⟩, hne, ht⟩

/-- A round of the merging. The start state has had its round first. -/
theorem achieves_mergeClass {l : Language Char} (ha : a.Valid) (hl : a.language = l)
    (h : Merged a b) (hstart : s = b.start ∨ StartAlone a b) :
    Achieves (fun b => b.language = l)
      (Rewriting.graph >>= fun b =>
        if b.hasState s && (ClosureTable.ofGraph a).hasOthers b s then
          carryOut (mergeEquivalent (ClosureTable.ofGraph a) s)
        else pure ()) b
      fun _ c => Merged a c ∧ StartAlone a c := by
  refine Achieves.graph ?_
  by_cases hcond : (b.hasState s && (ClosureTable.ofGraph a).hasOthers b s) = true
  · rw [if_pos hcond]
    have hs := h.valid.hasState_iff.1 (Bool.and_eq_true _ _ ▸ hcond).1
    have hstay : ∀ t ∈ b.stateIds, a.closure [t] = a.closure [s] → t ≠ s → t ≠ b.start := by
      intro t _ hclosure hne
      rcases hstart with rfl | halone
      · exact hne
      · rintro rfl
        exact hne (halone s hs hclosure.symm).symm
    obtain ⟨p, c, hplan, hperforms, hc⟩ := exists_mergeEquivalent ha h hs hstay
    have hmerged := h.collapse hc
    refine achieves_carryOut language_reserve_eq hplan hperforms
      ((hmerged.language_eq ha).trans hl) ⟨hmerged, fun t ht hclosure => ?_⟩
    rw [hc.start_eq] at hclosure ⊢
    obtain ⟨htb, honly⟩ := (hc.mem_stateIds t).1 ht
    rcases hstart with rfl | halone
    · exact honly hclosure
    · exact halone t htb hclosure
  · rw [if_neg hcond]
    refine achieves_pure ⟨h, ?_⟩
    rcases hstart with rfl | halone
    · intro t ht hclosure
      by_contra hne
      refine hcond ?_
      rw [h.valid.hasState_iff.2 h.valid.start_mem,
        (hasOthers_iff ha h h.valid.start_mem).2 ⟨t, ht, hclosure, hne⟩]
      rfl
    · exact halone

/-- Merging all classes keeps the languages of the states that are left. -/
theorem achieves_mergeAllEquivalent {l : Language Char} (ha : a.Valid) (hl : a.language = l)
    (hb : Freed a [] b) :
    Achieves (fun b => b.language = l) (mergeAllEquivalent (ClosureTable.ofGraph a)) b
      fun _ c => Merged a c := by
  have hfirst : b.stateIds.filter b.isStart = [b.start] := by
    rw [show b.isStart = fun s => s == b.start from rfl, List.filter_beq,
      List.count_eq_one_of_mem hb.valid.nodup_stateIds hb.valid.start_mem]
    rfl
  refine Achieves.graph ?_
  rw [List.partition_eq_filter_filter]
  show Achieves _ ((b.stateIds.filter b.isStart ++ _).forM _) b _
  rw [hfirst]
  refine Achieves.bind ((achieves_mergeClass ha hl hb.merged (.inl rfl)).mono ?_)
  rintro _ c hc
  refine (achieves_forM (I := fun _ b => Merged a b ∧ StartAlone a b) ?_ hc).mono
    fun _ d hd => hd.1
  rintro s ss d ⟨hd, halone⟩
  exact achieves_mergeClass ha hl hd (.inr halone)

end Determinization

end RegularForms
