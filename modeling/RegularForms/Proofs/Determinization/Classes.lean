import RegularForms.Proofs.Automaton.Search
import RegularForms.Proofs.Automaton.Walk
import RegularForms.Proofs.Determinization.Merging

/-!
# The classes are what leads to each other

A table can be taken down by searches that may be refused, with the classes split off one
after another: the first state that is left, with all others that share its closure. No search
is refused, and the table is the same. Two states share a closure exactly when they lead to
each other through `ε` alone, so there is a class of two states exactly when some `ε`
transitions go round by way of two different states.
-/

namespace RegularForms

namespace ClosureTable

def without (value : StateSet) (closures : List (StateId × StateSet)) :
    List (StateId × StateSet) :=
  closures.filter fun p => p.2 ≠ value

/-- Puts the states with one closure together, beginning with the closure of the first. -/
def gather : List (StateId × StateSet) → List StateSet
  | [] => []
  | (s, value) :: rest =>
    (s :: (rest.filter fun p => p.2 = value).map Prod.fst) ::
      gather (without value rest)
termination_by closures => closures.length
decreasing_by exact Nat.lt_succ_of_le (List.length_filter_le _ _)

/-- The table of the states of a graph, taken down by searches that may be refused. -/
def takeDown (a : Automaton) : Except Error ClosureTable := do
  let closures ← a.stateIds.mapM fun s => return (s, ← a.search Transition.isEpsilon s)
  return ⟨closures, gather closures⟩

/-- Splitting off class after class comes to one class for each closure. -/
theorem gather_eq (closures : List (StateId × StateSet)) :
    gather closures = (distinct (closures.map Prod.snd)).map fun value =>
      (closures.filter fun p => p.2 = value).map Prod.fst := by
  induction closures using gather.induct with
  | case1 => rw [gather]; rfl
  | case2 s value rest ih =>
      have hvalues : distinct ((without value rest).map Prod.snd) =
          (distinct (rest.map Prod.snd)).filter (· ≠ value) := by
        rw [filter_distinct, List.filter_map]
        rfl
      rw [gather, ih, hvalues, List.map_cons, distinct, List.map_cons]
      refine congrArg₂ List.cons ?_ (List.map_congr_left fun other hother => ?_)
      · simp
      · have hne : other ≠ value := of_decide_eq_true (List.mem_filter.1 hother).2
        rw [without, List.filter_filter, List.filter_cons_of_neg (by simpa using hne.symm)]
        refine congrArg (List.map Prod.fst) (List.filter_congr fun p _ => ?_)
        by_cases hp : p.2 = other <;> simp [hp, hne]

end ClosureTable

namespace Determinization

open Automaton

variable {a : Automaton} {s t : StateId}

theorem mapM_search_eq (ha : a.Valid) {ss : List StateId} (hss : ∀ s ∈ ss, s ∈ a.stateIds) :
    ss.mapM (fun s => return (s, ← a.search Transition.isEpsilon s)) =
      (.ok (ss.map fun s => (s, a.closure [s])) : Except Error (List (StateId × StateSet))) := by
  induction ss with
  | nil => rfl
  | cons s ss ih =>
      obtain ⟨hs, hss⟩ := List.forall_mem_cons.1 hss
      rw [List.mapM_cons, ha.search_eq hs, ih hss]
      rfl

/-- No search is refused while a table is taken down. -/
theorem takeDown_eq (ha : a.Valid) :
    ClosureTable.takeDown a = .ok (ClosureTable.ofGraph a) := by
  rw [ClosureTable.takeDown, mapM_search_eq ha fun s hs => hs]
  exact congrArg (fun classes => Except.ok (ClosureTable.mk _ classes))
    (ClosureTable.gather_eq _)

/-- A state that is not in the graph has no class. -/
theorem class?_ofGraph_of_notMem (hs : s ∉ a.stateIds) :
    (ClosureTable.ofGraph a).class? s = none := by
  refine List.find?_eq_none.2 fun members hmembers hmem => hs ?_
  obtain ⟨r, -, rfl⟩ := mem_classes_ofGraph.1 hmembers
  exact List.mem_of_mem_filter (of_decide_eq_true hmem)

/-- Different classes are for different closures, so they have no state in common. -/
theorem pairwise_disjoint_classes (a : Automaton) :
    (ClosureTable.ofGraph a).classes.Pairwise List.Disjoint := by
  rw [classes_ofGraph, List.pairwise_map]
  refine (nodup_distinct _).imp fun {value other} hne s hs hs' => hne ?_
  have hvalue := of_decide_eq_true (List.mem_filter.1 hs).2
  have hother := of_decide_eq_true (List.mem_filter.1 hs').2
  exact hvalue.symm.trans hother

/-- Two states have the same closure exactly when each leads to the other. -/
theorem closure_eq_iff (ha : a.Valid) :
    a.closure [s] = a.closure [t] ↔
      a.LeadsTo Transition.isEpsilon s t ∧ a.LeadsTo Transition.isEpsilon t s := by
  refine ⟨fun h => ⟨leadsTo_of_closure_eq ha h, leadsTo_of_closure_eq ha h.symm⟩, ?_⟩
  rintro ⟨hst, hts⟩
  refine StateSet.eq_of_mem_iff (ascending_reachLayers _ (List.pairwise_singleton _ s))
    (ascending_reachLayers _ (List.pairwise_singleton _ t)) fun r => ?_
  refine ha.mem_closure.trans (Iff.trans ?_ ha.mem_closure.symm)
  simp only [List.mem_singleton, exists_eq_left]
  exact ⟨hts.trans, hst.trans⟩

theorem equivalent_iff_leadsTo (ha : a.Valid) :
    (ClosureTable.ofGraph a).equivalent s t = true ↔
      s ∈ a.stateIds ∧ t ∈ a.stateIds ∧
        a.LeadsTo Transition.isEpsilon s t ∧ a.LeadsTo Transition.isEpsilon t s := by
  by_cases hs : s ∈ a.stateIds
  · rw [equivalent_iff ha hs, closure_eq_iff ha, and_iff_right hs]
    exact and_congr_right fun _ => and_comm
  · rw [ClosureTable.equivalent, class?_ofGraph_of_notMem hs]
    exact ⟨fun h => absurd h Bool.false_ne_true, fun h => absurd h.1 hs⟩

/-- In a list without repetitions there are two members exactly when there are different ones. -/
theorem one_lt_length_iff {ss : List StateId} (h : ss.Nodup) :
    1 < ss.length ↔ ∃ s ∈ ss, ∃ t ∈ ss, t ≠ s := by
  rw [← List.toFinset_card_of_nodup h, Finset.one_lt_card]
  simp only [List.mem_toFinset, ne_comm]

/-- A class of two states is one of states that lead to each other. -/
theorem hasEquivalent_iff (ha : a.Valid) :
    (ClosureTable.ofGraph a).hasEquivalent a = true ↔
      ∃ s t, t ≠ s ∧ (ClosureTable.ofGraph a).equivalent s t = true := by
  have hall : ∀ value : StateSet, (a.stateIds.filter fun t => a.closure [t] = value).filter
      a.hasState = a.stateIds.filter fun t => a.closure [t] = value := fun value =>
    List.filter_eq_self.2 fun t ht => ha.hasState_iff.2 (List.mem_of_mem_filter ht)
  have hnodup : ∀ value : StateSet,
      (a.stateIds.filter fun t => a.closure [t] = value).Nodup := fun value =>
    ha.nodup_stateIds.filter _
  rw [ClosureTable.hasEquivalent, List.any_eq_true]
  constructor
  · rintro ⟨members, hmembers, hlen⟩
    obtain ⟨r, -, rfl⟩ := mem_classes_ofGraph.1 hmembers
    rw [decide_eq_true_eq, hall, one_lt_length_iff (hnodup _)] at hlen
    obtain ⟨s, hs, t, ht, hne⟩ := hlen
    obtain ⟨hs, hsr⟩ := List.mem_filter.1 hs
    obtain ⟨ht, htr⟩ := List.mem_filter.1 ht
    exact ⟨s, t, hne, (equivalent_iff ha hs).2
      ⟨ht, (of_decide_eq_true htr).trans (of_decide_eq_true hsr).symm⟩⟩
  · rintro ⟨s, t, hne, hst⟩
    have hs := ((equivalent_iff_leadsTo ha).1 hst).1
    obtain ⟨ht, hclosure⟩ := (equivalent_iff ha hs).1 hst
    refine ⟨_, mem_classes_ofGraph.2 ⟨s, hs, rfl⟩, ?_⟩
    rw [decide_eq_true_eq, hall, one_lt_length_iff (hnodup _)]
    exact ⟨s, List.mem_filter.2 ⟨hs, decide_eq_true rfl⟩, t,
      List.mem_filter.2 ⟨ht, decide_eq_true hclosure⟩, hne⟩

/-- States that lead to each other lie on a walk that goes round, and the other way about. -/
theorem exists_round_iff (ha : a.Valid) :
    (∃ s t, t ≠ s ∧ (ClosureTable.ofGraph a).equivalent s t = true) ↔
      ∃ s ts, a.Walk s ts s ∧ (∀ t ∈ ts, t.isEpsilon = true) ∧ ∃ t ∈ ts, t.source ≠ s := by
  constructor
  · rintro ⟨s, t, hne, hst⟩
    obtain ⟨-, -, hst, hts⟩ := (equivalent_iff_leadsTo ha).1 hst
    obtain ⟨us, hus, hueps⟩ := hst.exists_walk
    obtain ⟨vs, hvs, hveps⟩ := hts.exists_walk
    refine ⟨s, us ++ vs, hus.append hvs, List.forall_mem_append.2 ⟨hueps, hveps⟩, ?_⟩
    -- The way back is not empty, and it begins at the other state.
    cases hvs with
    | nil => exact absurd rfl hne
    | @cons v vs _ hv hwalk =>
        exact ⟨v, List.mem_append_right _ List.mem_cons_self, hne⟩
  · rintro ⟨s, ts, hwalk, heps, t, ht, hne⟩
    obtain ⟨us, vs, rfl, hus, hvs⟩ := hwalk.exists_split ht
    obtain ⟨hueps, hveps⟩ := List.forall_mem_append.1 heps
    have hst := hus.leadsTo hueps
    have hts := hvs.leadsTo hveps
    have htmem : t ∈ a.transitions := hwalk.mem_transitions ht
    have hs : s ∈ a.stateIds := hts.target_mem ha (ha.source_mem htmem)
    exact ⟨s, t.source, hne, (equivalent_iff_leadsTo ha).2 ⟨hs, ha.source_mem htmem, hst, hts⟩⟩

end Determinization

namespace Ledger

variable {l : Ledger}

/-- In a graph that is reached the table of closures can be taken down. Its classes are not
empty, no two of them have a state in common, and their members are just the states of the
graph. Two states are in one class exactly when both are in the graph and each leads to the
other through `ε` alone. So there is a class of several states exactly when a walk of `ε`
transitions leads from a state back to it by way of another one. -/
theorem Reachable.equivalent_takeDown (h : l.Reachable) :
    ∃ table, ClosureTable.takeDown l.graph = .ok table ∧ table = .ofGraph l.graph ∧
      (∀ members ∈ table.classes, members ≠ []) ∧
      table.classes.Pairwise List.Disjoint ∧
      (∀ s, s ∈ l.graph.stateIds ↔ ∃ members ∈ table.classes, s ∈ members) ∧
      (∀ s t, table.equivalent s t = true ↔
        s ∈ l.graph.stateIds ∧ t ∈ l.graph.stateIds ∧
          l.graph.LeadsTo Transition.isEpsilon s t ∧
            l.graph.LeadsTo Transition.isEpsilon t s) ∧
      (table.hasEquivalent l.graph = true ↔
        ∃ s ts, l.graph.Walk s ts s ∧ (∀ t ∈ ts, t.isEpsilon = true) ∧
          ∃ t ∈ ts, t.source ≠ s) := by
  have hvalid := h.valid
  refine ⟨_, Determinization.takeDown_eq hvalid, rfl, fun members hmembers => ?_,
    Determinization.pairwise_disjoint_classes _, fun s => ⟨fun hs => ?_, ?_⟩,
    fun s t => Determinization.equivalent_iff_leadsTo hvalid,
    (Determinization.hasEquivalent_iff hvalid).trans (Determinization.exists_round_iff hvalid)⟩
  · obtain ⟨s, hs, rfl⟩ := Determinization.mem_classes_ofGraph.1 hmembers
    exact List.ne_nil_of_mem (List.mem_filter.2 ⟨hs, decide_eq_true rfl⟩)
  · exact ⟨_, Determinization.mem_classes_ofGraph.2 ⟨s, hs, rfl⟩,
      List.mem_filter.2 ⟨hs, decide_eq_true rfl⟩⟩
  · rintro ⟨members, hmembers, hs⟩
    obtain ⟨r, -, rfl⟩ := Determinization.mem_classes_ofGraph.1 hmembers
    exact List.mem_of_mem_filter hs

/-- Two states that lead to each other through `ε`, and a third one that a symbol leads to. -/
def epsilonPair : Ledger :=
  (((((ofGraph (.new 0)).withState false).withState false).withTransition ⟨0, 0⟩ ⟨0, 1⟩
    .epsilon).withTransition ⟨0, 1⟩ ⟨0, 0⟩ .epsilon).withTransition ⟨0, 1⟩ ⟨0, 2⟩ (.sym 'a')

theorem reachable_epsilonPair : epsilonPair.Reachable :=
  (((((Reachable.new 0).withState false).withState false).withTransition _ _ _).withTransition
    _ _ _).withTransition _ _ _

/-- The two states make a class, and the third one is by itself. -/
theorem Reachable.equivalent_takeDown_round :
    epsilonPair.Reachable ∧ ∃ table, ClosureTable.takeDown epsilonPair.graph = .ok table ∧
      table.equivalent ⟨0, 0⟩ ⟨0, 1⟩ = true ∧ table.equivalent ⟨0, 1⟩ ⟨0, 2⟩ = false ∧
        table.hasEquivalent epsilonPair.graph = true := by
  obtain ⟨table, htable, hof, -, -, -, hequivalent, hround⟩ :=
    reachable_epsilonPair.equivalent_takeDown
  have hthere : epsilonPair.graph.Walk ⟨0, 0⟩ [_] ⟨0, 1⟩ :=
    .cons (t := ⟨⟨0, 0⟩, ⟨0, 0⟩, ⟨0, 1⟩, .epsilon⟩) (by decide) (.nil _)
  have hback : epsilonPair.graph.Walk ⟨0, 1⟩ [_] ⟨0, 0⟩ :=
    .cons (t := ⟨⟨0, 1⟩, ⟨0, 1⟩, ⟨0, 0⟩, .epsilon⟩) (by decide) (.nil _)
  refine ⟨reachable_epsilonPair, table, htable, (hequivalent _ _).2 ⟨by decide, by decide, ?_, ?_⟩,
    ?_, hround.2 ?_⟩
  · exact hthere.leadsTo (by decide)
  · exact hback.leadsTo (by decide)
  · rw [hof]
    decide
  · exact ⟨_, _, hthere.append hback, by decide, _, List.mem_cons_of_mem _ List.mem_cons_self,
      by decide⟩

end Ledger

end RegularForms
