import RegularForms.Proofs.Determinization.EpsilonFree
import RegularForms.Proofs.Determinization.Equivalence

/-!
# Merging classes in any sequence

The classes are taken down before the `ε` transitions are removed, and are not brought up
to date when states go. That does no harm, whichever states are merged into, and however
often, as long as the start state is not merged into another: each class that is merged
leaves the others with arcs into the classes they had arcs into.
-/

namespace RegularForms

namespace Determinization

open Automaton Rewriting

variable {a b c : Automaton} {s t : StateId}

theorem equivalent_iff (ha : a.Valid) (hs : s ∈ a.stateIds) :
    (ClosureTable.ofGraph a).equivalent s t = true ↔
      t ∈ a.stateIds ∧ a.closure [t] = a.closure [s] := by
  obtain ⟨members, hclass, -, hmembers⟩ := exists_class? hs ha
  rw [ClosureTable.equivalent, hclass]
  exact decide_eq_true_iff.trans (hmembers t)

/-- A state may be merged into if the start state is not in its class, or if it is the
start state. -/
def Admits (table : ClosureTable) (b : Automaton) (s : StateId) : Prop :=
  s ∈ b.stateIds ∧ (table.equivalent s b.start = true → s = b.start)

/-- The automata that arise from `a` when its `ε` transitions are removed and then states
are merged into that may be merged into, with the classes that `a` had. -/
inductive Merging (a : Automaton) : Automaton → Prop
  | freed {order : List StateId} {b : Automaton} (hmem : ∀ s ∈ order, s ∈ a.stateIds)
      (hall : ∀ t ∈ a.transitions, t.isEpsilon = true → t.source ∈ order)
      (hrun : (removeEpsilonOf order).runOn a none = (.ok (), ⟨b, none⟩)) : Merging a b
  | merge {b c : Automaton} {s : StateId} (h : Merging a b)
      (hs : Admits (ClosureTable.ofGraph a) b s)
      (hrun : (carryOut (mergeEquivalent (ClosureTable.ofGraph a) s)).runOn b none =
        (.ok (), ⟨c, none⟩)) : Merging a c

/-- A step of the merging is not refused. -/
theorem Merged.exists_collapsed (h : Merged a b) (ha : a.Valid)
    (hs : Admits (ClosureTable.ofGraph a) b s) :
    ∃ c, (carryOut (mergeEquivalent (ClosureTable.ofGraph a) s)).runOn b none =
        (.ok (), ⟨c, none⟩) ∧ Collapsed a b s c := by
  obtain ⟨hs, hstart⟩ := hs
  have hstay : ∀ t ∈ b.stateIds, a.closure [t] = a.closure [s] → t ≠ s → t ≠ b.start := by
    rintro t ht hclosure hne rfl
    exact hne (hstart ((equivalent_iff ha (h.subset s hs)).2 ⟨h.subset _ ht, hclosure⟩)).symm
  obtain ⟨p, c, hplan, hperforms, hc⟩ := exists_mergeEquivalent ha h hs hstay
  exact ⟨c, runOn_carryOut hplan hperforms, hc⟩

/-- Whatever has been merged, each state that is left stands for its class. -/
theorem Merging.merged (h : Merging a b) (ha : a.Valid) : Merged a b := by
  induction h with
  | freed hmem hall hrun =>
      obtain ⟨_, b', hrun', hfreed, -⟩ := (achieves_removeEpsilonOf ha rfl hmem hall).runOn_none rfl
      obtain rfl := graph_eq_of_runOn_eq hrun' hrun
      exact hfreed.merged
  | merge _ hs hrun ih =>
      obtain ⟨c', hrun', hc⟩ := ih.exists_collapsed ha hs
      obtain rfl := graph_eq_of_runOn_eq hrun' hrun
      exact ih.collapse hc

/-- An arc into some state is matched by one into a state of the same class. -/
theorem exists_equivalent_of_hasArc (ha : a.Valid) (hb : ∀ q ∈ b.stateIds, q ∈ a.stateIds)
    (hc : c.Valid) (hca : ∀ q ∈ c.stateIds, q ∈ a.stateIds) {t : Transition} {r : StateId}
    (ht : t.target ∈ b.stateIds) (hr : a.closure [r] = a.closure [t.target])
    (harc : c.HasArc t.source t.label r) :
    ∃ u ∈ c.transitions, u.source = t.source ∧ u.label = t.label ∧
      (ClosureTable.ofGraph a).equivalent t.target u.target = true := by
  obtain ⟨u, hu, hsource, hlabel, rfl⟩ := harc
  exact ⟨u, hu, hsource, hlabel,
    (equivalent_iff ha (hb _ ht)).2 ⟨hca _ (hc.target_mem u hu), hr⟩⟩

/-- However states have been merged into after the `ε` transitions were removed, the language
is still that of the automaton, and merging the class of any state that may be merged into is
not refused. It leaves that state alone of its class and takes no other state away, and it
leads each transition of a state that is left into the class that it led into, and leaves no
other transition. -/
theorem language_merging {l : Ledger} (hl : l.Reachable) (h : Merging l.graph b) :
    b.language = l.graph.language ∧ ∀ s, Admits (ClosureTable.ofGraph l.graph) b s →
      ∃ c, (carryOut (mergeEquivalent (ClosureTable.ofGraph l.graph) s)).runOn b none =
          (.ok (), ⟨c, none⟩) ∧ Merging l.graph c ∧ c.language = l.graph.language ∧
        (∀ q, q ∈ c.stateIds ↔
          q ∈ b.stateIds ∧ ((ClosureTable.ofGraph l.graph).equivalent s q = true → q = s)) ∧
        (∀ t ∈ b.transitions, t.source ∈ c.stateIds →
          ∃ u ∈ c.transitions, u.source = t.source ∧ u.label = t.label ∧
            (ClosureTable.ofGraph l.graph).equivalent t.target u.target = true) ∧
        ∀ u ∈ c.transitions, ∃ t ∈ b.transitions, t.source = u.source ∧ t.label = u.label ∧
          (ClosureTable.ofGraph l.graph).equivalent u.target t.target = true := by
  have ha := hl.valid
  have hb := h.merged ha
  refine ⟨hb.language_eq ha, fun s hs => ?_⟩
  obtain ⟨c, hrun, hc⟩ := hb.exists_collapsed ha hs
  have hcm := hb.collapse hc
  refine ⟨c, hrun, h.merge hs hrun, hcm.language_eq ha, fun q => ?_, fun t ht hsource => ?_,
    fun u hu => ?_⟩
  · rw [hc.mem_stateIds, equivalent_iff ha (hb.subset s hs.1)]
    exact and_congr_right fun hq =>
      ⟨fun honly h => honly h.2, fun honly h => honly ⟨hb.subset q hq, h⟩⟩
  · obtain ⟨r, hr, harc⟩ := hc.exists_hasArc _ hsource _ _ (hasArc_of_mem ht)
    exact exists_equivalent_of_hasArc ha hb.subset hc.valid hcm.subset
      (hb.valid.target_mem t ht) hr harc
  · obtain ⟨r, hr, harc⟩ := hc.exists_hasArc_before _ _ _ (hasArc_of_mem hu)
    exact exists_equivalent_of_hasArc ha hcm.subset hb.valid hb.subset
      (hc.valid.target_mem u hu) hr harc

open Ledger (epsilonCycle reachable_epsilonCycle)

/-- The case of two states that lead to each other through `ε`: merging into the start state
takes the other one away. -/
theorem language_merging_epsilonCycle :
    epsilonCycle.Reachable ∧ ∃ b c, Merging epsilonCycle.graph b ∧
      Admits (ClosureTable.ofGraph epsilonCycle.graph) b ⟨0, 0⟩ ∧
        (carryOut (mergeEquivalent (ClosureTable.ofGraph epsilonCycle.graph) ⟨0, 0⟩)).runOn b none =
          (.ok (), ⟨c, none⟩) ∧
        c.language = epsilonCycle.graph.language ∧ ⟨0, 1⟩ ∈ b.stateIds ∧ ⟨0, 1⟩ ∉ c.stateIds := by
  have hmem : ∀ s ∈ epsilonCycle.graph.stateIds, s ∈ epsilonCycle.graph.stateIds := fun _ hs => hs
  have hall : ∀ t ∈ epsilonCycle.graph.transitions, t.isEpsilon = true →
      t.source ∈ epsilonCycle.graph.stateIds := by decide
  obtain ⟨b, hrun, hb, -⟩ := exists_epsilonFree reachable_epsilonCycle.valid (.refl _)
  have hmerging : Merging epsilonCycle.graph b := .freed hmem hall hrun
  have hstart : b.start = ⟨0, 0⟩ := hb.start_eq
  have hadmits : Admits (ClosureTable.ofGraph epsilonCycle.graph) b ⟨0, 0⟩ :=
    ⟨(hb.mem_stateIds _).2 (by decide), fun _ => hstart.symm⟩
  obtain ⟨-, hstep⟩ := language_merging reachable_epsilonCycle hmerging
  obtain ⟨c, hrun', -, hlanguage, hstates, -⟩ := hstep _ hadmits
  refine ⟨reachable_epsilonCycle, b, c, hmerging, hadmits, hrun', hlanguage,
    (hb.mem_stateIds _).2 (by decide), fun hc => ?_⟩
  exact absurd (((hstates _).1 hc).2 (by decide)) (by decide)

end Determinization

end RegularForms
