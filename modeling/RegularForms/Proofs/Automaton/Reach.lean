import Mathlib.Data.Finset.Card
import Mathlib.Logic.Relation
import RegularForms.Automaton.Reach
import RegularForms.Proofs.Automaton.Valid

/-!
# The states that are reached

The search in layers finds exactly the states that the chosen transitions lead to. Each
layer that is not empty makes the set of states of the graph that were not seen yet
smaller, so that the number of layers that are allowed is never used up.
-/

namespace RegularForms

namespace Automaton

variable {a : Automaton} {follow : Transition → Bool}

def StepsTo (a : Automaton) (follow : Transition → Bool) (s r : StateId) : Prop :=
  ∃ t ∈ a.transitions, follow t = true ∧ t.source = s ∧ t.target = r

/-- Transitions that pass a test lead from one state to another. -/
def LeadsTo (a : Automaton) (follow : Transition → Bool) : StateId → StateId → Prop :=
  Relation.ReflTransGen (a.StepsTo follow)

theorem Valid.mem_stepTargets (ha : a.Valid) {sources : List StateId} {r : StateId} :
    r ∈ a.stepTargets follow sources ↔ ∃ s ∈ sources, a.StepsTo follow s r := by
  rw [Automaton.mem_stepTargets]
  refine exists_congr fun s => and_congr_right fun _ => exists_congr fun t => ?_
  rw [ha.mem_out]
  constructor
  · rintro ⟨⟨ht, hts⟩, hfollow, htr⟩
    exact ⟨ht, hfollow, hts, htr⟩
  · rintro ⟨ht, hfollow, hts, htr⟩
    exact ⟨⟨ht, hts⟩, hfollow, htr⟩

theorem StepsTo.target_mem (ha : a.Valid) {s r : StateId} (h : a.StepsTo follow s r) :
    r ∈ a.stateIds := by
  obtain ⟨t, ht, -, -, rfl⟩ := h
  exact ha.target_mem t ht

theorem LeadsTo.target_mem (ha : a.Valid) {s r : StateId} (hs : s ∈ a.stateIds)
    (h : a.LeadsTo follow s r) : r ∈ a.stateIds := by
  cases h with
  | refl => exact hs
  | tail _ hstep => exact hstep.target_mem ha

/-- Every state that is found is led to from the given ones. -/
theorem Valid.leadsTo_of_mem_reachLayers (ha : a.Valid) {set : StateSet} (layers : Nat)
    {seen last : StateSet} (hseen : ∀ r ∈ seen, ∃ s ∈ set, a.LeadsTo follow s r)
    (hlast : ∀ r ∈ last, r ∈ seen) {r : StateId}
    (h : r ∈ a.reachLayers follow layers seen last) :
    ∃ s ∈ set, a.LeadsTo follow s r := by
  induction layers generalizing seen last with
  | zero => exact hseen r h
  | succ layers ih =>
      simp only [reachLayers] at h
      split at h
      · exact hseen r h
      · refine ih (fun q hq => ?_) (fun q hq => StateSet.mem_union.2 (.inr hq)) h
        rcases StateSet.mem_union.1 hq with hq | hq
        · exact hseen q hq
        · have hq := (List.mem_filter.1 (StateSet.mem_ofList.1 hq)).1
          obtain ⟨p, hp, hstep⟩ := ha.mem_stepTargets.1 hq
          obtain ⟨s, hs, hlead⟩ := hseen p (hlast p hp)
          exact ⟨s, hs, hlead.tail hstep⟩

/-- Seeing a state that was missing leaves fewer missing. -/
theorem card_missing_lt {seen next : StateSet} {q : StateId} (hq : q ∈ a.stateIds)
    (hnext : q ∈ next) (hseen : q ∉ seen) :
    (a.stateIds.toFinset \ (StateSet.union seen next).toFinset).card <
      (a.stateIds.toFinset \ seen.toFinset).card := by
  refine Finset.card_lt_card (Finset.ssubset_iff_of_subset ?_ |>.2 ⟨q, ?_, ?_⟩)
  · refine Finset.sdiff_subset_sdiff (Finset.Subset.refl _) fun p hp => ?_
    exact List.mem_toFinset.2 (StateSet.mem_union.2 (.inl (List.mem_toFinset.1 hp)))
  · exact Finset.mem_sdiff.2 ⟨List.mem_toFinset.2 hq, fun h => hseen (List.mem_toFinset.1 h)⟩
  · intro h
    exact (Finset.mem_sdiff.1 h).2 (List.mem_toFinset.2 (StateSet.mem_union.2 (.inr hnext)))

/-- What the search finds is closed under the chosen transitions, provided that what is
missing from the states seen is no more than the layers that are left. -/
theorem Valid.mem_reachLayers_of_stepsTo (ha : a.Valid) (layers : Nat)
    {seen last : StateSet}
    (hdone : ∀ s ∈ seen, s ∉ last → ∀ r, a.StepsTo follow s r → r ∈ seen)
    (hleft : (a.stateIds.toFinset \ seen.toFinset).card ≤ layers) {s r : StateId}
    (hs : s ∈ a.reachLayers follow layers seen last) (hstep : a.StepsTo follow s r) :
    r ∈ a.reachLayers follow layers seen last := by
  induction layers generalizing seen last with
  | zero =>
      have hempty := Finset.card_eq_zero.1 (Nat.le_zero.1 hleft)
      have hsub := Finset.sdiff_eq_empty_iff_subset.1 hempty
      exact List.mem_toFinset.1 (hsub (List.mem_toFinset.2 (hstep.target_mem ha)))
  | succ layers ih =>
      have hnext : ∀ q, q ∈ StateSet.ofList ((a.stepTargets follow last).filter fun q => q ∉ seen) ↔
          (∃ p ∈ last, a.StepsTo follow p q) ∧ q ∉ seen := by
        intro q
        rw [StateSet.mem_ofList, List.mem_filter, ha.mem_stepTargets, decide_eq_true_eq]
      simp only [reachLayers] at hs ⊢
      generalize StateSet.ofList ((a.stepTargets follow last).filter fun q => q ∉ seen) = next
        at hs hnext ⊢
      have hsucc : ∀ s ∈ seen, ∀ r, a.StepsTo follow s r → r ∈ seen ∨ r ∈ next := by
        intro s hs r hsr
        by_cases hr : r ∈ seen
        · exact .inl hr
        · by_cases hsl : s ∈ last
          · exact .inr ((hnext r).2 ⟨⟨s, hsl, hsr⟩, hr⟩)
          · exact absurd (hdone s hs hsl r hsr) hr
      split at hs
      · next hempty =>
          rw [if_pos hempty]
          have hnone : ¬ r ∈ next := by
            rw [List.isEmpty_iff.1 hempty]
            exact List.not_mem_nil
          exact (hsucc s hs r hstep).resolve_right hnone
      · next hne =>
          rw [if_neg hne]
          refine ih (fun p hp hpn q hpq => ?_) ?_ hs
          · have hp := (StateSet.mem_union.1 hp).resolve_right hpn
            exact StateSet.mem_union.2 (hsucc p hp q hpq)
          · obtain ⟨q, hq⟩ := List.exists_mem_of_ne_nil next fun h => hne (h ▸ rfl)
            obtain ⟨⟨p, -, hpq⟩, hqs⟩ := (hnext q).1 hq
            have hlt := card_missing_lt (hpq.target_mem ha) hq hqs
            exact Nat.lt_succ_iff.1 (Nat.lt_of_lt_of_le hlt hleft)

/-- The search finds exactly what the given states lead to. -/
theorem Valid.mem_reachFrom (ha : a.Valid) {set : StateSet} {r : StateId} :
    r ∈ a.reachFrom follow set ↔ ∃ s ∈ set, a.LeadsTo follow s r := by
  constructor
  · intro h
    exact ha.leadsTo_of_mem_reachLayers _ (fun s hs => ⟨s, hs, .refl⟩) (fun s hs => hs) h
  · rintro ⟨s, hs, hlead⟩
    have hleft : (a.stateIds.toFinset \ set.toFinset).card ≤ a.nodes.length := by
      have hcard := List.toFinset_card_le a.stateIds
      rw [stateIds, List.length_map] at hcard
      exact (Finset.card_le_card Finset.sdiff_subset).trans hcard
    induction hlead with
    | refl => exact mem_reachFrom_self hs
    | tail _ hstep ih =>
        exact ha.mem_reachLayers_of_stepsTo _ (fun p hp hpn => absurd hp hpn) hleft ih hstep

theorem Valid.mem_closure (ha : a.Valid) {set : StateSet} {r : StateId} :
    r ∈ a.closure set ↔ ∃ s ∈ set, a.LeadsTo Transition.isEpsilon s r :=
  ha.mem_reachFrom

theorem Valid.mem_reachableStates (ha : a.Valid) {r : StateId} :
    r ∈ a.reachableStates ↔ a.LeadsTo (fun _ => true) a.start r := by
  refine ha.mem_reachFrom.trans ?_
  simp

end Automaton

end RegularForms
