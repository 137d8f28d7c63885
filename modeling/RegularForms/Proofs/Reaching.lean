import RegularForms.Proofs.Restriction

/-!
# What a search finds

A search sees a state as soon as a chosen transition of a state that was seen leads to it. So
it finds what a walk of chosen transitions leads to, however long the walk is, and the state
where it begins by the walk that takes no transition. No transition leads to a state that is
not there, whatever has been done to the graph, and so no look-up on the way is refused. The
states that the start state does not reach are all others.
-/

namespace RegularForms

namespace Automaton

variable {a : Automaton} {follow : Transition → Bool} {s r : StateId}

/-- Just the states that walks of chosen transitions lead to, each once and in order. -/
structure Finds (a : Automaton) (follow : Transition → Bool) (s : StateId) (found : StateSet) :
    Prop where
  ascending : Ident.Ascending id found
  mem_iff (r : StateId) : r ∈ found ↔ ∃ ts, a.Walk s ts r ∧ ∀ t ∈ ts, follow t = true

theorem Valid.finds_reachFrom (ha : a.Valid) : a.Finds follow s (a.reachFrom follow [s]) where
  ascending := ascending_reachLayers _ (List.pairwise_singleton _ s)
  mem_iff r := by
    rw [ha.mem_reachFrom, ← leadsTo_iff_exists_walk]
    simp

theorem Valid.ascending_unreachableStates (ha : a.Valid) :
    Ident.Ascending id a.unreachableStates :=
  List.Pairwise.filter _ (List.pairwise_map.2 ha.ascending)

end Automaton

namespace Ledger

variable {l : Ledger}

/-- In a graph that is reached a search from one of its states comes to an end without a
refusal, whichever transitions it follows, and finds just what walks of these lead to. The
states that a search from the start state does not find are the other ones of the graph. -/
theorem Reachable.finds_search (h : l.Reachable) :
    (∀ follow, ∀ s ∈ l.graph.stateIds, ∃ found, l.graph.search follow s = .ok found ∧
      l.graph.reachable follow s = .ok found ∧ l.graph.Finds follow s found) ∧
    ∃ missing, l.graph.unreachableBySearch = .ok missing ∧
      missing = l.graph.unreachableStates ∧ Ident.Ascending id missing ∧
      ∀ r, r ∈ missing ↔ r ∈ l.graph.stateIds ∧ ¬ ∃ ts, l.graph.Walk l.graph.start ts r := by
  have hvalid := h.valid
  refine ⟨fun follow s hs => ?_, _, hvalid.unreachableBySearch_eq, rfl,
    hvalid.ascending_unreachableStates, fun r => ?_⟩
  · exact ⟨_, hvalid.search_eq hs, hvalid.reachable_eq hs follow, hvalid.finds_reachFrom⟩
  · rw [hvalid.mem_unreachableStates, Automaton.reaches_iff_exists_walk]

/-- A circle of the start state and another one, a state that only `ε` leads to from there, and
a state that leads to the start state. -/
def circle : Ledger :=
  ((((ofGraph (.new 0)).withState false).withState true).withState false).withTransition
    ⟨0, 0⟩ ⟨0, 1⟩ (.star (.sym 'a'))
    |>.withTransition ⟨0, 1⟩ ⟨0, 0⟩ (.sym 'b')
    |>.withTransition ⟨0, 1⟩ ⟨0, 2⟩ .epsilon
    |>.withTransition ⟨0, 3⟩ ⟨0, 0⟩ (.sym 'c')

theorem reachable_circle : circle.Reachable :=
  ((((Reachable.new 0).withState false).withState true).withState false).withTransition _ _ _
    |>.withTransition _ _ _
    |>.withTransition _ _ _
    |>.withTransition _ _ _

/-- From the last state a search that leaves out `ε` goes once round the circle and passes over
the state that only `ε` leads to. The start state does not reach the last. -/
theorem Reachable.finds_search_cycle :
    circle.Reachable ∧ circle.graph.nodes.length = 4 ∧ ⟨0, 3⟩ ∈ circle.graph.stateIds ∧
      circle.graph.search (fun t => !t.isEpsilon) ⟨0, 3⟩ = .ok [⟨0, 0⟩, ⟨0, 1⟩, ⟨0, 3⟩] ∧
      circle.graph.Finds (fun t => !t.isEpsilon) ⟨0, 3⟩ [⟨0, 0⟩, ⟨0, 1⟩, ⟨0, 3⟩] ∧
      circle.graph.unreachableBySearch = .ok [⟨0, 3⟩] := by
  have hmem : ⟨0, 3⟩ ∈ circle.graph.stateIds := by decide
  obtain ⟨hsearch, missing, hmissing, hunreachable, -⟩ := reachable_circle.finds_search
  obtain ⟨found, hfound, hreachable, hfinds⟩ := hsearch (fun t => !t.isEpsilon) _ hmem
  have hthree : found = [⟨0, 0⟩, ⟨0, 1⟩, ⟨0, 3⟩] :=
    (Except.ok.inj hreachable).symm.trans (by decide)
  have hlast : missing = [⟨0, 3⟩] := hunreachable.trans (by decide)
  subst hthree hlast
  exact ⟨reachable_circle, by decide, hmem, hfound, hfinds, hmissing⟩

end Ledger

end RegularForms
