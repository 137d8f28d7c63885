import RegularForms.Proofs.Determinization.Classes

/-!
# What a table keeps of states that are gone

When a table forgets the states that a graph does not have, it drops what it holds under
them and takes them out of the classes. The classes are then just what is left of them, and
states that are still there are equivalent when they were before. But the closures of the
states that stay are kept as they were taken down, so a state that is gone is still found in
the closure of each state that led to it.
-/

namespace RegularForms

namespace ClosureTable

variable (c : ClosureTable) (a : Automaton) (s t : StateId)

/-- The closures of the states that stay are left as they are. -/
theorem closure?_retain :
    (c.retain a).closure? s = if a.hasState s then c.closure? s else none := by
  have hfind : (c.closures.filter fun p => a.hasState p.1).find? (fun p => p.1 == s) =
      if a.hasState s then c.closures.find? fun p => p.1 == s else none := by
    rw [List.find?_filter]
    by_cases hs : a.hasState s = true
    · rw [if_pos hs]
      refine congrArg (List.find? · c.closures) (funext fun p => ?_)
      by_cases hp : p.1 = s <;> simp [hp, hs]
    · rw [if_neg hs, List.find?_eq_none]
      rintro p - hp
      obtain ⟨hkept, heq⟩ := of_decide_eq_true hp
      exact hs (beq_iff_eq.1 heq ▸ hkept)
  rw [closure?, retain, hfind]
  by_cases hs : a.hasState s = true
  · rw [if_pos hs, if_pos hs, closure?]
  · rw [if_neg hs, if_neg hs, Option.map_none]

/-- A class loses the members that are gone. -/
theorem class?_retain :
    (c.retain a).class? s =
      if a.hasState s then (c.class? s).map (List.filter a.hasState) else none := by
  rw [class?, retain, List.find?_filter, List.find?_map]
  by_cases hs : a.hasState s = true
  · rw [if_pos hs, class?]
    refine congrArg (fun p => Option.map _ (List.find? p c.classes)) (funext fun members => ?_)
    -- What holds `s` is not empty, and `s` is not taken out of it.
    have hmem : s ∈ members.filter a.hasState ↔ s ∈ members :=
      List.mem_filter.trans (and_iff_left hs)
    rw [Function.comp_apply, decide_eq_decide, decide_eq_true_eq, hmem]
    refine and_iff_right_of_imp fun hs => ?_
    rw [Bool.not_eq_true', List.isEmpty_eq_false_iff]
    exact List.ne_nil_of_mem (hmem.2 hs)
  · rw [if_neg hs, List.find?_eq_none.2, Option.map_none]
    rintro members - hmembers
    have hmem := of_decide_eq_true (of_decide_eq_true hmembers).2
    exact hs (List.mem_filter.1 hmem).2

/-- States that are still there are equivalent when they were before, and no others are. -/
theorem equivalent_retain_eq :
    (c.retain a).equivalent s t = (c.equivalent s t && (a.hasState s && a.hasState t)) := by
  rw [equivalent, equivalent, class?_retain]
  cases hs : a.hasState s <;> cases c.class? s <;> simp [List.mem_filter]

/-- What is left of the classes is not empty, and has only states that are there. -/
theorem mem_classes_retain {members : StateSet} (h : members ∈ (c.retain a).classes) :
    members ≠ [] ∧ ∀ s ∈ members, a.hasState s = true := by
  obtain ⟨h, hne⟩ := List.mem_filter.1 h
  obtain ⟨whole, -, rfl⟩ := List.mem_map.1 h
  refine ⟨?_, fun s hs => (List.mem_filter.1 hs).2⟩
  rwa [Bool.not_eq_true', List.isEmpty_eq_false_iff] at hne

end ClosureTable

namespace Determinization

variable {a : Automaton} {s : StateId}

/-- A table holds the closures of the states of its graph, and of no others. -/
theorem closure?_ofGraph :
    (ClosureTable.ofGraph a).closure? s =
      if s ∈ a.stateIds then some (a.closure [s]) else none := by
  rw [ClosureTable.closure?, ClosureTable.ofGraph, List.find?_map, Option.map_map]
  cases hfind : a.stateIds.find? ((fun p : StateId × StateSet => p.1 == s) ∘
      fun s => (s, a.closure [s])) with
  | none =>
      refine (if_neg fun hs => ?_).symm
      exact List.find?_eq_none.1 hfind s hs (beq_self_eq_true s)
  | some r =>
      have hr := List.find?_some hfind
      obtain rfl : r = s := beq_iff_eq.1 hr
      rw [if_pos (List.mem_of_find?_eq_some hfind), Option.map_some]
      rfl

end Determinization

namespace Ledger

variable {l m : Ledger} {table : ClosureTable}

/-- A table is taken down, any operations are performed, and the table forgets the states
that the graph does not have any more. Then it holds nothing under a state that is gone, or
that has been added since. Under a state that stayed it holds what is left of its class, and
its closure just as it was taken down: there are only states of the graph in it if all the
states are still there that the state led to through `ε` alone. No class is empty or has a
state that is gone, and states of the graph are equivalent exactly when they were before. -/
theorem Reachable.equivalent_retain (h : l.Reachable)
    (htable : ClosureTable.takeDown l.graph = .ok table) (hm : l.Since m) :
    (∀ s, s ∉ l.graph.stateIds ∨ s ∉ m.graph.stateIds →
      (table.retain m.graph).closure? s = none ∧ (table.retain m.graph).class? s = none) ∧
    (∀ s ∈ l.graph.stateIds, s ∈ m.graph.stateIds →
      (∃ members, (table.retain m.graph).class? s = some members ∧
        ∀ r, r ∈ members ↔ r ∈ m.graph.stateIds ∧ table.equivalent s r = true) ∧
      ∃ set, table.closure? s = some set ∧ (table.retain m.graph).closure? s = some set ∧
        (∀ r, r ∈ set ↔ l.graph.LeadsTo Transition.isEpsilon s r)) ∧
    (∀ members ∈ (table.retain m.graph).classes,
      members ≠ [] ∧ ∀ s ∈ members, s ∈ m.graph.stateIds) ∧
    ∀ s ∈ m.graph.stateIds, ∀ t ∈ m.graph.stateIds,
      (table.retain m.graph).equivalent s t = table.equivalent s t := by
  have hvalid := h.valid
  have hthere : ∀ s, m.graph.hasState s = true ↔ s ∈ m.graph.stateIds := fun s =>
    (hm.continues h.kept).kept.accounted.valid.hasState_iff
  obtain rfl : ClosureTable.ofGraph l.graph = table :=
    Except.ok.inj ((Determinization.takeDown_eq hvalid).symm.trans htable)
  refine ⟨fun s hs => ?_, fun s hs hs' => ⟨?_, l.graph.closure [s], ?_⟩, fun members hmembers => ?_,
    fun s hs t ht => ?_⟩
  · rw [ClosureTable.closure?_retain, ClosureTable.class?_retain]
    rcases hs with hs | hs
    · rw [Determinization.closure?_ofGraph, if_neg hs,
        Determinization.class?_ofGraph_of_notMem hs]
      exact ⟨ite_self _, ite_self _⟩
    · have hgone := mt (hthere s).1 hs
      exact ⟨if_neg hgone, if_neg hgone⟩
  · obtain ⟨members, hclass, -, hmembers⟩ := Determinization.exists_class? hs hvalid
    refine ⟨members.filter m.graph.hasState, ?_, fun r => ?_⟩
    · rw [ClosureTable.class?_retain, if_pos ((hthere s).2 hs'), hclass, Option.map_some]
    · rw [List.mem_filter, hthere, hmembers, ← Determinization.equivalent_iff hvalid hs, and_comm]
  · rw [ClosureTable.closure?_retain, if_pos ((hthere s).2 hs'), Determinization.closure?_ofGraph,
      if_pos hs]
    refine ⟨rfl, rfl, fun r => hvalid.mem_closure.trans ?_⟩
    simp only [List.mem_singleton, exists_eq_left]
  · obtain ⟨hne, hall⟩ := ClosureTable.mem_classes_retain _ _ hmembers
    exact ⟨hne, fun s hs => (hthere s).1 (hall s hs)⟩
  · rw [ClosureTable.equivalent_retain_eq, (hthere s).2 hs, (hthere t).2 ht, Bool.and_self,
      Bool.and_true]

/-- A graph with `ε` transitions from `0` to `1` and back and from `1` on to `2`, and the graph
that it becomes when the last transition and `2` are removed. -/
theorem exists_since_removal : ∃ l m : Ledger, l.Reachable ∧ l.Since m ∧
    l.graph = ⟨0, ⟨0, 0⟩, 3, 3,
      [⟨⟨⟨0, 0⟩, false⟩, [⟨⟨0, 0⟩, ⟨0, 0⟩, ⟨0, 1⟩, .epsilon⟩]⟩,
        ⟨⟨⟨0, 1⟩, false⟩, [⟨⟨0, 1⟩, ⟨0, 1⟩, ⟨0, 0⟩, .epsilon⟩, ⟨⟨0, 2⟩, ⟨0, 1⟩, ⟨0, 2⟩, .epsilon⟩]⟩,
        ⟨⟨⟨0, 2⟩, false⟩, []⟩]⟩ ∧
    m.graph = ⟨0, ⟨0, 0⟩, 3, 3,
      [⟨⟨⟨0, 0⟩, false⟩, [⟨⟨0, 0⟩, ⟨0, 0⟩, ⟨0, 1⟩, .epsilon⟩]⟩,
        ⟨⟨⟨0, 1⟩, false⟩, [⟨⟨0, 1⟩, ⟨0, 1⟩, ⟨0, 0⟩, .epsilon⟩]⟩]⟩ := by
  have h := ((((Reachable.new 0).withState false).withState false).withTransition ⟨0, 0⟩ ⟨0, 1⟩
    .epsilon).withTransition ⟨0, 1⟩ ⟨0, 0⟩ .epsilon
  have h := h.withTransition ⟨0, 1⟩ ⟨0, 2⟩ .epsilon
  exact ⟨_, _, h, (Since.refl.perform (o := .removeTransition ⟨0, 1⟩ ⟨0, 2⟩) trivial).perform
    (o := .removeState ⟨0, 2⟩) trivial, rfl, rfl⟩

/-- The two states that stay are still equivalent, and nothing is held under the third one. -/
theorem Reachable.equivalent_retain_round :
    ∃ l m : Ledger, l.Reachable ∧ l.Since m ∧ ∃ table,
      ClosureTable.takeDown l.graph = .ok table ∧
        (table.retain m.graph).closure? ⟨0, 2⟩ = none ∧
          (table.retain m.graph).equivalent ⟨0, 0⟩ ⟨0, 1⟩ = true := by
  obtain ⟨l, m, hl, hm, hbefore, hafter⟩ := exists_since_removal
  have htable := Determinization.takeDown_eq hl.valid
  obtain ⟨hgone, -, -, hequivalent⟩ := hl.equivalent_retain htable hm
  refine ⟨l, m, hl, hm, _, htable, (hgone _ (.inr ?_)).1, (hequivalent _ ?_ _ ?_).trans ?_⟩
  · rw [hafter]; decide
  · rw [hafter]; decide
  · rw [hafter]; decide
  · rw [hbefore]; decide

/-- The third state is gone, and the table still says that the first one leads to it. -/
theorem exists_gone_of_closure_retain :
    ∃ l m : Ledger, l.Reachable ∧ l.Since m ∧ ∃ table,
      ClosureTable.takeDown l.graph = .ok table ∧ ∃ s ∈ m.graph.stateIds, ∃ set,
        (table.retain m.graph).closure? s = some set ∧ ∃ r ∈ set, r ∉ m.graph.stateIds := by
  obtain ⟨l, m, hl, hm, hbefore, hafter⟩ := exists_since_removal
  refine ⟨l, m, hl, hm, _, Determinization.takeDown_eq hl.valid, ⟨0, 0⟩, ?_,
    [⟨0, 0⟩, ⟨0, 1⟩, ⟨0, 2⟩], ?_, ⟨0, 2⟩, ?_, ?_⟩
  · rw [hafter]; decide
  · rw [hbefore, hafter]; decide
  · decide
  · rw [hafter]; decide

end Ledger

end RegularForms
