import RegularForms.Proofs.Determinization.EpsilonFree
import RegularForms.Proofs.Determinization.Equivalence
import RegularForms.Proofs.Determinization.Subset
import RegularForms.Proofs.Elimination.Plan
import RegularForms.Proofs.Expansion.Count

/-!
# Every plan can be carried out and taken back

An edit is planned by looking at a graph and is applied later. `Planned` lists the ways in which
edits are planned, whichever conversion they are for. Planning one hands out states and
transitions and does nothing else; the edit can be applied to the graph it was planned for; and
when it is reverted right after that, the graph is the one it was.

For most plans this comes with what they achieve. But the tables that are used to merge states
and to make states stand for sets may be about other graphs, and what the edit achieves is then
anyone's guess. Still it fits the graph, since of such a table only what the graph has of it is
used: of a class the states of the graph, and of the states that stand for sets those that it
has handed out.
-/

namespace RegularForms

open Automaton

variable {a : Automaton} {s : StateId} {p : Plan}

/-! ## Determinizations -/

namespace ClosureTable

/-- The tables that can be made: a table is taken down of some graph, which need not be the one
that it is used for, and forgets the states that other graphs do not have. -/
inductive Taken : ClosureTable → Prop
  | empty : Taken .empty
  | ofGraph {a : Automaton} (ha : a.Reachable) : Taken (.ofGraph a)
  | retain {table : ClosureTable} (h : Taken table) (a : Automaton) : Taken (table.retain a)

/-- No state is twice in a class. -/
theorem Taken.nodup {table : ClosureTable} (h : table.Taken) :
    ∀ members ∈ table.classes, members.Nodup := by
  induction h with
  | empty => exact List.forall_mem_nil _
  | @ofGraph a ha =>
      intro members hmembers
      obtain ⟨s, -, rfl⟩ := Determinization.mem_classes_ofGraph.1 hmembers
      exact ha.valid.nodup_stateIds.filter _
  | retain _ a ih =>
      intro members hmembers
      obtain ⟨before, hbefore, rfl⟩ := List.mem_map.1 (List.mem_of_mem_filter hmembers)
      exact (ih before hbefore).filter _

theorem Taken.nodup_class? {table : ClosureTable} (h : table.Taken) (s : StateId) :
    ((table.class? s).getD []).Nodup := by
  cases hclass : table.class? s with
  | none => exact List.nodup_nil
  | some members => exact h.nodup members (List.mem_of_find?_eq_some hclass)

end ClosureTable

/-- The states that stand for sets have been handed out by an automaton, whatever the sets are
and whichever states they are sets of. -/
def SubsetTable.Issued (table : SubsetTable) (a : Automaton) : Prop :=
  ∀ x ∈ table.bindings, x.state.id.owner = a.owner ∧ x.state.id.index < a.nextState

/-- A state that is assigned to a set has been handed out, be it just now. -/
theorem SubsetTable.Issued.assign {table table' : SubsetTable} (h : table.Issued a)
    {set : StateSet} {target : State} {created : Nat}
    (hassign : table.assign set a = (target, created, table')) :
    target.id.owner = a.owner ∧ target.id.index < a.nextState + created := by
  unfold SubsetTable.assign at hassign
  cases hfor : table.stateFor? set with
  | some state =>
      rw [hfor] at hassign
      obtain ⟨rfl, rfl, rfl⟩ := hassign
      obtain ⟨x, hfind, rfl⟩ := Option.map_eq_some_iff.1 hfor
      exact h x (List.mem_of_find?_eq_some hfind)
  | none =>
      rw [hfor] at hassign
      obtain ⟨rfl, rfl, rfl⟩ := hassign
      exact ⟨rfl, Nat.lt_succ_self _⟩

namespace Determinization

theorem exists_performs_of_removeEpsilon (ha : a.Valid) (h : removeEpsilon s a = .ok p) :
    ∃ b, p.Performs a b := by
  obtain ⟨closure, hclosure, -⟩ := bind_eq_ok_iff.1 h
  have hs := mem_stateIds_of_epsilonClosure_eq hclosure
  obtain rfl := Except.ok.inj (h.symm.trans (removeEpsilon_eq ha hs))
  obtain ⟨b, hperforms, -⟩ := exists_copied ha hs
  exact ⟨b, hperforms⟩

theorem exists_performs_of_mergeEquivalent (ha : a.Valid) {table : ClosureTable}
    (htable : table.Taken) (hstart : table.equivalent s a.start = true → s = a.start)
    (h : mergeEquivalent table s a = .ok p) : ∃ b, p.Performs a b := by
  obtain ⟨state, hstate, -⟩ := bind_eq_ok_iff.1 h
  have hs := mem_stateIds_of_state_eq hstate
  obtain rfl := Except.ok.inj (h.symm.trans (mergeEquivalent_eq ha hs table))
  have hremoved : ∀ q ∈ (classmates table s a).filter (fun q => q ≠ s),
      q ∈ a.stateIds ∧ q ≠ s ∧ q ≠ a.start := by
    intro q hq
    obtain ⟨hclass, hne⟩ := List.mem_filter.1 hq
    obtain ⟨hclass, hhas⟩ := List.mem_filter.1 hclass
    have hne : q ≠ s := of_decide_eq_true hne
    refine ⟨ha.hasState_iff.1 hhas, hne, ?_⟩
    rintro rfl
    refine hne (hstart ?_).symm
    rw [ClosureTable.equivalent]
    cases hfind : table.class? s with
    | none =>
        rw [hfind] at hclass
        nomatch hclass
    | some members =>
        rw [hfind] at hclass
        exact decide_eq_true hclass
  have hfits := fits_absorb ha hs (((htable.nodup_class? s).filter _).filter _) hremoved
    (nodup_intoClass ha table s) (fun u hu => (mem_intoClass.1 hu).1)
    fun u hu htarget => mem_intoClass.2 ⟨hu, List.mem_of_mem_filter htarget⟩
  obtain ⟨b, hperforms, -⟩ := ha.exists_performs rfl hfits
  exact ⟨b, hperforms⟩

theorem exists_performs_of_determinize (ha : a.Valid) {table table' : SubsetTable} {c : Char}
    (htable : table.Issued a) (h : determinize table s c a = .ok (p, table')) :
    ∃ b, p.Performs a b := by
  obtain ⟨ts, hout, -⟩ := bind_eq_ok_iff.1 h
  have hs := mem_stateIds_of_outgoing_eq hout
  obtain ⟨target, created, hassign, rfl⟩ := exists_assign_of_determinize ha hs h
  split
  · next htarget =>
      have hfits := fits_relink (c := c) ha hs (ha.hasState_iff.1 htarget) created
      obtain ⟨b, hperforms, -⟩ := ha.exists_performs rfl hfits
      exact ⟨b, hperforms⟩
  · next htarget =>
      have hnew : target.id ∉ a.stateIds := fun hmem => htarget (ha.hasState_iff.2 hmem)
      have hfits : (extend a s c target created (targetSet table a s c)).edit.Fits
          (extend a s c target created (targetSet table a s c)).graph.outline :=
        fits_extend ha hs hnew (htable.assign hassign)
      obtain ⟨b, hperforms, -⟩ := ha.exists_performs rfl hfits
      exact ⟨b, hperforms⟩

end Determinization

/-! ## All plans -/

inductive Planned (a : Automaton) : Plan → Prop
  | choice {t : TransitionId} {p : Plan} (h : Expansion.choice t a = .ok p) : Planned a p
  | sequence {t : TransitionId} {p : Plan} (h : Expansion.sequence t a = .ok p) : Planned a p
  | option {t : TransitionId} {p : Plan} (h : Expansion.option t a = .ok p) : Planned a p
  | iteration {isolation : Isolation} {t : TransitionId} {p : Plan}
      (h : Expansion.iteration isolation t a = .ok p) : Planned a p
  | expansion {t : TransitionId} {p : Plan} (h : Expansion.plan? t a = .ok (some p)) :
      Planned a p
  | removeEpsilon {s : StateId} {p : Plan} (h : Determinization.removeEpsilon s a = .ok p) :
      Planned a p
  /-- The start state is not among the states that are merged away. -/
  | mergeEquivalent {table : ClosureTable} {s : StateId} {p : Plan} (htable : table.Taken)
      (hstart : table.equivalent s a.start = true → s = a.start)
      (h : Determinization.mergeEquivalent table s a = .ok p) : Planned a p
  | determinize {table table' : SubsetTable} {s : StateId} {c : Char} {p : Plan}
      (htable : table.Issued a) (h : Determinization.determinize table s c a = .ok (p, table')) :
      Planned a p
  | isolateFinal {p : Plan} (h : Elimination.isolateFinal? a = some p) : Planned a p
  | isolateInitial {p : Plan} (h : Elimination.isolateInitial? a = some p) : Planned a p
  | foldLoop {t : TransitionId} {p : Plan} (h : Elimination.foldLoop t a = .ok p) : Planned a p
  | joinParallel {s r : StateId} {p : Plan} (h : Elimination.joinParallel s r a = .ok p) :
      Planned a p
  | bypass {s : StateId} {p : Plan} (h : Elimination.bypass s a = .ok p) : Planned a p

theorem Planned.exists_performs (ha : a.Reachable) (h : Planned a p) : ∃ b, p.Performs a b := by
  have hv := ha.valid
  have hexpands : Expansion.Expands a p → ∃ b, p.Performs a b := by
    intro hp
    obtain ⟨b, hperforms, -⟩ := (hp.unfolds hv).exists_performs hv
    exact ⟨b, hperforms⟩
  cases h with
  | choice h => exact hexpands (.choice h)
  | sequence h => exact hexpands (.sequence h)
  | option h => exact hexpands (.option h)
  | iteration h => exact hexpands (.iteration h)
  | expansion h => exact hexpands (Expansion.expands_of_plan? h)
  | removeEpsilon h => exact Determinization.exists_performs_of_removeEpsilon hv h
  | mergeEquivalent htable hstart h =>
      exact Determinization.exists_performs_of_mergeEquivalent hv htable hstart h
  | determinize htable h => exact Determinization.exists_performs_of_determinize hv htable h
  | isolateFinal h =>
      obtain ⟨finals, hfinals, rfl⟩ := Elimination.exists_finals_of_isolateFinal? hv h
      obtain ⟨b, hperforms, -⟩ := Elimination.exists_gathered hv hfinals
      exact ⟨b, hperforms⟩
  | isolateInitial h =>
      obtain ⟨moved, hnodup, hmoved, rfl⟩ := Elimination.exists_moved_of_isolateInitial? hv h
      obtain ⟨b, hperforms, -⟩ := Elimination.exists_twinStart hv hnodup hmoved
      exact ⟨b, hperforms⟩
  | foldLoop h =>
      obtain ⟨loop, hloop, -, -, -, rfl⟩ := (Elimination.foldLoop_eq_ok_iff hv).1 h
      obtain ⟨b, hperforms, -⟩ := Elimination.exists_folded hv hloop
      exact ⟨b, hperforms⟩
  | joinParallel h =>
      obtain ⟨hlen, -⟩ := (Elimination.joinParallel_eq_ok_iff hv).1 h
      obtain ⟨q, b, hq, hperforms, -⟩ := Elimination.exists_joinParallel hv hlen
      obtain rfl := Except.ok.inj (h.symm.trans hq)
      exact ⟨b, hperforms⟩
  | bypass h =>
      obtain ⟨hs, hstart, hloopless, rfl⟩ := (Elimination.bypass_eq_ok_iff hv).1 h
      obtain ⟨b, hperforms, -⟩ := Elimination.exists_bypassed hv hs hstart hloopless
      exact ⟨b, hperforms⟩

/-- Planning an edit for an automaton hands out states and transitions and leaves the graph as
it is. The edit can be applied to it, and reverting it right after that is not refused and leads
back to just this graph. -/
theorem Planned.apply_revert (ha : a.Reachable) (h : Planned a p) :
    ∃ m n left used b, p.graph = a.reserve m n ∧
      (Step.ofEdit p.edit).apply p.graph = ⟨left, b, none⟩ ∧
        ((Step.ofEdit p.edit).remember left).revert b = ⟨used, p.graph, none⟩ := by
  obtain ⟨b, ⟨m, n, hgraph⟩, hjoins⟩ := h.exists_performs ha
  obtain ⟨left, happly, hretracts⟩ := hjoins.apply_eq .nothing
  obtain ⟨used, hrevert⟩ := hretracts.revert_eq
  exact ⟨m, n, left, used, b, hgraph, happly, hrevert⟩

open Ledger (epsilonCycle reachable_epsilonCycle)

/-- The case of two states that lead to each other through `ε` and are merged although their
`ε` transitions have not been removed. -/
theorem Planned.apply_revert_epsilonCycle :
    epsilonCycle.graph.Reachable ∧ ∃ p, Planned epsilonCycle.graph p ∧
      Determinization.mergeEquivalent (.ofGraph epsilonCycle.graph) ⟨0, 0⟩ epsilonCycle.graph =
        .ok p ∧
      ∃ left used b, (Step.ofEdit p.edit).apply p.graph = ⟨left, b, none⟩ ∧
        ((Step.ofEdit p.edit).remember left).revert b = ⟨used, p.graph, none⟩ := by
  have hreachable : epsilonCycle.graph.Reachable :=
    ⟨⟨_, reachable_epsilonCycle, rfl⟩, by decide⟩
  obtain ⟨p, hp⟩ : ∃ p, Determinization.mergeEquivalent (.ofGraph epsilonCycle.graph) ⟨0, 0⟩
      epsilonCycle.graph = .ok p := ⟨_, rfl⟩
  have hplanned : Planned epsilonCycle.graph p :=
    .mergeEquivalent (.ofGraph hreachable) (fun _ => rfl) hp
  obtain ⟨m, n, left, used, b, -, happly, hrevert⟩ := Planned.apply_revert hreachable hplanned
  exact ⟨hreachable, p, hplanned, hp, left, used, b, happly, hrevert⟩

end RegularForms
