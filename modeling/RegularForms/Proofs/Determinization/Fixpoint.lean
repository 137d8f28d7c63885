import RegularForms.Proofs.Determinization.Complete

/-!
# Making an automaton deterministic twice

A deterministic automaton whose states are all reached gives no pass anything to do: there
is no `ε` transition to remove, each closure is that of one state only, nothing is to be
pruned, and no symbol is ambiguous. So what comes out of making an automaton deterministic
stays as it is when this is done again, and nothing is recorded.
-/

namespace RegularForms

namespace Rewriting

variable {α β : Type} {a : Automaton} {x : α}

/-- A conversion does nothing to a graph and records nothing. -/
def Idles (m : Rewriting α) (a : Automaton) (x : α) : Prop :=
  ∀ history, m.runOn a history = (.ok x, ⟨a, history⟩)

theorem idles_pure (x : α) : Idles (pure x) a x := fun _ => rfl

theorem Idles.bind {m : Rewriting α} {f : α → Rewriting β} {y : β} (hm : Idles m a x)
    (hf : Idles (f x) a y) : Idles (m >>= f) a y := by
  intro history
  exact (run_bind (hm history)).trans (hf history)

theorem Idles.graph {f : Automaton → Rewriting β} {y : β} (h : Idles (f a) a y) :
    Idles (graph >>= f) a y :=
  Idles.bind (fun _ => rfl) h

theorem idles_forM {f : α → Rewriting Unit} {xs : List α} (h : ∀ x ∈ xs, Idles (f x) a ()) :
    Idles (xs.forM f) a () := by
  induction xs with
  | nil => exact idles_pure ()
  | cons x xs ih =>
      obtain ⟨hx, hxs⟩ := List.forall_mem_cons.1 h
      exact Idles.bind hx (ih hxs)

end Rewriting

namespace Determinization

open Automaton Rewriting

variable {a : Automaton} {s r : StateId}

theorem Deterministic.not_isEpsilon (h : Deterministic a) {t : Transition}
    (ht : t ∈ a.transitions) : ¬ t.isEpsilon = true := by
  rw [h.no_epsilon t ht]
  exact Bool.false_ne_true

theorem Deterministic.unambiguous (h : Deterministic a) (c : Char) : Unambiguous a s c := by
  intro t ht u hu hts hus htc huc
  exact h.eq_of_label_eq t ht u hu (hts.trans hus.symm) (htc.trans huc.symm)

theorem Deterministic.freed (ha : a.Valid) (h : Deterministic a) : Freed a [] a :=
  ⟨ha, rfl, fun _ => Iff.rfl, fun _ _ _ => Iff.rfl, fun _ => Iff.rfl,
    fun _ ht heps => absurd heps (h.not_isEpsilon ht)⟩

theorem Deterministic.eq_of_closure_eq (ha : a.Valid) (h : Deterministic a)
    (hclosure : a.closure [r] = a.closure [s]) : r = s := by
  rcases Relation.ReflTransGen.cases_head (leadsTo_of_closure_eq ha hclosure) with
    rfl | ⟨_, ⟨t, ht, heps, -⟩, -⟩
  · rfl
  · exact absurd heps (h.not_isEpsilon ht)

theorem Deterministic.hasOthers_eq_false (ha : a.Valid) (h : Deterministic a)
    (hs : s ∈ a.stateIds) : (ClosureTable.ofGraph a).hasOthers a s = false := by
  refine Bool.eq_false_iff.2 fun hothers => ?_
  obtain ⟨r, -, hclosure, hne⟩ := (hasOthers_iff ha (h.freed ha).merged hs).1 hothers
  exact hne (h.eq_of_closure_eq ha hclosure)

theorem Deterministic.ambiguity?_eq_none (ha : a.Valid) (h : Deterministic a) :
    ambiguity? a = none := by
  refine List.findSome?_eq_none_iff.2 fun s _ => ?_
  have hnil : ambiguousSymbols (a.out s) = [] := by
    refine List.eq_nil_iff_forall_not_mem.2 fun c hc => ?_
    exact ((mem_ambiguousSymbols_out ha).1 hc).2 (h.unambiguous c)
  rw [hnil]
  rfl

theorem unreachableStates_eq_nil (ha : a.Valid) (hreach : ∀ s ∈ a.stateIds, a.Reaches s) :
    a.unreachableStates = [] := by
  refine List.eq_nil_iff_forall_not_mem.2 fun s hs => ?_
  obtain ⟨hmem, hno⟩ := ha.mem_unreachableStates.1 hs
  exact hno (hreach s hmem)

/-! ## The passes -/

theorem Deterministic.idles_removeAllEpsilon (ha : a.Valid) (h : Deterministic a) :
    Idles removeAllEpsilon a () := by
  refine Idles.graph (idles_forM fun s _ => Idles.graph ?_)
  have hany : ¬ (a.out s).any Transition.isEpsilon = true := by
    intro hany
    obtain ⟨t, ht, heps⟩ := List.any_eq_true.1 hany
    exact h.not_isEpsilon (ha.mem_out.1 ht).1 heps
  rw [if_neg hany]
  exact idles_pure ()

theorem Deterministic.idles_mergeAllEquivalent (ha : a.Valid) (h : Deterministic a) :
    Idles (mergeAllEquivalent (ClosureTable.ofGraph a)) a () := by
  refine Idles.graph ?_
  rw [List.partition_eq_filter_filter]
  refine idles_forM fun s hs => Idles.graph ?_
  have hs : s ∈ a.stateIds :=
    (List.mem_append.1 hs).elim List.mem_of_mem_filter List.mem_of_mem_filter
  rw [h.hasOthers_eq_false ha hs, Bool.and_false]
  exact idles_pure ()

theorem idles_prune (ha : a.Valid) (hreach : ∀ s ∈ a.stateIds, a.Reaches s) :
    Idles Pruning.prune a () := by
  refine Idles.graph ?_
  rw [unreachableStates_eq_nil ha hreach]
  exact idles_pure ()

theorem Deterministic.idles_determinizeStates (ha : a.Valid) (h : Deterministic a) :
    Idles determinizeStates a () :=
  Idles.graph fun _ => runOn_determinizeFirst_none _ (h.ambiguity?_eq_none ha)

/-- Nothing is left to do for a deterministic automaton whose states are all reached. -/
theorem Deterministic.idles_determinizeAll (ha : a.Valid) (hlit : a.Literal)
    (hreach : ∀ s ∈ a.stateIds, a.Reaches s) (h : Deterministic a) : Idles determinizeAll a () := by
  refine Idles.graph ?_
  rw [hlit.find?_eq_none]
  exact (h.idles_removeAllEpsilon ha).bind <| (h.idles_mergeAllEquivalent ha).bind <|
    (idles_prune ha hreach).bind <| (h.idles_determinizeStates ha).bind (idles_prune ha hreach)

/-- Making any automaton with single symbols for labels deterministic leaves no `ε` transition,
no state with two transitions on one symbol and no state that is not reached, and it keeps the
start state. Doing it again does nothing and records nothing, whatever history is given. -/
theorem determinizeAll_determinizeAll {l : Ledger} (hl : l.Reachable)
    (hlit : ∀ t ∈ l.graph.transitions, t.label.isSymbol = true) :
    ∃ b, determinizeAll.runOn l.graph none = (.ok (), ⟨b, none⟩) ∧
      (∀ t ∈ b.transitions, t.isEpsilon = false) ∧
      (∀ t ∈ b.transitions, ∀ u ∈ b.transitions, t.source = u.source → t.label = u.label → t = u) ∧
      (∀ s ∈ b.stateIds, b.Reaches s) ∧ b.start = l.graph.start ∧
      ∀ history, determinizeAll.runOn b history = (.ok (), ⟨b, history⟩) := by
  obtain ⟨_, b, hrun, hb⟩ := (achieves_determinizeAll hl.valid hlit rfl).runOn_none rfl
  exact ⟨b, hrun, hb.deterministic.no_epsilon, hb.deterministic.eq_of_label_eq, hb.reaches,
    hb.start_eq, hb.deterministic.idles_determinizeAll hb.valid hb.literal hb.reaches⟩

/-- The case of an automaton with two transitions on one symbol and `ε` transitions. -/
theorem determinizeAll_determinizeAll_ambiguous :
    ambiguousCycle.Reachable ∧
      (∀ t ∈ ambiguousCycle.graph.transitions, t.label.isSymbol = true) ∧
        ∃ b, determinizeAll.runOn ambiguousCycle.graph none = (.ok (), ⟨b, none⟩) ∧
          b.start = ambiguousCycle.graph.start ∧
          determinizeAll.runOn b (some (.new false)) = (.ok (), ⟨b, some (.new false)⟩) := by
  have hlit := isSymbol_label_ambiguousCycle
  obtain ⟨b, hrun, -, -, -, hstart, hagain⟩ :=
    determinizeAll_determinizeAll reachable_ambiguousCycle hlit
  exact ⟨reachable_ambiguousCycle, hlit, b, hrun, hstart, hagain _⟩

end Determinization

end RegularForms
