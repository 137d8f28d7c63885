import RegularForms.Determinization.Complete
import RegularForms.Proofs.Determinization.Equivalence
import RegularForms.Proofs.Determinization.Subset
import RegularForms.Proofs.Stamp.Plan

/-!
# Making deterministic with exchanged stamps

The tables of closures and of sets of states hold identifiers in ascending order and are
looked up by identifiers, so they go along with an embedding of the stamps. So do the plans
that are made with them.
-/

namespace RegularForms

open Stamped Automaton

variable {f : Nat → Nat} {σ : Nat ↪o Nat}

/-! ## Choosing between transitions -/

namespace Transition

@[simp] theorem orderByTarget_restamp (t u : Transition) :
    orderByTarget (restamp σ t) (restamp σ u) = orderByTarget t u := by
  simp [orderByTarget]

@[simp] theorem orderBySource_restamp (t u : Transition) :
    orderBySource (restamp σ t) (restamp σ u) = orderBySource t u := by
  simp [orderBySource]

variable {key : Transition → Transition → Ordering} {p q : Transition → Bool}
  (hkey : ∀ t u, key (restamp σ t) (restamp σ u) = key t u)
  (hp : ∀ t, q (restamp σ t) = p t) (ts : List Transition)

include hkey hp

theorem mergeSort_restamp :
    (ts.map (restamp σ)).mergeSort (notAfter key q) =
      (ts.mergeSort (notAfter key p)).map (restamp σ) := by
  refine (List.map_mergeSort fun t _ u _ => ?_).symm
  rw [notAfter, notAfter, hkey, hp, hp]

theorem onePerArc_restamp :
    onePerArc key q (ts.map (restamp σ)) =
      (onePerArc key p ts).map (restamp σ) := by
  rw [onePerArc, onePerArc, mergeSort_restamp hkey hp]
  exact firstOfRuns_map (fun t u => by rw [hkey]) _

end Transition

/-! ## Tables -/

instance : Stamped ClosureTable where
  restamp f c := ⟨restamp f c.closures, restamp f c.classes⟩
  restamp_id c := by rw [restamp_id, restamp_id]
  restamp_restamp f g c := by rw [restamp_restamp, restamp_restamp]

namespace ClosureTable

variable (c : ClosureTable) (a : Automaton) (s t : StateId)

/-- The classes of given closures. -/
theorem classes_restamp (closures : List (StateId × StateSet)) :
    ((distinct ((closures.map (restamp σ)).map Prod.snd)).map fun value =>
      ((closures.map (restamp σ)).filter fun p => p.2 = value).map Prod.fst) =
    ((distinct (closures.map Prod.snd)).map fun value =>
      (closures.filter fun p => p.2 = value).map Prod.fst).map (restamp σ) := by
  have hvalues : (closures.map (restamp σ)).map Prod.snd =
      (closures.map Prod.snd).map (restamp σ) := by
    rw [List.map_map, List.map_map]
    rfl
  rw [hvalues, distinct_restamp, List.map_map, List.map_map]
  refine List.map_congr_left fun value _ => ?_
  have hclass := filter_restamp (σ := σ) (p := fun p => decide (p.2 = value))
    (q := fun p => decide (p.2 = restamp σ value))
    (fun p => by simp only [snd_restamp, restamp_inj]) closures
  rw [Function.comp_apply, hclass, List.map_map, Function.comp_apply, restamp_list, List.map_map]
  rfl

@[simp] theorem ofGraph_restamp : ofGraph (restamp σ a) = restamp σ (ofGraph a) := by
  have hclosures : (restamp σ a).stateIds.map (fun s => (s, (restamp σ a).closure [s])) =
      (a.stateIds.map fun s => (s, a.closure [s])).map (restamp σ) := by
    rw [stateIds_restamp, List.map_map, List.map_map]
    exact List.map_congr_left fun s _ => congrArg (Prod.mk _) (closure_restamp a [s])
  rw [ofGraph, ofGraph, hclosures]
  exact congrArg (ClosureTable.mk _) (classes_restamp _)

@[simp] theorem closure?_restamp :
    (restamp σ c).closure? (restamp σ s) = (c.closure? s).map (restamp σ) := by
  have hfind := find?_restamp (σ := σ) (p := fun p => p.1 == s)
    (q := fun p => p.1 == restamp σ s) (fun p => by simp) c.closures
  rw [closure?, closure?, Option.map_map]
  exact (congrArg (Option.map Prod.snd) hfind).trans (Option.map_map ..)

@[simp] theorem class?_restamp :
    (restamp σ c).class? (restamp σ s) = (c.class? s).map (restamp σ) :=
  find?_restamp (fun members => by simp) c.classes

@[simp] theorem equivalent_restamp :
    (restamp σ c).equivalent (restamp σ s) (restamp σ t) = c.equivalent s t := by
  rw [equivalent, equivalent, class?_restamp]
  cases c.class? s <;> simp

@[simp] theorem hasOthers_restamp :
    (restamp σ c).hasOthers (restamp σ a) (restamp σ s) = c.hasOthers a s := by
  rw [hasOthers, hasOthers, class?_restamp]
  cases c.class? s <;> simp [List.any_map, Function.comp_def]

@[simp] theorem hasEquivalent_restamp :
    (restamp σ c).hasEquivalent (restamp σ a) = c.hasEquivalent a := by
  have hmembers : ∀ members : StateSet, ((members.map (restamp σ)).filter
      (restamp σ a).hasState).length = (members.filter a.hasState).length := fun members => by
    rw [filter_restamp (hasState_restamp a), List.length_map]
  rw [hasEquivalent, hasEquivalent]
  show (c.classes.map (restamp σ)).any _ = _
  simp only [List.any_map, Function.comp_def, restamp_list, hmembers]

@[simp] theorem retain_restamp :
    (restamp σ c).retain (restamp σ a) = restamp σ (c.retain a) := by
  have hclosures := filter_restamp (σ := σ) (p := fun p => a.hasState p.1)
    (q := fun p => (restamp σ a).hasState p.1) (fun p => hasState_restamp a p.1) c.closures
  have hclasses : (c.classes.map (restamp σ)).map (List.filter (restamp σ a).hasState) =
      (c.classes.map (List.filter a.hasState)).map (restamp σ) := by
    rw [List.map_map, List.map_map]
    exact List.map_congr_left fun members _ => filter_restamp (hasState_restamp a) members
  have hrest := filter_restamp (σ := σ) (p := fun members : StateSet => !members.isEmpty)
    (q := fun members => !members.isEmpty) (fun members => by simp)
    (c.classes.map (List.filter a.hasState))
  exact congrArg₂ ClosureTable.mk hclosures ((congrArg _ hclasses).trans hrest)

end ClosureTable

instance : Stamped Binding where
  restamp f b := ⟨restamp f b.state, restamp f b.set⟩
  restamp_id b := by rw [restamp_id, restamp_id]
  restamp_restamp f g b := by rw [restamp_restamp, restamp_restamp]

@[simp] theorem Binding.state_restamp (b : Binding) :
    (restamp f b).state = restamp f b.state := rfl

@[simp] theorem Binding.set_restamp (b : Binding) :
    (restamp f b).set = b.set.map (restamp f) := rfl

instance : Stamped SubsetTable where
  restamp f table := ⟨restamp f table.bindings⟩
  restamp_id table := by rw [restamp_id]
  restamp_restamp f g table := by rw [restamp_restamp]

namespace SubsetTable

variable (table : SubsetTable)

@[simp] theorem bindings_restamp :
    (restamp f table).bindings = table.bindings.map (restamp f) := rfl

@[simp] theorem stateFor?_restamp (set : StateSet) :
    (restamp σ table).stateFor? (set.map (restamp σ)) = (table.stateFor? set).map (restamp σ) := by
  have hfind := find?_restamp (σ := σ) (p := fun b => b.set == set)
    (q := fun b => b.set == restamp σ set) (fun b => restamp_beq) table.bindings
  rw [stateFor?, stateFor?, Option.map_map]
  exact (congrArg (Option.map Binding.state) hfind).trans (Option.map_map ..)

@[simp] theorem setOf?_restamp (s : StateId) :
    (restamp σ table).setOf? (restamp σ s) = (table.setOf? s).map (restamp σ) := by
  have hfind := find?_restamp (σ := σ) (p := fun b => b.state.id == s)
    (q := fun b => b.state.id == restamp σ s) (fun b => by simp) table.bindings
  rw [setOf?, setOf?, Option.map_map]
  exact (congrArg (Option.map Binding.set) hfind).trans (Option.map_map ..)

@[simp] theorem members_restamp (s : StateId) :
    (restamp σ table).members (restamp σ s) = (table.members s).map (restamp σ) := by
  rw [members, members, setOf?_restamp]
  cases table.setOf? s <;> rfl

@[simp] theorem expand_restamp (ss : List StateId) :
    (restamp σ table).expand (ss.map (restamp σ)) = (table.expand ss).map (restamp σ) := by
  rw [expand, expand, ← StateSet.ofList_restamp, List.flatMap_map, List.map_flatMap]
  simp only [members_restamp]

@[simp] theorem unbind_restamp (s : StateId) :
    (restamp σ table).unbind (restamp σ s) = restamp σ (table.unbind s) :=
  congrArg SubsetTable.mk (filter_restamp (fun b => by simp) _)

@[simp] theorem bind_restamp (s : State) (set : StateSet) :
    (restamp σ table).bind (restamp σ s) (set.map (restamp σ)) = restamp σ (table.bind s set) := by
  rw [bind, State.id_restamp, unbind_restamp]
  exact congrArg SubsetTable.mk
    (Ident.insertAt_restamp (fun b : Binding => b.state.id) (fun _ => rfl) ⟨s, set⟩ _)

@[simp] theorem retain_restamp (a : Automaton) :
    (restamp σ table).retain (restamp σ a) = restamp σ (table.retain a) :=
  congrArg SubsetTable.mk (filter_restamp (fun b => by
    rw [Binding.set_restamp, List.all_map]
    exact congrArg b.set.all (funext (hasState_restamp a))) _)

@[simp] theorem size_restamp : (restamp f table).size = table.size := by
  simp [size]

end SubsetTable

/-! ## Making deterministic -/

namespace Determinization

variable (a : Automaton) (s : StateId)

theorem epsilonFree_restamp (closure : StateSet) :
    epsilonFree (restamp σ a) (restamp σ s) (closure.map (restamp σ)) =
      (epsilonFree a s closure).map (restamp σ) := by
  have hoffered : (closure.map (restamp σ)).flatMap
      (fun r => ((restamp σ a).out r).filter fun t => !t.isEpsilon) =
        (closure.flatMap fun r => (a.out r).filter fun t => !t.isEpsilon).map (restamp σ) := by
    rw [List.flatMap_map, List.map_flatMap]
    refine congrArg (List.flatMap · closure) (funext fun r => ?_)
    rw [out_restamp]
    exact filter_restamp (fun _ => rfl) _
  rw [epsilonFree, hoffered, Transition.onePerArc_restamp (p := fun t => t.source == s)
    Transition.orderByTarget_restamp fun t => by simp]
  exact filter_restamp (fun t => by simp) _

@[simp] theorem removeEpsilon_restamp :
    removeEpsilon (restamp σ s) (restamp σ a) = restamp σ (removeEpsilon s a) := by
  rw [removeEpsilon, removeEpsilon, epsilonClosure_restamp]
  refine restamp_bind _ fun closure => congrArg Except.ok ?_
  have hcopies : (restamp σ a).freshTransitions ((epsilonFree (restamp σ a) (restamp σ s)
      (closure.map (restamp σ))).map fun t => (restamp σ s, t.target, t.label)) =
        (a.freshTransitions ((epsilonFree a s closure).map fun t => (s, t.target, t.label))).map
          (restamp σ) := by
    rw [epsilonFree_restamp, ← freshTransitions_restamp, List.map_map, List.map_map]
    rfl
  have haccepting : (closure.map (restamp σ)).any (restamp σ a).accepting =
      closure.any a.accepting := by
    rw [List.any_map]
    exact congrArg closure.any (funext (accepting_restamp a))
  rw [restamp_list, hcopies, haccepting, accepting_restamp, out_restamp,
    filter_restamp isEpsilon_restamp]
  refine batch_restamp rfl ?_ (by simp)
  split <;> simp [Function.comp_def]

theorem redirected_restamp (removed : StateSet) (incoming : List Transition) :
    redirected (restamp σ s) (removed.map (restamp σ)) (incoming.map (restamp σ)) =
      (redirected s removed incoming).map (restamp σ) := by
  rw [redirected, filter_restamp (p := fun t => t.source ∉ removed) fun t => by simp,
    Transition.onePerArc_restamp (p := fun t => t.target == s)
      Transition.orderBySource_restamp fun t => by simp]
  exact filter_restamp (fun t => by simp) _

theorem absorb_restamp (removed : StateSet) (incoming : List Transition) :
    absorb (restamp σ a) (restamp σ s) (removed.map (restamp σ)) (incoming.map (restamp σ)) =
      restamp σ (absorb a s removed incoming) := by
  have hfresh : (restamp σ a).freshTransitions (redirectedArcs (restamp σ s)
      (removed.map (restamp σ)) (incoming.map (restamp σ))) =
        (a.freshTransitions (redirectedArcs s removed incoming)).map (restamp σ) := by
    rw [redirectedArcs, redirected_restamp, ← freshTransitions_restamp, redirectedArcs,
      List.map_map, List.map_map]
    rfl
  have hinto := filter_restamp (σ := σ) (p := fun t => decide (t.target ∈ removed))
    (q := fun t => decide (t.target ∈ removed.map (restamp σ))) (fun t => by simp) incoming
  have haway : (removed.map (restamp σ)).flatMap (fun r => ((restamp σ a).out r).filter
      fun t => t.target ∉ removed.map (restamp σ)) =
        (removed.flatMap fun r => (a.out r).filter fun t => t.target ∉ removed).map
          (restamp σ) := by
    rw [List.flatMap_map, List.map_flatMap]
    refine congrArg (List.flatMap · removed) (funext fun r => ?_)
    rw [out_restamp]
    exact filter_restamp (fun t => by simp) _
  rw [absorb, hfresh, hinto, haway]
  refine batch_restamp rfl ?_ (by simp)
  simp [Function.comp_def]

theorem classmates_restamp (table : ClosureTable) :
    classmates (restamp σ table) (restamp σ s) (restamp σ a) =
      (classmates table s a).map (restamp σ) := by
  rw [classmates, ClosureTable.class?_restamp, classmates, ← filter_restamp (hasState_restamp a)]
  cases table.class? s <;> rfl

theorem intoClass_restamp (table : ClosureTable) :
    intoClass (restamp σ table) (restamp σ s) (restamp σ a) =
      (intoClass table s a).map (restamp σ) := by
  rw [intoClass, classmates_restamp, transitions_restamp,
    filter_restamp (p := fun t => t.target ∈ classmates table s a) fun t => by simp]
  exact Transition.mergeSort_restamp Transition.orderBySource_restamp (fun t => by simp) _

@[simp] theorem mergeEquivalent_restamp (table : ClosureTable) :
    mergeEquivalent (restamp σ table) (restamp σ s) (restamp σ a) =
      restamp σ (mergeEquivalent table s a) := by
  have heq : ∀ (table : ClosureTable) s a, mergeEquivalent table s a = a.state s >>= fun _ =>
      .ok (absorb a s ((classmates table s a).filter fun t => t ≠ s) (intoClass table s a)) :=
    fun _ _ _ => rfl
  rw [heq, heq, state_restamp]
  refine restamp_bind _ fun _ => congrArg Except.ok ?_
  rw [classmates_restamp, intoClass_restamp, filter_restamp (p := fun t => t ≠ s) fun t => by simp]
  exact absorb_restamp a s _ _

@[simp] theorem ambiguousSymbols_restamp (ts : List Transition) :
    ambiguousSymbols (ts.map (restamp σ)) = ambiguousSymbols ts := by
  rw [ambiguousSymbols, List.filterMap_map]
  rfl

@[simp] theorem hasAmbiguity_restamp : hasAmbiguity (restamp σ a) = hasAmbiguity a := by
  simp [hasAmbiguity, List.any_map, Function.comp_def]

section OnSymbol

variable (c : Char)

theorem onSymbol_restamp :
    onSymbol (restamp σ a) (restamp σ s) c = (onSymbol a s c).map (restamp σ) := by
  rw [onSymbol, out_restamp]
  exact filter_restamp (fun _ => rfl) _

theorem targets_restamp :
    targets (restamp σ a) (restamp σ s) c = (targets a s c).map (restamp σ) := by
  rw [targets, onSymbol_restamp, List.map_map, targets, ← StateSet.ofList_restamp, List.map_map]
  rfl

theorem targetSet_restamp (table : SubsetTable) :
    targetSet (restamp σ table) (restamp σ a) (restamp σ s) c =
      (targetSet table a s c).map (restamp σ) := by
  rw [targetSet, targets_restamp, SubsetTable.expand_restamp, targetSet]

theorem targetArcs_restamp (target : StateId) :
    targetArcs (restamp σ a) (restamp σ s) c (restamp σ target) =
      (targetArcs a s c target).map (restamp σ) := by
  have hoffered : ((targets a s c).map (restamp σ)).flatMap (restamp σ a).out =
      ((targets a s c).flatMap a.out).map (restamp σ) := by
    rw [List.flatMap_map, List.map_flatMap]
    exact congrArg (List.flatMap · _) (funext (out_restamp a))
  rw [targetArcs, targets_restamp, hoffered, Transition.onePerArc_restamp
    (p := fun _ => false) Transition.orderByTarget_restamp fun _ => rfl, List.map_map,
    targetArcs, List.map_map]
  rfl

theorem relink_restamp (target : StateId) (created : Nat) :
    relink (restamp σ a) (restamp σ s) c (restamp σ target) created =
      restamp σ (relink a s c target created) := by
  have hfresh := freshTransitions_restamp (σ := σ) a [(s, target, .sym c)]
  rw [relink, onSymbol_restamp]
  refine batch_restamp rfl ?_ rfl
  rw [List.map_append, List.map_map, List.map_map, List.map_map]
  exact congrArg (fun fresh => _ ++ fresh.map Edit.addTransition) hfresh

theorem extend_restamp (target : State) (created : Nat) (set : StateSet) :
    extend (restamp σ a) (restamp σ s) c (restamp σ target) created (set.map (restamp σ)) =
      restamp σ (extend a s c target created set) := by
  have hfresh : (restamp σ a).freshTransitions ((restamp σ s, (restamp σ target).id, .sym c) ::
      targetArcs (restamp σ a) (restamp σ s) c (restamp σ target).id) =
        (a.freshTransitions ((s, target.id, .sym c) :: targetArcs a s c target.id)).map
          (restamp σ) := by
    rw [State.id_restamp, targetArcs_restamp, ← freshTransitions_restamp]
    rfl
  rw [extend, onSymbol_restamp, hfresh]
  simp only [List.any_map, Function.comp_def, hasState_restamp, accepting_restamp]
  refine batch_restamp rfl ?_ (by simp)
  split <;> simp [Function.comp_def]

end OnSymbol

theorem assign_restamp (table : SubsetTable) (set : StateSet) :
    (restamp σ table).assign (set.map (restamp σ)) (restamp σ a) =
      restamp σ (table.assign set a) := by
  rw [SubsetTable.assign, SubsetTable.stateFor?_restamp, SubsetTable.assign]
  cases table.stateFor? set with
  | some state => rfl
  | none =>
      exact congrArg (fun table => (_, 1, table))
        (SubsetTable.bind_restamp table (a.freshState 0) set)

@[simp] theorem determinize_restamp (table : SubsetTable) (symbol : Char) :
    determinize (restamp σ table) (restamp σ s) symbol (restamp σ a) =
      restamp σ (determinize table s symbol a) := by
  have hleaving := outgoing_restamp (σ := σ) a s
  cases h : a.outgoing s with
  | error err =>
      rw [h, restamp_error] at hleaving
      rw [determinize, determinize, h, hleaving]
      rfl
  | ok leaving =>
      obtain ⟨n, hnode, hn⟩ := bind_eq_ok_iff.1 h
      obtain rfl : a.out s = leaving := by
        rw [out, (node_eq_ok_iff.1 hnode).2]
        exact Except.ok.inj hn
      rw [h, restamp_ok, restamp_list, ← out_restamp] at hleaving
      obtain ⟨⟨target, created, table'⟩, hassign⟩ :
          ∃ found, table.assign (targetSet table a s symbol) a = found := ⟨_, rfl⟩
      have hassign' := assign_restamp (σ := σ) a table (targetSet table a s symbol)
      rw [hassign, ← targetSet_restamp] at hassign'
      rw [determinize_eq_of_outgoing_eq h hassign,
        determinize_eq_of_outgoing_eq hleaving hassign', targetSet_restamp, State.id_restamp,
        Plain.restamp_eq, hasState_restamp, relink_restamp, extend_restamp]
      split <;> rfl

@[simp] theorem ambiguity?_restamp :
    ambiguity? (restamp σ a) = (ambiguity? a).map (restamp σ) := by
  rw [ambiguity?, ambiguity?, reachableStates_restamp, List.findSome?_map, List.map_findSome?]
  refine congrArg (List.findSome? · a.reachableStates) (funext fun s => ?_)
  simp only [Function.comp_apply, out_restamp, ambiguousSymbols_restamp, Option.map_map]
  rfl

@[simp] theorem symbols_restamp : symbols (restamp σ a) = symbols a := by
  rw [symbols, transitions_restamp, List.filterMap_map]
  rfl

end Determinization

end RegularForms
