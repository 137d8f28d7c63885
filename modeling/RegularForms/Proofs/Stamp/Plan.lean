import Mathlib.Data.List.Count
import RegularForms.Elimination.Complete
import RegularForms.Expansion.Complete
import RegularForms.Proofs.Elimination.Isolate
import RegularForms.Proofs.Stamp.Edit

/-!
# Planning with exchanged stamps

Every plan is made of look-ups in the graph, of choices between transitions by comparing
them, and of new states and transitions. All of this goes along with an embedding of the
stamps.
-/

namespace RegularForms

open Stamped Automaton

variable {f : Nat → Nat} {σ : Nat ↪o Nat}

instance : Stamped Plan where
  restamp f p := ⟨restamp f p.edit, restamp f p.graph⟩
  restamp_id p := by rw [restamp_id, restamp_id]
  restamp_restamp f g p := by rw [restamp_restamp, restamp_restamp]

@[simp] theorem Plan.edit_restamp (p : Plan) : (restamp f p).edit = restamp f p.edit := rfl

@[simp] theorem Plan.graph_restamp (p : Plan) : (restamp f p).graph = restamp f p.graph := rfl

/-- A planned batch with exchanged stamps. -/
theorem batch_restamp {purpose purpose' : Purpose} {edits edits' : List Edit} {a a' : Automaton}
    (hpurpose : purpose' = restamp f purpose) (hedits : edits' = edits.map (restamp f))
    (hgraph : a' = restamp f a) :
    Plan.mk (.batch purpose' edits') a' = restamp f (Plan.mk (.batch purpose edits) a) := by
  rw [hpurpose, hedits, hgraph, ← Edit.restamp_batch]
  rfl

theorem distinct_restamp {α : Type} [Stamped α] [DecidableEq α] (xs : List α) :
    distinct (xs.map (restamp σ)) = (distinct xs).map (restamp σ) :=
  distinct_map (fun _ _ => restamp_inj.1) xs

/-! ## Expanding -/

namespace Automaton

variable (a : Automaton)

@[simp] theorem labelled_restamp (ops : List Operator) (t : TransitionId) :
    (restamp σ a).labelled ops (restamp σ t) = restamp σ (a.labelled ops t) := by
  rw [labelled, labelled, transition_restamp]
  refine restamp_bind _ fun u => ?_
  rw [Transition.label_restamp]
  split <;> rfl

@[simp] theorem joinedByEpsilon_restamp (source target : StateId) :
    (restamp σ a).joinedByEpsilon (restamp σ source) (restamp σ target) =
      a.joinedByEpsilon source target := by
  simp [joinedByEpsilon, List.any_map, Function.comp_def]

@[simp] theorem requiredIsolation_restamp (t : Transition) :
    (restamp σ a).requiredIsolation (restamp σ t) = restamp σ (a.requiredIsolation t) := by
  rw [requiredIsolation, requiredIsolation, Transition.source_restamp, Transition.target_restamp,
    outgoing_restamp, isAccepting_restamp, incoming_restamp]
  refine restamp_bind _ fun out => restamp_bind _ fun accepting => restamp_bind _ fun into => ?_
  simp [List.any_map, Function.comp_def]
  rfl

@[simp] theorem compoundTransitions_restamp :
    (restamp σ a).compoundTransitions = a.compoundTransitions.map (restamp σ) := by
  simp [compoundTransitions, List.filter_map, Function.comp_def]

@[simp] theorem operatorCount_restamp : (restamp σ a).operatorCount = a.operatorCount := by
  simp [operatorCount, Function.comp_def]

end Automaton

namespace Expansion

variable (a : Automaton)

theorem replace_restamp (purpose : Purpose) (t : Transition) (states : Nat)
    (arcs : List (StateId × StateId × Expr)) :
    replace (restamp σ a) (restamp σ purpose) (restamp σ t) states (arcs.map (restamp σ)) =
      restamp σ (replace a purpose t states arcs) := by
  refine batch_restamp rfl ?_ (by simp)
  simp [Function.comp_def]

@[simp] theorem choice_restamp (t : TransitionId) :
    choice (restamp σ t) (restamp σ a) = restamp σ (choice t a) := by
  rw [choice, choice, labelled_restamp]
  refine restamp_bind _ fun u => congrArg Except.ok ?_
  refine Eq.trans ?_ (replace_restamp a (.expandChoice t) u 0 _)
  rw [List.map_map]
  rfl

theorem chain_restamp (points : List StateId) (labels : List Expr) :
    chain (points.map (restamp σ)) labels = (chain points labels).map (restamp σ) := by
  have htail : (points.tail.map (restamp σ)).zip labels =
      (points.tail.zip labels).map (restamp σ) := List.zip_map_left
  rw [chain, chain, ← List.map_tail, htail, List.zip_map]
  rfl

@[simp] theorem sequence_restamp (t : TransitionId) :
    sequence (restamp σ t) (restamp σ a) = restamp σ (sequence t a) := by
  rw [sequence, sequence, labelled_restamp]
  refine restamp_bind _ fun u => congrArg Except.ok ?_
  refine Eq.trans ?_ (replace_restamp a (.expandSequence t) u _ _)
  rw [← chain_restamp]
  simp [Function.comp_def]
  rfl

@[simp] theorem skip_restamp (source target : StateId) :
    skip (restamp σ a) (restamp σ source) (restamp σ target) =
      (skip a source target).map (restamp σ) := by
  rw [skip, skip, joinedByEpsilon_restamp]
  split <;> rfl

@[simp] theorem option_restamp (t : TransitionId) :
    option (restamp σ t) (restamp σ a) = restamp σ (option t a) := by
  rw [option, option, labelled_restamp]
  refine restamp_bind _ fun u => congrArg Except.ok ?_
  refine Eq.trans ?_ (replace_restamp a (.expandOption t) u 0 _)
  simp [Function.comp_def]
  rfl

theorem sharedLoop_restamp (u : Transition) :
    sharedLoop (restamp σ a) (restamp σ u) = (sharedLoop a u).map (restamp σ) := by
  simp only [sharedLoop, Transition.label_restamp, Transition.source_restamp,
    Transition.target_restamp, skip_restamp]
  split <;> simp [Function.comp_def]

theorem isolatedLoop_restamp (u : Transition) (start finish : StateId) :
    isolatedLoop (restamp σ a) (restamp σ u) (restamp σ start) (restamp σ finish) =
      (isolatedLoop a u start finish).map (restamp σ) := by
  have harc : ∀ (s t q r : StateId), (if restamp σ q = restamp σ r then []
      else [(restamp σ s, restamp σ t, Expr.epsilon)]) =
        (if q = r then [] else [(s, t, Expr.epsilon)]).map (restamp σ) := fun s t q r => by
    simp only [restamp_inj]
    split <;> rfl
  have hpast : (if u.label.operator = .star then
      skip (restamp σ a) (restamp σ u.source) (restamp σ u.target) else []) =
        (if u.label.operator = .star then skip a u.source u.target else []).map (restamp σ) := by
    split
    · exact skip_restamp a _ _
    · rfl
  simp only [isolatedLoop, Transition.label_restamp, Transition.source_restamp,
    Transition.target_restamp, harc, hpast, List.map_append, ← distinct_restamp, List.map_map]
  rfl

@[simp] theorem iteration_restamp (isolation : Isolation) (t : TransitionId) :
    iteration isolation (restamp σ t) (restamp σ a) = restamp σ (iteration isolation t a) := by
  rw [iteration, iteration, labelled_restamp]
  refine restamp_bind _ fun u => ?_
  rw [requiredIsolation_restamp]
  refine restamp_bind _ fun required => ?_
  have hend : ∀ (isolated : Bool) (i : Nat) (s : StateId),
      (if isolated then ((restamp σ a).freshState i).id else restamp σ s) =
        restamp σ (if isolated then (a.freshState i).id else s) := fun isolated i s => by
    cases isolated <;> rfl
  simp only [Plain.restamp_eq, Transition.source_restamp, Transition.target_restamp, hend,
    isolatedLoop_restamp, sharedLoop_restamp]
  split
  · split
    · exact congrArg Except.ok (replace_restamp a (.expandIteration t isolation) u 0 _)
    · exact congrArg Except.ok (replace_restamp a (.expandIteration t isolation) u _ _)
  · rfl

@[simp] theorem plan?_restamp (t : TransitionId) :
    plan? (restamp σ t) (restamp σ a) = restamp σ (plan? t a) := by
  have hsome : ∀ r : Except Error Plan, some <$> restamp σ r = restamp σ (some <$> r) := fun r => by
    cases r <;> rfl
  rw [plan?, plan?, transition_restamp]
  refine restamp_bind _ fun u => ?_
  simp only [Transition.label_restamp, choice_restamp, sequence_restamp, option_restamp,
    requiredIsolation_restamp, hsome]
  cases u.label.operator with
  | symbol => rfl
  | star | plus =>
      refine restamp_bind _ fun isolation => ?_
      rw [Plain.restamp_eq, iteration_restamp, hsome]
  | _ => rfl

end Expansion

/-! ## Pruning -/

@[simp] theorem Pruning.detach_restamp (s : StateId) (a : Automaton) :
    detach (restamp σ s) (restamp σ a) = restamp σ (detach s a) := by
  rw [detach, detach, incoming_restamp]
  refine restamp_bind _ fun into => congrArg Except.ok (batch_restamp rfl ?_ rfl)
  simp [List.filter_map, Function.comp_def]

/-! ## Eliminating -/

namespace Elimination

variable (a : Automaton)

theorem joinFinals_restamp (finals : List StateId) :
    joinFinals (restamp σ a) (finals.map (restamp σ)) = restamp σ (joinFinals a finals) := by
  have harcs : (restamp σ a).freshTransitions ((finals.map (restamp σ)).map fun s =>
      (s, ((restamp σ a).freshState 0).id, Expr.epsilon)) =
        (a.freshTransitions (finals.map fun s => (s, (a.freshState 0).id, .epsilon))).map
          (restamp σ) := by
    rw [← freshTransitions_restamp, List.map_map, List.map_map]
    rfl
  rw [joinFinals, harcs]
  refine batch_restamp rfl ?_ (by simp)
  rw [List.zip_map]
  simp [List.flatMap_map, List.map_flatMap]

@[simp] theorem isolateFinal?_restamp :
    isolateFinal? (restamp σ a) = (isolateFinal? a).map (restamp σ) := by
  have hfinals : ((restamp σ a).states.filter State.accepting).map State.id =
      ((a.states.filter State.accepting).map State.id).map (restamp σ) := by
    rw [states_restamp, filter_restamp State.accepting_restamp, List.map_map, List.map_map]
    rfl
  have hplan := joinFinals_restamp (σ := σ) a
  unfold isolateFinal?
  rw [hfinals]
  generalize (a.states.filter State.accepting).map State.id = finals
  rcases finals with _ | ⟨s, _ | ⟨t, ss⟩⟩
  · rfl
  · simp only [List.map_cons, List.map_nil, out_restamp, isStart_restamp, List.isEmpty_map]
    split
    · exact congrArg some (hplan [s])
    · rfl
  · exact congrArg some (hplan (s :: t :: ss))

theorem twinStart_restamp (moved : List Transition) :
    twinStart (restamp σ a) (moved.map (restamp σ)) = restamp σ (twinStart a moved) := by
  have hend : ∀ s, moveEnd (restamp σ a) ((restamp σ a).freshState 0).id (restamp σ s) =
      restamp σ (moveEnd a (a.freshState 0).id s) := fun s => by
    simp only [moveEnd, start_restamp, restamp_inj]
    split <;> rfl
  have harcs : twinArcs (restamp σ a) (moved.map (restamp σ)) =
      (twinArcs a moved).map (restamp σ) := by
    simp only [twinArcs, List.map_cons, List.map_map, Function.comp_def, Transition.source_restamp,
      Transition.target_restamp, hend]
    rfl
  rw [twinStart, harcs, freshTransitions_restamp, start_restamp, accepting_restamp]
  refine batch_restamp rfl ?_ (by simp)
  cases a.accepting a.start <;> simp [Function.comp_def]

@[simp] theorem isolateInitial?_restamp :
    isolateInitial? (restamp σ a) = (isolateInitial? a).map (restamp σ) := by
  have hmoved : ((restamp σ a).out (restamp σ a).start).filter (fun t => !t.isLoop) ++
      (restamp σ a).into (restamp σ a).start =
        ((a.out a.start).filter (fun t => !t.isLoop) ++ a.into a.start).map (restamp σ) := by
    rw [start_restamp, out_restamp, into_restamp, List.map_append,
      filter_restamp (p := fun t => !t.isLoop) fun t => by simp]
  have hplan := twinStart_restamp (σ := σ) a
    ((a.out a.start).filter (fun t => !t.isLoop) ++ a.into a.start)
  rw [← hmoved] at hplan
  have hempty : ((restamp σ a).into (restamp σ a).start).isEmpty = (a.into a.start).isEmpty := by
    rw [start_restamp, into_restamp, List.isEmpty_map]
  unfold isolateInitial?
  simp only [hempty]
  split
  · rfl
  · exact congrArg some hplan

@[simp] theorem singleLoop?_restamp (s : StateId) :
    singleLoop? (restamp σ a) (restamp σ s) = restamp σ (singleLoop? a s) := by
  rw [singleLoop?, singleLoop?, outgoing_restamp]
  refine restamp_bind _ fun out => ?_
  rw [restamp_list, filter_restamp isLoop_restamp]
  rcases out.filter Transition.isLoop with _ | ⟨t, _ | ⟨u, ts⟩⟩ <;> rfl

@[simp] theorem parallel_restamp (source target : StateId) :
    parallel (restamp σ a) (restamp σ source) (restamp σ target) =
      restamp σ (parallel a source target) := by
  rw [parallel, parallel, outgoing_restamp]
  refine restamp_bind _ fun out => congrArg Except.ok ?_
  exact filter_restamp (fun t => by simp) out

@[simp] theorem hasParallel_restamp (source target : StateId) :
    hasParallel (restamp σ a) (restamp σ source) (restamp σ target) =
      restamp σ (hasParallel a source target) := by
  rw [hasParallel, hasParallel, parallel_restamp]
  refine restamp_bind _ fun ts => congrArg Except.ok ?_
  simp

@[simp] theorem parallelPairs_restamp (s : StateId) :
    parallelPairs (restamp σ a) (restamp σ s) = (parallelPairs a s).map (restamp σ) := by
  have hends : ((restamp σ a).out (restamp σ s) ++ ((restamp σ a).into (restamp σ s)).filter
      fun t => !t.isLoop).map (fun t => (t.source, t.target)) =
        ((a.out s ++ (a.into s).filter fun t => !t.isLoop).map
          fun t => (t.source, t.target)).map (restamp σ) := by
    rw [out_restamp, into_restamp, filter_restamp (p := fun t => !t.isLoop) fun t => by simp,
      ← List.map_append, List.map_map, List.map_map]
    rfl
  simp only [parallelPairs, hends, distinct_restamp]
  generalize (a.out s ++ (a.into s).filter fun t => !t.isLoop).map
    (fun t => (t.source, t.target)) = ends
  rw [filter_restamp (p := fun p => decide (1 < ends.count p)) fun p => by
    rw [List.count_map_of_injective _ _ (restamp_injective σ)]]
  refine (List.map_mergeSort fun p _ q _ => ?_).symm
  simp

@[simp] theorem foldLoop_restamp (t : TransitionId) :
    foldLoop (restamp σ t) (restamp σ a) = restamp σ (foldLoop t a) := by
  rw [foldLoop, foldLoop, transition_restamp]
  refine restamp_bind _ fun loop => ?_
  have hothers : ((restamp σ a).out (restamp σ loop).source).filter (fun u => u.id ≠ restamp σ t) =
      ((a.out loop.source).filter fun u => u.id ≠ t).map (restamp σ) := by
    rw [Transition.source_restamp, out_restamp]
    exact filter_restamp (fun u => by simp) _
  have harcs : (restamp σ a).freshTransitions ((((a.out loop.source).filter fun u => u.id ≠ t).map
      (restamp σ)).map fun u => ((restamp σ loop).source, u.target,
        lighten (.join .sequence [.star (restamp σ loop).label, u.label]))) =
      (a.freshTransitions (((a.out loop.source).filter fun u => u.id ≠ t).map fun u =>
        (loop.source, u.target, lighten (.join .sequence [.star loop.label, u.label])))).map
          (restamp σ) := by
    rw [← freshTransitions_restamp, List.map_map, List.map_map]
    rfl
  rw [isLoop_restamp]
  split
  · show (singleLoop? (restamp σ a) (restamp σ loop.source) >>= _) = _
    rw [singleLoop?_restamp]
    refine restamp_bind _ fun _ => congrArg Except.ok (batch_restamp rfl ?_ ?_)
    · rw [List.map_cons, hothers, harcs, List.zip_map]
      simp [List.flatMap_map, List.map_flatMap]
    · rw [hothers, harcs, List.length_map]
      rfl
  · rfl

@[simp] theorem joinParallel_restamp (source target : StateId) :
    joinParallel (restamp σ source) (restamp σ target) (restamp σ a) =
      restamp σ (joinParallel source target a) := by
  rw [joinParallel, joinParallel, parallel_restamp]
  refine restamp_bind _ fun old => ?_
  rw [restamp_list, List.length_map]
  split
  · rfl
  · have hlabels : (old.map (restamp σ)).map Transition.label = old.map Transition.label := by
      rw [List.map_map]
      rfl
    have harcs := freshTransitions_restamp (σ := σ) a
      [(source, target, lighten (.join .choice (old.map Transition.label)))]
    rw [hlabels]
    refine congrArg Except.ok (batch_restamp rfl ?_ rfl)
    rw [List.map_append, List.map_map, List.map_map, List.map_map]
    exact congrArg (fun fresh => _ ++ fresh.map Edit.addTransition) harcs

@[simp] theorem bypass_restamp (s : StateId) :
    bypass (restamp σ s) (restamp σ a) = restamp σ (bypass s a) := by
  rw [bypass, bypass, isStart_restamp, outgoing_restamp]
  split
  · rfl
  · refine restamp_bind _ fun out => ?_
    rw [restamp_list, incoming_restamp]
    simp only [List.any_map, Function.comp_def, isLoop_restamp]
    split
    · rfl
    · refine restamp_bind _ fun into => congrArg Except.ok ?_
      rw [restamp_list]
      have harcs : (restamp σ a).freshTransitions ((into.map (restamp σ)).flatMap fun t =>
          (out.map (restamp σ)).map fun u =>
            (t.source, u.target, lighten (.join .sequence [t.label, u.label]))) =
          (a.freshTransitions (into.flatMap fun t => out.map fun u => (t.source, u.target,
            lighten (.join .sequence [t.label, u.label])))).map (restamp σ) := by
        rw [← freshTransitions_restamp, List.flatMap_map, List.map_flatMap]
        simp only [List.map_map]
        rfl
      rw [harcs]
      refine batch_restamp rfl ?_ (by simp)
      simp [Function.comp_def]

end Elimination

end RegularForms
