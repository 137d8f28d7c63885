import RegularForms.Proofs.Rewriting
import RegularForms.Proofs.Stamp.Table

/-!
# Conversions with exchanged stamps

`Follows σ m m'` says that the conversion `m'` does, on a graph and a history with exchanged
stamps, what `m` does without. As there is one rule for each way of putting conversions
together, it is shown for each conversion along its text: what is planned is the plan for the
other graph with exchanged stamps, and the loops go through the same states in the same order.
-/

namespace RegularForms

open Stamped

variable {f : Nat → Nat} {σ : Nat ↪o Nat}

instance : Stamped Session where
  restamp f s := ⟨restamp f s.graph, restamp f s.history⟩
  restamp_id s := by rw [restamp_id, restamp_id]
  restamp_restamp f g s := by rw [restamp_restamp, restamp_restamp]

@[simp] theorem Session.graph_restamp (s : Session) :
    (restamp f s).graph = restamp f s.graph := rfl

@[simp] theorem Session.history_restamp (s : Session) :
    (restamp f s).history = s.history.map (restamp f) := rfl

namespace Rewriting

variable {α β : Type} [Stamped α] [Stamped β]

/-- With exchanged stamps, the second conversion does what the first one does without. -/
def Follows (σ : Nat ↪o Nat) (m m' : Rewriting α) : Prop :=
  ∀ a history, m'.runOn (restamp σ a) (restamp σ history) = restamp σ (m.runOn a history)

theorem follows_pure (x : α) : Follows σ (pure x) (pure (restamp σ x)) := fun _ _ => rfl

theorem follows_throw (err : Error) :
    Follows σ (throw err : Rewriting α) (throw (restamp σ err)) := fun _ _ => rfl

theorem Follows.bind {m m' : Rewriting α} {g g' : α → Rewriting β} (h : Follows σ m m')
    (hg : ∀ x, Follows σ (g x) (g' (restamp σ x))) : Follows σ (m >>= g) (m' >>= g') := by
  intro a history
  have hm := h a history
  obtain ⟨⟨r, s⟩, hrun⟩ : ∃ out, m.runOn a history = out := ⟨_, rfl⟩
  rw [hrun, restamp_mk] at hm
  cases r with
  | ok x =>
      rw [runOn_bind hrun, runOn_bind hm]
      exact hg x s.graph s.history
  | error err =>
      rw [runOn_bind_error hrun, runOn_bind_error hm]
      rfl

theorem follows_check (refusal : Option Error) :
    Follows σ (check refusal) (check (restamp σ refusal)) := by
  cases refusal with
  | none => exact follows_pure ()
  | some err => exact follows_throw err

/-- The rule for looking at the graph first. -/
theorem follows_graph {g g' : Automaton → Rewriting β}
    (hg : ∀ a, Follows σ (g a) (g' (restamp σ a))) :
    Follows σ (graph >>= g) (graph >>= g') :=
  Follows.bind (fun _ _ => rfl) hg

/-- The rule for asking the graph something first. -/
theorem follows_ask {question question' : Automaton → Except Error α} {g g' : α → Rewriting β}
    (hquestion : ∀ a, question' (restamp σ a) = restamp σ (question a))
    (hg : ∀ x, Follows σ (g x) (g' (restamp σ x))) :
    Follows σ (ask question >>= g) (ask question' >>= g') := by
  refine Follows.bind (fun a history => ?_) hg
  rw [runOn_ask, runOn_ask, hquestion]
  rfl

theorem follows_perform (s : Step) : Follows σ (perform s) (perform (restamp σ s)) := by
  intro a history
  cases history with
  | none =>
      have happly := s.apply_restamp (σ := σ) a
      have hcheck := follows_check (σ := σ) (s.apply a).refusal (s.apply a).graph none
      show (check ((restamp σ s).apply (restamp σ a)).refusal).runOn
        ((restamp σ s).apply (restamp σ a)).graph none = _
      rw [happly]
      exact hcheck
  | some h =>
      have hrecord := h.record_restamp (σ := σ) a s
      have hcheck := follows_check (σ := σ) (h.record s a).refusal (h.record s a).graph
        (some (h.record s a).history)
      show (check ((restamp σ h).record (restamp σ s) (restamp σ a)).refusal).runOn
        ((restamp σ h).record (restamp σ s) (restamp σ a)).graph
          (some ((restamp σ h).record (restamp σ s) (restamp σ a)).history) = _
      rw [hrecord]
      exact hcheck

theorem follows_enact (p : Plan) : Follows σ (enact p) (enact (restamp σ p)) :=
  Follows.bind (m := modify fun s => { s with graph := p.graph }) (fun _ _ => rfl)
    fun _ => follows_perform (.ofEdit p.edit)

/-- The rule for carrying out a plan. -/
theorem follows_carryOut {plan plan' : Automaton → Except Error Plan}
    (hplan : ∀ a, plan' (restamp σ a) = restamp σ (plan a)) :
    Follows σ (carryOut plan) (carryOut plan') :=
  follows_ask hplan follows_enact

theorem follows_carryOut? {plan? plan?' : Automaton → Except Error (Option Plan)}
    (hplan : ∀ a, plan?' (restamp σ a) = restamp σ (plan? a)) :
    Follows σ (carryOut? plan?) (carryOut? plan?') :=
  follows_ask hplan fun p => by
    cases p with
    | none => exact follows_pure ()
    | some p => exact follows_enact p

/-- The rule for going through a list. -/
theorem follows_forM {g k : α → Rewriting Unit}
    (hg : ∀ x, Follows σ (g x) (k (restamp σ x))) (xs : List α) :
    Follows σ (xs.forM g) ((xs.map (restamp σ)).forM k) := by
  induction xs with
  | nil => exact follows_pure ()
  | cons x xs ih => exact (hg x).bind fun _ => ih

theorem Follows.ite {m m' k k' : Rewriting α} {p p' : Prop} [Decidable p] [Decidable p']
    (hp : p' ↔ p) (hm : Follows σ m m') (hk : Follows σ k k') :
    Follows σ (if p then m else k) (if p' then m' else k') := by
  by_cases h : p
  · rw [if_pos h, if_pos (hp.2 h)]
    exact hm
  · rw [if_neg h, if_neg (mt hp.1 h)]
    exact hk

end Rewriting

open Rewriting

/-! ## Pruning and expanding -/

theorem Pruning.follows_prune : Follows σ prune prune := by
  refine follows_graph fun a => ?_
  rw [Automaton.unreachableStates_restamp]
  refine follows_forM (fun s => ?_) _
  refine follows_graph fun a => .ite (by simp) ?_ (follows_pure ())
  exact follows_carryOut (detach_restamp s)

namespace Expansion

theorem follows_expandFirst (looks : Nat) : Follows σ (expandFirst looks) (expandFirst looks) := by
  induction looks with
  | zero => exact follows_pure ()
  | succ looks ih =>
      refine follows_graph fun a => ?_
      rw [Automaton.compoundTransitions_restamp]
      cases a.compoundTransitions with
      | nil => exact follows_pure ()
      | cons t ts => exact (follows_carryOut? fun a => plan?_restamp a t).bind fun _ => ih

theorem follows_expandAll : Follows σ expandAll expandAll := by
  refine follows_graph fun a => ?_
  rw [Automaton.operatorCount_restamp]
  exact follows_expandFirst _

end Expansion

/-! ## Making deterministic -/

namespace Determinization

theorem follows_removeAllEpsilon : Follows σ removeAllEpsilon removeAllEpsilon := by
  refine follows_graph fun a => ?_
  rw [Automaton.stateIds_restamp]
  refine follows_forM (fun s => ?_) _
  refine follows_graph fun a => .ite ?_ ?_ (follows_pure ())
  · rw [Automaton.out_restamp, List.any_map]
    exact iff_of_eq (congrArg (List.any _ · = true) (funext Automaton.isEpsilon_restamp))
  · exact follows_carryOut fun a => removeEpsilon_restamp a s

theorem follows_mergeAllEquivalent (table : ClosureTable) :
    Follows σ (mergeAllEquivalent table) (mergeAllEquivalent (restamp σ table)) := by
  refine follows_graph fun a => ?_
  have hsplit : (restamp σ a).stateIds.partition (restamp σ a).isStart =
      ((a.stateIds.partition a.isStart).1.map (restamp σ),
        (a.stateIds.partition a.isStart).2.map (restamp σ)) := by
    rw [List.partition_eq_filter_filter, List.partition_eq_filter_filter,
      Automaton.stateIds_restamp, filter_restamp (p := a.isStart) (by simp),
      filter_restamp (p := not ∘ a.isStart) (by simp)]
  rw [hsplit]
  have hmerge := follows_forM (σ := σ)
    (g := fun s => graph >>= fun a =>
      if a.hasState s && table.hasOthers a s then carryOut (mergeEquivalent table s) else pure ())
    (k := fun s => graph >>= fun a =>
      if a.hasState s && (restamp σ table).hasOthers a s then
        carryOut (mergeEquivalent (restamp σ table) s) else pure ())
    (fun s => follows_graph fun a => .ite (by simp)
      (follows_carryOut fun a => mergeEquivalent_restamp a s table) (follows_pure ()))
    ((a.stateIds.partition a.isStart).1 ++ (a.stateIds.partition a.isStart).2)
  rw [List.map_append] at hmerge
  exact hmerge

theorem follows_determinizeFirst (looks : Nat) (table : SubsetTable) :
    Follows σ (determinizeFirst looks table) (determinizeFirst looks (restamp σ table)) := by
  induction looks generalizing table with
  | zero => exact follows_pure ()
  | succ looks ih =>
      refine follows_graph fun a => ?_
      rw [ambiguity?_restamp]
      cases ambiguity? a with
      | none => exact follows_pure ()
      | some found =>
          exact follows_ask (fun a => determinize_restamp a found.1 table found.2) fun planned =>
            (follows_enact planned.1).bind fun _ => ih planned.2

theorem follows_determinizeStates : Follows σ determinizeStates determinizeStates := by
  refine follows_graph fun a => ?_
  rw [symbols_restamp, Automaton.nodes_restamp, List.length_map]
  exact follows_determinizeFirst _ .empty

theorem follows_determinizeAll : Follows σ determinizeAll determinizeAll := by
  refine follows_graph fun a => ?_
  rw [Automaton.transitions_restamp,
    find?_restamp (p := fun t => !t.label.isSymbol) fun t => by simp]
  cases a.transitions.find? fun t => !t.label.isSymbol with
  | some t => exact follows_throw (.compoundLabel t.id)
  | none =>
      have hmerge := follows_mergeAllEquivalent (σ := σ) (ClosureTable.ofGraph a)
      rw [← ClosureTable.ofGraph_restamp] at hmerge
      exact follows_removeAllEpsilon.bind fun _ => hmerge.bind fun _ =>
        Pruning.follows_prune.bind fun _ => follows_determinizeStates.bind fun _ =>
          Pruning.follows_prune

end Determinization

/-! ## Eliminating states -/

namespace Elimination

theorem follows_eliminate (s : StateId) : Follows σ (eliminate s) (eliminate (restamp σ s)) := by
  refine follows_graph fun a => ?_
  rw [parallelPairs_restamp]
  refine Follows.bind (follows_forM (fun pair => ?_) _) fun _ => ?_
  · exact follows_carryOut fun a => joinParallel_restamp a pair.1 pair.2
  · refine follows_ask (fun a => singleLoop?_restamp a s) fun loop => ?_
    have hbypass : Follows σ (carryOut (bypass s)) (carryOut (bypass (restamp σ s))) :=
      follows_carryOut fun a => bypass_restamp a s
    cases loop with
    | none => exact hbypass
    | some t =>
        refine Follows.bind (follows_carryOut fun a => ?_) fun _ => hbypass
        exact foldLoop_restamp a t

theorem follows_eliminateTo (final : StateId) :
    Follows σ (eliminateTo final) (eliminateTo (restamp σ final)) := by
  refine follows_graph fun a => follows_graph fun b => ?_
  rw [Automaton.start_restamp, Automaton.stateIds_restamp,
    filter_restamp (p := fun s => s ≠ a.start ∧ s ≠ final) fun s => by simp]
  refine (follows_forM follows_eliminate _).bind fun _ => ?_
  refine follows_ask (fun a' => hasParallel_restamp a' a.start final) fun found => ?_
  have hreturn : Follows σ
      (ask (parallel · a.start final) >>= fun between =>
        pure (between.head?.map fun t => t.label.simplify))
      (ask (parallel · (restamp σ a.start) (restamp σ final)) >>= fun between =>
        pure (between.head?.map fun t => t.label.simplify)) := by
    refine follows_ask (fun a' => parallel_restamp a' a.start final) fun between => ?_
    rw [restamp_list, List.head?_map, Option.map_map]
    cases between.head? <;> exact follows_pure _
  cases found with
  | true =>
      refine Follows.bind (follows_carryOut fun a' => ?_) fun _ => hreturn
      exact joinParallel_restamp a' a.start final
  | false => exact hreturn

theorem follows_eliminateAll : Follows σ eliminateAll eliminateAll := by
  refine Pruning.follows_prune.bind fun _ => follows_graph fun a => ?_
  refine .ite (by simp) ?_ (follows_pure none)
  refine (follows_carryOut? fun a => ?_).bind fun _ => (follows_carryOut? fun a => ?_).bind fun _ =>
    follows_graph fun a => ?_
  · rw [isolateFinal?_restamp]; rfl
  · rw [isolateInitial?_restamp]; rfl
  · rw [Automaton.states_restamp, find?_restamp (p := State.accepting) fun s => by simp]
    cases a.states.find? State.accepting with
    | none => exact follows_pure none
    | some final => exact follows_eliminateTo final.id

end Elimination

end RegularForms
