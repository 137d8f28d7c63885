import RegularForms.Proofs.Determinization.Complete
import RegularForms.Proofs.Elimination.Complete
import RegularForms.Proofs.Execution
import RegularForms.Proofs.Expansion.Complete

/-!
# Whole conversions and their histories

Expanding every label, making an automaton deterministic, turning it into an expression and
pruning it go on until nothing is left to do. Planning an edit on the way hands out states and
transitions and does nothing else, whatever graph it is planned for, so each of these conversions
executes some steps wherever it is not refused; and on an automaton that is reached it is not
refused for the sake of an edit. So it comes to the same with any history that takes new steps
as without one, and the history has then just those steps in addition.
-/

namespace RegularForms

open Automaton Rewriting

variable {α β : Type} {a : Automaton} {p : Plan}

/-! ## Planning hands out identifiers -/

/-- What is returned, if anything is, has a property. -/
def Yields (x : Except Error α) (Q : α → Prop) : Prop := ∀ y, x = .ok y → Q y

theorem yields_pure {Q : α → Prop} {y : α} (h : Q y) : Yields (pure y) Q := by
  rintro _ ⟨⟩
  exact h

theorem yields_error (err : Error) {Q : α → Prop} : Yields (.error err) Q := nofun

theorem Yields.bind {x : Except Error α} {f : α → Except Error β} {Q : β → Prop}
    (h : ∀ y, Yields (f y) Q) : Yields (x >>= f) Q := by
  intro z hz
  obtain ⟨y, -, hy⟩ := bind_eq_ok_iff.1 hz
  exact h y z hy

theorem Yields.map {x : Except Error α} {f : α → β} {Q : β → Prop}
    (h : Yields x fun y => Q (f y)) : Yields (f <$> x) Q := by
  intro z hz
  cases x with
  | error err => nomatch hz
  | ok y => exact Except.ok.inj hz ▸ h y rfl

theorem yields_ite {c : Prop} [Decidable c] {x y : Except Error α} {Q : α → Prop}
    (hx : Yields x Q) (hy : Yields y Q) : Yields (if c then x else y) Q := by
  split
  · exact hx
  · exact hy

theorem yields_plan {m n : Nat} {purpose : Purpose} {edits : List Edit} :
    Yields (pure ⟨.batch purpose edits, a.reserve m n⟩) (Plan.For a) :=
  yields_pure (Plan.for_batch a m n purpose edits)

namespace Expansion

variable {t : TransitionId}

theorem plan_choice : Yields (choice t a) (Plan.For a) :=
  .bind fun _ => yields_plan

theorem plan_sequence : Yields (sequence t a) (Plan.For a) :=
  .bind fun _ => yields_plan

theorem plan_option : Yields (option t a) (Plan.For a) :=
  .bind fun _ => yields_plan

theorem plan_iteration (isolation : Isolation) : Yields (iteration isolation t a) (Plan.For a) := by
  refine .bind fun u => .bind fun required => ?_
  exact yields_ite (yields_ite yields_plan yields_plan) (yields_error _)

theorem plan_plan? : Yields (plan? t a) fun o => ∀ p ∈ o, Plan.For a p := by
  have hsome : ∀ {x : Except Error Plan}, Yields x (Plan.For a) →
      Yields (some <$> x) fun o => ∀ p ∈ o, Plan.For a p := fun h =>
    .map fun p hp q hq => Option.some.inj hq ▸ h p hp
  refine .bind fun u => ?_
  split
  · exact yields_pure nofun
  · exact hsome plan_choice
  · exact hsome plan_sequence
  · exact hsome plan_option
  · exact .bind fun isolation => hsome (plan_iteration isolation)
  · exact .bind fun isolation => hsome (plan_iteration isolation)

end Expansion

namespace Determinization

theorem plan_removeEpsilon (s : StateId) : Yields (removeEpsilon s a) (Plan.For a) :=
  .bind fun _ => yields_plan

theorem plan_mergeEquivalent (table : ClosureTable) (s : StateId) :
    Yields (mergeEquivalent table s a) (Plan.For a) :=
  .bind fun _ => yields_plan

theorem plan_determinize (table : SubsetTable) (s : StateId) (c : Char) :
    Yields (determinize table s c a) fun r => Plan.For a r.1 := by
  refine .bind fun ts => ?_
  dsimp only
  split <;> exact yields_ite (yields_pure (Plan.for_batch ..)) (yields_pure (Plan.for_batch ..))

end Determinization

namespace Elimination

theorem plan_isolateFinal? : ∀ p ∈ isolateFinal? a, Plan.For a p := by
  intro p hp
  simp only [isolateFinal?, Option.mem_def, Option.ite_none_right_eq_some] at hp
  exact Option.some.inj hp.2 ▸ Plan.for_batch ..

theorem plan_isolateInitial? : ∀ p ∈ isolateInitial? a, Plan.For a p := by
  intro p hp
  simp only [isolateInitial?, Option.mem_def, Option.ite_none_left_eq_some] at hp
  exact Option.some.inj hp.2 ▸ Plan.for_batch ..

theorem plan_foldLoop (t : TransitionId) : Yields (foldLoop t a) (Plan.For a) :=
  .bind fun _ => yields_ite (.bind fun _ => yields_plan) (yields_error _)

theorem plan_joinParallel (s r : StateId) : Yields (joinParallel s r a) (Plan.For a) :=
  .bind fun _ => yields_ite (yields_error _) yields_plan

theorem plan_bypass (s : StateId) : Yields (bypass s a) (Plan.For a) :=
  yields_ite (yields_error _) <| .bind fun _ =>
    yields_ite (yields_error _) <| .bind fun _ => yields_plan

end Elimination

namespace Pruning

theorem plan_detach (s : StateId) : Yields (detach s a) (Plan.For a) :=
  .bind fun _ => yields_plan (m := 0) (n := 0)

end Pruning

/-! ## Steps on the way -/

namespace Rewriting

theorem traced_carryOut {plan : Automaton → Except Error Plan}
    (hplan : ∀ b, Yields (plan b) (Plan.For b)) (a : Automaton) : Traced (carryOut plan) a :=
  .ask fun p hp => traced_enact (hplan a p hp)

theorem traced_carryOut? {plan? : Automaton → Except Error (Option Plan)}
    (hplan : ∀ b, Yields (plan? b) fun o => ∀ p ∈ o, Plan.For b p) (a : Automaton) :
    Traced (carryOut? plan?) a := by
  refine .ask fun o ho => ?_
  cases o with
  | none => exact traced_pure () a
  | some p => exact traced_enact (hplan a _ ho p rfl)

/-- Carrying out a plan under a condition. -/
theorem traced_ite {plan : Automaton → Except Error Plan}
    (hplan : ∀ b, Yields (plan b) (Plan.For b)) (condition : Bool) (a : Automaton) :
    Traced (if condition then carryOut plan else pure ()) a := by
  split
  · exact traced_carryOut hplan a
  · exact traced_pure () a

/-- A conversion that achieves something executes some steps. -/
theorem Traced.exists_executes {m : Rewriting α} {P : Automaton → Prop}
    {Q : α → Automaton → Prop} (hm : Traced m a) (h : Achieves P m a Q) (hP : P a) :
    ∃ steps x b, Executes m a steps x b := by
  obtain ⟨x, b, hrun, -⟩ := h.runOn_none hP
  obtain ⟨steps, c, -, hexec, -⟩ := hm x _ hrun
  exact ⟨steps, .ok x, c, hexec⟩

end Rewriting

namespace Pruning

theorem traced_prune (a : Automaton) : Traced prune a :=
  .graph <| traced_forM (fun s b => .graph <| traced_ite (fun _ => plan_detach s) _ b) _ a

end Pruning

namespace Expansion

theorem traced_expandFirst (looks : Nat) (a : Automaton) : Traced (expandFirst looks) a := by
  induction looks generalizing a with
  | zero => exact traced_pure () a
  | succ looks ih =>
      refine .graph ?_
      split
      · exact traced_pure () a
      · exact (traced_carryOut? (fun _ => plan_plan?) a).bind fun _ => ih

theorem traced_expandAll (a : Automaton) : Traced expandAll a :=
  .graph <| traced_expandFirst _ a

end Expansion

namespace Determinization

theorem traced_removeAllEpsilon (a : Automaton) : Traced removeAllEpsilon a :=
  .graph <| traced_forM (fun s b => .graph <| traced_ite (fun _ => plan_removeEpsilon s) _ b) _ a

theorem traced_mergeAllEquivalent (table : ClosureTable) (a : Automaton) :
    Traced (mergeAllEquivalent table) a :=
  .graph <| traced_forM
    (fun s b => .graph <| traced_ite (fun _ => plan_mergeEquivalent table s) _ b) _ a

theorem traced_determinizeFirst (looks : Nat) (table : SubsetTable) (a : Automaton) :
    Traced (determinizeFirst looks table) a := by
  induction looks generalizing table a with
  | zero => exact traced_pure () a
  | succ looks ih =>
      refine .graph ?_
      split
      · exact traced_pure () a
      · exact .ask fun r hr => (traced_enact (plan_determinize _ _ _ r hr)).bind fun _ => ih _

theorem traced_determinizeAll (a : Automaton) : Traced determinizeAll a := by
  refine .graph ?_
  split
  · exact traced_throw _ a
  · exact (traced_removeAllEpsilon a).bind fun _ b =>
      (traced_mergeAllEquivalent _ b).bind fun _ c => (Pruning.traced_prune c).bind fun _ d =>
        Traced.bind (.graph <| traced_determinizeFirst _ _ d) fun _ e => Pruning.traced_prune e

end Determinization

namespace Elimination

theorem traced_eliminate (s : StateId) (a : Automaton) : Traced (eliminate s) a := by
  refine .graph <| (traced_forM
    (fun pair b => traced_carryOut (fun _ => plan_joinParallel pair.1 pair.2) b) _ a).bind
    fun _ b => .ask fun loop _ => ?_
  cases loop with
  | none => exact traced_carryOut (fun _ => plan_bypass s) b
  | some t =>
      exact (traced_carryOut (fun _ => plan_foldLoop t) b).bind fun _ =>
        traced_carryOut fun _ => plan_bypass s

theorem traced_eliminateTo (final : StateId) (a : Automaton) : Traced (eliminateTo final) a := by
  have hlast : ∀ start b, Traced (do
      let between ← ask fun a => parallel a start final
      return between.head?.map fun t => t.label.simplify) b :=
    fun start b => .ask fun _ _ => traced_pure _ b
  refine .graph <| .graph <| (traced_forM traced_eliminate _ a).bind fun _ b =>
    .ask fun many _ => ?_
  split
  · exact (traced_carryOut (fun _ => plan_joinParallel _ _) b).bind fun _ => hlast _
  · exact hlast _ b

theorem traced_eliminateAll (a : Automaton) : Traced eliminateAll a := by
  refine (Pruning.traced_prune a).bind fun _ b => .graph ?_
  split
  · refine (traced_carryOut? (fun _ => yields_pure plan_isolateFinal?) b).bind fun _ c =>
      (traced_carryOut? (fun _ => yields_pure plan_isolateInitial?) c).bind fun _ d => .graph ?_
    split
    · exact traced_eliminateTo _ d
    · exact traced_pure none d
  · exact traced_pure none b

end Elimination

/-! ## Whole conversions -/

/-- The conversions that go on until nothing is left to do. -/
inductive Thorough : {α : Type} → Rewriting α → Prop
  | expandAll : Thorough Expansion.expandAll
  | determinizeAll : Thorough Determinization.determinizeAll
  | eliminateAll : Thorough Elimination.eliminateAll
  | prune : Thorough Pruning.prune

namespace Thorough

variable {m : Rewriting α}

/-- A whole conversion of an automaton that is reached executes some steps. -/
theorem exists_executes (hm : Thorough m) (ha : a.Reachable) :
    ∃ steps x b, Executes m a steps x b := by
  cases hm with
  | expandAll =>
      exact (Expansion.traced_expandAll a).exists_executes
        (Expansion.achieves_expandAll ⟨ha.valid, ha.wellFormed, rfl⟩) rfl
  | determinizeAll =>
      -- A compound label is the one thing that a whole conversion is refused for.
      cases hfind : a.transitions.find? fun t => !t.label.isSymbol with
      | some t =>
          refine ⟨[] ++ [], .error (.compoundLabel t.id), a, .bind .graph ?_⟩
          rw [hfind]
          exact .throw _
      | none =>
          have hlit : a.Literal := fun t ht => by simpa using List.find?_eq_none.1 hfind t ht
          exact (Determinization.traced_determinizeAll a).exists_executes
            (Determinization.achieves_determinizeAll ha.valid hlit rfl) rfl
  | eliminateAll =>
      exact (Elimination.traced_eliminateAll a).exists_executes
        (Elimination.achieves_eliminateAll ha.valid
          (Elimination.worded_of_wellFormed ha.wellFormed) rfl) rfl
  | prune =>
      exact (Pruning.traced_prune a).exists_executes (P := fun _ => True)
        (Pruning.achieves_prune (fun _ _ _ _ => trivial) ha.valid fun _ _ _ _ => trivial) trivial

/-- A whole conversion of an automaton that is reached executes the same steps whatever is
recorded. With a history that takes new steps it comes to the same result and leaves the same
automaton, counters included, as without one; the history has the steps after those that were
done before, and is as it was if there are none. With undone steps in the way the first step is
refused and the history and the graph stay as they are, though what has been planned for that
step is handed out; if there is no step, the history makes no difference. -/
theorem runOn_history (hm : Thorough m) (ha : a.Reachable) :
    ∃ steps x b, Executes m a steps x b ∧ m.runOn a none = (x, ⟨b, none⟩) ∧
      ∀ h : History,
        (h.undone = [] ∨ h.clobber = true →
          ∃ k, m.runOn a (some h) = (x, ⟨b, some k⟩) ∧ (steps = [] → k = h) ∧
            (steps ≠ [] → k.steps = h.steps.take h.cursor ++ steps ∧ k.undone = [])) ∧
        (h.undone ≠ [] → h.clobber = false →
          (steps = [] → m.runOn a (some h) = (x, ⟨b, some h⟩)) ∧
          (steps ≠ [] →
            ∃ i j, m.runOn a (some h) = (.error .notAtEnd, ⟨a.reserve i j, some h⟩))) := by
  obtain ⟨steps, x, b, hexec⟩ := hm.exists_executes ha
  refine ⟨steps, x, b, hexec, hexec.runOn_none, fun h => ⟨fun hfree => ?_, fun hundone hkeep => ?_⟩⟩
  · refine ⟨h.keepAll steps, hexec.runOn_some hfree, ?_, fun hsome => ⟨?_, ?_⟩⟩
    · rintro rfl
      rfl
    · exact History.steps_keepAll_of_ne_nil h hsome
    · exact History.undone_keepAll_of_ne_nil h hsome
  · have hblocked : ¬ (h.undone = [] ∨ h.clobber = true) := by simp [hundone, hkeep]
    exact ⟨fun hnone => hexec.runOn_blocked_of_nil hnone (some h),
      fun hsome => hexec.exists_runOn_blocked hsome hblocked⟩

/-- An automaton with a state that the start state does not reach. -/
def stray : Automaton := (Automaton.new 0).withState false

/-- The case of pruning `stray` with a history whose only step is undone: it is dropped if it
may be, and stands in the way if not. -/
theorem runOn_history_stray :
    Thorough Pruning.prune ∧ stray.Reachable ∧
      (∃ k, Pruning.prune.runOn stray (some ⟨[], [.ofEdit (.removeState ⟨0, 1⟩)], true, []⟩) =
          (.ok (), ⟨(Automaton.new 0).reserve 1 0, some k⟩) ∧ k.undone = []) ∧
      ∃ i j, Pruning.prune.runOn stray (some ⟨[], [.ofEdit (.removeState ⟨0, 1⟩)], false, []⟩) =
        (.error .notAtEnd,
          ⟨stray.reserve i j, some ⟨[], [.ofEdit (.removeState ⟨0, 1⟩)], false, []⟩⟩) := by
  have hreachable : stray.Reachable := (reachable_new 0).withState false
  obtain ⟨steps, x, b, hexec, hrun, hhistory⟩ := runOn_history .prune hreachable
  have hprune : Pruning.prune.runOn stray none =
      (.ok (), ⟨(Automaton.new 0).reserve 1 0, none⟩) := rfl
  obtain ⟨rfl, hsession⟩ := Prod.mk.inj (hrun.symm.trans hprune)
  obtain rfl := congrArg Session.graph hsession
  have hsome : steps ≠ [] := fun hnone =>
    absurd (hexec.eq_of_steps_eq_nil hnone) (by decide)
  refine ⟨.prune, hreachable, ?_, ?_⟩
  · obtain ⟨k, hk, -, hkept⟩ :=
      (hhistory ⟨[], [.ofEdit (.removeState ⟨0, 1⟩)], true, []⟩).1 (.inr rfl)
    exact ⟨k, hk, (hkept hsome).2⟩
  · exact ((hhistory ⟨[], [.ofEdit (.removeState ⟨0, 1⟩)], false, []⟩).2
      (List.cons_ne_nil _ _) rfl).2 hsome

end Thorough

end RegularForms
