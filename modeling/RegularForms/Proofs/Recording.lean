import RegularForms.Proofs.Rewriting

/-!
# With a history and without

A history takes down the edits of a conversion and has no say in them. As long as no undone
steps stand in the way of new ones, a conversion comes to the same result and leads to the
same graph whether a history is kept or not, and whatever has been recorded before. This is
shown once for each way of putting conversions together.
-/

namespace RegularForms

namespace Rewriting

variable {α β : Type} {a b : Automaton} {history : Option History}

def Unblocked (history : Option History) : Prop :=
  ∀ h, history = some h → h.undone = [] ∨ h.clobber = true

theorem unblocked_none : Unblocked none := nofun

/-! ## Recording an edit -/

/-- When nothing stands in the way, a step has the same effect on the graph as without a
history. -/
theorem exists_record_of_unblocked {h : History} (hfree : h.undone = [] ∨ h.clobber = true)
    (s : Step) (a : Automaton) :
    ∃ k, h.record s a = ⟨k, (s.apply a).graph, (s.apply a).refusal⟩ ∧
      (k.undone = [] ∨ k.clobber = true) ∧
        k.past = if (s.apply a).refusal.isSome then h.past else s.edit :: h.past := by
  have hopen : ¬ (!h.undone.isEmpty && !h.clobber) = true := by
    rcases hfree with hfree | hfree <;> simp [hfree]
  rw [History.record, if_neg hopen]
  obtain ⟨left, b, refusal⟩ := s.apply a
  cases refusal with
  | none => exact ⟨_, rfl, .inl rfl, rfl⟩
  | some err => exact ⟨h, rfl, hfree, rfl⟩

def verdict : Option Error → Except Error Unit
  | none => .ok ()
  | some err => .error err

theorem run_check (refusal : Option Error) (s : Session) :
    (check refusal).run.run s = (verdict refusal, s) := by
  cases refusal <;> rfl

theorem run_perform_none (s : Step) (a : Automaton) : (perform s).run.run ⟨a, none⟩ =
    (verdict (s.apply a).refusal, ⟨(s.apply a).graph, none⟩) := run_check _ _

theorem run_perform_some (s : Step) (a : Automaton) (h : History) :
    (perform s).run.run ⟨a, some h⟩ = (verdict (h.record s a).refusal,
      ⟨(h.record s a).graph, some (h.record s a).history⟩) := run_check _ _

/-- A step that is performed is recorded unless it is refused. -/
theorem exists_run_perform (s : Step) (a : Automaton) (hfree : Unblocked history) :
    ∃ history', (perform s).run.run ⟨a, history⟩ =
        (verdict (s.apply a).refusal, ⟨(s.apply a).graph, history'⟩) ∧ Unblocked history' ∧
      history'.map History.past = history.map fun h =>
        if (s.apply a).refusal.isSome then h.past else s.edit :: h.past := by
  cases history with
  | none => exact ⟨none, run_perform_none s a, unblocked_none, rfl⟩
  | some h =>
      obtain ⟨k, hrecord, hfree', hpast⟩ := exists_record_of_unblocked (hfree h rfl) s a
      have hrun := run_perform_some s a h
      rw [hrecord] at hrun
      exact ⟨some k, hrun, fun _ heq => Option.some.inj heq ▸ hfree', congrArg some hpast⟩

/-- Enacting a plan whose edit is not refused records the edit, if a history is kept. -/
theorem exists_runOn_enact {p : Plan} {left : Backup}
    (happly : (Step.ofEdit p.edit).apply p.graph = ⟨left, b, none⟩) (hfree : Unblocked history) :
    ∃ history', (enact p).runOn a history = (.ok (), ⟨b, history'⟩) ∧ Unblocked history' ∧
      history'.map History.past = history.map fun h => p.edit :: h.past := by
  obtain ⟨history', hrun, hfree', hpast⟩ := exists_run_perform (Step.ofEdit p.edit) p.graph hfree
  rw [happly] at hrun hpast
  exact ⟨history', hrun, hfree', hpast⟩

/-! ## Conversions that do not heed the history -/

/-- A conversion comes to the same whether a history is kept or not. -/
def Heedless (m : Rewriting α) : Prop :=
  ∀ a, ∃ x b, ∀ history, Unblocked history →
    ∃ history', m.runOn a history = (x, ⟨b, history'⟩) ∧ Unblocked history'

/-- What is found without a history holds with one. -/
theorem Heedless.exists_runOn {m : Rewriting α} {x : Except Error α} (h : Heedless m)
    (hrun : m.runOn a none = (x, ⟨b, none⟩)) (hfree : Unblocked history) :
    ∃ history', m.runOn a history = (x, ⟨b, history'⟩) ∧ Unblocked history' := by
  obtain ⟨y, c, hall⟩ := h a
  obtain ⟨_, hnone, -⟩ := hall none unblocked_none
  obtain ⟨rfl, hsession⟩ := Prod.mk.inj (hnone.symm.trans hrun)
  obtain rfl := congrArg Session.graph hsession
  exact hall history hfree

theorem heedless_pure (x : α) : Heedless (pure x : Rewriting α) := fun a =>
  ⟨.ok x, a, fun history hfree => ⟨history, rfl, hfree⟩⟩

theorem heedless_graph : Heedless graph := fun a =>
  ⟨.ok a, a, fun history hfree => ⟨history, rfl, hfree⟩⟩

theorem heedless_ask (question : Automaton → Except Error α) : Heedless (ask question) := fun a =>
  ⟨question a, a, fun history hfree => ⟨history, run_ask question ⟨a, history⟩, hfree⟩⟩

theorem heedless_enact (p : Plan) : Heedless (enact p) := by
  refine fun a => ⟨verdict ((Step.ofEdit p.edit).apply p.graph).refusal,
    ((Step.ofEdit p.edit).apply p.graph).graph, fun history hfree => ?_⟩
  obtain ⟨history', hrun, hfree', -⟩ := exists_run_perform (Step.ofEdit p.edit) p.graph hfree
  exact ⟨history', hrun, hfree'⟩

theorem Heedless.bind {m : Rewriting α} {f : α → Rewriting β} (hm : Heedless m)
    (hf : ∀ x, Heedless (f x)) : Heedless (m >>= f) := by
  intro a
  obtain ⟨r, b, hrun⟩ := hm a
  cases r with
  | error err =>
      refine ⟨.error err, b, fun history hfree => ?_⟩
      obtain ⟨history', hrun, hfree'⟩ := hrun history hfree
      exact ⟨history', run_bind_error hrun, hfree'⟩
  | ok x =>
      obtain ⟨y, c, hnext⟩ := hf x b
      refine ⟨y, c, fun history hfree => ?_⟩
      obtain ⟨history', hrun, hfree'⟩ := hrun history hfree
      obtain ⟨history'', hnext, hfree''⟩ := hnext history' hfree'
      exact ⟨history'', (run_bind hrun).trans hnext, hfree''⟩

theorem heedless_carryOut (plan : Automaton → Except Error Plan) : Heedless (carryOut plan) :=
  (heedless_ask plan).bind heedless_enact

/-- Carrying out a plan under a condition. -/
theorem heedless_ite (condition : Automaton → Bool) (plan : Automaton → Except Error Plan) :
    Heedless (do if condition (← graph) then carryOut plan else pure ()) := by
  refine heedless_graph.bind fun a => ?_
  split
  · exact heedless_carryOut plan
  · exact heedless_pure ()

theorem heedless_forM {f : α → Rewriting Unit} (hf : ∀ x, Heedless (f x)) (xs : List α) :
    Heedless (xs.forM f) := by
  induction xs with
  | nil => exact heedless_pure ()
  | cons x xs ih => exact (hf x).bind fun _ => ih

end Rewriting

end RegularForms
