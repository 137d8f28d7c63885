import RegularForms.Proofs.Recording

/-!
# What a conversion executes

`Executes m a steps x b` says what happens when the conversion `m` is run on the graph `a` and
none of its edits is refused: the steps are performed one after the other, the result is `x` and
the graph that is left is `b`. A history has no part in it. What a history makes of the run
follows from the steps alone. One that takes new steps keeps them all, after those that were
done before; one with undone steps in the way refuses the first, before anything is done.
-/

namespace RegularForms

namespace History

def keep (h : History) (s : Step) : History :=
  { h.dropUndone with done := s :: h.done }.announce (.cursor (h.cursor + 1))

def keepAll (h : History) (steps : List Step) : History := steps.foldl keep h

theorem done_keepAll (h : History) (steps : List Step) :
    (h.keepAll steps).done = steps.reverse ++ h.done := by
  induction steps generalizing h with
  | nil => rfl
  | cons s steps ih =>
      rw [List.reverse_cons, List.append_assoc]
      exact ih (h.keep s)

theorem undone_keepAll {h : History} (hend : h.undone = []) (steps : List Step) :
    (h.keepAll steps).undone = [] :=
  List.foldlRecOn (motive := fun k => k.undone = []) steps keep hend fun _ _ _ _ => rfl

theorem undone_keepAll_of_ne_nil (h : History) {steps : List Step} (hsome : steps ≠ []) :
    (h.keepAll steps).undone = [] := by
  cases steps with
  | nil => exact absurd rfl hsome
  | cons s steps => exact undone_keepAll (h := h.keep s) rfl steps

/-- At the end of a history the steps that are performed come after all others. -/
theorem steps_keepAll {h : History} (hend : h.undone = []) (steps : List Step) :
    (h.keepAll steps).steps = h.steps ++ steps := by
  rw [History.steps, undone_keepAll hend, done_keepAll, History.steps, hend]
  simp

/-- The steps up to the cursor stay, and those that are performed come after them. -/
theorem steps_keepAll_of_ne_nil (h : History) {steps : List Step} (hsome : steps ≠ []) :
    (h.keepAll steps).steps = h.steps.take h.cursor ++ steps := by
  have htake : h.steps.take h.cursor = h.done.reverse :=
    List.take_left' (by rw [List.length_reverse, cursor])
  rw [History.steps, undone_keepAll_of_ne_nil h hsome, done_keepAll, htake]
  simp

/-- New steps can go on being recorded. -/
theorem unblocked_keepAll {h : History} (hfree : h.undone = [] ∨ h.clobber = true)
    (steps : List Step) : (h.keepAll steps).undone = [] ∨ (h.keepAll steps).clobber = true :=
  List.foldlRecOn (motive := fun k => k.undone = [] ∨ k.clobber = true) steps keep hfree
    fun _ _ _ _ => .inl rfl

theorem record_eq_keep {h : History} (hfree : h.undone = [] ∨ h.clobber = true) {s : Step}
    {a b : Automaton} {left : Backup} (happly : s.apply a = ⟨left, b, none⟩) :
    h.record s a = ⟨h.keep (s.remember left), b, none⟩ := by
  have hopen : ¬ (!h.undone.isEmpty && !h.clobber) = true := by
    rcases hfree with hfree | hfree <;> simp [hfree]
  rw [record, if_neg hopen, happly]
  rfl

end History

def Edit.IsBatch (e : Edit) : Prop := ∃ purpose edits, e = .batch purpose edits

/-- The plan for an automaton differs from it in what has been handed out, and is for a batch. -/
structure Plan.For (a : Automaton) (p : Plan) : Prop where
  graph : ∃ m n, p.graph = a.reserve m n
  batch : p.edit.IsBatch

theorem Plan.for_batch (a : Automaton) (m n : Nat) (purpose : Purpose) (edits : List Edit) :
    For a ⟨.batch purpose edits, a.reserve m n⟩ :=
  ⟨⟨m, n, rfl⟩, purpose, edits, rfl⟩

namespace Rewriting

variable {α β : Type} {m : Rewriting α} {a b : Automaton} {steps : List Step}
  {x : Except Error α} {h : History}

/-- A conversion performs just the given steps on a graph, in order, ends with a result and
leaves a graph. -/
inductive Executes :
    {α : Type} → Rewriting α → Automaton → List Step → Except Error α → Automaton → Prop
  | pure {α : Type} {a : Automaton} (x : α) : Executes (pure x) a [] (.ok x) a
  | throw {α : Type} {a : Automaton} (err : Error) :
      Executes (throw err : Rewriting α) a [] (.error err) a
  | graph {a : Automaton} : Executes graph a [] (.ok a) a
  | ask {α : Type} {a : Automaton} (question : Automaton → Except Error α) :
      Executes (ask question) a [] (question a) a
  | enact {p : Plan} {a b : Automaton} {left : Backup} (hgraph : ∃ m n, p.graph = a.reserve m n)
      (happly : (Step.ofEdit p.edit).apply p.graph = ⟨left, b, none⟩) :
      Executes (enact p) a [(Step.ofEdit p.edit).remember left] (.ok ()) b
  | bind {α β : Type} {m : Rewriting α} {f : α → Rewriting β} {a b c : Automaton}
      {steps steps' : List Step} {x : α} {y : Except Error β} (hm : Executes m a steps (.ok x) b)
      (hf : Executes (f x) b steps' y c) : Executes (m >>= f) a (steps ++ steps') y c
  | bind_error {α β : Type} {m : Rewriting α} {f : α → Rewriting β} {a b : Automaton}
      {steps : List Step} {err : Error} (hm : Executes m a steps (.error err) b) :
      Executes (m >>= f) a steps (.error err) b

namespace Executes

/-- Without a history. -/
theorem runOn_none (hm : Executes m a steps x b) : m.runOn a none = (x, ⟨b, none⟩) := by
  induction hm with
  | pure | throw | graph => rfl
  | ask question => exact run_ask question _
  | @enact p _ b left _ happly =>
      have hrun := run_perform_none (Step.ofEdit p.edit) p.graph
      rw [happly] at hrun
      exact hrun
  | bind _ _ ihm ihf => exact (run_bind ihm).trans ihf
  | bind_error _ ih => exact run_bind_error ih

/-- With a history that takes new steps. -/
theorem runOn_some (hm : Executes m a steps x b) {h : History}
    (hfree : h.undone = [] ∨ h.clobber = true) :
    m.runOn a (some h) = (x, ⟨b, some (h.keepAll steps)⟩) := by
  induction hm generalizing h with
  | pure | throw | graph => rfl
  | ask question => exact run_ask question _
  | @enact p _ b left _ happly =>
      have hrun := run_perform_some (Step.ofEdit p.edit) p.graph h
      rw [History.record_eq_keep hfree happly] at hrun
      exact hrun
  | bind _ _ ihm ihf =>
      rw [History.keepAll, List.foldl_append]
      exact (run_bind (ihm hfree)).trans (ihf (History.unblocked_keepAll hfree _))
  | bind_error _ ih => exact run_bind_error (ih hfree)

/-- Where nothing is performed, the automaton is as it was. -/
theorem eq_of_steps_eq_nil (hm : Executes m a steps x b) (hnone : steps = []) : b = a := by
  induction hm with
  | pure | throw | graph | ask => rfl
  | enact => nomatch hnone
  | bind _ _ ihm ihf =>
      obtain ⟨hleft, hright⟩ := List.append_eq_nil_iff.1 hnone
      exact (ihf hright).trans (ihm hleft)
  | bind_error _ ih => exact ih hnone

/-- With a history in which undone steps stand in the way: nothing is heard of it as long as
nothing is performed. -/
theorem runOn_blocked_of_nil (hm : Executes m a steps x b) (hnone : steps = [])
    (history : Option History) : m.runOn a history = (x, ⟨b, history⟩) := by
  induction hm with
  | pure | throw | graph => rfl
  | ask question => exact run_ask question _
  | enact => nomatch hnone
  | bind _ _ ihm ihf =>
      obtain ⟨hleft, hright⟩ := List.append_eq_nil_iff.1 hnone
      exact (run_bind (ihm hleft)).trans (ihf hright)
  | bind_error _ ih => exact run_bind_error (ih hnone)

/-- With a history in which undone steps stand in the way, the first step is refused. What its
plan hands out is handed out all the same. -/
theorem exists_runOn_blocked (hm : Executes m a steps x b) (hsome : steps ≠ [])
    (hblocked : ¬ (h.undone = [] ∨ h.clobber = true)) :
    ∃ i j, m.runOn a (some h) = (.error .notAtEnd, ⟨a.reserve i j, some h⟩) := by
  induction hm with
  | pure | throw | graph | ask => exact absurd rfl hsome
  | @enact p a b left hgraph happly =>
      obtain ⟨i, j, hgraph⟩ := hgraph
      have hrun := run_perform_some (Step.ofEdit p.edit) p.graph h
      rw [History.record_of_blocked hblocked] at hrun
      have hrefused : (Rewriting.enact p).runOn a (some h) =
        (.error .notAtEnd, ⟨p.graph, some h⟩) := hrun
      exact ⟨i, j, by rw [hrefused, hgraph]⟩
  | @bind _ _ _ _ _ _ _ before after _ _ hm _ ihm ihf =>
      cases before with
      | nil =>
          obtain ⟨i, j, hrun⟩ := ihf hsome
          obtain rfl := hm.eq_of_steps_eq_nil rfl
          exact ⟨i, j, (run_bind (hm.runOn_blocked_of_nil rfl _)).trans hrun⟩
      | cons s before =>
          obtain ⟨i, j, hrun⟩ := ihm (List.cons_ne_nil s before)
          exact ⟨i, j, run_bind_error hrun⟩
  | bind_error _ ih =>
      obtain ⟨i, j, hrun⟩ := ih hsome
      exact ⟨i, j, run_bind_error hrun⟩

/-- What a conversion performs, its result and the graph that it leaves are determined by the
graph that it is run on. -/
theorem unique {steps' : List Step} {x' : Except Error α} {b' : Automaton}
    (hm : Executes m a steps x b) (hm' : Executes m a steps' x' b') :
    steps' = steps ∧ x' = x ∧ b' = b := by
  have hrun := hm.runOn_some (h := .new false) (.inl rfl)
  obtain ⟨hresult, hsession⟩ :=
    Prod.mk.inj ((hm'.runOn_some (h := .new false) (.inl rfl)).symm.trans hrun)
  obtain ⟨hgraph, hhistory⟩ := Session.mk.inj hsession
  have hdone := congrArg History.done (Option.some.inj hhistory)
  rw [History.done_keepAll, History.done_keepAll] at hdone
  exact ⟨List.reverse_inj.1 (List.append_cancel_right hdone), hresult, hgraph⟩

end Executes

theorem executes_carryOut?_some {plan? : Automaton → Except Error (Option Plan)} {p : Plan}
    {left : Backup} (hplan : plan? a = .ok (some p)) (hgraph : ∃ m n, p.graph = a.reserve m n)
    (happly : (Step.ofEdit p.edit).apply p.graph = ⟨left, b, none⟩) :
    Executes (carryOut? plan?) a [(Step.ofEdit p.edit).remember left] (.ok ()) b := by
  have hask : Executes (ask plan?) a [] (.ok (some p)) a := hplan ▸ .ask plan?
  exact .bind hask (.enact hgraph happly)

/-! ## Conversions that are not refused -/

/-- When the conversion is not refused on a graph, it executes some steps, all of them batches. -/
def Traced (m : Rewriting α) (a : Automaton) : Prop :=
  ∀ x s, m.runOn a none = (.ok x, s) →
    ∃ steps b, s = ⟨b, none⟩ ∧ Executes m a steps (.ok x) b ∧ ∀ s ∈ steps, s.edit.IsBatch

theorem traced_pure (x : α) (a : Automaton) : Traced (pure x) a := by
  rintro _ _ ⟨⟩
  exact ⟨[], a, rfl, .pure x, List.forall_mem_nil _⟩

theorem traced_throw (err : Error) (a : Automaton) : Traced (throw err : Rewriting α) a := nofun

theorem Traced.bind {f : α → Rewriting β} (hm : Traced m a) (hf : ∀ x b, Traced (f x) b) :
    Traced (m >>= f) a := by
  intro y s hrun
  obtain ⟨r, s', hfirst⟩ : ∃ r s', m.run.run ⟨a, none⟩ = (r, s') := ⟨_, _, rfl⟩
  cases r with
  | error err => nomatch (run_bind_error hfirst).symm.trans hrun
  | ok x =>
      obtain ⟨steps, b, rfl, hexec, hbatch⟩ := hm x s' hfirst
      obtain ⟨steps', c, rfl, hexec', hbatch'⟩ := hf x b y s ((run_bind hfirst).symm.trans hrun)
      exact ⟨_, c, rfl, .bind hexec hexec', List.forall_mem_append.2 ⟨hbatch, hbatch'⟩⟩

/-- Looking at the graph first. -/
theorem Traced.graph {f : Automaton → Rewriting β} (hf : Traced (f a) a) :
    Traced (graph >>= f) a := by
  intro y s hrun
  obtain ⟨steps, b, rfl, hexec, hbatch⟩ := hf y s hrun
  exact ⟨_, b, rfl, .bind .graph hexec, hbatch⟩

/-- Asking the graph something first. -/
theorem Traced.ask {question : Automaton → Except Error α} {f : α → Rewriting β}
    (hf : ∀ x, question a = .ok x → Traced (f x) a) : Traced (ask question >>= f) a := by
  intro y s hrun
  have hask := run_ask question ⟨a, none⟩
  cases hx : question a with
  | error err =>
      rw [hx] at hask
      nomatch (run_bind_error hask).symm.trans hrun
  | ok x =>
      rw [hx] at hask
      obtain ⟨steps, b, rfl, hexec, hbatch⟩ := hf x hx y s ((run_bind hask).symm.trans hrun)
      have hasked : Executes (Rewriting.ask question) a [] (.ok x) a := hx ▸ .ask question
      exact ⟨_, b, rfl, .bind hasked hexec, hbatch⟩

theorem traced_enact {p : Plan} (hp : p.For a) : Traced (enact p) a := by
  intro x s hrun
  have hperform := run_perform_none (Step.ofEdit p.edit) p.graph
  cases happly : (Step.ofEdit p.edit).apply p.graph with
  | mk left b refusal =>
      rw [happly] at hperform
      have hsame := hperform.symm.trans hrun
      cases refusal with
      | some err => nomatch hsame
      | none =>
          obtain ⟨⟨⟩, rfl⟩ := Prod.mk.inj hsame
          exact ⟨_, b, rfl, .enact hp.graph happly, List.forall_mem_singleton.2 hp.batch⟩

/-- Going through a list. -/
theorem traced_forM {f : α → Rewriting Unit} (hf : ∀ x b, Traced (f x) b) (xs : List α)
    (a : Automaton) : Traced (xs.forM f) a := by
  induction xs generalizing a with
  | nil => exact traced_pure () a
  | cons x xs ih => exact (hf x a).bind fun _ => ih

end Rewriting

end RegularForms
