import RegularForms.Proofs.History
import RegularForms.Rewriting

/-!
# What a conversion achieves

`Achieves P m a Q` says that the conversion `m`, begun with the graph `a`, is not refused
and ends with a result and a graph that are related by `Q`; and that every graph on the
way which the history can bring back has the property `P`. There is one rule for each way
of putting conversions together, so that a proof about a conversion follows its text.
-/

namespace RegularForms

def Plan.Performs (p : Plan) (a b : Automaton) : Prop :=
  (∃ m n, p.graph = a.reserve m n) ∧ p.edit.Joins p.graph b

/-- What performing a plan leads to is what applying its edit leads to. -/
theorem Plan.Performs.exists_apply_eq {p : Plan} {a b : Automaton} (h : p.Performs a b) :
    ∃ left, (Step.ofEdit p.edit).apply p.graph = ⟨left, b, none⟩ := by
  obtain ⟨left, happly, -⟩ := h.2.apply_eq .nothing
  exact ⟨left, happly⟩

/-- The graph has a property, and everything that is recorded can be reverted through
graphs with the property. -/
structure Session.Keeps (P : Automaton → Prop) (s : Session) : Prop where
  holds : P s.graph
  trail : ∀ h, s.history = some h →
    h.undone = [] ∧ History.Trail (fun _ => P) h.done s.graph

namespace Rewriting

variable {P : Automaton → Prop} {α β : Type} {a : Automaton}

/-- Running a conversion from a graph succeeds with a given outcome. -/
def Achieves (P : Automaton → Prop) (m : Rewriting α) (a : Automaton)
    (Q : α → Automaton → Prop) : Prop :=
  ∀ s : Session, s.Keeps P → s.graph = a →
    ∃ x s', m.run.run s = (.ok x, s') ∧ s'.Keeps P ∧
      s'.history.isSome = s.history.isSome ∧ Q x s'.graph

theorem Achieves.mono {m : Rewriting α} {Q R : α → Automaton → Prop}
    (h : Achieves P m a Q) (hQR : ∀ x b, Q x b → R x b) : Achieves P m a R := by
  intro s hs hg
  obtain ⟨x, s', hrun, hkeeps, hsome, hQ⟩ := h s hs hg
  exact ⟨x, s', hrun, hkeeps, hsome, hQR x _ hQ⟩

/-- What holds of every result that is returned holds of the one that is. -/
theorem Achieves.and {m : Rewriting α} {Q : α → Automaton → Prop} {R : α → Prop}
    (h : Achieves P m a Q) (hR : ∀ history x s, m.runOn a history = (.ok x, s) → R x) :
    Achieves P m a fun x b => Q x b ∧ R x := by
  rintro s hs rfl
  obtain ⟨x, s', hrun, hkeeps, hsome, hQ⟩ := h s hs rfl
  exact ⟨x, s', hrun, hkeeps, hsome, hQ, hR s.history x s' hrun⟩

theorem Achieves.congr {m m' : Rewriting α} {Q : α → Automaton → Prop}
    (heq : ∀ history, m.runOn a history = m'.runOn a history) (h : Achieves P m' a Q) :
    Achieves P m a Q := by
  rintro s hs rfl
  obtain ⟨x, s', hrun, hs'⟩ := h s hs rfl
  exact ⟨x, s', (heq s.history).trans hrun, hs'⟩

theorem achieves_pure {x : α} {Q : α → Automaton → Prop} (h : Q x a) :
    Achieves P (pure x) a Q := by
  rintro s hs rfl
  exact ⟨x, s, rfl, hs, rfl, h⟩

/-- What comes after a conversion goes on from where it ends. -/
theorem run_bind {m : Rewriting α} {f : α → Rewriting β} {x : α} {s s' : Session}
    (h : m.run.run s = (.ok x, s')) : (m >>= f).run.run s = (f x).run.run s' := by
  simp only [ExceptT.run_bind, StateT.run_bind, h]
  rfl

theorem run_bind_error {m : Rewriting α} {f : α → Rewriting β} {err : Error} {s s' : Session}
    (h : m.run.run s = (.error err, s')) : (m >>= f).run.run s = (.error err, s') := by
  simp only [ExceptT.run_bind, StateT.run_bind, h]
  rfl

theorem Achieves.bind {m : Rewriting α} {f : α → Rewriting β} {Q : β → Automaton → Prop}
    (h : Achieves P m a fun x b => Achieves P (f x) b Q) : Achieves P (m >>= f) a Q := by
  intro s hs hg
  obtain ⟨x, s', hrun, hkeeps, hsome, hf⟩ := h s hs hg
  obtain ⟨y, s'', hrun', hkeeps', hsome', hQ⟩ := hf s' hkeeps rfl
  exact ⟨y, s'', (run_bind hrun).trans hrun', hkeeps', hsome'.trans hsome, hQ⟩

theorem runOn_bind {m : Rewriting α} {f : α → Rewriting β} {history : Option History} {x : α}
    {s : Session} (h : m.runOn a history = (.ok x, s)) :
    (m >>= f).runOn a history = (f x).runOn s.graph s.history := run_bind h

theorem runOn_bind_error {m : Rewriting α} {f : α → Rewriting β} {history : Option History}
    {err : Error} {s : Session} (h : m.runOn a history = (.error err, s)) :
    (m >>= f).runOn a history = (.error err, s) := run_bind_error h

theorem runOn_graph (f : Automaton → Rewriting β) (history : Option History) :
    (graph >>= f).runOn a history = (f a).runOn a history := rfl

/-- The rule for looking at the graph first. -/
theorem Achieves.graph {f : Automaton → Rewriting β} {Q : β → Automaton → Prop}
    (h : Achieves P (f a) a Q) : Achieves P (graph >>= f) a Q := by
  refine Achieves.bind ?_
  rintro s hs rfl
  exact ⟨s.graph, s, rfl, hs, rfl, h⟩

/-- A question is about the graph as it is, and changes nothing. -/
theorem run_ask (question : Automaton → Except Error α) (s : Session) :
    (ask question).run.run s = (question s.graph, s) := by
  show (Rewriting.graph >>= fun b => MonadExcept.ofExcept (question b)).run.run s = _
  simp only [ExceptT.run_bind, StateT.run_bind]
  show ((MonadExcept.ofExcept (question s.graph) : Rewriting α)).run.run s = _
  cases question s.graph <;> rfl

theorem runOn_ask (question : Automaton → Except Error α) (history : Option History) :
    (ask question).runOn a history = (question a, ⟨a, history⟩) := run_ask question _

/-- The rule for asking the graph something first. -/
theorem Achieves.ask {question : Automaton → Except Error α} {f : α → Rewriting β}
    {Q : β → Automaton → Prop} {x : α} (hx : question a = .ok x) (h : Achieves P (f x) a Q) :
    Achieves P (ask question >>= f) a Q := by
  refine Achieves.bind ?_
  rintro s hs rfl
  refine ⟨x, s, ?_, hs, rfl, h⟩
  rw [run_ask, hx]

/-- Recording a step at the end of a trail. -/
theorem achieves_perform {e : Edit} {b : Automaton} {Q : Unit → Automaton → Prop}
    (hjoins : e.Joins a b) (hP : P b) (hQ : Q () b) :
    Achieves P (perform (.ofEdit e)) a Q := by
  rintro ⟨a, history⟩ hs rfl
  cases history with
  | none =>
      obtain ⟨left, happly, -⟩ := hjoins.apply_eq .nothing
      have hr : (Step.ofEdit e).apply a = ⟨left, b, none⟩ := happly
      have hrun : (perform (.ofEdit e)).run.run ⟨a, none⟩ = (.ok (), ⟨b, none⟩) := by
        show ((set (⟨((Step.ofEdit e).apply a).graph, none⟩ : Session) : Rewriting Unit) >>=
          fun _ => check ((Step.ofEdit e).apply a).refusal).run.run ⟨a, none⟩ = _
        rw [hr]
        rfl
      exact ⟨(), ⟨b, none⟩, hrun, ⟨hP, fun _ h => nomatch h⟩, rfl, hQ⟩
  | some h =>
      obtain ⟨hundone, htrail⟩ := hs.trail h rfl
      have hjoins' : (Step.ofEdit e).edit.Joins a b := hjoins
      obtain ⟨left, hretracts, hrecord⟩ := History.exists_record_eq hjoins' (.inl hundone)
      have hrun : (perform (.ofEdit e)).run.run ⟨a, some h⟩ =
          (.ok (), ⟨b, some (h.record (.ofEdit e) a).history⟩) := by
        show ((set (⟨(h.record (.ofEdit e) a).graph,
          some (h.record (.ofEdit e) a).history⟩ : Session) : Rewriting Unit) >>=
          fun _ => check (h.record (.ofEdit e) a).refusal).run.run ⟨a, some h⟩ = _
        rw [hrecord]
        rfl
      refine ⟨(), _, hrun, ⟨hP, fun k hk => ?_⟩, rfl, hQ⟩
      obtain rfl := Option.some.inj hk
      rw [hrecord]
      exact ⟨rfl, hP, a, hjoins, hretracts, htrail⟩

/-- The rule for a planned edit. -/
theorem achieves_enact (hreserve : ∀ a m n, P a → P (a.reserve m n)) {p : Plan}
    {b : Automaton} {Q : Unit → Automaton → Prop} (hp : p.Performs a b) (hP : P b)
    (hQ : Q () b) : Achieves P (enact p) a Q := by
  obtain ⟨⟨m, n, hgraph⟩, hjoins⟩ := hp
  refine Achieves.bind ?_
  rintro ⟨a, history⟩ hs rfl
  refine ⟨(), ⟨p.graph, history⟩, rfl, ⟨?_, fun h hh => ?_⟩, rfl,
    achieves_perform hjoins hP hQ⟩
  · rw [hgraph]
    exact hreserve a m n hs.holds
  · obtain ⟨hundone, htrail⟩ := hs.trail h hh
    rw [hgraph]
    exact ⟨hundone, htrail.reserve fun _ a => hreserve a m n⟩

theorem achieves_carryOut (hreserve : ∀ a m n, P a → P (a.reserve m n))
    {plan : Automaton → Except Error Plan} {p : Plan} {b : Automaton}
    {Q : Unit → Automaton → Prop} (hplan : plan a = .ok p) (hp : p.Performs a b) (hP : P b)
    (hQ : Q () b) : Achieves P (carryOut plan) a Q :=
  Achieves.ask hplan (achieves_enact hreserve hp hP hQ)

theorem achieves_carryOut?_some (hreserve : ∀ a m n, P a → P (a.reserve m n))
    {plan? : Automaton → Except Error (Option Plan)} {p : Plan} {b : Automaton}
    {Q : Unit → Automaton → Prop} (hplan : plan? a = .ok (some p)) (hp : p.Performs a b)
    (hP : P b) (hQ : Q () b) : Achieves P (carryOut? plan?) a Q :=
  Achieves.ask hplan (achieves_enact hreserve hp hP hQ)

theorem achieves_carryOut?_none {plan? : Automaton → Except Error (Option Plan)}
    {Q : Unit → Automaton → Prop} (hplan : plan? a = .ok none) (hQ : Q () a) :
    Achieves P (carryOut? plan?) a Q :=
  Achieves.ask hplan (achieves_pure hQ)

/-- The rule for going through a list: what holds before a member is treated, of the
members that are left, holds again after it. -/
theorem achieves_forM {f : α → Rewriting Unit} {I : List α → Automaton → Prop}
    (hstep : ∀ x xs b, I (x :: xs) b → Achieves P (f x) b fun _ => I xs) {xs : List α}
    (h : I xs a) : Achieves P (xs.forM f) a fun _ => I [] := by
  induction xs generalizing a with
  | nil => exact achieves_pure h
  | cons x xs ih => exact Achieves.bind ((hstep x xs a h).mono fun _ b hb => ih hb)

/-! ## Whole runs -/

theorem Achieves.runOn_none {m : Rewriting α} {Q : α → Automaton → Prop}
    (h : Achieves P m a Q) (hP : P a) :
    ∃ x b, m.runOn a none = (.ok x, ⟨b, none⟩) ∧ Q x b := by
  obtain ⟨x, ⟨b, history⟩, hrun, -, hsome, hQ⟩ :=
    h ⟨a, none⟩ ⟨hP, fun _ h => nomatch h⟩ rfl
  cases history with
  | none => exact ⟨x, b, hrun, hQ⟩
  | some h => nomatch hsome

/-- A run leads to one graph only. -/
theorem graph_eq_of_runOn_eq {m : Rewriting α} {history h k : Option History} {b c : Automaton}
    {x y : Except Error α} (hb : m.runOn a history = (x, ⟨b, h⟩))
    (hc : m.runOn a history = (y, ⟨c, k⟩)) : b = c :=
  congrArg (fun r => r.2.graph) (hb.symm.trans hc)

/-- Carrying out one plan. -/
theorem runOn_carryOut {plan : Automaton → Except Error Plan} {p : Plan} {b : Automaton}
    (hplan : plan a = .ok p) (hp : p.Performs a b) :
    (carryOut plan).runOn a none = (.ok (), ⟨b, none⟩) := by
  have hachieves : Achieves (fun _ => True) (carryOut plan) a fun _ => (· = b) :=
    achieves_carryOut (fun _ _ _ _ => trivial) hplan hp trivial rfl
  obtain ⟨_, _, hrun, rfl⟩ := hachieves.runOn_none trivial
  exact hrun

/-- A plan that cannot be made leaves everything as it is. -/
theorem runOn_carryOut_error {plan : Automaton → Except Error Plan} {err : Error}
    (hplan : plan a = .error err) (history : Option History) :
    (carryOut plan).runOn a history = (.error err, ⟨a, history⟩) := by
  have hask : (ask plan).run.run ⟨a, history⟩ = (.error err, ⟨a, history⟩) := by
    rw [run_ask, hplan]
  exact run_bind_error hask

/-- A conversion that is recorded in a new history leaves a sound history. -/
theorem Achieves.runOn_new {m : Rewriting α} {Q : α → Automaton → Prop}
    (h : Achieves P m a Q) (hP : P a) (clobber : Bool) :
    ∃ x b hist, m.runOn a (some (History.new clobber)) = (.ok x, ⟨b, some hist⟩) ∧
      hist.Sound (fun _ => P) b ∧ Q x b := by
  have hkeeps : Session.Keeps P ⟨a, some (History.new clobber)⟩ := by
    refine ⟨hP, fun h hh => ?_⟩
    obtain rfl := Option.some.inj hh
    exact ⟨rfl, hP⟩
  obtain ⟨x, ⟨b, history⟩, hrun, hkeeps', hsome, hQ⟩ := h _ hkeeps rfl
  cases history with
  | none => nomatch hsome
  | some hist =>
      obtain ⟨hundone, htrail⟩ := hkeeps'.trail hist rfl
      exact ⟨x, b, hist, hrun, ⟨htrail, hundone ▸ trivial⟩, hQ⟩

end Rewriting

end RegularForms
