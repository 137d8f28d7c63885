import RegularForms.Proofs.Completion
import RegularForms.Proofs.Stamp.Call

/-!
# What conversions need and keep

Suppose that the changes of a graph keep a property of it as long as what they add comes from some
stock, and that every command that is drawn up for a graph with the property needs nothing but
what is in the stock. Then commands that are made of what is in the stock keep the property,
applied, reverted, or recorded in a history, also when they are refused half-way, and what they
remember is in the stock. So a conversion keeps it as well: it is a sequence of commands, each drawn
up for the graph that the ones before have left. What it returns is a label of its last graph.
-/

namespace RegularForms

open Automaton

variable {α β : Type} {stock : Stock} {P : Automaton → Prop} {a b : Automaton} {p : Plan}

/-! ## Plans -/

inductive Drafted (a : Automaton) : Plan → Prop
  | detach {s : StateId} {p : Plan} (h : Pruning.detach s a = .ok p) : Drafted a p
  | choice {t : TransitionId} {p : Plan} (h : Expansion.choice t a = .ok p) : Drafted a p
  | sequence {t : TransitionId} {p : Plan} (h : Expansion.sequence t a = .ok p) : Drafted a p
  | option {t : TransitionId} {p : Plan} (h : Expansion.option t a = .ok p) : Drafted a p
  | iteration {isolation : Isolation} {t : TransitionId} {p : Plan}
      (h : Expansion.iteration isolation t a = .ok p) : Drafted a p
  | removeEpsilon {s : StateId} {p : Plan} (h : Determinization.removeEpsilon s a = .ok p) :
      Drafted a p
  | mergeEquivalent {table : ClosureTable} {s : StateId} {p : Plan}
      (h : Determinization.mergeEquivalent table s a = .ok p) : Drafted a p
  | determinize {table : SubsetTable} {s : StateId} {symbol : Char} {r : Plan × SubsetTable}
      (h : Determinization.determinize table s symbol a = .ok r) : Drafted a r.1
  | isolateFinal {p : Plan} (h : Elimination.isolateFinal? a = some p) : Drafted a p
  | isolateInitial {p : Plan} (h : Elimination.isolateInitial? a = some p) : Drafted a p
  | foldLoop {t : TransitionId} {p : Plan} (h : Elimination.foldLoop t a = .ok p) : Drafted a p
  | joinParallel {source target : StateId} {p : Plan}
      (h : Elimination.joinParallel source target a = .ok p) : Drafted a p
  | bypass {s : StateId} {p : Plan} (h : Elimination.bypass s a = .ok p) : Drafted a p

theorem Drafted.planFor (h : Drafted a p) : p.For a := by
  cases h with
  | detach h => exact Pruning.plan_detach _ p h
  | choice h => exact Expansion.plan_choice p h
  | sequence h => exact Expansion.plan_sequence p h
  | option h => exact Expansion.plan_option p h
  | iteration h => exact Expansion.plan_iteration _ p h
  | removeEpsilon h => exact Determinization.plan_removeEpsilon _ p h
  | mergeEquivalent h => exact Determinization.plan_mergeEquivalent _ _ p h
  | determinize h => exact Determinization.plan_determinize _ _ _ _ h
  | isolateFinal h => exact Elimination.plan_isolateFinal? p h
  | isolateInitial h => exact Elimination.plan_isolateInitial? p h
  | foldLoop h => exact Elimination.plan_foldLoop _ p h
  | joinParallel h => exact Elimination.plan_joinParallel _ _ p h
  | bypass h => exact Elimination.plan_bypass _ p h

/-- The expansion of a transition is the one for the operator of its label. -/
theorem drafted_plan? {t : TransitionId} :
    Yields (Expansion.plan? t a) fun o => ∀ p ∈ o, Drafted a p := by
  have hsome : ∀ {x : Except Error Plan}, Yields x (Drafted a) →
      Yields (some <$> x) fun o => ∀ p ∈ o, Drafted a p := fun h =>
    .map fun p hp q hq => Option.some.inj hq ▸ h p hp
  refine .bind fun u => ?_
  split
  · exact yields_pure nofun
  · exact hsome fun _ => .choice
  · exact hsome fun _ => .sequence
  · exact hsome fun _ => .option
  · exact .bind fun _ => hsome fun _ => .iteration
  · exact .bind fun _ => hsome fun _ => .iteration

/-- A property that is kept by whatever is done to an automaton, as long as what is brought along
comes from a stock that also has all that is in the graph and all that a plan for it needs. -/
structure Stock.Supplies (stock : Stock) (P : Automaton → Prop) : Prop
    extends stock.Sustains P where
  reserve : ∀ a m n, P a → P (a.reserve m n)
  clear : ∀ a, P a → P a.clear
  transition_mem : ∀ {a t}, P a → t ∈ a.transitions → t ∈ stock.transitions
  drafted : ∀ {a p}, P a → Drafted a p → p.edit.From stock

/-! ## Histories -/

def Step.From (stock : Stock) (s : Step) : Prop := s.edit.From stock ∧ s.backup.From stock

structure History.From (stock : Stock) (h : History) : Prop where
  done : ∀ s ∈ h.done, s.From stock
  undone : ∀ s ∈ h.undone, s.From stock

theorem Edit.from_batch {purpose : Purpose} {es : List Edit} :
    (batch purpose es).From stock ↔ ∀ e ∈ es, e.From stock := Edit.allFrom_iff

theorem Step.from_batch {purpose : Purpose} {steps : List Step}
    (h : ∀ s ∈ steps, s.From stock) : (batch purpose steps).From stock :=
  ⟨Edit.from_batch.2 (List.forall_mem_map.2 fun s hs => (h s hs).1),
    Backup.allFrom_iff.2 (List.forall_mem_map.2 fun s hs => (h s hs).2)⟩

/-- What a history and its graph are like after something that began with another history: the
graph has a property, and the steps are still made of what is at hand. -/
structure Kept (stock : Stock) (P : Automaton → Prop) (before : Option History) (s : Session) :
    Prop where
  graph : P s.graph
  history : (∀ h ∈ before, h.From stock) → ∀ h ∈ s.history, h.From stock

/-- A session goes on where another one ended. -/
theorem Kept.trans {before : Option History} {s s' : Session} (h : Kept stock P before s)
    (h' : Kept stock P s.history s') : Kept stock P before s' :=
  ⟨h'.graph, fun hbefore => h'.history (h.history hbefore)⟩

def Moved.Keeps (stock : Stock) (P : Automaton → Prop) (h : History) (m : Moved) : Prop :=
  P m.graph ∧ (h.From stock → m.history.From stock)

namespace Stock.Supplies

variable (hP : stock.Supplies P) {h : History}

include hP

theorem apply {s : Step} (hs : s.From stock) (ha : P a) :
    P (s.apply a).graph ∧ (s.remember (s.apply a).backup).From stock := by
  have hsound := (Edit.careful_of_sustains hP.toSustains s.edit a s.backup ha hs.1 hs.2).1
  exact ⟨hsound.1, hs.1, hsound.2⟩

theorem revert {s : Step} (hs : s.From stock) (ha : P a) :
    P (s.revert a).graph ∧ (s.remember (s.revert a).backup).From stock := by
  have hsound := (Edit.careful_of_sustains hP.toSustains s.edit a s.backup ha hs.1 hs.2).2
  exact ⟨hsound.1, hs.1, hsound.2⟩

theorem record {s : Step} (hs : s.From stock) (ha : P a) :
    (h.record s a).Keeps stock P h := by
  obtain ⟨hgraph, hstep⟩ := hP.apply hs ha
  rw [History.record]
  split
  · exact ⟨ha, id⟩
  · dsimp only
    split
    · exact ⟨hgraph, id⟩
    · exact ⟨hgraph, fun hh =>
        ⟨List.forall_mem_cons.2 ⟨hstep, hh.done⟩, List.forall_mem_nil _⟩⟩

theorem back (hh : h.From stock) (ha : P a) : (h.back a).Keeps stock P h := by
  rw [History.back]
  split
  · exact ⟨ha, id⟩
  · next s done hdone =>
      obtain ⟨hs, hrest⟩ := List.forall_mem_cons.1 (hdone ▸ hh.done)
      obtain ⟨hgraph, hstep⟩ := hP.revert hs ha
      dsimp only
      split
      · exact ⟨hgraph, fun _ => ⟨List.forall_mem_cons.2 ⟨hstep, hrest⟩, hh.undone⟩⟩
      · exact ⟨hgraph, fun _ => ⟨hrest, List.forall_mem_cons.2 ⟨hstep, hh.undone⟩⟩⟩

theorem forward (hh : h.From stock) (ha : P a) : (h.forward a).Keeps stock P h := by
  rw [History.forward]
  split
  · exact ⟨ha, id⟩
  · next s undone hundone =>
      obtain ⟨hs, hrest⟩ := List.forall_mem_cons.1 (hundone ▸ hh.undone)
      obtain ⟨hgraph, hstep⟩ := hP.apply hs ha
      dsimp only
      split
      · exact ⟨hgraph, fun _ => ⟨hh.done, List.forall_mem_cons.2 ⟨hstep, hrest⟩⟩⟩
      · exact ⟨hgraph, fun _ => ⟨List.forall_mem_cons.2 ⟨hstep, hh.done⟩, hrest⟩⟩

omit hP in
theorem moveBy {move : History → Automaton → Moved}
    (hmove : ∀ {h a}, h.From stock → P a → (move h a).Keeps stock P h) (n : Nat)
    (hh : h.From stock) (ha : P a) : (History.moveBy move n h a).Keeps stock P h := by
  induction n generalizing h a with
  | zero => exact ⟨ha, id⟩
  | succ n ih =>
      have hfirst := hmove hh ha
      rw [History.moveBy]
      split
      · exact hfirst
      · have hrest := ih (hfirst.2 hh) hfirst.1
        exact ⟨hrest.1, fun _ => hrest.2 (hfirst.2 hh)⟩

theorem seek (position : Nat) (hh : h.From stock) (ha : P a) :
    (h.seek position a).Keeps stock P h := by
  rw [History.seek]
  split
  · exact ⟨ha, id⟩
  · split
    · exact moveBy hP.back _ hh ha
    · exact moveBy hP.forward _ hh ha

end Stock.Supplies

/-! ## Conversions -/

namespace Rewriting

/-- Run on an automaton, a conversion keeps a property of the graph, refused or not, and adds to
a history only steps that are made of what is at hand. -/
def Keeps (stock : Stock) (P : Automaton → Prop) (m : Rewriting α) (a : Automaton) : Prop :=
  ∀ history, P a → Kept stock P history (m.runOn a history).2

theorem keeps_pure (x : α) (a : Automaton) : Keeps stock P (pure x) a := fun _ ha => ⟨ha, id⟩

theorem keeps_throw (err : Error) (a : Automaton) :
    Keeps stock P (throw err : Rewriting α) a := fun _ ha => ⟨ha, id⟩

theorem Keeps.bind {m : Rewriting α} {f : α → Rewriting β} (hm : Keeps stock P m a)
    (hf : ∀ x b, Keeps stock P (f x) b) : Keeps stock P (m >>= f) a := by
  intro history ha
  have hfirst := hm history ha
  obtain ⟨⟨r, s⟩, hrun⟩ : ∃ out, m.runOn a history = out := ⟨_, rfl⟩
  rw [hrun] at hfirst
  cases r with
  | ok x =>
      rw [runOn_bind hrun]
      exact hfirst.trans (hf x s.graph s.history hfirst.graph)
  | error err =>
      -- what was done before the refusal stays done
      rw [runOn_bind_error hrun]
      exact hfirst

/-- Looking at the graph first. -/
theorem Keeps.graph {f : Automaton → Rewriting β} (hf : Keeps stock P (f a) a) :
    Keeps stock P (graph >>= f) a := hf

/-- Asking the graph something first. -/
theorem Keeps.ask {question : Automaton → Except Error α} {f : α → Rewriting β}
    (hf : ∀ x, question a = .ok x → Keeps stock P (f x) a) :
    Keeps stock P (ask question >>= f) a := by
  intro history ha
  have hask := runOn_ask (a := a) question history
  cases hx : question a with
  | ok x =>
      rw [hx] at hask
      rw [runOn_bind hask]
      exact hf x hx history ha
  | error err =>
      rw [hx] at hask
      rw [runOn_bind_error hask]
      exact ⟨ha, id⟩

/-- Going through a list. -/
theorem keeps_forM {f : α → Rewriting Unit} (hf : ∀ x b, Keeps stock P (f x) b) (xs : List α)
    (a : Automaton) : Keeps stock P (xs.forM f) a := by
  induction xs generalizing a with
  | nil => exact keeps_pure () a
  | cons x xs ih => exact (hf x a).bind fun _ => ih

theorem Keeps.ite {m k : Rewriting α} {c : Prop} [Decidable c] (hm : Keeps stock P m a)
    (hk : Keeps stock P k a) : Keeps stock P (if c then m else k) a := by
  split
  · exact hm
  · exact hk

end Rewriting

open Rewriting

namespace Stock.Supplies

variable (hP : stock.Supplies P)

include hP

theorem keeps_perform {s : Step} (hs : s.From stock) (a : Automaton) :
    Keeps stock P (perform s) a := by
  have hcheck : ∀ refusal b, Keeps stock P (check refusal) b := fun refusal b => by
    cases refusal with
    | none => exact keeps_pure () b
    | some err => exact keeps_throw err b
  intro history ha
  -- a refusal is passed on after the step has been carried out as far as it goes
  cases history with
  | none => exact hcheck (s.apply a).refusal (s.apply a).graph none (hP.apply hs ha).1
  | some h =>
      obtain ⟨hgraph, hhistory⟩ := hP.record (h := h) hs ha
      have hrecord : Kept stock P (some h)
          ⟨(h.record s a).graph, some (h.record s a).history⟩ := by
        refine ⟨hgraph, fun hbefore k hk => ?_⟩
        obtain rfl := Option.some.inj hk
        exact hhistory (hbefore h rfl)
      exact hrecord.trans (hcheck (h.record s a).refusal _ _ hgraph)

theorem keeps_enact (hp : Drafted a p) : Keeps stock P (enact p) a := by
  obtain ⟨m, n, hgraph⟩ := hp.planFor.graph
  intro history ha
  have hstep : (Step.ofEdit p.edit).From stock := ⟨hP.drafted ha hp, trivial⟩
  exact hP.keeps_perform hstep p.graph history (hgraph ▸ hP.reserve a m n ha)

theorem keeps_carryOut {plan : Automaton → Except Error Plan}
    (hplan : ∀ {b}, Yields (plan b) (Drafted b)) (a : Automaton) :
    Keeps stock P (carryOut plan) a :=
  .ask fun p hp => hP.keeps_enact (hplan p hp)

theorem keeps_carryOut? {plan? : Automaton → Except Error (Option Plan)}
    (hplan : ∀ {b}, Yields (plan? b) fun o => ∀ p ∈ o, Drafted b p) (a : Automaton) :
    Keeps stock P (carryOut? plan?) a := by
  refine .ask fun o ho => ?_
  cases o with
  | none => exact keeps_pure () a
  | some p => exact hP.keeps_enact (hplan _ ho p rfl)

/-- Carrying out a plan under a condition. -/
theorem keeps_ite {plan : Automaton → Except Error Plan}
    (hplan : ∀ {b}, Yields (plan b) (Drafted b)) (condition : Bool) (a : Automaton) :
    Keeps stock P (if condition then carryOut plan else pure ()) a :=
  .ite (hP.keeps_carryOut hplan a) (keeps_pure () a)

theorem prune (a : Automaton) : Keeps stock P Pruning.prune a :=
  .graph <| keeps_forM (fun _ b => .graph <| hP.keeps_ite (fun _ => .detach) _ b) _ a

theorem expandFirst (looks : Nat) (a : Automaton) :
    Keeps stock P (Expansion.expandFirst looks) a := by
  induction looks generalizing a with
  | zero => exact keeps_pure () a
  | succ looks ih =>
      refine .graph ?_
      split
      · exact keeps_pure () a
      · exact (hP.keeps_carryOut? drafted_plan? a).bind fun _ => ih

theorem expandAll (a : Automaton) : Keeps stock P Expansion.expandAll a :=
  .graph <| hP.expandFirst _ a

section Determinization

open Determinization

theorem removeAllEpsilon (a : Automaton) : Keeps stock P removeAllEpsilon a :=
  .graph <| keeps_forM (fun _ b => .graph <| hP.keeps_ite (fun _ => .removeEpsilon) _ b) _ a

theorem mergeAllEquivalent (table : ClosureTable) (a : Automaton) :
    Keeps stock P (mergeAllEquivalent table) a :=
  .graph <| keeps_forM (fun _ b => .graph <| hP.keeps_ite (fun _ => .mergeEquivalent) _ b) _ a

theorem determinizeFirst (looks : Nat) (table : SubsetTable) (a : Automaton) :
    Keeps stock P (determinizeFirst looks table) a := by
  induction looks generalizing table a with
  | zero => exact keeps_pure () a
  | succ looks ih =>
      refine .graph ?_
      split
      · exact keeps_pure () a
      · exact .ask fun r hr => (hP.keeps_enact (.determinize hr)).bind fun _ => ih _

theorem determinizeAll (a : Automaton) : Keeps stock P determinizeAll a := by
  refine .graph ?_
  split
  · exact keeps_throw _ a
  · exact (hP.removeAllEpsilon a).bind fun _ b => (hP.mergeAllEquivalent _ b).bind fun _ c =>
      (hP.prune c).bind fun _ d => Keeps.bind (.graph <| hP.determinizeFirst _ _ d) fun _ =>
        hP.prune

end Determinization

section Elimination

open Elimination

theorem eliminate (s : StateId) (a : Automaton) : Keeps stock P (eliminate s) a := by
  refine .graph <| (keeps_forM (fun _ => hP.keeps_carryOut fun _ => .joinParallel) _ a).bind
    fun _ b => .ask fun loop _ => ?_
  cases loop with
  | none => exact hP.keeps_carryOut (fun _ => .bypass) b
  | some t =>
      exact (hP.keeps_carryOut (fun _ => .foldLoop) b).bind fun _ =>
        hP.keeps_carryOut fun _ => .bypass

theorem eliminateTo (final : StateId) (a : Automaton) :
    Keeps stock P (eliminateTo final) a := by
  have hlast : ∀ start b, Keeps stock P (do
      let between ← Rewriting.ask fun a => parallel a start final
      return between.head?.map fun t => t.label.simplify) b :=
    fun start b => .ask fun _ _ => keeps_pure _ b
  refine .graph <| .graph <| (keeps_forM hP.eliminate _ a).bind fun _ b => .ask fun many _ => ?_
  split
  · exact (hP.keeps_carryOut (fun _ => .joinParallel) b).bind fun _ => hlast _
  · exact hlast _ b

theorem eliminateAll (a : Automaton) : Keeps stock P eliminateAll a := by
  have hfinal : ∀ {b}, Yields (pure (isolateFinal? b) : Except Error (Option Plan))
      fun o => ∀ p ∈ o, Drafted b p := yields_pure fun _ => .isolateFinal
  have hinitial : ∀ {b}, Yields (pure (isolateInitial? b) : Except Error (Option Plan))
      fun o => ∀ p ∈ o, Drafted b p := yields_pure fun _ => .isolateInitial
  refine (hP.prune a).bind fun _ b => .graph ?_
  split
  · refine (hP.keeps_carryOut? hfinal b).bind fun _ c =>
      (hP.keeps_carryOut? hinitial c).bind fun _ d => .graph ?_
    split
    · exact hP.eliminateTo _ d
    · exact keeps_pure none d
  · exact keeps_pure none b

end Elimination

theorem conversion (d : Driver) (a : Automaton) : Keeps stock P d.conversion a := by
  cases d with
  | expandAll => exact (hP.expandAll a).bind fun _ => keeps_pure none
  | determinizeAll => exact (hP.determinizeAll a).bind fun _ => keeps_pure none
  | eliminateAll => exact hP.eliminateAll a
  | prune => exact (hP.prune a).bind fun _ => keeps_pure none

end Stock.Supplies

/-! ## What conversions return -/

namespace Rewriting

def Returns (m : Rewriting α) (Q : Automaton → α → Prop) : Prop :=
  ∀ a history x s, m.runOn a history = (.ok x, s) → Q s.graph x

variable {Q : Automaton → β → Prop}

theorem returns_pure {y : β} (h : ∀ a, Q a y) : Returns (pure y) Q := by
  rintro a history x s ⟨⟩
  exact h a

/-- Only the last conversion of a sequence returns something. -/
theorem Returns.bind {m : Rewriting α} {f : α → Rewriting β} (hf : ∀ x, Returns (f x) Q) :
    Returns (m >>= f) Q := by
  intro a history y s hrun
  obtain ⟨⟨r, s'⟩, hfirst⟩ : ∃ out, m.runOn a history = out := ⟨_, rfl⟩
  cases r with
  | ok x =>
      rw [runOn_bind hfirst] at hrun
      exact hf x s'.graph s'.history y s hrun
  | error err =>
      rw [runOn_bind_error hfirst] at hrun
      nomatch hrun

theorem returns_ask {question : Automaton → Except Error α} {g : α → β}
    (h : ∀ a, Yields (question a) fun x => Q a (g x)) :
    Returns (ask question >>= fun x => pure (g x)) Q := by
  intro a history y s hrun
  have hask := runOn_ask (a := a) question history
  cases hx : question a with
  | ok x =>
      rw [hx] at hask
      rw [runOn_bind hask] at hrun
      cases hrun
      exact h a x hx
  | error err =>
      rw [hx] at hask
      rw [runOn_bind_error hask] at hrun
      nomatch hrun

end Rewriting

def Expr.LabelOf (a : Automaton) (e : Expr) : Prop :=
  ∃ t ∈ a.transitions, e = t.label.simplify

theorem Elimination.mem_transitions_of_parallel_eq {source target : StateId} {ts : List Transition}
    (h : parallel a source target = .ok ts) {t : Transition} (ht : t ∈ ts) :
    t ∈ a.transitions := by
  obtain ⟨us, hus, hfilter⟩ := bind_eq_ok_iff.1 h
  obtain rfl := Except.ok.inj hfilter
  exact mem_transitions_of_outgoing_eq hus (List.mem_of_mem_filter ht)

/-- Elimination returns what is left between the start state and the final one. -/
theorem Elimination.returns_eliminateTo (final : StateId) :
    Returns (eliminateTo final) fun b o => ∀ e ∈ o, e.LabelOf b := by
  have hlast : ∀ start, Returns (do
      let between ← Rewriting.ask fun a => parallel a start final
      return between.head?.map fun t => t.label.simplify) fun b o => ∀ e ∈ o, e.LabelOf b := by
    refine fun start => returns_ask fun a ts hts e he => ?_
    obtain ⟨t, ht, rfl⟩ := Option.map_eq_some_iff.1 he
    exact ⟨t, mem_transitions_of_parallel_eq hts (List.mem_of_head? ht), rfl⟩
  refine .bind fun _ => .bind fun _ => .bind fun _ => .bind fun many => ?_
  split
  · exact .bind fun _ => hlast _
  · exact hlast _

theorem Driver.returns_conversion (d : Driver) :
    Returns d.conversion fun b o => ∀ e ∈ o, e.LabelOf b := by
  have hnone : Returns (pure none : Rewriting (Option Expr)) fun b o => ∀ e ∈ o, e.LabelOf b :=
    returns_pure fun _ => nofun
  cases d with
  | expandAll => exact .bind fun _ => hnone
  | determinizeAll => exact .bind fun _ => hnone
  | eliminateAll =>
      refine .bind fun _ => .bind fun _ => ?_
      split
      · refine .bind fun _ => .bind fun _ => .bind fun _ => ?_
        split
        · exact Elimination.returns_eliminateTo _
        · exact hnone
      · exact hnone
  | prune => exact .bind fun _ => hnone

end RegularForms
