import RegularForms.Proofs.Automaton.Stock

/-!
# Identifiers are handed out once

A `Ledger` is an automaton together with the states and transitions that it has handed out.
Any `Operation` may be performed on it, successful or not, as long as the states and
transitions that it is about have been handed out, by this automaton or by another one.
Histories and conversions do nothing to an automaton that is not made of these operations.

Each operation keeps the automaton accounted for and the counters past everything that has
been handed out, and nothing is struck off the ledger again. Therefore the graph of a ledger
that is reached holds together, and an identifier that is handed out later is a new one,
whatever has been removed or dropped in between.
-/

namespace RegularForms

inductive Operation where
  | createState
  | createTransition (source target : StateId) (label : Expr)
  | clear
  | addState (s : State) (out : List Transition)
  | removeState (s : StateId)
  | addTransition (t : Transition)
  | removeTransition (s : StateId) (t : TransitionId)
  | setAccepting (s : StateId) (accepting : Bool)
  | apply (e : Edit) (backup : Backup)
  | revert (e : Edit) (backup : Backup)

def Operation.From (stock : Stock) : Operation → Prop
  | addState s out => s.id ∈ stock.states ∧ ∀ t ∈ out, t ∈ stock.transitions
  | addTransition t => t ∈ stock.transitions
  | apply e backup | revert e backup => e.From stock ∧ backup.From stock
  | _ => True

/-- An automaton and what it has handed out. -/
structure Ledger where
  graph : Automaton
  states : Set StateId
  transitions : Set Transition

namespace Ledger

open Automaton

/-- The ledger of an automaton that has handed out just what is in its graph. -/
def ofGraph (a : Automaton) : Ledger :=
  ⟨a, {s | s ∈ a.stateIds}, {t | t ∈ a.transitions}⟩

def stock (l : Ledger) : Stock := l.graph.stock l.transitions

def change (l : Ledger) : Except Error Automaton → Ledger
  | .ok a => { l with graph := a }
  | .error _ => l

def perform (l : Ledger) : Operation → Ledger
  | .createState =>
    { l with
      graph := l.graph.reserve 1 0
      states := insert (l.graph.freshState 0).id l.states }
  | .createTransition source target label =>
    { l with
      graph := l.graph.reserve 0 1
      transitions := insert (l.graph.freshTransition 0 source target label) l.transitions }
  | .clear => { l with graph := l.graph.clear, states := insert l.graph.clear.start l.states }
  | .addState s out => l.change (l.graph.addState s out)
  | .removeState s => l.change ((l.graph.removeState s).map Prod.snd)
  | .addTransition t => l.change (l.graph.addTransition t)
  | .removeTransition s t => l.change ((l.graph.removeTransition s t).map Prod.snd)
  | .setAccepting s accepting => l.change ((l.graph.setAccepting s accepting).map Prod.snd)
  | .apply e backup => { l with graph := (e.apply backup l.graph).graph }
  | .revert e backup => { l with graph := (e.revert backup l.graph).graph }

/-- A ledger is reached by operations from a new automaton, from one that is made from an
expression or from a copy. -/
inductive Reachable : Ledger → Prop
  | new (owner : Nat) : Reachable (ofGraph (.new owner))
  | ofExpr (owner : Nat) (e : Expr) : Reachable (ofGraph (.ofExpr owner e))
  | copy {l : Ledger} (h : Reachable l) (owner : Nat) :
      Reachable (ofGraph (l.graph.copy owner))
  | perform {l : Ledger} (h : Reachable l) {o : Operation} (ho : o.From l.stock) :
      Reachable (l.perform o)

inductive Since (l : Ledger) : Ledger → Prop
  | refl : Since l l
  | perform {m : Ledger} (h : Since l m) {o : Operation} (ho : o.From m.stock) :
      Since l (m.perform o)

variable {l m : Ledger}

/-! ## What one operation does -/

structure Kept (l : Ledger) : Prop where
  accounted : Accounted l.transitions l.graph
  state_bound : ∀ s ∈ l.states, s.owner = l.graph.owner ∧ s.index < l.graph.nextState

theorem kept_ofGraph {a : Automaton} (ha : a.Valid) : (ofGraph a).Kept :=
  ⟨ha.accounted, ha.state_issued⟩

theorem Kept.stocked (h : l.Kept) : Stocked l.transitions l.stock l.graph :=
  ⟨h.accounted, rfl⟩

/-- A ledger that is kept goes on from another one: what has been handed out there has been
handed out here, and what was at hand there is at hand here. -/
structure Continues (l m : Ledger) : Prop where
  kept : m.Kept
  states : l.states ⊆ m.states
  transitions : l.transitions ⊆ m.transitions
  stock : l.stock.Within m.stock

theorem Kept.continues (h : l.Kept) : l.Continues l :=
  ⟨h, subset_rfl, subset_rfl, .refl _⟩

theorem Continues.trans {k : Ledger} (h : k.Continues l) (h' : l.Continues m) : k.Continues m :=
  ⟨h'.kept, h.states.trans h'.states, h.transitions.trans h'.transitions, h.stock.trans h'.stock⟩

/-- A ledger goes on with a graph that leaves at hand what was at hand. -/
theorem Kept.continues_of_stocked (h : l.Kept) {a : Automaton}
    (ha : Stocked l.transitions l.stock a) : l.Continues { l with graph := a } := by
  have hstock : stock { l with graph := a } = l.stock := ha.2
  refine ⟨⟨ha.1, fun s hs => ?_⟩, subset_rfl, subset_rfl, hstock ▸ .refl _⟩
  obtain ⟨howner, hindex⟩ := h.state_bound s hs
  have hsame : s.owner = a.owner := howner.trans (owner_eq_of_stock_eq ha.2).symm
  have hmem : s ∈ l.stock.states := fun _ => hindex
  rw [← ha.2] at hmem
  exact ⟨hsame, hmem hsame⟩

theorem Kept.continues_change (h : l.Kept) {r : Except Error Automaton}
    (hr : ∀ a, r = .ok a → Stocked l.transitions l.stock a) : l.Continues (l.change r) := by
  cases r with
  | ok a => exact h.continues_of_stocked (hr a rfl)
  | error err => exact h.continues

/-- A ledger goes on when a state has been handed out, and perhaps the graph dropped. -/
theorem Kept.continues_insert (h : l.Kept) {a : Automaton} (ha : Accounted l.transitions a)
    (howner : a.owner = l.graph.owner) (hnext : a.nextState = l.graph.nextState + 1) :
    l.Continues
      { l with graph := a, states := insert (l.graph.freshState 0).id l.states } where
  kept := by
    refine ⟨ha, ?_⟩
    rw [howner, hnext]
    rintro s (rfl | hs)
    · exact ⟨rfl, Nat.lt_succ_self _⟩
    · exact ⟨(h.state_bound s hs).1, Nat.lt_succ_of_lt (h.state_bound s hs).2⟩
  states := Set.subset_insert _ _
  transitions := subset_rfl
  stock := by
    refine ⟨fun s hs hso => ?_, fun t ht hto => ht (hto.trans howner)⟩
    exact (Nat.lt_succ_of_lt (hs (hso.trans howner))).trans_eq hnext.symm

/-- A ledger goes on after every operation, whether or not it is refused. -/
theorem Kept.continues_perform (h : l.Kept) {o : Operation} (ho : o.From l.stock) :
    l.Continues (l.perform o) := by
  cases o with
  | createState => exact h.continues_insert h.accounted.createState rfl rfl
  | createTransition source target label =>
      exact ⟨⟨h.accounted.createTransition source target label, h.state_bound⟩, subset_rfl,
        Set.subset_insert _ _, ⟨subset_rfl, fun t ht hto => .inr (ht hto)⟩⟩
  | clear => exact h.continues_insert h.accounted.clear rfl rfl
  | addState s out => exact h.continues_change fun _ hok => h.stocked.addState ho.1 ho.2 hok
  | removeState s =>
      refine h.continues_change fun _ hok => ?_
      obtain ⟨n, hok⟩ := Edit.ok_of_map_snd hok
      exact (h.stocked.removeState hok).1
  | addTransition t => exact h.continues_change fun _ hok => h.stocked.addTransition ho hok
  | removeTransition s t =>
      refine h.continues_change fun _ hok => ?_
      obtain ⟨u, hok⟩ := Edit.ok_of_map_snd hok
      exact h.stocked.removeTransition hok
  | setAccepting s accepting =>
      refine h.continues_change fun _ hok => ?_
      obtain ⟨previous, hok⟩ := Edit.ok_of_map_snd hok
      exact h.stocked.setAccepting hok
  | apply e backup =>
      exact h.continues_of_stocked (Edit.careful _ _ e _ _ h.stocked ho.1 ho.2).1.1
  | revert e backup =>
      exact h.continues_of_stocked (Edit.careful _ _ e _ _ h.stocked ho.1 ho.2).2.1

/-! ## What many operations do -/

theorem Since.continues (h : l.Since m) (hl : l.Kept) : l.Continues m := by
  induction h with
  | refl => exact hl.continues
  | perform _ ho ih => exact ih.trans (ih.kept.continues_perform ho)

theorem Reachable.kept (h : l.Reachable) : l.Kept := by
  induction h with
  | new owner => exact kept_ofGraph (valid_new owner)
  | ofExpr owner e => exact kept_ofGraph (valid_ofExpr owner e)
  | copy _ owner ih => exact kept_ofGraph (ih.accounted.valid.copy owner)
  | perform _ ho ih => exact (ih.continues_perform ho).kept

theorem Reachable.valid (h : l.Reachable) : l.graph.Valid := h.kept.accounted.valid

/-- The next state to be handed out has not been handed out before. -/
theorem Kept.freshState_notMem (h : l.Kept) : (l.graph.freshState 0).id ∉ l.states :=
  fun hs => Nat.lt_irrefl _ (h.state_bound _ hs).2

/-- The identifier of the next transition to be handed out has not been handed out before. -/
theorem Kept.freshTransition_ne (h : l.Kept) (source target : StateId) (label : Expr)
    {t : Transition} (ht : t ∈ l.transitions) :
    t.id ≠ (l.graph.freshTransition 0 source target label).id := by
  intro heq
  have hlt := (h.accounted.issued_bound t ht).2
  rw [heq] at hlt
  exact Nat.lt_irrefl _ hlt

/-- The graph of every ledger that is reached holds together: the start state is there, the
nodes are sorted, the transitions kept at a node are sorted, leave it and lead to a state
that is there, and no transition occurs twice. Everything in the graph and everything that
has been handed out carries the stamp of the automaton and lies below its counters; so what
is handed out next, or after any more operations, has never been handed out. -/
theorem Reachable.invariant (h : l.Reachable) :
    l.graph.start ∈ l.graph.stateIds ∧
      Ident.Ascending Node.id l.graph.nodes ∧
      (∀ n ∈ l.graph.nodes, ∀ t ∈ n.out, t.source = n.id ∧ t.target ∈ l.graph.stateIds) ∧
      (∀ n ∈ l.graph.nodes, Ident.Ascending Transition.id n.out) ∧
      (l.graph.transitions.map Transition.id).Nodup ∧
      (∀ s, s ∈ l.graph.stateIds ∨ s ∈ l.states →
        s.owner = l.graph.owner ∧ s.index < l.graph.nextState) ∧
      (∀ t, t ∈ l.graph.transitions ∨ t ∈ l.transitions →
        t.id.owner = l.graph.owner ∧ t.id.index < l.graph.nextTransition) ∧
      ∀ m, l.Since m →
        (m.graph.freshState 0).id ∉ l.states ∧
          ∀ source target label, ∀ t ∈ l.transitions,
            t.id ≠ (m.graph.freshTransition 0 source target label).id := by
  have hl := h.kept
  have hvalid := hl.accounted.valid
  refine ⟨hvalid.start_mem, hvalid.ascending, fun n hn t ht => ⟨hvalid.source_eq n hn t ht, ?_⟩,
    hvalid.out_ascending, hvalid.nodup_transitionIds, ?_, ?_, fun m hm => ?_⟩
  · exact hvalid.target_mem t (mem_transitions.2 ⟨n, hn, ht⟩)
  · rintro s (hs | hs)
    · exact hvalid.state_issued s hs
    · exact hl.state_bound s hs
  · rintro t (ht | ht)
    · exact hvalid.transition_issued t ht
    · exact hl.accounted.issued_bound t ht
  · have hcontinues := hm.continues hl
    exact ⟨fun hs => hcontinues.kept.freshState_notMem (hcontinues.states hs),
      fun source target label t ht =>
        hcontinues.kept.freshTransition_ne source target label (hcontinues.transitions ht)⟩

/-- A state with a transition into it cannot be removed; it goes when the transition has been
taken back, and then everything is dropped. The state handed out after that is new. -/
theorem Reachable.invariant_clear :
    ∃ l : Ledger, l.Reachable ∧ l.graph.stateIds = [⟨0, 2⟩] ∧ l.graph.start ∈ l.graph.stateIds ∧
      {⟨0, 0⟩, ⟨0, 1⟩, ⟨0, 2⟩} ⊆ l.states ∧
        (l.perform .createState).graph.nextState = 4 ∧
          ((l.perform .createState).graph.freshState 0).id ∉ l.states := by
  have h := ((Reachable.new 0).perform (o := .createState) trivial).perform
    (o := .addState ⟨⟨0, 1⟩, false⟩ []) ⟨fun _ => by decide, List.forall_mem_nil _⟩
  have h := (h.perform (o := .createTransition ⟨0, 0⟩ ⟨0, 1⟩ (.sym 'a')) trivial).perform
    (o := .apply (.addTransition ⟨⟨0, 0⟩, ⟨0, 0⟩, ⟨0, 1⟩, .sym 'a'⟩) .nothing)
    ⟨fun _ => .inl rfl, trivial⟩
  have h := (h.perform (o := .removeState ⟨0, 1⟩) trivial).perform
    (o := .revert (.addTransition ⟨⟨0, 0⟩, ⟨0, 0⟩, ⟨0, 1⟩, .sym 'a'⟩) .nothing)
    ⟨fun _ => .inl rfl, trivial⟩
  have h := (h.perform (o := .removeState ⟨0, 1⟩) trivial).perform (o := .clear) trivial
  obtain ⟨hstart, -, -, -, -, -, -, hfresh⟩ := h.invariant
  refine ⟨_, h, rfl, hstart, ?_, rfl, (hfresh _ (.perform (o := .createState) .refl trivial)).1⟩
  rintro s (rfl | rfl | rfl)
  · exact .inr (.inr (List.mem_singleton.2 rfl))
  · exact .inr (.inl rfl)
  · exact .inl rfl

/-! ## Growing a graph -/

def withState (l : Ledger) (accepting : Bool) : Ledger :=
  (l.perform .createState).perform
    (.apply (.addState { l.graph.freshState 0 with accepting }) .nothing)

def withTransition (l : Ledger) (source target : StateId) (label : Expr) : Ledger :=
  (l.perform (.createTransition source target label)).perform
    (.apply (.addTransition (l.graph.freshTransition 0 source target label)) .nothing)

theorem Reachable.withState (h : l.Reachable) (accepting : Bool) :
    (l.withState accepting).Reachable :=
  (h.perform (o := .createState) trivial).perform (o := .apply _ _)
    ⟨fun _ => Nat.lt_succ_self _, trivial⟩

theorem Reachable.withTransition (h : l.Reachable) (source target : StateId) (label : Expr) :
    (l.withTransition source target label).Reachable :=
  (h.perform (o := .createTransition source target label) trivial).perform (o := .apply _ _)
    ⟨fun _ => .inl rfl, trivial⟩

/-- Two states that lead to each other through `ε`, and one of them also on a symbol. -/
def epsilonCycle : Ledger :=
  ((((ofGraph (.new 0)).withState true).withTransition ⟨0, 0⟩ ⟨0, 1⟩ .epsilon).withTransition
    ⟨0, 1⟩ ⟨0, 0⟩ .epsilon).withTransition ⟨0, 1⟩ ⟨0, 0⟩ (.sym 'a')

theorem reachable_epsilonCycle : epsilonCycle.Reachable :=
  ((((Reachable.new 0).withState true).withTransition _ _ _).withTransition _ _ _).withTransition
    _ _ _

end Ledger

namespace Automaton

variable {a : Automaton}

def withState (a : Automaton) (accepting : Bool) : Automaton :=
  ((Edit.addState { a.freshState 0 with accepting }).apply .nothing (a.reserve 1 0)).graph

def withTransition (a : Automaton) (source target : StateId) (label : Expr) : Automaton :=
  ((Edit.addTransition (a.freshTransition 0 source target label)).apply .nothing
    (a.reserve 0 1)).graph

/-- An automaton is reached by operations, with any labels on the way, and its own labels are
well formed. -/
structure Reachable (a : Automaton) : Prop where
  reached : ∃ l : Ledger, l.Reachable ∧ l.graph = a
  wellFormed : a.WellLabelled

theorem Reachable.valid (h : a.Reachable) : a.Valid := by
  obtain ⟨⟨l, hl, rfl⟩, -⟩ := h
  exact hl.valid

theorem reachable_new (owner : Nat) : (new owner).Reachable :=
  ⟨⟨_, .new owner, rfl⟩, List.forall_mem_nil _⟩

theorem reachable_ofExpr (owner : Nat) {e : Expr} (he : e.WellFormed) :
    (ofExpr owner e).Reachable :=
  ⟨⟨_, .ofExpr owner e, rfl⟩, List.forall_mem_singleton.2 he⟩

theorem Reachable.withState (h : a.Reachable) (accepting : Bool) :
    (a.withState accepting).Reachable := by
  obtain ⟨⟨l, hl, rfl⟩, hlabels⟩ := h
  refine ⟨⟨_, hl.withState accepting, rfl⟩, ?_⟩
  exact (Edit.careful_of_sustains sustains_wellLabelled
    (.addState { l.graph.freshState 0 with accepting }) (l.graph.reserve 1 0) .nothing hlabels
    trivial trivial).1.1

theorem Reachable.withTransition (h : a.Reachable) (source target : StateId) (label : Expr)
    (hlabel : label.WellFormed) : (a.withTransition source target label).Reachable := by
  obtain ⟨⟨l, hl, rfl⟩, hlabels⟩ := h
  refine ⟨⟨_, hl.withTransition source target label, rfl⟩, ?_⟩
  exact (Edit.careful_of_sustains sustains_wellLabelled
    (.addTransition (l.graph.freshTransition 0 source target label)) (l.graph.reserve 0 1)
    .nothing hlabels hlabel trivial).1.1

end Automaton

end RegularForms
