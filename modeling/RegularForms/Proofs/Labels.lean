import RegularForms.Proofs.Determinization.Subset
import RegularForms.Proofs.Expr.RoundTrip
import RegularForms.Proofs.Expr.WellFormed
import RegularForms.Proofs.Supply.Call

/-!
# Labels stay well formed

That sequences and choices have at least two operands, and none of their own kind, is checked
nowhere. It holds because nothing else is made: reading a text, joining expressions and
simplifying them make well-formed expressions out of such ones, and the labels of the
transitions that a command adds are parts of labels that are there already, single symbols, or
made by joining and simplifying. So a command that is drawn up for a graph with well-formed
labels is at hand in the stock of transitions with well-formed labels, whatever else may be the
case with the graph.
-/

namespace RegularForms

open Automaton

variable {a b : Automaton} {p : Plan}

/-! ## Edits of a plan -/

def WellFormedArcs (arcs : List (StateId × StateId × Expr)) : Prop :=
  ∀ x ∈ arcs, x.2.2.WellFormed

theorem wellFormedArcs_nil : WellFormedArcs [] := List.forall_mem_nil _

/-- A transition for the empty word. -/
theorem wellFormedArcs_epsilon (s r : StateId) : WellFormedArcs [(s, r, .epsilon)] :=
  List.forall_mem_singleton.2 Expr.wellFormed_epsilon

theorem WellFormedArcs.append {arcs arcs' : List (StateId × StateId × Expr)}
    (h : WellFormedArcs arcs) (h' : WellFormedArcs arcs') : WellFormedArcs (arcs ++ arcs') :=
  List.forall_mem_append.2 ⟨h, h'⟩

theorem WellFormedArcs.ite {c : Prop} [Decidable c] {arcs arcs' : List (StateId × StateId × Expr)}
    (h : WellFormedArcs arcs) (h' : WellFormedArcs arcs') :
    WellFormedArcs (if c then arcs else arcs') := by
  split
  · exact h
  · exact h'

theorem wellFormedArcs_map {α : Type} {xs : List α} {f : α → StateId × StateId × Expr}
    (h : ∀ x ∈ xs, (f x).2.2.WellFormed) : WellFormedArcs (xs.map f) :=
  List.forall_mem_map.2 h

/-- New transitions along arcs with well-formed labels are at hand. -/
theorem from_additions {arcs : List (StateId × StateId × Expr)} (h : WellFormedArcs arcs) :
    ∀ e ∈ (a.freshTransitions arcs).map Edit.addTransition, e.From .wellLabelled :=
  List.forall_mem_map.2 fun _ ht => h _ (arc_mem_of_mem_freshTransitions ht)

/-- So are new states and the flags of states. -/
theorem from_addState (s : State) : ∀ e ∈ [Edit.addState s], e.From .wellLabelled :=
  List.forall_mem_singleton.2 trivial

theorem from_setAccepting_ite (c : Bool) (s : StateId) :
    ∀ e ∈ if c then [Edit.setAccepting s true] else [], e.From .wellLabelled := by
  split
  · exact List.forall_mem_singleton.2 trivial
  · exact List.forall_mem_nil _

theorem from_removeStates (ss : List StateId) :
    ∀ e ∈ ss.map Edit.removeState, e.From .wellLabelled :=
  List.forall_mem_map.2 fun _ _ => trivial

namespace Automaton.WellLabelled

variable (ha : a.WellLabelled)

include ha

/-- And so are the transitions of the graph that are removed. -/
theorem from_removals {ts : List Transition} (h : ∀ t ∈ ts, t ∈ a.transitions) :
    ∀ e ∈ ts.map Edit.removeTransition, e.From .wellLabelled :=
  List.forall_mem_map.2 fun t ht => ha t (h t ht)

end Automaton.WellLabelled

/-! ## Expansion -/

namespace Expansion

theorem mem_transitions_of_labelled_eq {ops : List Operator} {t : TransitionId} {u : Transition}
    (h : a.labelled ops t = .ok u) : u ∈ a.transitions := by
  obtain ⟨v, hv, h⟩ := bind_eq_ok_iff.1 h
  split at h
  · cases h
    exact (mem_transitions_of_transition_eq hv).1
  · cases h

variable (ha : a.WellLabelled)

include ha

/-- A transition is replaced by transitions with well-formed labels. -/
theorem from_replace {u : Transition} (hu : u ∈ a.transitions) (purpose : Purpose) (states : Nat)
    {arcs : List (StateId × StateId × Expr)} (harcs : WellFormedArcs arcs) :
    (replace a purpose u states arcs).edit.From .wellLabelled := by
  refine Edit.from_batch.2 (List.forall_mem_append.2 ⟨List.forall_mem_cons.2 ⟨ha u hu, ?_⟩,
    from_additions harcs⟩)
  exact List.forall_mem_map.2 fun _ _ => trivial

omit ha in
theorem wellFormedArcs_skip (source target : StateId) :
    WellFormedArcs (skip a source target) :=
  .ite wellFormedArcs_nil (wellFormedArcs_epsilon _ _)

/-- The operands of a label, each between two states. -/
theorem wellFormedArcs_operands {u : Transition} (hu : u ∈ a.transitions) (s r : StateId) :
    WellFormedArcs (u.label.operands.map fun e => (s, r, e)) :=
  wellFormedArcs_map fun _ he => (ha u hu).of_mem_operands he

theorem wellFormedArcs_chain {u : Transition} (hu : u ∈ a.transitions) (points : List StateId) :
    WellFormedArcs (chain points u.label.operands) := fun _ hx =>
  (ha u hu).of_mem_operands (List.of_mem_zip (List.of_mem_zip hx).2).2

theorem wellFormedArcs_sharedLoop {u : Transition} (hu : u ∈ a.transitions) :
    WellFormedArcs (sharedLoop a u) :=
  .ite ((wellFormedArcs_skip _ _).append (wellFormedArcs_operands ha hu _ _))
    ((wellFormedArcs_operands ha hu _ _).append (wellFormedArcs_epsilon _ _))

theorem wellFormedArcs_isolatedLoop {u : Transition} (hu : u ∈ a.transitions)
    (start finish : StateId) : WellFormedArcs (isolatedLoop a u start finish) := by
  have hentry : WellFormedArcs (if start = u.source then [] else [(u.source, start, .epsilon)]) :=
    .ite wellFormedArcs_nil (wellFormedArcs_epsilon _ _)
  have hexit : WellFormedArcs
      (if finish = u.target then [] else [(finish, u.target, .epsilon)]) :=
    .ite wellFormedArcs_nil (wellFormedArcs_epsilon _ _)
  have hpast : WellFormedArcs
      (if u.label.operator = .star then skip a u.source u.target else []) :=
    .ite (wellFormedArcs_skip _ _) wellFormedArcs_nil
  have haround :=
    ((hentry.append hexit).append (wellFormedArcs_epsilon finish start)).append hpast
  -- the transitions around the loop may coincide, and each arc is made once
  exact WellFormedArcs.append (fun x hx => haround x (mem_distinct.1 hx))
    (wellFormedArcs_operands ha hu _ _)

theorem from_choice {t : TransitionId} (h : choice t a = .ok p) : p.edit.From .wellLabelled := by
  obtain ⟨u, hu, h⟩ := bind_eq_ok_iff.1 h
  cases h
  have hu := mem_transitions_of_labelled_eq hu
  exact from_replace ha hu _ _ (wellFormedArcs_operands ha hu _ _)

theorem from_sequence {t : TransitionId} (h : sequence t a = .ok p) :
    p.edit.From .wellLabelled := by
  obtain ⟨u, hu, h⟩ := bind_eq_ok_iff.1 h
  cases h
  have hu := mem_transitions_of_labelled_eq hu
  exact from_replace ha hu _ _ (wellFormedArcs_chain ha hu _)

theorem from_option {t : TransitionId} (h : option t a = .ok p) : p.edit.From .wellLabelled := by
  obtain ⟨u, hu, h⟩ := bind_eq_ok_iff.1 h
  cases h
  have hu := mem_transitions_of_labelled_eq hu
  exact from_replace ha hu _ _
    ((wellFormedArcs_skip _ _).append (wellFormedArcs_operands ha hu _ _))

theorem from_iteration {isolation : Isolation} {t : TransitionId}
    (h : iteration isolation t a = .ok p) : p.edit.From .wellLabelled := by
  obtain ⟨u, hu, h⟩ := bind_eq_ok_iff.1 h
  obtain ⟨required, -, h⟩ := bind_eq_ok_iff.1 h
  have hu := mem_transitions_of_labelled_eq hu
  split at h
  · split at h
    · cases h
      exact from_replace ha hu _ _ (wellFormedArcs_sharedLoop ha hu)
    · cases h
      exact from_replace ha hu _ _ (wellFormedArcs_isolatedLoop ha hu _ _)
  · cases h

end Expansion

/-! ## Determinization -/

namespace Determinization

theorem mem_transitions_of_mem_epsilonFree {s : StateId} {closure : StateSet} {t : Transition}
    (ht : t ∈ epsilonFree a s closure) : t ∈ a.transitions := by
  have hoffered := Transition.mem_of_mem_onePerArc (List.mem_of_mem_filter ht)
  obtain ⟨r, -, ht⟩ := List.mem_flatMap.1 hoffered
  exact mem_transitions_of_mem_out (List.mem_of_mem_filter ht)

theorem mem_of_mem_redirected {s : StateId} {removed : StateSet} {incoming : List Transition}
    {t : Transition} (ht : t ∈ redirected s removed incoming) : t ∈ incoming :=
  List.mem_of_mem_filter (Transition.mem_of_mem_onePerArc (List.mem_of_mem_filter ht))

variable (ha : a.WellLabelled)

include ha

theorem from_removeEpsilon {s : StateId} (h : removeEpsilon s a = .ok p) :
    p.edit.From .wellLabelled := by
  obtain ⟨closure, -, h⟩ := bind_eq_ok_iff.1 h
  cases h
  refine Edit.from_batch.2 (List.forall_mem_append.2
    ⟨List.forall_mem_append.2 ⟨from_setAccepting_ite _ _, ?_⟩, ?_⟩)
  · exact ha.from_removals fun t ht => mem_transitions_of_mem_out (List.mem_of_mem_filter ht)
  · exact from_additions (wellFormedArcs_map fun t ht =>
      ha t (mem_transitions_of_mem_epsilonFree ht))

theorem from_mergeEquivalent {table : ClosureTable} {s : StateId}
    (h : mergeEquivalent table s a = .ok p) : p.edit.From .wellLabelled := by
  obtain ⟨_, -, h⟩ := bind_eq_ok_iff.1 h
  cases h
  have hincoming : ∀ members : List StateId, ∀ t ∈ (a.transitions.filter fun t =>
      t.target ∈ members).mergeSort (Transition.notAfter Transition.orderBySource fun t =>
        t.target == s), t ∈ a.transitions := fun _ t ht =>
    List.mem_of_mem_filter (List.mem_mergeSort.1 ht)
  refine Edit.from_batch.2 (List.forall_mem_append.2 ⟨List.forall_mem_append.2
    ⟨List.forall_mem_append.2 ⟨?_, ?_⟩, from_removeStates _⟩, ?_⟩)
  · exact ha.from_removals fun t ht => hincoming _ t (List.mem_of_mem_filter ht)
  · refine ha.from_removals fun t ht => ?_
    obtain ⟨r, -, ht⟩ := List.mem_flatMap.1 ht
    exact mem_transitions_of_mem_out (List.mem_of_mem_filter ht)
  · exact from_additions (wellFormedArcs_map fun t ht =>
      ha t (hincoming _ t (mem_of_mem_redirected ht)))

theorem from_relink (s : StateId) (symbol : Char) (target : StateId) (created : Nat) :
    (relink a s symbol target created).edit.From .wellLabelled := by
  refine Edit.from_batch.2 (List.forall_mem_append.2 ⟨?_, from_additions ?_⟩)
  · exact ha.from_removals fun t ht => mem_transitions_of_mem_out (List.mem_of_mem_filter ht)
  · exact List.forall_mem_singleton.2 (Expr.wellFormed_sym symbol)

theorem from_extend (s : StateId) (symbol : Char) (target : State) (created : Nat)
    (set : StateSet) : (extend a s symbol target created set).edit.From .wellLabelled := by
  refine Edit.from_batch.2 (List.forall_mem_append.2 ⟨List.forall_mem_append.2
    ⟨List.forall_mem_append.2 ⟨?_, from_addState _⟩, from_setAccepting_ite _ _⟩,
      from_additions (List.forall_mem_cons.2 ⟨Expr.wellFormed_sym symbol, ?_⟩)⟩)
  · exact ha.from_removals fun t ht => mem_transitions_of_mem_out (List.mem_of_mem_filter ht)
  · refine wellFormedArcs_map fun t ht => ha t ?_
    obtain ⟨q, -, ht⟩ := List.mem_flatMap.1 (Transition.mem_of_mem_onePerArc ht)
    exact mem_transitions_of_mem_out ht

theorem from_determinize {table : SubsetTable} {s : StateId} {symbol : Char}
    {r : Plan × SubsetTable} (h : determinize table s symbol a = .ok r) :
    r.1.edit.From .wellLabelled := by
  -- nothing is known of the graph, only that the look-up has not been refused
  obtain ⟨ts, hts, -⟩ := bind_eq_ok_iff.1 h
  obtain rfl := eq_out_of_outgoing_eq hts
  obtain ⟨⟨target, created, table'⟩, hassign⟩ :
      ∃ x, table.assign (targetSet table a s symbol) a = x := ⟨_, rfl⟩
  obtain rfl := Except.ok.inj (h.symm.trans (determinize_eq_of_outgoing_eq hts hassign))
  dsimp only
  split
  · exact from_relink ha s symbol target.id created
  · exact from_extend ha s symbol target created _

end Determinization

/-! ## Elimination -/

namespace Elimination

theorem wellFormed_lighten {e : Expr} (he : e.WellFormed) : (lighten e).WellFormed :=
  he.simplifyTo _

/-- A sequence of two labels, with a star over the first or without. -/
theorem wellFormed_lighten_pair {e f : Expr} (he : e.WellFormed) (hf : f.WellFormed) :
    (lighten (.join .sequence [e, f])).WellFormed := by
  refine wellFormed_lighten (Expr.wellFormed_join .sequence (List.cons_ne_nil _ _) ?_)
  exact List.forall_mem_cons.2 ⟨he, List.forall_mem_singleton.2 hf⟩

theorem from_isolateFinal? (h : isolateFinal? a = some p) : p.edit.From .wellLabelled := by
  simp only [isolateFinal?, Option.ite_none_right_eq_some] at h
  obtain ⟨-, h⟩ := h
  cases h
  refine Edit.from_batch.2 (List.forall_mem_append.2
    ⟨List.forall_mem_cons.2 ⟨trivial, List.forall_mem_singleton.2 trivial⟩, fun e he => ?_⟩)
  obtain ⟨⟨f, t⟩, hzip, he⟩ := List.mem_flatMap.1 he
  rcases List.mem_cons.1 he with rfl | he
  · trivial
  · obtain rfl := List.mem_singleton.1 he
    have harcs : WellFormedArcs (((a.states.filter State.accepting).map State.id).map fun f =>
        (f, (a.freshState 0).id, .epsilon)) := wellFormedArcs_map fun _ _ => Expr.wellFormed_epsilon
    exact from_additions harcs _ (List.mem_map_of_mem (List.of_mem_zip hzip).2)

variable (ha : a.WellLabelled)

include ha

theorem from_isolateInitial? (h : isolateInitial? a = some p) : p.edit.From .wellLabelled := by
  simp only [isolateInitial?, Option.ite_none_left_eq_some] at h
  obtain ⟨-, h⟩ := h
  cases h
  have hmoved : ∀ t ∈ (a.out a.start).filter (fun t => !t.isLoop) ++ a.into a.start,
      t ∈ a.transitions := List.forall_mem_append.2
    ⟨fun t ht => mem_transitions_of_mem_out (List.mem_of_mem_filter ht),
      fun t ht => (mem_into.1 ht).1⟩
  refine Edit.from_batch.2 (List.forall_mem_append.2 ⟨List.forall_mem_append.2
    ⟨List.forall_mem_append.2 ⟨ha.from_removals hmoved, from_addState _⟩,
      from_setAccepting_ite _ _⟩, from_additions ?_⟩)
  exact (wellFormedArcs_epsilon _ _).append (wellFormedArcs_map fun t ht => ha t (hmoved t ht))

theorem from_foldLoop {t : TransitionId} (h : foldLoop t a = .ok p) :
    p.edit.From .wellLabelled := by
  obtain ⟨loop, hloop, h⟩ := bind_eq_ok_iff.1 h
  have hloop := ha loop (mem_transitions_of_transition_eq hloop).1
  split at h
  · obtain ⟨_, -, h⟩ := bind_eq_ok_iff.1 h
    cases h
    have hothers : ∀ u ∈ (a.out loop.source).filter fun u => u.id ≠ t, u ∈ a.transitions :=
      fun u hu => mem_transitions_of_mem_out (List.mem_of_mem_filter hu)
    refine Edit.from_batch.2 (List.forall_mem_cons.2 ⟨hloop, fun e he => ?_⟩)
    obtain ⟨⟨old, new⟩, hzip, he⟩ := List.mem_flatMap.1 he
    obtain ⟨hold, hnew⟩ := List.of_mem_zip hzip
    rcases List.mem_cons.1 he with rfl | he
    · exact ha old (hothers old hold)
    · obtain rfl := List.mem_singleton.1 he
      have harcs := wellFormedArcs_map
        (f := fun u =>
          (loop.source, u.target, lighten (.join .sequence [.star loop.label, u.label])))
        fun u hu => wellFormed_lighten_pair (Expr.wellFormed_star.2 hloop) (ha u (hothers u hu))
      exact from_additions harcs _ (List.mem_map_of_mem hnew)
  · cases h

theorem from_joinParallel {source target : StateId} (h : joinParallel source target a = .ok p) :
    p.edit.From .wellLabelled := by
  obtain ⟨old, hold, h⟩ := bind_eq_ok_iff.1 h
  split at h
  · cases h
  · next hlength =>
      cases h
      have hold : ∀ t ∈ old, t ∈ a.transitions := fun t => mem_transitions_of_parallel_eq hold
      -- a choice between no labels would not be well formed
      have hne : old.map Transition.label ≠ [] := by
        intro hnil
        rw [List.map_eq_nil_iff.1 hnil] at hlength
        exact hlength Nat.zero_lt_two
      have hlabel := wellFormed_lighten (Expr.wellFormed_join .choice hne
        (List.forall_mem_map.2 fun t ht => ha t (hold t ht)))
      exact Edit.from_batch.2 (List.forall_mem_append.2
        ⟨ha.from_removals hold, from_additions (List.forall_mem_singleton.2 hlabel)⟩)

theorem from_bypass {s : StateId} (h : bypass s a = .ok p) : p.edit.From .wellLabelled := by
  unfold bypass at h
  split at h
  · cases h
  · obtain ⟨out, hout, h⟩ := bind_eq_ok_iff.1 h
    split at h
    · cases h
    · obtain ⟨into, hinto, h⟩ := bind_eq_ok_iff.1 h
      cases h
      have hout : ∀ u ∈ out, u ∈ a.transitions := fun u => mem_transitions_of_outgoing_eq hout
      have hinto : ∀ t ∈ into, t ∈ a.transitions := fun t => mem_transitions_of_incoming_eq hinto
      refine Edit.from_batch.2 (List.forall_mem_append.2 ⟨List.forall_mem_append.2
        ⟨List.forall_mem_append.2 ⟨from_additions fun x hx => ?_, ha.from_removals hinto⟩,
          ha.from_removals hout⟩, List.forall_mem_singleton.2 trivial⟩)
      obtain ⟨t, ht, hx⟩ := List.mem_flatMap.1 hx
      obtain ⟨u, hu, rfl⟩ := List.mem_map.1 hx
      exact wellFormed_lighten_pair (ha t (hinto t ht)) (ha u (hout u hu))

end Elimination

/-! ## All commands -/

/-- A command that is drawn up for a graph with well-formed labels adds and removes only
transitions with well-formed labels. -/
theorem Drafted.from_wellLabelled (h : Drafted a p) (ha : a.WellLabelled) :
    p.edit.From .wellLabelled := by
  cases h with
  | detach h =>
      obtain ⟨into, hinto, h⟩ := bind_eq_ok_iff.1 h
      cases h
      refine Edit.from_batch.2 (List.forall_mem_append.2
        ⟨ha.from_removals fun t ht => ?_, List.forall_mem_singleton.2 trivial⟩)
      exact mem_transitions_of_incoming_eq hinto (List.mem_of_mem_filter ht)
  | choice h => exact Expansion.from_choice ha h
  | sequence h => exact Expansion.from_sequence ha h
  | option h => exact Expansion.from_option ha h
  | iteration h => exact Expansion.from_iteration ha h
  | removeEpsilon h => exact Determinization.from_removeEpsilon ha h
  | mergeEquivalent h => exact Determinization.from_mergeEquivalent ha h
  | determinize h => exact Determinization.from_determinize ha h
  | isolateFinal h => exact Elimination.from_isolateFinal? h
  | isolateInitial h => exact Elimination.from_isolateInitial? ha h
  | foldLoop h => exact Elimination.from_foldLoop ha h
  | joinParallel h => exact Elimination.from_joinParallel ha h
  | bypass h => exact Elimination.from_bypass ha h

theorem Automaton.supplies_wellLabelled : Stock.wellLabelled.Supplies WellLabelled where
  toSustains := sustains_wellLabelled
  reserve _ _ _ ha := ha
  clear _ _ := List.forall_mem_nil _
  transition_mem ha ht := ha _ ht
  drafted ha hp := hp.from_wellLabelled ha

def Value.WellFormed : Value → Prop
  | expression e => e.WellFormed
  | transitions ts => ∀ t ∈ ts, t.label.WellFormed
  | step s => s.From .wellLabelled
  | history h => h.From .wellLabelled
  | _ => True

theorem Value.From.wellFormed {value : Value} (h : value.From .wellLabelled) :
    value.WellFormed := by
  cases value with
  | expression e =>
      obtain ⟨t, ht, rfl⟩ := h
      exact ht.simplifyTo _
  | transitions | step | history => exact h
  | _ => trivial

section

variable (ha : a.WellLabelled)

include ha

/-- Drawing up a command, and applying or reverting it to a graph, be it another one, or only a
part of it when it is refused, keeps labels well formed. -/
theorem Drafted.wellLabelled (h : Drafted a p) :
    p.graph.WellLabelled ∧ ∀ b, b.WellLabelled → ∀ backup, backup.From .wellLabelled →
      ((Step.mk p.edit backup).apply b).graph.WellLabelled ∧
        ((Step.mk p.edit backup).revert b).graph.WellLabelled := by
  obtain ⟨m, n, hgraph⟩ := h.planFor.graph
  refine ⟨hgraph ▸ supplies_wellLabelled.reserve a m n ha, fun b hb backup hbackup => ?_⟩
  have hstep : (Step.mk p.edit backup).From .wellLabelled := ⟨h.from_wellLabelled ha, hbackup⟩
  exact ⟨(supplies_wellLabelled.apply hstep hb).1, (supplies_wellLabelled.revert hstep hb).1⟩

/-- A conversion keeps labels well formed, be it refused or not, and returns no other expression
than a well-formed one. -/
theorem Driver.wellLabelled (d : Driver) (history : Option History) :
    (d.conversion.runOn a history).2.graph.WellLabelled ∧
      ∀ e, (d.conversion.runOn a history).1 = .ok (some e) → e.WellFormed := by
  have hgraph := (supplies_wellLabelled.conversion d a history ha).graph
  refine ⟨hgraph, fun e he => ?_⟩
  obtain ⟨t, ht, rfl⟩ := d.returns_conversion a history _ _ (Prod.ext he rfl) e rfl
  exact (hgraph t ht).simplifyTo _

/-- Calls that bring along only well-formed labels keep labels well formed, and hand back only
well-formed expressions. -/
theorem Call.wellLabelled_run (calls : List Call)
    (hcalls : ∀ call ∈ calls, call.From .wellLabelled) :
    (Call.run calls a).2.WellLabelled ∧
      ∀ r ∈ (Call.run calls a).1, ∀ value ∈ r.values, value.WellFormed := by
  obtain ⟨hgraph, hvalues⟩ := supplies_wellLabelled.run calls hcalls ha
  exact ⟨hgraph, fun r hr value hvalue => (hvalues r hr value hvalue).wellFormed⟩

end

/-- Reading a text, joining expressions and simplifying them to any depth make nothing but
well-formed expressions out of well-formed ones. When the labels of a graph are well formed, they
stay so while a command is drawn up for it, applied or reverted, while it is converted, and over
all calls that bring along well-formed labels only, refused or not; and what is handed back is
well formed. -/
theorem wellFormed_kept :
    (∀ text e, Expr.parse text = .ok (some e) → e.WellFormed) ∧
    (∀ es : List Expr, es ≠ [] → (∀ e ∈ es, e.WellFormed) →
      (∃ e, Expr.sequence? es = some e ∧ e.WellFormed) ∧
        ∃ e, Expr.choice? es = some e ∧ e.WellFormed) ∧
    (∀ e : Expr, e.WellFormed → (∀ n, (Expr.simplifyTo n e).WellFormed) ∧ e.simplify.WellFormed) ∧
    ∀ a : Automaton, a.WellLabelled →
      (∀ p, Drafted a p → p.graph.WellLabelled ∧
        ∀ b, b.WellLabelled → ∀ backup, backup.From .wellLabelled →
          ((Step.mk p.edit backup).apply b).graph.WellLabelled ∧
            ((Step.mk p.edit backup).revert b).graph.WellLabelled) ∧
      (∀ (d : Driver) (history : Option History),
        (d.conversion.runOn a history).2.graph.WellLabelled ∧
          ∀ e, (d.conversion.runOn a history).1 = .ok (some e) → e.WellFormed) ∧
      ∀ calls, (∀ call ∈ calls, call.From .wellLabelled) →
        (Call.run calls a).2.WellLabelled ∧
          ∀ r ∈ (Call.run calls a).1, ∀ value ∈ r.values, value.WellFormed := by
  refine ⟨fun _ _ h => (Expr.readable_of_parse h).wellFormed, fun es hne hes => ?_,
    fun e he => ⟨he.simplifyTo, he.simplifyTo _⟩, fun a ha =>
      ⟨fun p hp => hp.wellLabelled ha, fun d => d.wellLabelled ha, Call.wellLabelled_run ha⟩⟩
  obtain ⟨e, es, rfl⟩ := List.exists_cons_of_ne_nil hne
  exact ⟨⟨_, rfl, Expr.wellFormed_join .sequence hne hes⟩,
    _, rfl, Expr.wellFormed_join .choice hne hes⟩

/-- The text `a(b|c)*` is read, joined with itself, and simplified at the top. In the automaton for
it the sequence is taken apart, all is taken apart, and calls do so after a transition is added. -/
theorem wellFormed_kept_sequence :
    ∃ e, Expr.parse "a(b|c)*" = .ok (some e) ∧ e.WellFormed ∧
      (∃ d, Expr.sequence? [e, e] = some d ∧ d.WellFormed) ∧ (Expr.simplifyTo 1 e).WellFormed ∧
      (∃ p, Expansion.sequence ⟨0, 0⟩ (.ofExpr 0 e) = .ok p ∧
        ((Step.mk p.edit .nothing).apply p.graph).graph.WellLabelled ∧
        ((Step.mk p.edit .nothing).apply p.graph).graph.transitions.map Transition.label =
          [.sym 'a', .star (.alt [.sym 'b', .sym 'c'])]) ∧
      (Driver.expandAll.conversion.runOn (.ofExpr 0 e) none).2.graph.WellLabelled ∧
      (Call.run [.operate (.addTransition ⟨⟨0, 1⟩, ⟨0, 0⟩, ⟨0, 1⟩, .sym 'b'⟩),
        .convert .expandAll none] (.ofExpr 0 e)).2.WellLabelled := by
  obtain ⟨hparse, hjoin, hsimplify, hgraphs⟩ := wellFormed_kept
  have he := hparse "a(b|c)*" (.seq [.sym 'a', .star (.alt [.sym 'b', .sym 'c'])]) rfl
  have htwice := List.forall_mem_cons.2 ⟨he, List.forall_mem_singleton.2 he⟩
  obtain ⟨hcommands, hdrivers, hcalls⟩ :=
    hgraphs (.ofExpr 0 (.seq [.sym 'a', .star (.alt [.sym 'b', .sym 'c'])]))
      (List.forall_mem_singleton.2 he)
  obtain ⟨hplan, hsteps⟩ := hcommands _ (.sequence (t := ⟨0, 0⟩) rfl)
  have hbrought : ∀ call ∈ [Call.operate (.addTransition ⟨⟨0, 1⟩, ⟨0, 0⟩, ⟨0, 1⟩, .sym 'b'⟩),
      .convert .expandAll none], call.From .wellLabelled :=
    List.forall_mem_cons.2 ⟨Expr.wellFormed_sym 'b', List.forall_mem_singleton.2 nofun⟩
  refine ⟨.seq [.sym 'a', .star (.alt [.sym 'b', .sym 'c'])], rfl, he,
    (hjoin _ (List.cons_ne_nil _ _) htwice).1, (hsimplify _ he).1 1, ?_, ?_, ?_⟩
  · exact ⟨_, rfl, (hsteps _ hplan .nothing trivial).1, by decide⟩
  · exact (hdrivers .expandAll none).1
  · exact (hcalls _ hbrought).1

end RegularForms
