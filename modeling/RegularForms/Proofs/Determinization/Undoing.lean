import Mathlib
import RegularForms.Proofs.Automaton.Ledger
import RegularForms.Proofs.Determinization.Subset
import RegularForms.Proofs.History

/-!
# Treating symbols and taking it back

The table of the states that stand for sets outlives what is taken back: a state that has
gone with its edit keeps its set, and it comes again, with the transitions of other states
perhaps, when the set comes up again. Still each state of the graph always has the arcs of
the states that it counts as. For the graphs that can be come back to this goes on to hold
as the table grows, because the states that are bound later are none of theirs.
-/

namespace RegularForms

namespace Determinization

open Automaton

variable {a b : Automaton} {table table' : SubsetTable} {done : List Step}

/-- Symbols have been treated at states and the latest of what was done taken back, in any
order. This has led from the graph `a` to the graph `b`, and some steps, latest first, have
been applied and not been taken back. -/
inductive Interleaved (a : Automaton) : SubsetTable → List Step → Automaton → Prop
  | start : Interleaved a .empty [] a
  | treat {table table' : SubsetTable} {done : List Step} {b : Automaton} {s : StateId} {c : Char}
      {p : Plan} (h : Interleaved a table done b) (hs : s ∈ b.stateIds)
      (hplan : determinize table s c b = .ok (p, table')) :
      Interleaved a table'
        ((Step.ofEdit p.edit).remember ((Step.ofEdit p.edit).apply p.graph).backup :: done)
        ((Step.ofEdit p.edit).apply p.graph).graph
  | undo {table : SubsetTable} {s : Step} {done : List Step} {b : Automaton}
      (h : Interleaved a table (s :: done) b) : Interleaved a table done (s.revert b).graph

/-- Whatever is handed out, states have the same arcs; and they count as the same states when
others are bound. -/
theorem Lifted.grow (h : Lifted a table b) {m n : Nat} (htable : table'.Sound a (b.reserve m n))
    (hkept : ∀ x ∈ table.bindings, x ∈ table'.bindings) : Lifted a table' (b.reserve m n) := by
  have hmembers : ∀ q ∈ b.stateIds, table'.members q = table.members q :=
    fun q hq => h.members_eq htable hkept hq
  refine ⟨h.valid.reserve m n, htable, h.start_eq, h.subset, fun q hq => ?_, fun q hq => ?_,
    fun q hq e r => ?_⟩
  · exact (h.mem_cases q hq).imp_right fun ⟨x, hx, hxq⟩ => ⟨x, hkept x hx, hxq⟩
  · rw [hmembers q hq]
    exact h.accepting_iff q hq
  · rw [hmembers q hq, ← h.hasArc_iff q hq e r]
    refine exists_congr fun q' => and_congr_right fun harc => ?_
    rw [hmembers q' (h.valid.mem_of_hasArc harc).2]

/-- The graph, and each one that can be come back to, has states with the arcs of the states
that they count as, and there they have as many states been handed out. -/
def Restorable (a : Automaton) (table : SubsetTable) (done : List Step) (b : Automaton) : Prop :=
  ∃ owner next, History.Trail
    (fun _ x => Lifted a table x ∧ x.owner = owner ∧ x.nextState = next) done b

theorem Restorable.lifted (h : Restorable a table done b) : Lifted a table b := by
  obtain ⟨owner, next, htrail⟩ := h
  exact htrail.holds.1

theorem restorable_empty (ha : a.Valid) : Restorable a .empty [] a :=
  ⟨a.owner, a.nextState, lifted_empty ha, rfl, rfl⟩

/-- Treating a symbol at a state of the graph is not refused, and can be taken back. -/
theorem Restorable.treat (h : Restorable a table done b) {s : StateId} (hs : s ∈ b.stateIds)
    (c : Char) :
    ∃ p table' d left, determinize table s c b = .ok (p, table') ∧
      (Step.ofEdit p.edit).apply p.graph = ⟨left, d, none⟩ ∧
        Restorable a table' ((Step.ofEdit p.edit).remember left :: done) d := by
  obtain ⟨owner, next, htrail⟩ := h
  obtain ⟨hlifted, rfl, rfl⟩ := htrail.holds
  obtain ⟨p, table', d, target, copies, hplan, hperforms, hd, hsplit, hnext, hkept⟩ :=
    hlifted.exists_determinize hs c
  obtain ⟨⟨m, n, hgraph⟩, hjoins⟩ := hperforms
  obtain ⟨left, happly, hretracts⟩ := hjoins.apply_eq .nothing
  rw [hgraph] at hnext
  have hback : History.Trail
      (fun _ x => Lifted a table' x ∧ x.owner = d.owner ∧ x.nextState = d.nextState) done
      p.graph := by
    rw [hgraph]
    refine htrail.reserve fun _ x ⟨hx, howner, hxnext⟩ => ?_
    have howner : (x.reserve m n).owner = d.owner := howner.trans hsplit.owner_eq.symm
    have hxnext : (x.reserve m n).nextState = d.nextState :=
      (congrArg (· + m) hxnext).trans hnext.symm
    exact ⟨hx.grow (hd.sound.congr howner hxnext) hkept, howner, hxnext⟩
  exact ⟨p, table', d, left, hplan, happly, d.owner, d.nextState, ⟨hd, rfl, rfl⟩, p.graph,
    hjoins, hretracts, hback⟩

/-- The latest step can be taken back. -/
theorem Restorable.undo {s : Step} (h : Restorable a table (s :: done) b) :
    ∃ used d, s.revert b = ⟨used, d, none⟩ ∧ Restorable a table done d := by
  obtain ⟨owner, next, -, d, -, hretracts, htrail⟩ := h
  obtain ⟨used, hrevert⟩ := hretracts.revert_eq
  exact ⟨used, d, hrevert, owner, next, htrail⟩

theorem Interleaved.restorable (ha : a.Valid) (h : Interleaved a table done b) :
    Restorable a table done b := by
  induction h with
  | start => exact restorable_empty ha
  | @treat table table' done b s c p _ hs hplan ih =>
      obtain ⟨p', table'', d, left, hplan', happly, hd⟩ := ih.treat hs c
      obtain ⟨rfl, rfl⟩ := Prod.mk.inj (Except.ok.inj (hplan.symm.trans hplan'))
      rw [happly]
      exact hd
  | undo _ ih =>
      obtain ⟨used, d, hrevert, hd⟩ := ih.undo
      rw [hrevert]
      exact hd

/-- Treating symbols at states of any graph, and taking back the latest of what was done, in
any order, is never refused. Each time the language is as it was, different states stand for
different sets, and each state of the graph that stands for a set has the languages that the
members of its set had to begin with, taken together. -/
theorem Interleaved.faithful {l : Ledger} (hl : l.Reachable)
    (h : Interleaved l.graph table done b) :
    b.language = l.graph.language ∧
      (∀ x ∈ table.bindings, ∀ y ∈ table.bindings, x.state.id ≠ y.state.id → x.set ≠ y.set) ∧
      (∀ x ∈ table.bindings, x.state.id ∈ b.stateIds → (∀ p ∈ x.set, p ∈ l.graph.stateIds) ∧
        ∀ w, w ∈ b.languageFrom x.state.id ↔ ∃ p ∈ x.set, w ∈ l.graph.languageFrom p) ∧
      (∀ s ∈ b.stateIds, ∀ c, ∃ p table', determinize table s c b = .ok (p, table') ∧
        ((Step.ofEdit p.edit).apply p.graph).refusal = none) ∧
      ∀ s rest, done = s :: rest → (s.revert b).refusal = none := by
  have hb := h.restorable hl.valid
  have hlifted := hb.lifted
  refine ⟨hlifted.language_eq hl.valid, fun x hx y hy hne hset => ?_, fun x hx hmem => ?_,
    fun s hs c => ?_, fun s rest hdone => ?_⟩
  · exact hne (congrArg (fun x => x.state.id) (hlifted.sound.eq_of_set_eq x hx y hy hset))
  · refine ⟨hlifted.sound.set_subset x hx, fun w => ?_⟩
    rw [hlifted.mem_languageFrom hmem, hlifted.sound.members_of_bound hx]
  · obtain ⟨p, table', d, left, hplan, happly, -⟩ := hb.treat hs c
    exact ⟨p, table', hplan, congrArg Outcome.refusal happly⟩
  · subst hdone
    obtain ⟨used, d, hrevert, -⟩ := hb.undo
    exact congrArg Outcome.refusal hrevert

def fork : Ledger :=
  (((Ledger.ofGraph (.new 0)).withState true).withTransition ⟨0, 0⟩ ⟨0, 0⟩
    (.sym 'a')).withTransition ⟨0, 0⟩ ⟨0, 1⟩ (.sym 'a')

theorem reachable_fork : fork.Reachable :=
  (((Ledger.Reachable.new 0).withState true).withTransition _ _ _).withTransition _ _ _

/-- The symbol is treated, this is taken back, and the symbol is treated again: the state that
was bound the first time comes back. -/
theorem Interleaved.faithful_again :
    ∃ (b : Automaton) (table : SubsetTable) (done : List Step), fork.Reachable ∧
      Interleaved fork.graph table done b ∧ ⟨⟨⟨0, 2⟩, false⟩, [⟨0, 0⟩, ⟨0, 1⟩]⟩ ∈ table.bindings ∧
        b.stateIds = [⟨0, 0⟩, ⟨0, 1⟩, ⟨0, 2⟩] ∧ b.language = fork.graph.language ∧
          ∀ w, w ∈ b.languageFrom ⟨0, 2⟩ ↔
            ∃ p ∈ [⟨0, 0⟩, ⟨0, 1⟩], w ∈ fork.graph.languageFrom p := by
  have hs : ⟨0, 0⟩ ∈ fork.graph.stateIds := by decide
  -- the symbol is treated, and what was done is taken back
  have hfirst : (determinize .empty ⟨0, 0⟩ 'a' fork.graph).toOption.map (fun x =>
      (x.2, (((Step.ofEdit x.1.edit).remember
        ((Step.ofEdit x.1.edit).apply x.1.graph).backup).revert
          ((Step.ofEdit x.1.edit).apply x.1.graph).graph).graph)) =
        some (⟨[⟨⟨⟨0, 2⟩, false⟩, [⟨0, 0⟩, ⟨0, 1⟩]⟩]⟩, fork.graph.reserve 1 3) := by cbv
  obtain ⟨-, -, -, hplans, -⟩ := Interleaved.start.faithful reachable_fork
  obtain ⟨p, table', hplan, -⟩ := hplans ⟨0, 0⟩ hs 'a'
  rw [hplan] at hfirst
  obtain ⟨rfl, hgraph⟩ := Prod.mk.inj (Option.some.inj hfirst)
  have hback := (Interleaved.start.treat hs hplan).undo
  rw [hgraph] at hback
  -- and it is treated again
  have hagain : (determinize ⟨[⟨⟨⟨0, 2⟩, false⟩, [⟨0, 0⟩, ⟨0, 1⟩]⟩]⟩ ⟨0, 0⟩ 'a'
      (fork.graph.reserve 1 3)).toOption.map (fun x =>
        (x.2, ((Step.ofEdit x.1.edit).apply x.1.graph).graph.stateIds)) =
      some (⟨[⟨⟨⟨0, 2⟩, false⟩, [⟨0, 0⟩, ⟨0, 1⟩]⟩]⟩, [⟨0, 0⟩, ⟨0, 1⟩, ⟨0, 2⟩]) := by cbv
  obtain ⟨-, -, -, hplans, -⟩ := hback.faithful reachable_fork
  obtain ⟨q, table'', hplan', -⟩ := hplans ⟨0, 0⟩ hs 'a'
  rw [hplan'] at hagain
  obtain ⟨rfl, hstates⟩ := Prod.mk.inj (Option.some.inj hagain)
  have h := hback.treat hs hplan'
  obtain ⟨hlanguage, -, hbound, -⟩ := h.faithful reachable_fork
  exact ⟨_, _, _, reachable_fork, h, List.mem_cons_self, hstates, hlanguage,
    (hbound _ List.mem_cons_self (by simp [hstates])).2⟩

end Determinization

end RegularForms
