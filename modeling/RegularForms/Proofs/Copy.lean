import RegularForms.Proofs.Lasting

/-!
# An automaton and its copy

A copy has the same graph and the same counters, and a stamp of its own. Calls made to the
automaton and, with the stamps exchanged, to its copy have the same answers, and leave the same
graph; so whatever is first done to one of them and then found out about it holds of the other.

Yet the two have nothing to do with each other: an identifier of one has no place in the other,
and every change of a graph that such an identifier is passed to is refused.
-/

namespace RegularForms

open Stamped Automaton

/-! ## Foreign identifiers -/

namespace Automaton

variable {a b : Automaton}

theorem owner_of_checkState {s : StateId} {u : Unit} (h : a.checkState s = .ok u) :
    s.owner = a.owner := by
  unfold checkState at h
  split at h
  · assumption
  · cases h

theorem owner_of_checkTransition {t : TransitionId} {u : Unit}
    (h : a.checkTransition t = .ok u) : t.owner = a.owner := by
  unfold checkTransition at h
  split at h
  · assumption
  · cases h

theorem target_owner_of_refusal? {s : StateId} {t : Transition} (h : a.refusal? s t = none) :
    t.target.owner = a.owner := by
  unfold refusal? at h
  split at h
  · cases h
  split at h
  · cases h
  next htarget => exact not_not.1 htarget

end Automaton

def Transition.Mentions (k : Nat) (t : Transition) : Prop :=
  t.id.owner = k ∨ t.source.owner = k ∨ t.target.owner = k

def Operation.Mentions (k : Nat) : Operation → Prop
  | addState s out => s.id.owner = k ∨ ∃ t ∈ out, t.Mentions k
  | removeState s => s.owner = k
  | addTransition t => t.Mentions k
  | removeTransition s t => s.owner = k ∨ t.owner = k
  | setAccepting s _ => s.owner = k
  | _ => False

namespace Automaton

variable {a b : Automaton} {k : Nat}

theorem eq_owner_of_addState {s : State} {out : List Transition} (h : a.addState s out = .ok b)
    (hk : (Operation.addState s out).Mentions k) : k = a.owner := by
  obtain ⟨hs, -, hout, -, -⟩ := of_addState h
  rcases hk with rfl | ⟨t, ht, htk⟩
  · exact hs
  · obtain ⟨hid, hsource, -⟩ := of_refusal?_eq_none (hout t ht)
    rcases htk with rfl | rfl | rfl
    · exact hid
    · exact hsource ▸ hs
    · exact target_owner_of_refusal? (hout t ht)

theorem eq_owner_of_removeState {s : StateId} {n : Node} (h : a.removeState s = .ok (n, b)) :
    s.owner = a.owner := by
  obtain ⟨_, hs, -⟩ := bind_eq_ok_iff.1 h
  exact owner_of_checkState hs

theorem eq_owner_of_addTransition {t : Transition} (h : a.addTransition t = .ok b)
    (hk : t.Mentions k) : k = a.owner := by
  obtain ⟨_, hid, h⟩ := bind_eq_ok_iff.1 h
  obtain ⟨_, hsource, h⟩ := bind_eq_ok_iff.1 h
  obtain ⟨_, htarget, -⟩ := bind_eq_ok_iff.1 h
  rcases hk with rfl | rfl | rfl
  · exact owner_of_checkTransition hid
  · exact owner_of_checkState hsource
  · exact owner_of_checkState htarget

theorem eq_owner_of_removeTransition {s : StateId} {t : TransitionId} {u : Transition}
    (h : a.removeTransition s t = .ok (u, b)) : t.owner = a.owner ∧ s.owner = a.owner := by
  obtain ⟨_, ht, h⟩ := bind_eq_ok_iff.1 h
  obtain ⟨_, hs, -⟩ := bind_eq_ok_iff.1 h
  exact ⟨owner_of_checkTransition ht, owner_of_checkState hs⟩

theorem eq_owner_of_setAccepting {s : StateId} {accepting previous : Bool}
    (h : a.setAccepting s accepting = .ok (previous, b)) : s.owner = a.owner := by
  obtain ⟨_, hs, -⟩ := bind_eq_ok_iff.1 h
  exact owner_of_checkState hs

end Automaton

namespace Operation

variable {a : Automaton} {k : Nat} {o : Operation}

/-- What is not carried out is refused, and changes nothing. -/
theorem exists_settle_eq {α : Type} {r : Except Error α} {g : α → List Value × Automaton}
    (h : ∀ x, r ≠ .ok x) : ∃ err, Answer.settle a (r.map g) = (⟨[], some err⟩, a) := by
  cases r with
  | ok x => exact absurd rfl (h x)
  | error err => exact ⟨err, rfl⟩

/-- A change that is passed an identifier of another automaton is refused. -/
theorem exists_outcome_eq (h : o.Mentions k) (hk : k ≠ a.owner) :
    ∃ err, o.outcome a = (⟨[], some err⟩, a) := by
  cases o with
  | addState s out => exact exists_settle_eq fun b hok => hk (eq_owner_of_addState hok h)
  | removeState s =>
      exact exists_settle_eq fun r hok => hk (h.symm.trans (eq_owner_of_removeState hok))
  | addTransition t => exact exists_settle_eq fun b hok => hk (eq_owner_of_addTransition hok h)
  | removeTransition s t =>
      refine exists_settle_eq fun r hok => hk ?_
      obtain ⟨ht, hs⟩ := eq_owner_of_removeTransition hok
      rcases h with rfl | rfl
      · exact hs
      · exact ht
  | setAccepting s accepting =>
      exact exists_settle_eq fun r hok => hk (h.symm.trans (eq_owner_of_setAccepting hok))
  | createState | createTransition | clear | apply | revert => exact h.elim

end Operation

/-! ## The same calls to both -/

/-- Calls that keep to one stamp have the same answers with another one. -/
theorem Call.run_restamp_const {m : Nat} {calls : List Call} {a : Automaton} (hcalls : By m calls)
    (ha : By m a) (n : Nat) :
    run (restamp (fun _ => n) calls) (restamp (fun _ => n) a) =
        restamp (fun _ => n) (run calls a) ∧
      By m (run calls a) := by
  have hrun : ∀ (σ : Nat ↪o Nat) (x : List Call × Automaton),
      run (restamp σ x).1 (restamp σ x).2 = restamp σ (run x.1 x.2) :=
    fun σ x => run_restamp x.1 x.2
  have hboth : By m (calls, a) := congrArg₂ Prod.mk hcalls ha
  exact ⟨hboth.restamp_const (F := fun x => run x.1 x.2) hrun n,
    hboth.map (F := fun x => run x.1 x.2) hrun⟩

namespace Ledger

variable {l : Ledger}

/-- Any calls that are made to an automaton with identifiers of its own, one after the other,
are made to a copy with the identifiers of the same indexes there: questions, operations on the
graph, commands that are built, applied and reverted, with a history or without, and whole
conversions. Call for call the answers are the same up to the stamps, and what they show, be it
flags, texts, expressions or the messages of refusals, is the same; and the graphs and counters
are the same up to the stamps. What is handed back has the stamp of the automaton only, so it
can be passed to further calls.

After whatever calls to the one of the two, every change of its graph that is passed an
identifier of the other is refused and changes nothing. -/
theorem Reachable.run_copy (h : l.Reachable) {owner : Nat} (hne : owner ≠ l.graph.owner)
    {calls : List Call} (hcalls : By l.graph.owner calls) :
    Call.run (restamp (fun _ => owner) calls) (l.graph.copy owner) =
        (restamp (fun _ => owner) (Call.run calls l.graph).1,
          (Call.run calls l.graph).2.copy owner) ∧
      By l.graph.owner (Call.run calls l.graph) ∧
      (Call.run (restamp (fun _ => owner) calls) (l.graph.copy owner)).1.map Answer.shown =
        (Call.run calls l.graph).1.map Answer.shown ∧
      ∀ (others : List Call) (o : Operation),
        (o.Mentions owner → ∃ err, o.outcome (Call.run others l.graph).2 =
          (⟨[], some err⟩, (Call.run others l.graph).2)) ∧
        (o.Mentions l.graph.owner → ∃ err, o.outcome (Call.run others (l.graph.copy owner)).2 =
          (⟨[], some err⟩, (Call.run others (l.graph.copy owner)).2)) := by
  have hgraph : By l.graph.owner l.graph := h.valid.by_owner
  obtain ⟨hrun, hby⟩ := Call.run_restamp_const hcalls hgraph owner
  rw [copy_eq_restamp]
  refine ⟨hrun, hby, ?_, fun others o => ⟨fun ho => ?_, fun ho => ?_⟩⟩
  · rw [hrun, fst_restamp, restamp_list, List.map_map]
    exact List.map_congr_left fun answer _ => answer.shown_restamp
  · have howner := (lasting_owner l.graph.owner).run others rfl
    exact Operation.exists_outcome_eq ho fun heq => hne (heq.trans howner)
  · have howner := (lasting_owner owner).run others (a := l.graph.copy owner) rfl
    exact Operation.exists_outcome_eq ho fun heq => hne (heq.trans howner).symm

/-- Calls to an automaton with a given stamp that has the label `ab`: the label is expanded, a
transition is added that leads back, the state in the middle is not removed and a word is
tried. -/
def loopCalls (k : Nat) : List Call :=
  [.convert .expandAll (some (.new false)), .operate (.createTransition ⟨k, 1⟩ ⟨k, 0⟩ (.sym 'c')),
    .operate (.addTransition ⟨⟨k, 3⟩, ⟨k, 1⟩, ⟨k, 0⟩, .sym 'c'⟩), .operate (.removeState ⟨k, 2⟩),
    .ask (.accepts "abcab")]

/-- With the stamps exchanged these calls show the same of the copy, and when the states are
eliminated after them, the expression is the same. A state of the automaton cannot be removed
from the copy. -/
theorem Reachable.run_copy_loop :
    ∃ l : Ledger, l.Reachable ∧ l.graph.owner = 0 ∧
      (Call.run (loopCalls 1) (l.graph.copy 1)).1.map Answer.shown =
        [([], none), ([], none), ([], none),
          ([], some "state 2 still has incoming transitions from other states"),
          ([.flag true], none)] ∧
      (Call.run (loopCalls 1 ++ [.convert .eliminateAll none]) (l.graph.copy 1)).2.transitions.map
          Transition.label = [.seq [.star (.seq [.sym 'a', .sym 'b', .sym 'c']), .sym 'a',
            .sym 'b']] ∧
      ∃ err, (Operation.removeState ⟨0, 1⟩).outcome (Call.run (loopCalls 1) (l.graph.copy 1)).2 =
        (⟨[], some err⟩, (Call.run (loopCalls 1) (l.graph.copy 1)).2) := by
  have h := Reachable.ofExpr 0 (.seq [.sym 'a', .sym 'b'])
  have hne : 1 ≠ (ofGraph (.ofExpr 0 (.seq [.sym 'a', .sym 'b']))).graph.owner := by decide
  have hcalls : By 0 (loopCalls 0) := rfl
  have hmore : By 0 (loopCalls 0 ++ [Call.convert .eliminateAll none]) := rfl
  obtain ⟨-, -, hshown, hforeign⟩ := h.run_copy hne hcalls
  obtain ⟨hrun, -⟩ := h.run_copy hne hmore
  refine ⟨_, h, rfl, hshown.trans rfl, ?_, (hforeign (loopCalls 1) (.removeState ⟨0, 1⟩)).2 rfl⟩
  refine (congrArg (fun r => r.2.transitions.map Transition.label) hrun).trans ?_
  decide +kernel

end Ledger

end RegularForms
