import RegularForms.Proofs.Automaton.Accept
import RegularForms.Proofs.Automaton.Ledger
import RegularForms.Proofs.Determinization.Equivalence
import RegularForms.Proofs.Determinization.Loop
import RegularForms.Proofs.Pruning
import RegularForms.Proofs.Recording

/-!
# Making an automaton deterministic

None of the passes changes the language, and each leaves what the next one needs: removing
the `ε` transitions leaves the arcs that were offered, merging leaves one state of each
class, and the last pass leaves no symbol ambiguous. What is pruned is not reached.
-/

namespace RegularForms

namespace Determinization

open Automaton Rewriting

variable {a : Automaton}

/-- No `ε` transition is left, and no state has two transitions with one label. -/
structure Deterministic (a : Automaton) : Prop where
  no_epsilon : ∀ t ∈ a.transitions, t.isEpsilon = false
  eq_of_label_eq : ∀ t ∈ a.transitions, ∀ u ∈ a.transitions,
    t.source = u.source → t.label = u.label → t = u

/-- A valid automaton for a given language, with a given start state, that is deterministic
and has no state that is not reached. -/
structure Determined (l : Language Char) (start : StateId) (a : Automaton) : Prop where
  valid : a.Valid
  literal : a.Literal
  language_eq : a.language = l
  start_eq : a.start = start
  reaches : ∀ s ∈ a.stateIds, a.Reaches s
  deterministic : Deterministic a

/-- What is reached of a graph without ambiguous symbols is deterministic. -/
theorem Settled.deterministic {b c : Automaton} (ha : ∀ t ∈ a.transitions, t.isEpsilon = false)
    (hlit : a.Literal) (hb : Settled a b) (hc : Restricted b {s | b.Reaches s} c) :
    Deterministic c := by
  have hlabel : ∀ t ∈ b.transitions, ∃ e, t.label = .sym e ∧ e ≠ epsilonSymbol := by
    intro t ht
    obtain ⟨u, hu, hul⟩ := hb.exists_label t ht
    obtain ⟨e, he⟩ := Expr.isSymbol_iff.1 (hlit u hu)
    refine ⟨e, hul.symm.trans he, fun heq => ?_⟩
    have hno := ha u hu
    rw [Transition.isEpsilon, he, heq] at hno
    cases hno
  refine ⟨fun t ht => ?_, fun t ht u hu hsource htu => ?_⟩
  · obtain ⟨e, he, hne⟩ := hlabel t ((hc.mem_transitions t).1 ht).1
    rw [Transition.isEpsilon, he]
    exact beq_eq_false_iff_ne.2 hne
  · obtain ⟨ht, hreach, -⟩ := (hc.mem_transitions t).1 ht
    obtain ⟨e, he, hne⟩ := hlabel t ht
    exact of_ambiguity?_eq_none hb.valid hb.ambiguity?_eq hreach hne t ht u
      ((hc.mem_transitions u).1 hu).1 rfl hsource.symm he (htu ▸ he)

def prepare (a : Automaton) : Rewriting Unit := do
  removeAllEpsilon
  mergeAllEquivalent (ClosureTable.ofGraph a)
  Pruning.prune

theorem runOn_determinizeAll (hlit : a.Literal) (history : Option History) :
    determinizeAll.runOn a history =
      (prepare a >>= fun _ => determinizeStates >>= fun _ => Pruning.prune).runOn a history := by
  rw [determinizeAll, runOn_graph, hlit.find?_eq_none]
  simp only [prepare, bind_assoc]

/-- The passes lead to one graph, whether they are recorded or not. -/
theorem heedless_prepare (a : Automaton) : Heedless (prepare a) := by
  have hepsilon : Heedless removeAllEpsilon := heedless_graph.bind fun _ =>
    heedless_forM (fun s => heedless_ite (fun b => (b.out s).any Transition.isEpsilon) _) _
  have hmerge : Heedless (mergeAllEquivalent (ClosureTable.ofGraph a)) :=
    heedless_graph.bind fun _ => heedless_forM (fun s => heedless_ite (fun b =>
      b.hasState s && (ClosureTable.ofGraph a).hasOthers b s) _) _
  have hprune : Heedless Pruning.prune := heedless_graph.bind fun _ =>
    heedless_forM (fun s => heedless_ite (fun b => b.hasState s) _) _
  exact hepsilon.bind fun _ => hmerge.bind fun _ => hprune

structure Prepared (a b : Automaton) : Prop where
  valid : b.Valid
  start_eq : b.start = a.start
  language_eq : b.language = a.language
  label : ∀ t ∈ b.transitions, t.isEpsilon = false ∧ ∃ u ∈ a.transitions, u.label = t.label

theorem Prepared.literal {b : Automaton} (h : Prepared a b) (hlit : a.Literal) : b.Literal := by
  intro t ht
  obtain ⟨-, u, hu, hul⟩ := h.label t ht
  exact hul ▸ hlit u hu

theorem achieves_prepare {l : Language Char} (ha : a.Valid) (hl : a.language = l) :
    Achieves (fun b => b.language = l) (prepare a) a fun _ => Prepared a := by
  refine Achieves.bind ((achieves_removeAllEpsilon ha hl).mono fun _ b hb => ?_)
  refine Achieves.bind ((achieves_mergeAllEquivalent ha hl hb).mono fun _ c hc => ?_)
  have hcl : c.language = l := (hc.language_eq ha).trans hl
  refine (Pruning.achieves_prune language_reserve_eq hc.valid
    fun _ _ hd hkept => (hd.language_eq hkept).trans hcl).mono fun _ d hd => ?_
  exact ⟨hd.valid, hd.start_eq.trans hc.start_eq,
    (hd.language_eq fun _ hs => hs).trans (hc.language_eq ha),
    fun t ht => hc.label ((hd.mem_transitions t).1 ht).1⟩

/-- Making an automaton deterministic succeeds, and the language does not change on the
way. -/
theorem achieves_determinizeAll {l : Language Char} (ha : a.Valid) (hlit : a.Literal)
    (hl : a.language = l) :
    Achieves (fun b => b.language = l) determinizeAll a fun _ => Determined l a.start := by
  refine Achieves.congr (runOn_determinizeAll hlit) ?_
  refine Achieves.bind ((achieves_prepare ha hl).mono fun _ d hd => ?_)
  have hdl : d.language = l := hd.language_eq.trans hl
  have hdlit := hd.literal hlit
  refine Achieves.bind ((achieves_determinizeStates hd.valid hdl).mono fun _ e he => ?_)
  have hel : e.language = l := he.language_eq.trans hdl
  refine (Pruning.achieves_prune language_reserve_eq he.valid
    fun _ _ hf hkept => (hf.language_eq hkept).trans hel).mono fun _ f hf => ?_
  have hstart : f.start = a.start := by
    rw [hf.start_eq, he.start_eq, hd.start_eq]
  refine ⟨hf.valid, fun t ht => ?_, (hf.language_eq fun _ hs => hs).trans hel, hstart,
    hf.reaches, he.deterministic (fun t ht => (hd.label t ht).1) hdlit hf⟩
  obtain ⟨u, hu, hul⟩ := he.exists_label t ((hf.mem_transitions t).1 ht).1
  exact hul ▸ hdlit u hu

/-- Making any automaton with single symbols for labels deterministic is not refused, comes
to its end, and does not change what is accepted. -/
theorem accepts_determinizeAll {l : Ledger} (hl : l.Reachable)
    (hlit : ∀ t ∈ l.graph.transitions, t.label.isSymbol = true) :
    ∃ b, determinizeAll.runOn l.graph none = (.ok (), ⟨b, none⟩) ∧ Deterministic b ∧
      ∀ word, b.accepts word = l.graph.accepts word := by
  obtain ⟨_, b, hrun, hb⟩ := (achieves_determinizeAll hl.valid hlit rfl).runOn_none rfl
  exact ⟨b, hrun, hb.deterministic, hb.valid.accepts_congr hl.valid hb.literal hlit hb.language_eq⟩

/-- Two states that lead to each other through `ε`, from one of which a symbol leads both to the
other one and on to a third state. -/
def ambiguousCycle : Ledger :=
  ((((((Ledger.ofGraph (.new 0)).withState false).withState true).withTransition ⟨0, 0⟩ ⟨0, 1⟩
    .epsilon).withTransition ⟨0, 1⟩ ⟨0, 0⟩ .epsilon).withTransition ⟨0, 1⟩ ⟨0, 0⟩
      (.sym 'a')).withTransition ⟨0, 1⟩ ⟨0, 2⟩ (.sym 'a')

theorem reachable_ambiguousCycle : ambiguousCycle.Reachable :=
  ((((((Ledger.Reachable.new 0).withState false).withState true).withTransition _ _
    _).withTransition _ _ _).withTransition _ _ _).withTransition _ _ _

theorem isSymbol_label_ambiguousCycle :
    ∀ t ∈ ambiguousCycle.graph.transitions, t.label.isSymbol = true := by decide

/-- All passes have something to do: there are `ε` transitions and two equivalent states, and the
symbol is ambiguous. -/
theorem accepts_determinizeAll_ambiguousCycle :
    ambiguousCycle.Reachable ∧
      (∀ t ∈ ambiguousCycle.graph.transitions, t.label.isSymbol = true) ∧
      (ClosureTable.ofGraph ambiguousCycle.graph).equivalent ⟨0, 0⟩ ⟨0, 1⟩ = true ∧
      ambiguity? ambiguousCycle.graph = some (⟨0, 1⟩, 'a') ∧
        ∃ b, determinizeAll.runOn ambiguousCycle.graph none = (.ok (), ⟨b, none⟩) ∧
          Deterministic b ∧ b.accepts "aa" = .ok true ∧ b.accepts "" = .ok false := by
  have hlit := isSymbol_label_ambiguousCycle
  obtain ⟨b, hrun, hdet, haccepts⟩ := accepts_determinizeAll reachable_ambiguousCycle hlit
  exact ⟨reachable_ambiguousCycle, hlit, by decide, by decide +kernel, b, hrun, hdet,
    (haccepts "aa").trans rfl, (haccepts "").trans rfl⟩

end Determinization

end RegularForms
