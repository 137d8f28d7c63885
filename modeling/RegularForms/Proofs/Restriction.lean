import RegularForms.Proofs.Automaton.Ledger
import RegularForms.Proofs.Automaton.Search
import RegularForms.Proofs.Automaton.Walk
import RegularForms.Proofs.Pruning

/-!
# Pruning leaves the nodes that are reached as they are

The states that are not reached may lead to one another, round in circles, and to states that
are reached. Nothing that is reached leads to them, so while they are detached one by one no
transition of a state that is reached is touched. What is left are the nodes of the states
that are reached, with the same flags and the same transitions.
-/

namespace RegularForms

namespace Automaton

variable {a b : Automaton} {kept : Set StateId}

def unreachableBySearch (a : Automaton) : Except Error (List StateId) := do
  let found ← a.search (fun _ => true) a.start
  return a.stateIds.filter fun s => s ∉ found

theorem Valid.unreachableBySearch_eq (ha : a.Valid) :
    a.unreachableBySearch = .ok a.unreachableStates := by
  rw [unreachableBySearch, ha.search_eq ha.start_mem]
  rfl

/-- A state is reached exactly when a walk leads to it. -/
theorem reaches_iff_exists_walk {s : StateId} : a.Reaches s ↔ ∃ ts, a.Walk a.start ts s := by
  rw [Reaches, leadsTo_iff_exists_walk]
  simp

/-- The nodes are determined by what can be looked up. -/
theorem Valid.mem_nodes_iff (ha : a.Valid) {n : Node} :
    n ∈ a.nodes ↔
      n.id ∈ a.stateIds ∧ a.accepting n.id = n.state.accepting ∧ a.out n.id = n.out := by
  constructor
  · intro hn
    refine ⟨mem_stateIds.2 ⟨n, hn, rfl⟩, ?_, ha.out_eq hn⟩
    rw [accepting, ha.node?_eq_some_iff.2 ⟨hn, rfl⟩]
  · rintro ⟨hmem, haccepting, hout⟩
    obtain ⟨m, hm, hid, hnode⟩ := ha.exists_node hmem
    rw [accepting, hnode] at haccepting
    rw [out, hnode] at hout
    have hstate : m.state = n.state := by
      cases hms : m.state; cases hns : n.state
      simp_all [Node.id]
    cases m; cases n
    cases hstate; cases hout
    exact hm

/-- When no transition leads out of the part that is kept, its states keep all they have. -/
theorem Restricted.out_eq (h : Restricted a kept b) (ha : a.Valid)
    (hclosed : ∀ t ∈ a.transitions, t.source ∈ kept → t.target ∈ kept) {s : StateId}
    (hs : s ∈ kept) : b.out s = a.out s := by
  refine (h.valid.ascending_out s).eq_of_mem_iff (ha.ascending_out s) fun t => ?_
  rw [h.valid.mem_out, ha.mem_out, h.mem_transitions]
  constructor
  · rintro ⟨⟨ht, -, -⟩, hts⟩
    exact ⟨ht, hts⟩
  · rintro ⟨ht, rfl⟩
    exact ⟨⟨ht, hs, hclosed t ht hs⟩, rfl⟩

/-- Then the graph has just the nodes of these states, as they were. -/
theorem Restricted.mem_nodes_iff (h : Restricted a kept b) (ha : a.Valid)
    (hclosed : ∀ t ∈ a.transitions, t.source ∈ kept → t.target ∈ kept) {n : Node} :
    n ∈ b.nodes ↔ n ∈ a.nodes ∧ n.id ∈ kept := by
  rw [h.valid.mem_nodes_iff, ha.mem_nodes_iff, h.mem_stateIds]
  have hlook : n.id ∈ kept → b.accepting n.id = a.accepting n.id ∧ b.out n.id = a.out n.id := by
    refine fun hn => ⟨?_, h.out_eq ha hclosed hn⟩
    rw [Bool.eq_iff_iff, h.accepting_iff, and_iff_left hn]
  constructor
  · rintro ⟨⟨hmem, hn⟩, haccepting, hout⟩
    exact ⟨⟨hmem, (hlook hn).1.symm.trans haccepting, (hlook hn).2.symm.trans hout⟩, hn⟩
  · rintro ⟨⟨hmem, haccepting, hout⟩, hn⟩
    exact ⟨⟨hmem, hn⟩, (hlook hn).1.trans haccepting, (hlook hn).2.trans hout⟩

def reachablePart (a : Automaton) : Automaton :=
  { a with nodes := a.nodes.filter fun n => n.id ∈ a.reachableStates }

theorem Valid.mem_nodes_reachablePart (ha : a.Valid) {n : Node} :
    n ∈ a.reachablePart.nodes ↔ n ∈ a.nodes ∧ a.Reaches n.id := by
  refine List.mem_filter.trans (and_congr_right fun _ => ?_)
  exact decide_eq_true_iff.trans ha.mem_reachableStates

theorem Restricted.eq_reachablePart (h : Restricted a {s | a.Reaches s} b) (ha : a.Valid) :
    b = a.reachablePart := by
  have hnodes : b.nodes = a.reachablePart.nodes := by
    refine h.valid.ascending.eq_of_mem_iff (ha.ascending.filter _) fun n => ?_
    rw [h.mem_nodes_iff ha fun t ht hs => Reaches.step ht hs, ha.mem_nodes_reachablePart]
    rfl
  obtain ⟨owner, start, nextState, nextTransition, nodes⟩ := b
  obtain rfl : owner = a.owner := h.owner_eq
  obtain rfl : start = a.start := h.start_eq
  obtain rfl : nextState = a.nextState := h.nextState_eq
  obtain rfl : nextTransition = a.nextTransition := h.nextTransition_eq
  exact congrArg (Automaton.mk _ _ _ _) hnodes

end Automaton

namespace Pruning

open Automaton Rewriting

variable {a : Automaton}

def pruneBySearch : Rewriting Unit := do
  (← ask unreachableBySearch).forM fun s => do
    if (← graph).hasState s then carryOut (detach s) else pure ()

/-- The search is not refused, so it makes no difference. -/
theorem pruneBySearch_runOn (ha : a.Valid) (history : Option History) :
    pruneBySearch.runOn a history = prune.runOn a history := by
  have hask : (ask unreachableBySearch).run.run ⟨a, history⟩ =
      (.ok a.unreachableStates, ⟨a, history⟩) := by
    rw [run_ask, ha.unreachableBySearch_eq]
  exact run_bind hask

theorem prune_runOn_none (ha : a.Valid) :
    prune.runOn a none = (.ok (), ⟨a.reachablePart, none⟩) := by
  have hachieves := achieves_prune (P := fun _ => True) (fun _ _ _ _ => trivial) ha
    fun _ _ _ _ => trivial
  obtain ⟨_, b, hrun, hb⟩ := hachieves.runOn_none trivial
  rw [hrun, hb.eq_reachablePart ha]

end Pruning

namespace Ledger

variable {l : Ledger}

/-- In a graph that is reached, whatever the labels, pruning is never refused. It leaves the
graph with just those nodes to whose states a walk from the start state leads, each as it was,
and changes nothing else. -/
theorem Reachable.prune_runOn (h : l.Reachable) :
    ∃ b, Pruning.pruneBySearch.runOn l.graph none = (.ok (), ⟨b, none⟩) ∧
      Pruning.prune.runOn l.graph none = (.ok (), ⟨b, none⟩) ∧
      b = { l.graph with
        nodes := l.graph.nodes.filter fun n => n.id ∈ l.graph.reachableStates } ∧
      (∀ n, n ∈ b.nodes ↔ n ∈ l.graph.nodes ∧ ∃ ts, l.graph.Walk l.graph.start ts n.id) ∧
      ∀ t, t ∈ b.transitions ↔
        t ∈ l.graph.transitions ∧ ∃ ts, l.graph.Walk l.graph.start ts t.source := by
  have hvalid := h.valid
  have hrun := Pruning.prune_runOn_none hvalid
  have hmem : ∀ n, n ∈ l.graph.reachablePart.nodes ↔
      n ∈ l.graph.nodes ∧ ∃ ts, l.graph.Walk l.graph.start ts n.id := fun n =>
    hvalid.mem_nodes_reachablePart.trans
      (and_congr_right fun _ => Automaton.reaches_iff_exists_walk)
  refine ⟨_, (Pruning.pruneBySearch_runOn hvalid none).trans hrun, hrun, rfl, hmem, fun t => ?_⟩
  simp only [Automaton.mem_transitions, hmem]
  constructor
  · rintro ⟨n, ⟨hn, hwalk⟩, ht⟩
    exact ⟨⟨n, hn, ht⟩, hvalid.source_eq n hn t ht ▸ hwalk⟩
  · rintro ⟨⟨n, hn, ht⟩, hwalk⟩
    exact ⟨n, ⟨hn, hvalid.source_eq n hn t ht ▸ hwalk⟩, ht⟩

/-- A state with a self-loop, and two states that lead to each other and one of them to it. -/
def entrance : Ledger :=
  ((((ofGraph (.new 0)).withState true).withState true).withState false).withTransition
    ⟨0, 0⟩ ⟨0, 2⟩ (.star (.sym 'a'))
    |>.withTransition ⟨0, 2⟩ ⟨0, 2⟩ (.sym 'b')
    |>.withTransition ⟨0, 1⟩ ⟨0, 3⟩ (.sym 'c')
    |>.withTransition ⟨0, 3⟩ ⟨0, 1⟩ .epsilon
    |>.withTransition ⟨0, 3⟩ ⟨0, 2⟩ (.sym 'd')

theorem reachable_entrance : entrance.Reachable :=
  ((((Reachable.new 0).withState true).withState true).withState false).withTransition _ _ _
    |>.withTransition _ _ _
    |>.withTransition _ _ _
    |>.withTransition _ _ _
    |>.withTransition _ _ _

/-- The two states are removed, and the one with the self-loop keeps it. -/
theorem Reachable.prune_runOn_cycle :
    entrance.Reachable ∧ entrance.graph.nodes.length = 4 ∧
      ∃ b, Pruning.prune.runOn entrance.graph none = (.ok (), ⟨b, none⟩) ∧
        b.nodes = [⟨⟨⟨0, 0⟩, false⟩, [⟨⟨0, 0⟩, ⟨0, 0⟩, ⟨0, 2⟩, .star (.sym 'a')⟩]⟩,
          ⟨⟨⟨0, 2⟩, true⟩, [⟨⟨0, 1⟩, ⟨0, 2⟩, ⟨0, 2⟩, .sym 'b'⟩]⟩] := by
  obtain ⟨b, -, hrun, hb, -⟩ := reachable_entrance.prune_runOn
  exact ⟨reachable_entrance, by decide +kernel, b, hrun,
    (congrArg Automaton.nodes hb).trans (by decide +kernel)⟩

end Ledger

end RegularForms
