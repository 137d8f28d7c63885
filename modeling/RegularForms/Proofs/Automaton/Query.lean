import RegularForms.Automaton.Reach
import RegularForms.Proofs.Automaton.Valid

/-!
# Look-ups that are not refused

A look-up in a valid automaton is not refused for a state or transition of its graph, and
agrees with the look-up without a refusal. A look-up that is not refused is for a state or
transition of the graph.
-/

namespace RegularForms

namespace Automaton

variable {a : Automaton} {s : StateId}

theorem Valid.exists_node_eq (ha : a.Valid) (hs : s ∈ a.stateIds) :
    ∃ n, a.node s = .ok n ∧ a.node? s = some n := by
  obtain ⟨n, -, -, hnode⟩ := ha.exists_node hs
  exact ⟨n, node_eq_ok_iff.2 ⟨(ha.state_issued s hs).1, hnode⟩, hnode⟩

theorem Valid.outgoing_eq (ha : a.Valid) (hs : s ∈ a.stateIds) :
    a.outgoing s = .ok (a.out s) := by
  obtain ⟨n, hok, hnode⟩ := ha.exists_node_eq hs
  rw [outgoing, out, hok, hnode]
  rfl

theorem Valid.incoming_eq (ha : a.Valid) (hs : s ∈ a.stateIds) :
    a.incoming s = .ok (a.into s) := by
  obtain ⟨n, hok, -⟩ := ha.exists_node_eq hs
  rw [incoming, hok]
  rfl

theorem Valid.isAccepting_eq (ha : a.Valid) (hs : s ∈ a.stateIds) :
    a.isAccepting s = .ok (a.accepting s) := by
  obtain ⟨n, hok, hnode⟩ := ha.exists_node_eq hs
  rw [isAccepting, accepting, hok, hnode]
  rfl

theorem Valid.exists_state_eq (ha : a.Valid) (hs : s ∈ a.stateIds) :
    ∃ r, a.state s = .ok r := by
  obtain ⟨n, hok, -⟩ := ha.exists_node_eq hs
  exact ⟨n.state, by rw [state, hok]; rfl⟩

theorem Valid.reachable_eq (ha : a.Valid) (hs : s ∈ a.stateIds) (follow : Transition → Bool) :
    a.reachable follow s = .ok (a.reachFrom follow [s]) := by
  obtain ⟨n, hok, -⟩ := ha.exists_node_eq hs
  rw [reachable, hok]
  rfl

theorem Valid.epsilonClosure_eq (ha : a.Valid) (hs : s ∈ a.stateIds) :
    a.epsilonClosure s = .ok (a.closure [s]) :=
  ha.reachable_eq hs Transition.isEpsilon

theorem Valid.transition_eq (ha : a.Valid) {t : Transition} (ht : t ∈ a.transitions) :
    a.transition t.id = .ok t := by
  have howner : t.id.owner = a.owner := (ha.transition_issued t ht).1
  have hfind : a.transitions.find? (fun u => u.id == t.id) = some t := by
    cases h : a.transitions.find? (fun u => u.id == t.id) with
    | none =>
        have hno := List.find?_eq_none.1 h t ht
        simp at hno
    | some u =>
        have hid : u.id = t.id := by simpa using List.find?_some h
        rw [ha.eq_of_id_eq u (List.mem_of_find?_eq_some h) t ht hid]
  rw [transition, checkTransition, if_pos howner, hfind]
  rfl

/-! ## Look-ups that have not been refused -/

/-- What goes on with a result is not refused when there is one and going on is not refused. -/
theorem bind_eq_ok_iff {ε α β : Type} {x : Except ε α} {f : α → Except ε β} {r : β} :
    (x >>= f) = .ok r ↔ ∃ y, x = .ok y ∧ f y = .ok r := by
  cases x <;> simp [bind, Except.bind]

theorem mem_stateIds_of_node_eq {n : Node} (h : a.node s = .ok n) : s ∈ a.stateIds := by
  obtain ⟨hmem, rfl⟩ := node?_eq_some (node_eq_ok_iff.1 h).2
  exact List.mem_map_of_mem hmem

theorem mem_stateIds_of_outgoing_eq {ts : List Transition} (h : a.outgoing s = .ok ts) :
    s ∈ a.stateIds := by
  obtain ⟨n, hn, -⟩ := bind_eq_ok_iff.1 h
  exact mem_stateIds_of_node_eq hn

theorem mem_stateIds_of_state_eq {r : State} (h : a.state s = .ok r) : s ∈ a.stateIds := by
  obtain ⟨n, hn, -⟩ := bind_eq_ok_iff.1 h
  exact mem_stateIds_of_node_eq hn

theorem mem_stateIds_of_epsilonClosure_eq {ss : StateSet} (h : a.epsilonClosure s = .ok ss) :
    s ∈ a.stateIds := by
  obtain ⟨n, hn, -⟩ := bind_eq_ok_iff.1 h
  exact mem_stateIds_of_node_eq hn

theorem mem_transitions_of_mem_out {t : Transition} (ht : t ∈ a.out s) : t ∈ a.transitions := by
  unfold out at ht
  split at ht
  · next n hn => exact mem_transitions.2 ⟨n, (node?_eq_some hn).1, ht⟩
  · nomatch ht

theorem eq_out_of_outgoing_eq {ts : List Transition} (h : a.outgoing s = .ok ts) :
    ts = a.out s := by
  obtain ⟨n, hnode, hout⟩ := bind_eq_ok_iff.1 h
  rw [out, (node_eq_ok_iff.1 hnode).2]
  exact (Except.ok.inj hout).symm

theorem mem_transitions_of_outgoing_eq {ts : List Transition} (h : a.outgoing s = .ok ts)
    {t : Transition} (ht : t ∈ ts) : t ∈ a.transitions :=
  mem_transitions_of_mem_out (eq_out_of_outgoing_eq h ▸ ht)

theorem mem_transitions_of_incoming_eq {ts : List Transition} (h : a.incoming s = .ok ts)
    {t : Transition} (ht : t ∈ ts) : t ∈ a.transitions := by
  obtain ⟨n, -, hinto⟩ := bind_eq_ok_iff.1 h
  obtain rfl := Except.ok.inj hinto
  exact (mem_into.1 ht).1

theorem mem_transitions_of_transition_eq {t : TransitionId} {u : Transition}
    (h : a.transition t = .ok u) : u ∈ a.transitions ∧ u.id = t := by
  obtain ⟨-, -, h⟩ := bind_eq_ok_iff.1 h
  split at h
  · next hfind =>
      obtain rfl := Except.ok.inj h
      exact ⟨List.mem_of_find?_eq_some hfind, by simpa using List.find?_some hfind⟩
  · nomatch h

end Automaton

end RegularForms
