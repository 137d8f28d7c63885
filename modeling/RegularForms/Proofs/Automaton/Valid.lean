import Mathlib.Data.List.Nodup
import RegularForms.Automaton.Change

/-!
# Valid automata

An automaton is valid when its graph holds together: the start state is there, no
transition dangles, nodes and transitions are sorted, every transition is kept at its
source, no identifier occurs twice, and all identifiers have been handed out by the
automaton itself. The look-ups of a valid automaton say what its lists of states and
transitions say.

The three ways of changing a list of nodes are shown to keep validity, each under the
conditions that the changes of a graph check before they use it.
-/

namespace RegularForms

namespace Ident

variable {kind : Kind} {α : Type} {key : α → Ident kind}

theorem Ascending.eq_of_key_eq {xs : List α} (h : Ascending key xs) {x y : α} (hx : x ∈ xs)
    (hy : y ∈ xs) (hkey : key x = key y) : x = y := by
  induction xs with
  | nil => nomatch hx
  | cons z zs ih =>
      obtain ⟨hz, hzs⟩ := List.pairwise_cons.1 h
      rcases List.mem_cons.1 hx with hxz | hx' <;> rcases List.mem_cons.1 hy with hyz | hy'
      · rw [hxz, hyz]
      · have hloop := hz y hy'
        rw [← hxz, hkey, not_before_self] at hloop
        nomatch hloop
      · have hloop := hz x hx'
        rw [← hyz, hkey, not_before_self] at hloop
        nomatch hloop
      · exact ih hzs hx' hy'

theorem Ascending.nodup {xs : List α} (h : Ascending key xs) : xs.Nodup := by
  refine h.imp fun {x y} hxy heq => ?_
  rw [heq, not_before_self] at hxy
  nomatch hxy

theorem Ascending.nodup_map {xs : List α} (h : Ascending key xs) : (xs.map key).Nodup := by
  rw [List.nodup_iff_pairwise_ne, List.pairwise_map]
  refine h.imp fun {x y} hxy heq => ?_
  rw [heq, not_before_self] at hxy
  nomatch hxy

/-- Taking out what was put in gives the list back. -/
theorem filter_insertAt {x : α} {xs : List α} (h : ∀ y ∈ xs, key y ≠ key x) :
    (insertAt key x xs).filter (fun y => key y ≠ key x) = xs := by
  induction xs with
  | nil => simp [insertAt]
  | cons y ys ih =>
      obtain ⟨hy, hys⟩ := List.forall_mem_cons.1 h
      have htail : ys.filter (fun z => key z ≠ key x) = ys :=
        List.filter_eq_self.2 fun z hz => by simpa using hys z hz
      rw [insertAt]
      split
      · rw [List.filter_cons_of_neg (by simp), List.filter_cons_of_pos (by simpa using hy), htail]
      · rw [List.filter_cons_of_pos (by simpa using hy), ih hys]

/-- Putting back what was taken out gives a sorted list back. -/
theorem Ascending.insertAt_filter {x : α} {xs : List α} (h : Ascending key xs)
    (hx : x ∈ xs) : Ident.insertAt key x (xs.filter fun y => key y ≠ key x) = xs := by
  induction xs with
  | nil => nomatch hx
  | cons y ys ih =>
      obtain ⟨hy, hys⟩ := List.pairwise_cons.1 h
      by_cases hxy : x = y
      · subst hxy
        have htail : ys.filter (fun z => key z ≠ key x) = ys := by
          refine List.filter_eq_self.2 fun z hz => ?_
          simp only [ne_eq, decide_not, Bool.not_eq_true', decide_eq_false_iff_not]
          intro heq
          have hloop := hy z hz
          rw [heq, not_before_self] at hloop
          nomatch hloop
        rw [List.filter_cons_of_neg (by simp), htail]
        cases ys with
        | nil => rfl
        | cons z zs => exact if_pos (hy z (by simp))
      · have hx' : x ∈ ys := (List.mem_cons.1 hx).resolve_left hxy
        have hbefore := hy x hx'
        have hne : key y ≠ key x := by
          intro heq
          rw [heq, not_before_self] at hbefore
          nomatch hbefore
        have hnot : ¬ (key x).before (key y) = true := by
          intro hloop
          have htrans := before_trans hbefore hloop
          rw [not_before_self] at htrans
          nomatch htrans
        rw [List.filter_cons_of_pos (by simpa using hne), Ident.insertAt, if_neg hnot,
          ih hys hx']

theorem Ascending.sort_eq {xs : List α} (h : Ascending key xs) : sort key xs = xs := by
  have last : ∀ (x : α) (ys : List α), (∀ y ∈ ys, (key y).before (key x) = true) →
      Ident.insertAt key x ys = ys ++ [x] := by
    intro x ys hys
    induction ys with
    | nil => rfl
    | cons y ys ih =>
        obtain ⟨hy, hys⟩ := List.forall_mem_cons.1 hys
        have hnot : ¬ (key x).before (key y) = true := by
          intro hloop
          have htrans := before_trans hy hloop
          rw [not_before_self] at htrans
          nomatch htrans
        rw [Ident.insertAt, if_neg hnot, ih hys, List.cons_append]
  have key' : ∀ (ys zs : List α), Ascending key (zs ++ ys) →
      ys.foldl (fun sorted x => Ident.insertAt key x sorted) zs = zs ++ ys := by
    intro ys
    induction ys with
    | nil => simp
    | cons y ys ih =>
        intro zs hzs
        have hy : ∀ z ∈ zs, (key z).before (key y) = true := fun z hz =>
          (List.pairwise_append.1 hzs).2.2 z hz y (by simp)
        rw [List.foldl_cons, last y zs hy, ih (zs ++ [y]) (by simpa using hzs)]
        simp
  exact key' xs [] h

end Ident

namespace Automaton

variable {a : Automaton}

/-- The graph holds together and all its identifiers have been handed out. -/
structure Valid (a : Automaton) : Prop where
  start_mem : a.start ∈ a.stateIds
  ascending : Ident.Ascending Node.id a.nodes
  out_ascending : ∀ n ∈ a.nodes, Ident.Ascending Transition.id n.out
  source_eq : ∀ n ∈ a.nodes, ∀ t ∈ n.out, t.source = n.id
  target_mem : ∀ t ∈ a.transitions, t.target ∈ a.stateIds
  state_issued : ∀ s ∈ a.stateIds, s.owner = a.owner ∧ s.index < a.nextState
  transition_issued : ∀ t ∈ a.transitions,
    t.id.owner = a.owner ∧ t.id.index < a.nextTransition
  eq_of_id_eq : ∀ t ∈ a.transitions, ∀ u ∈ a.transitions, t.id = u.id → t = u

/-! ## Look-ups -/

theorem Valid.node?_eq_some_iff (ha : a.Valid) {s : StateId} {n : Node} :
    a.node? s = some n ↔ n ∈ a.nodes ∧ n.id = s := by
  constructor
  · exact node?_eq_some
  · rintro ⟨hn, hs⟩
    cases h : a.node? s with
    | none => exact absurd (mem_stateIds.2 ⟨n, hn, hs⟩) (node?_eq_none_iff.1 h)
    | some m =>
        obtain ⟨hm, hms⟩ := node?_eq_some h
        rw [ha.ascending.eq_of_key_eq hm hn (hms.trans hs.symm)]

theorem Valid.source_mem (ha : a.Valid) {t : Transition} (ht : t ∈ a.transitions) :
    t.source ∈ a.stateIds := by
  obtain ⟨n, hn, ht⟩ := mem_transitions.1 ht
  exact mem_stateIds.2 ⟨n, hn, (ha.source_eq n hn t ht).symm⟩

theorem Valid.exists_node (ha : a.Valid) {s : StateId} (hs : s ∈ a.stateIds) :
    ∃ n ∈ a.nodes, n.id = s ∧ a.node? s = some n := by
  obtain ⟨n, hn, hns⟩ := mem_stateIds.1 hs
  exact ⟨n, hn, hns, ha.node?_eq_some_iff.2 ⟨hn, hns⟩⟩

theorem Valid.mem_out (ha : a.Valid) {s : StateId} {t : Transition} :
    t ∈ a.out s ↔ t ∈ a.transitions ∧ t.source = s := by
  unfold out
  split
  · next n hnode =>
      obtain ⟨hn, rfl⟩ := node?_eq_some hnode
      constructor
      · intro ht
        exact ⟨mem_transitions.2 ⟨n, hn, ht⟩, ha.source_eq n hn t ht⟩
      · rintro ⟨ht, hts⟩
        obtain ⟨m, hm, ht⟩ := mem_transitions.1 ht
        have hmn : m.id = n.id := (ha.source_eq m hm t ht).symm.trans hts
        rwa [← ha.ascending.eq_of_key_eq hm hn hmn]
  · next hs =>
      constructor
      · intro ht
        nomatch ht
      · rintro ⟨ht, rfl⟩
        exact absurd (ha.source_mem ht) (node?_eq_none_iff.1 hs)

theorem Valid.out_eq (ha : a.Valid) {n : Node} (hn : n ∈ a.nodes) : a.out n.id = n.out := by
  rw [out, ha.node?_eq_some_iff.2 ⟨hn, rfl⟩]

theorem Valid.ascending_out (ha : a.Valid) (s : StateId) :
    Ident.Ascending Transition.id (a.out s) := by
  unfold out
  split
  · next n hn => exact ha.out_ascending n (node?_eq_some hn).1
  · exact List.Pairwise.nil

theorem Valid.nodup_out (ha : a.Valid) (s : StateId) : (a.out s).Nodup :=
  (ha.ascending_out s).nodup

theorem Valid.accepting_iff (ha : a.Valid) {s : StateId} :
    a.accepting s = true ↔ ∃ n ∈ a.nodes, n.id = s ∧ n.state.accepting = true := by
  unfold accepting
  split
  · next n hnode =>
      obtain ⟨hn, rfl⟩ := node?_eq_some hnode
      constructor
      · intro h
        exact ⟨n, hn, rfl, h⟩
      · rintro ⟨m, hm, hmn, h⟩
        rwa [← ha.ascending.eq_of_key_eq hm hn hmn]
  · next hs =>
      constructor
      · intro h
        nomatch h
      · rintro ⟨m, hm, hms, -⟩
        exact absurd (mem_stateIds.2 ⟨m, hm, hms⟩) (node?_eq_none_iff.1 hs)

theorem Valid.mem_stateIds_of_accepting (ha : a.Valid) {s : StateId}
    (h : a.accepting s = true) : s ∈ a.stateIds := by
  obtain ⟨n, hn, hns, -⟩ := ha.accepting_iff.1 h
  exact mem_stateIds.2 ⟨n, hn, hns⟩

theorem Valid.hasState_iff (ha : a.Valid) {s : StateId} :
    a.hasState s = true ↔ s ∈ a.stateIds := by
  rw [hasState, Bool.and_eq_true, beq_iff_eq, Option.isSome_iff_ne_none, ne_eq,
    node?_eq_none_iff, not_not]
  exact ⟨And.right, fun hs => ⟨(ha.state_issued s hs).1, hs⟩⟩

theorem Valid.nodup_stateIds (ha : a.Valid) : a.stateIds.Nodup :=
  ha.ascending.nodup_map

theorem Valid.nodup_transitions (ha : a.Valid) : a.transitions.Nodup := by
  rw [Automaton.transitions, List.nodup_flatMap]
  refine ⟨fun n hn => (ha.out_ascending n hn).nodup, ?_⟩
  refine ha.ascending.imp_of_mem fun {m n} hm hn hmn t htm htn => ?_
  have hid : m.id = n.id := (ha.source_eq m hm t htm).symm.trans (ha.source_eq n hn t htn)
  rw [hid, Ident.not_before_self] at hmn
  cases hmn

theorem Valid.nodup_transitionIds (ha : a.Valid) : (a.transitions.map Transition.id).Nodup :=
  ha.nodup_transitions.map_on ha.eq_of_id_eq

theorem Valid.reserve (ha : a.Valid) (m n : Nat) : (a.reserve m n).Valid where
  start_mem := ha.start_mem
  ascending := ha.ascending
  out_ascending := ha.out_ascending
  source_eq := ha.source_eq
  target_mem := ha.target_mem
  state_issued s hs :=
    ⟨(ha.state_issued s hs).1, Nat.lt_add_right m (ha.state_issued s hs).2⟩
  transition_issued t ht :=
    ⟨(ha.transition_issued t ht).1, Nat.lt_add_right n (ha.transition_issued t ht).2⟩
  eq_of_id_eq := ha.eq_of_id_eq

/-! ## Changing the list of nodes -/

theorem mem_stateIds_insertNode {n : Node} {s : StateId} :
    s ∈ (a.insertNode n).stateIds ↔ s = n.id ∨ s ∈ a.stateIds := by
  rw [mem_stateIds, mem_stateIds]
  constructor
  · rintro ⟨m, hm, rfl⟩
    rcases mem_nodes_insertNode.1 hm with rfl | hm
    · exact .inl rfl
    · exact .inr ⟨m, hm, rfl⟩
  · rintro (rfl | ⟨m, hm, rfl⟩)
    · exact ⟨n, mem_nodes_insertNode.2 (.inl rfl), rfl⟩
    · exact ⟨m, mem_nodes_insertNode.2 (.inr hm), rfl⟩

theorem mem_transitions_insertNode {n : Node} {t : Transition} :
    t ∈ (a.insertNode n).transitions ↔ t ∈ n.out ∨ t ∈ a.transitions := by
  rw [mem_transitions, mem_transitions]
  constructor
  · rintro ⟨m, hm, ht⟩
    rcases mem_nodes_insertNode.1 hm with rfl | hm
    · exact .inl ht
    · exact .inr ⟨m, hm, ht⟩
  · rintro (ht | ⟨m, hm, ht⟩)
    · exact ⟨n, mem_nodes_insertNode.2 (.inl rfl), ht⟩
    · exact ⟨m, mem_nodes_insertNode.2 (.inr hm), ht⟩

theorem mem_stateIds_eraseNode {s r : StateId} :
    r ∈ (a.eraseNode s).stateIds ↔ r ∈ a.stateIds ∧ r ≠ s := by
  rw [mem_stateIds, mem_stateIds]
  constructor
  · rintro ⟨m, hm, rfl⟩
    obtain ⟨hm, hms⟩ := mem_nodes_eraseNode.1 hm
    exact ⟨⟨m, hm, rfl⟩, hms⟩
  · rintro ⟨⟨m, hm, rfl⟩, hms⟩
    exact ⟨m, mem_nodes_eraseNode.2 ⟨hm, hms⟩, rfl⟩

theorem Valid.mem_transitions_eraseNode (ha : a.Valid) {s : StateId} {t : Transition} :
    t ∈ (a.eraseNode s).transitions ↔ t ∈ a.transitions ∧ t.source ≠ s := by
  rw [mem_transitions, mem_transitions]
  constructor
  · rintro ⟨m, hm, ht⟩
    obtain ⟨hm, hms⟩ := mem_nodes_eraseNode.1 hm
    exact ⟨⟨m, hm, ht⟩, fun h => hms ((ha.source_eq m hm t ht).symm.trans h)⟩
  · rintro ⟨⟨m, hm, ht⟩, hts⟩
    have hms : m.id ≠ s := fun h => hts ((ha.source_eq m hm t ht).trans h)
    exact ⟨m, mem_nodes_eraseNode.2 ⟨hm, hms⟩, ht⟩

theorem stateIds_updateNode {s : StateId} {f : Node → Node} (hf : ∀ n, (f n).id = n.id) :
    (a.updateNode s f).stateIds = a.stateIds := by
  rw [stateIds, stateIds, updateNode, List.map_map]
  refine List.map_congr_left fun n _ => ?_
  rw [Function.comp_apply]
  split
  · exact hf n
  · rfl

theorem mem_transitions_updateNode {s : StateId} {f : Node → Node} {t : Transition} :
    t ∈ (a.updateNode s f).transitions ↔
      (∃ n ∈ a.nodes, n.id = s ∧ t ∈ (f n).out) ∨ ∃ n ∈ a.nodes, n.id ≠ s ∧ t ∈ n.out := by
  rw [mem_transitions]
  constructor
  · rintro ⟨m, hm, ht⟩
    obtain ⟨n, hn, rfl⟩ := mem_nodes_updateNode.1 hm
    split at ht
    · next hns => exact .inl ⟨n, hn, hns, ht⟩
    · next hns => exact .inr ⟨n, hn, hns, ht⟩
  · rintro (⟨n, hn, hns, ht⟩ | ⟨n, hn, hns, ht⟩)
    · exact ⟨f n, mem_nodes_updateNode.2 ⟨n, hn, if_pos hns⟩, ht⟩
    · exact ⟨n, mem_nodes_updateNode.2 ⟨n, hn, if_neg hns⟩, ht⟩

theorem Valid.insertNode (ha : a.Valid) {n : Node} (hnew : n.id ∉ a.stateIds)
    (hissued : n.id.owner = a.owner ∧ n.id.index < a.nextState)
    (hasc : Ident.Ascending Transition.id n.out) (hsource : ∀ t ∈ n.out, t.source = n.id)
    (htarget : ∀ t ∈ n.out, t.target = n.id ∨ t.target ∈ a.stateIds)
    (hout : ∀ t ∈ n.out, t.id.owner = a.owner ∧ t.id.index < a.nextTransition)
    (hid : ∀ t ∈ n.out, ∀ u ∈ a.transitions, t.id ≠ u.id) : (a.insertNode n).Valid where
  start_mem := mem_stateIds_insertNode.2 (.inr ha.start_mem)
  ascending := ha.ascending.insertAt fun m hm heq => hnew (mem_stateIds.2 ⟨m, hm, heq⟩)
  out_ascending m hm := by
    rcases mem_nodes_insertNode.1 hm with rfl | hm
    · exact hasc
    · exact ha.out_ascending m hm
  source_eq m hm t ht := by
    rcases mem_nodes_insertNode.1 hm with rfl | hm
    · exact hsource t ht
    · exact ha.source_eq m hm t ht
  target_mem t ht := by
    rcases mem_transitions_insertNode.1 ht with ht | ht
    · exact mem_stateIds_insertNode.2 (htarget t ht)
    · exact mem_stateIds_insertNode.2 (.inr (ha.target_mem t ht))
  state_issued s hs := by
    rcases mem_stateIds_insertNode.1 hs with rfl | hs
    · exact hissued
    · exact ha.state_issued s hs
  transition_issued t ht := by
    rcases mem_transitions_insertNode.1 ht with ht | ht
    · exact hout t ht
    · exact ha.transition_issued t ht
  eq_of_id_eq t ht u hu heq := by
    rcases mem_transitions_insertNode.1 ht with ht | ht <;>
      rcases mem_transitions_insertNode.1 hu with hu | hu
    · exact hasc.eq_of_key_eq ht hu heq
    · exact absurd heq (hid t ht u hu)
    · exact absurd heq.symm (hid u hu t ht)
    · exact ha.eq_of_id_eq t ht u hu heq

theorem Valid.eraseNode (ha : a.Valid) {s : StateId} (hs : s ≠ a.start)
    (hinto : ∀ t ∈ a.transitions, t.target = s → t.source = s) : (a.eraseNode s).Valid where
  start_mem := mem_stateIds_eraseNode.2 ⟨ha.start_mem, hs.symm⟩
  ascending := ha.ascending.filter _
  out_ascending m hm := ha.out_ascending m (mem_nodes_eraseNode.1 hm).1
  source_eq m hm := ha.source_eq m (mem_nodes_eraseNode.1 hm).1
  target_mem t ht := by
    obtain ⟨ht, hts⟩ := ha.mem_transitions_eraseNode.1 ht
    exact mem_stateIds_eraseNode.2 ⟨ha.target_mem t ht, fun h => hts (hinto t ht h)⟩
  state_issued r hr := ha.state_issued r (mem_stateIds_eraseNode.1 hr).1
  transition_issued t ht := ha.transition_issued t (ha.mem_transitions_eraseNode.1 ht).1
  eq_of_id_eq t ht u hu :=
    ha.eq_of_id_eq t (ha.mem_transitions_eraseNode.1 ht).1 u
      (ha.mem_transitions_eraseNode.1 hu).1

theorem Valid.updateNode (ha : a.Valid) {s : StateId} {f : Node → Node}
    (hf : ∀ n, (f n).id = n.id)
    (hasc : ∀ n ∈ a.nodes, n.id = s → Ident.Ascending Transition.id (f n).out)
    (hout : ∀ n ∈ a.nodes, n.id = s → ∀ t ∈ (f n).out,
      t.source = s ∧ t.target ∈ a.stateIds ∧
        (t.id.owner = a.owner ∧ t.id.index < a.nextTransition) ∧
          ∀ u ∈ a.transitions, t.id = u.id → t = u) : (a.updateNode s f).Valid where
  start_mem := (stateIds_updateNode hf).symm ▸ ha.start_mem
  ascending := by
    have hmap : (a.updateNode s f).nodes.map Node.id = a.nodes.map Node.id :=
      stateIds_updateNode hf
    have hasc := ha.ascending
    unfold Ident.Ascending at hasc ⊢
    rwa [← List.pairwise_map (f := Node.id) (R := fun i j : StateId => i.before j = true), hmap,
      List.pairwise_map]
  out_ascending m hm := by
    obtain ⟨n, hn, rfl⟩ := mem_nodes_updateNode.1 hm
    split
    · next hns => exact hasc n hn hns
    · exact ha.out_ascending n hn
  source_eq m hm t ht := by
    obtain ⟨n, hn, rfl⟩ := mem_nodes_updateNode.1 hm
    by_cases hns : n.id = s
    · rw [if_pos hns] at ht ⊢
      exact (hout n hn hns t ht).1.trans (hns.symm.trans (hf n).symm)
    · rw [if_neg hns] at ht ⊢
      exact ha.source_eq n hn t ht
  target_mem t ht := by
    rw [stateIds_updateNode hf]
    rcases mem_transitions_updateNode.1 ht with ⟨n, hn, hns, ht⟩ | ⟨n, hn, -, ht⟩
    · exact (hout n hn hns t ht).2.1
    · exact ha.target_mem t (mem_transitions.2 ⟨n, hn, ht⟩)
  state_issued r hr := ha.state_issued r (stateIds_updateNode hf ▸ hr)
  transition_issued t ht := by
    rcases mem_transitions_updateNode.1 ht with ⟨n, hn, hns, ht⟩ | ⟨n, hn, -, ht⟩
    · exact (hout n hn hns t ht).2.2.1
    · exact ha.transition_issued t (mem_transitions.2 ⟨n, hn, ht⟩)
  eq_of_id_eq t ht u hu heq := by
    rcases mem_transitions_updateNode.1 ht with ⟨m, hm, hms, ht⟩ | ⟨m, hm, -, ht⟩ <;>
      rcases mem_transitions_updateNode.1 hu with ⟨n, hn, hns, hu⟩ | ⟨n, hn, -, hu⟩
    · obtain rfl := ha.ascending.eq_of_key_eq hm hn (hms.trans hns.symm)
      exact (hasc m hm hms).eq_of_key_eq ht hu heq
    · exact (hout m hm hms t ht).2.2.2 u (mem_transitions.2 ⟨n, hn, hu⟩) heq
    · exact ((hout n hn hns u hu).2.2.2 t (mem_transitions.2 ⟨m, hm, ht⟩) heq.symm).symm
    · exact ha.eq_of_id_eq t (mem_transitions.2 ⟨m, hm, ht⟩) u (mem_transitions.2 ⟨n, hn, hu⟩)
        heq

end Automaton

end RegularForms
