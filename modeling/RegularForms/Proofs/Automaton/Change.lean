import Mathlib.Data.Set.Insert
import RegularForms.Proofs.Automaton.Valid

/-!
# What the changes of a graph do

A change of a valid automaton that is not refused yields a valid automaton, and the
opposite change gives back exactly the automaton before, lists and all. What it does to
the sets of states, transitions and accepting states is said in terms of the
`Outline`, which keeps these sets and forgets the order.
-/

namespace RegularForms

/-- An automaton up to the order in which its states and transitions are kept. -/
@[ext]
structure Outline where
  owner : Nat
  start : StateId
  nextState : Nat
  nextTransition : Nat
  states : Set StateId
  transitions : Set Transition
  finals : Set StateId

namespace Automaton

variable {a : Automaton}

def outline (a : Automaton) : Outline where
  owner := a.owner
  start := a.start
  nextState := a.nextState
  nextTransition := a.nextTransition
  states := {s | s ∈ a.stateIds}
  transitions := {t | t ∈ a.transitions}
  finals := {s | a.accepting s = true}

theorem mem_outline_states {s : StateId} : s ∈ a.outline.states ↔ s ∈ a.stateIds := Iff.rfl

theorem mem_outline_transitions {t : Transition} :
    t ∈ a.outline.transitions ↔ t ∈ a.transitions := Iff.rfl

theorem mem_outline_finals {s : StateId} :
    s ∈ a.outline.finals ↔ a.accepting s = true := Iff.rfl

def link (a : Automaton) (t : Transition) : Automaton :=
  a.updateNode t.source fun n => { n with out := Ident.insertAt Transition.id t n.out }

def unlink (a : Automaton) (s : StateId) (t : TransitionId) : Automaton :=
  a.updateNode s fun n => { n with out := n.out.filter fun u => u.id ≠ t }

def mark (a : Automaton) (s : StateId) (accepting : Bool) : Automaton :=
  a.updateNode s fun n => { n with state := { n.state with accepting := accepting } }

theorem stateIds_unlink {s : StateId} {t : TransitionId} : (a.unlink s t).stateIds = a.stateIds :=
  stateIds_updateNode fun _ => rfl

theorem stateIds_mark {s : StateId} {accepting : Bool} :
    (a.mark s accepting).stateIds = a.stateIds :=
  stateIds_updateNode fun _ => rfl

/-- A change at one node brings nothing but what it brings there. -/
theorem mem_transitions_of_mem_updateNode {s : StateId} {f : Node → Node} {t : Transition}
    (ht : t ∈ (a.updateNode s f).transitions) {Q : Prop}
    (hf : ∀ n, t ∈ (f n).out → Q ∨ t ∈ n.out) : Q ∨ t ∈ a.transitions := by
  rcases mem_transitions_updateNode.1 ht with ⟨n, hn, -, ht⟩ | ⟨n, hn, -, ht⟩
  · exact (hf n ht).imp_right fun ht => mem_transitions.2 ⟨n, hn, ht⟩
  · exact .inr (mem_transitions.2 ⟨n, hn, ht⟩)

theorem eq_or_mem_of_mem_link {t u : Transition} (hu : u ∈ (a.link t).transitions) :
    u = t ∨ u ∈ a.transitions :=
  mem_transitions_of_mem_updateNode hu fun _ => Ident.mem_insertAt.1

theorem mem_transitions_of_mem_unlink {s : StateId} {i : TransitionId} {t : Transition}
    (ht : t ∈ (a.unlink s i).transitions) : t ∈ a.transitions :=
  (mem_transitions_of_mem_updateNode ht fun _ ht =>
    .inr (List.mem_of_mem_filter ht)).resolve_left not_false

theorem mem_transitions_of_mem_mark {s : StateId} {accepting : Bool} {t : Transition}
    (ht : t ∈ (a.mark s accepting).transitions) : t ∈ a.transitions :=
  (mem_transitions_of_mem_updateNode ht fun _ => .inr).resolve_left not_false

theorem updateNode_updateNode (s : StateId) {f g : Node → Node} (hf : ∀ n, (f n).id = n.id)
    (hgf : ∀ n ∈ a.nodes, n.id = s → g (f n) = n) :
    (a.updateNode s f).updateNode s g = a := by
  have hnodes : ((a.updateNode s f).updateNode s g).nodes = a.nodes := by
    rw [updateNode, updateNode, List.map_map]
    refine (List.map_congr_left fun n hn => ?_).trans (List.map_id _)
    rw [Function.comp_apply, id_eq]
    by_cases hns : n.id = s
    · rw [if_pos hns, if_pos ((hf n).trans hns), hgf n hn hns]
    · rw [if_neg hns, if_neg hns]
  exact congrArg (fun nodes => { a with nodes := nodes }) hnodes

/-! ## Adding a state -/

theorem addState_eq {s : State} (hnew : s.id ∉ a.stateIds)
    (howner : s.id.owner = a.owner) : a.addState s [] = .ok (a.insertNode ⟨s, []⟩) := by
  have hnone : a.node? s.id = none := node?_eq_none_iff.2 hnew
  simp [addState, checkState, howner, hnone, Ident.sort, repeated?, bind, Except.bind]

theorem Valid.insertState (ha : a.Valid) {s : State} (hnew : s.id ∉ a.stateIds)
    (hissued : s.id.owner = a.owner ∧ s.id.index < a.nextState) :
    (a.insertNode ⟨s, []⟩).Valid :=
  ha.insertNode hnew hissued .nil (fun _ h => nomatch h) (fun _ h => nomatch h)
    (fun _ h => nomatch h) fun _ h => nomatch h

theorem eraseNode_insertNode {n : Node} (hnew : n.id ∉ a.stateIds) :
    (a.insertNode n).eraseNode n.id = a := by
  have hne : ∀ m ∈ a.nodes, m.id ≠ n.id := fun m hm h => hnew (mem_stateIds.2 ⟨m, hm, h⟩)
  exact congrArg (fun nodes => { a with nodes := nodes }) (Ident.filter_insertAt hne)

theorem outline_insertState (ha : a.Valid) {s : State} (hnew : s.id ∉ a.stateIds)
    (hissued : s.id.owner = a.owner ∧ s.id.index < a.nextState) :
    (a.insertNode ⟨s, []⟩).outline =
      { a.outline with
        states := insert s.id a.outline.states
        finals := a.outline.finals ∪ {r | r = s.id ∧ s.accepting = true} } := by
  have hb := ha.insertState hnew hissued
  have hstates : (a.insertNode ⟨s, []⟩).outline.states = insert s.id a.outline.states := by
    ext r
    exact mem_stateIds_insertNode
  have htransitions : (a.insertNode ⟨s, []⟩).outline.transitions = a.outline.transitions := by
    ext t
    exact mem_transitions_insertNode.trans (or_iff_right List.not_mem_nil)
  have hfinals : (a.insertNode ⟨s, []⟩).outline.finals =
      a.outline.finals ∪ {r | r = s.id ∧ s.accepting = true} := by
    ext r
    refine hb.accepting_iff.trans ?_
    rw [Set.mem_union, show r ∈ a.outline.finals ↔ _ from ha.accepting_iff]
    constructor
    · rintro ⟨n, hn, rfl, h⟩
      rcases mem_nodes_insertNode.1 hn with rfl | hn
      · exact .inr ⟨rfl, h⟩
      · exact .inl ⟨n, hn, rfl, h⟩
    · rintro (⟨n, hn, rfl, h⟩ | ⟨rfl, h⟩)
      · exact ⟨n, mem_nodes_insertNode.2 (.inr hn), rfl, h⟩
      · exact ⟨⟨s, []⟩, mem_nodes_insertNode.2 (.inl rfl), rfl, h⟩
  exact Outline.ext rfl rfl rfl rfl hstates htransitions hfinals

/-! ## Removing a state -/

theorem Valid.removeState_eq (ha : a.Valid) {n : Node} (hn : n ∈ a.nodes)
    (hstart : n.id ≠ a.start) (hinto : ∀ t ∈ a.transitions, t.target = n.id → t.source = n.id) :
    a.removeState n.id = .ok (n, a.eraseNode n.id) := by
  have howner : n.id.owner = a.owner := (ha.state_issued _ (mem_stateIds.2 ⟨n, hn, rfl⟩)).1
  have hnode : a.node? n.id = some n := ha.node?_eq_some_iff.2 ⟨hn, rfl⟩
  have hsource : ∀ t ∈ a.into n.id, t.source = n.id := by
    intro t ht
    obtain ⟨ht, htn⟩ := mem_into.1 ht
    exact hinto t ht htn
  simpa [removeState, checkState, howner, hstart, hnode, bind, Except.bind] using hsource

theorem insertNode_eraseNode (ha : a.Valid) {n : Node} (hn : n ∈ a.nodes) :
    (a.eraseNode n.id).insertNode n = a :=
  congrArg (fun nodes => { a with nodes := nodes }) (ha.ascending.insertAt_filter hn)

theorem repeated?_eq_none {ts : List Transition} (h : Ident.Ascending Transition.id ts) :
    repeated? ts = none := by
  induction ts with
  | nil => rfl
  | cons t ts ih =>
      obtain ⟨ht, hts⟩ := List.pairwise_cons.1 h
      cases ts with
      | nil => rfl
      | cons u us =>
          have hne : t.id ≠ u.id := by
            intro heq
            have hloop := ht u (by simp)
            rw [heq, Ident.not_before_self] at hloop
            nomatch hloop
          rw [repeated?, if_neg hne, ih hts]

/-- A state that was removed can be added again, with the transitions that left it. -/
theorem Valid.addState_eraseNode (ha : a.Valid) {n : Node} (hn : n ∈ a.nodes) :
    (a.eraseNode n.id).addState n.state n.out = .ok a := by
  have howner : n.id.owner = a.owner := (ha.state_issued _ (mem_stateIds.2 ⟨n, hn, rfl⟩)).1
  have hnone : (a.eraseNode n.id).node? n.id = none := by
    rw [node?_eq_none_iff, mem_stateIds_eraseNode]
    exact fun h => h.2 rfl
  have hrefusal : n.out.findSome? ((a.eraseNode n.id).refusal? n.id) = none := by
    rw [List.findSome?_eq_none_iff]
    intro t ht
    have hmem := mem_transitions.2 ⟨n, hn, ht⟩
    have htarget := ha.target_mem t hmem
    have hid : t.id.owner = (a.eraseNode n.id).owner := (ha.transition_issued t hmem).1
    have hto : t.target.owner = (a.eraseNode n.id).owner := (ha.state_issued _ htarget).1
    have hknown : ¬ (t.target ≠ n.id ∧ (a.eraseNode n.id).node? t.target = none) := by
      rintro ⟨hne, hnode⟩
      exact node?_eq_none_iff.1 hnode (mem_stateIds_eraseNode.2 ⟨htarget, hne⟩)
    rw [refusal?, if_neg (not_not_intro hid), if_neg (not_not_intro hto),
      if_neg (not_not_intro (ha.source_eq n hn t ht)), if_neg hknown]
  have hasc := ha.out_ascending n hn
  have hback := insertNode_eraseNode ha hn
  simp only [addState, checkState, owner_eraseNode, howner, hnone, hasc.sort_eq, hrefusal,
    repeated?_eq_none hasc, if_true, bind, Except.bind, Option.isSome_none, Bool.false_eq_true,
    if_false]
  exact congrArg Except.ok hback

theorem outline_eraseNode (ha : a.Valid) {s : StateId} (hs : s ≠ a.start)
    (hinto : ∀ t ∈ a.transitions, t.target = s → t.source = s) :
    (a.eraseNode s).outline =
      { a.outline with
        states := a.outline.states \ {s}
        transitions := a.outline.transitions \ {t | t.source = s}
        finals := a.outline.finals \ {s} } := by
  have hb := ha.eraseNode hs hinto
  have hstates : (a.eraseNode s).outline.states = a.outline.states \ {s} := by
    ext r
    exact mem_stateIds_eraseNode
  have htransitions : (a.eraseNode s).outline.transitions =
      a.outline.transitions \ {t | t.source = s} := by
    ext t
    exact ha.mem_transitions_eraseNode
  have hfinals : (a.eraseNode s).outline.finals = a.outline.finals \ {s} := by
    ext r
    refine hb.accepting_iff.trans ?_
    rw [Set.mem_sdiff, show r ∈ a.outline.finals ↔ _ from ha.accepting_iff]
    constructor
    · rintro ⟨n, hn, rfl, h⟩
      obtain ⟨hn, hns⟩ := mem_nodes_eraseNode.1 hn
      exact ⟨⟨n, hn, rfl, h⟩, hns⟩
    · rintro ⟨⟨n, hn, rfl, h⟩, hns⟩
      exact ⟨n, mem_nodes_eraseNode.2 ⟨hn, hns⟩, rfl, h⟩
  exact Outline.ext rfl rfl rfl rfl hstates htransitions hfinals

/-! ## Adding a transition -/

theorem Valid.addTransition_eq (ha : a.Valid) {t : Transition} (hs : t.source ∈ a.stateIds)
    (ht : t.target ∈ a.stateIds) (howner : t.id.owner = a.owner)
    (hnew : ∀ u ∈ a.transitions, u.id ≠ t.id) : a.addTransition t = .ok (a.link t) := by
  obtain ⟨n, hn, hns, hnode⟩ := ha.exists_node hs
  obtain ⟨m, -, -, hmnode⟩ := ha.exists_node ht
  have hsowner : t.source.owner = a.owner := (ha.state_issued _ hs).1
  have htowner : t.target.owner = a.owner := (ha.state_issued _ ht).1
  have hany : (n.out.any fun u => u.id = t.id) = false := by
    rw [List.any_eq_false]
    intro u hu
    simpa using hnew u (mem_transitions.2 ⟨n, hn, hu⟩)
  simp [addTransition, checkState, checkTransition, howner, hsowner, htowner, hnode, hmnode,
    hany, link, bind, Except.bind]

theorem mem_transitions_link (ha : a.Valid) {t u : Transition} (hs : t.source ∈ a.stateIds) :
    u ∈ (a.link t).transitions ↔ u = t ∨ u ∈ a.transitions := by
  rw [link, mem_transitions_updateNode]
  obtain ⟨n, hn, hns, -⟩ := ha.exists_node hs
  constructor
  · rintro (⟨m, hm, -, hu⟩ | ⟨m, hm, -, hu⟩)
    · rcases Ident.mem_insertAt.1 hu with rfl | hu
      · exact .inl rfl
      · exact .inr (mem_transitions.2 ⟨m, hm, hu⟩)
    · exact .inr (mem_transitions.2 ⟨m, hm, hu⟩)
  · rintro (rfl | hu)
    · exact .inl ⟨n, hn, hns, Ident.mem_insertAt.2 (.inl rfl)⟩
    · obtain ⟨m, hm, hu⟩ := mem_transitions.1 hu
      by_cases hms : m.id = t.source
      · exact .inl ⟨m, hm, hms, Ident.mem_insertAt.2 (.inr hu)⟩
      · exact .inr ⟨m, hm, hms, hu⟩

theorem Valid.link (ha : a.Valid) {t : Transition} (ht : t.target ∈ a.stateIds)
    (hissued : t.id.owner = a.owner ∧ t.id.index < a.nextTransition)
    (hnew : ∀ u ∈ a.transitions, u.id ≠ t.id) : (a.link t).Valid := by
  refine ha.updateNode (fun _ => rfl) (fun n hn _ => ?_) fun n hn hns u hu => ?_
  · exact (ha.out_ascending n hn).insertAt fun u hu => hnew u (mem_transitions.2 ⟨n, hn, hu⟩)
  · rcases Ident.mem_insertAt.1 hu with rfl | hu
    · exact ⟨rfl, ht, hissued, fun v hv heq => absurd heq.symm (hnew v hv)⟩
    · have hmem := mem_transitions.2 ⟨n, hn, hu⟩
      exact ⟨(ha.source_eq n hn u hu).trans hns, ha.target_mem u hmem,
        ha.transition_issued u hmem, fun v hv heq => ha.eq_of_id_eq u hmem v hv heq⟩

theorem unlink_link {t : Transition} (hnew : ∀ u ∈ a.transitions, u.id ≠ t.id) :
    (a.link t).unlink t.source t.id = a := by
  refine updateNode_updateNode _ (fun _ => rfl) fun n hn _ => ?_
  have hout : (Ident.insertAt Transition.id t n.out).filter (fun u => u.id ≠ t.id) = n.out :=
    Ident.filter_insertAt fun u hu => hnew u (mem_transitions.2 ⟨n, hn, hu⟩)
  exact congrArg (fun out => { n with out := out }) hout

theorem outline_updateNode {s : StateId} {f : Node → Node} {transitions : Set Transition}
    (ha : a.Valid) (hb : (a.updateNode s f).Valid) (hf : ∀ n, (f n).state = n.state)
    (h : ∀ t, t ∈ (a.updateNode s f).transitions ↔ t ∈ transitions) :
    (a.updateNode s f).outline = { a.outline with transitions := transitions } := by
  have hstates : (a.updateNode s f).outline.states = a.outline.states := by
    ext r
    rw [mem_outline_states, mem_outline_states,
      stateIds_updateNode fun n => congrArg State.id (hf n)]
  have htransitions : (a.updateNode s f).outline.transitions = transitions := by
    ext t
    exact h t
  have hstate : ∀ n, (if n.id = s then f n else n).state = n.state := by
    intro n
    split
    · exact hf n
    · rfl
  have hfinals : (a.updateNode s f).outline.finals = a.outline.finals := by
    ext r
    refine hb.accepting_iff.trans (Iff.trans ?_ ha.accepting_iff.symm)
    constructor
    · rintro ⟨m, hm, rfl, hacc⟩
      obtain ⟨n, hn, rfl⟩ := mem_nodes_updateNode.1 hm
      rw [hstate] at hacc
      exact ⟨n, hn, (congrArg State.id (hstate n)).symm, hacc⟩
    · rintro ⟨n, hn, rfl, hacc⟩
      refine ⟨_, mem_nodes_updateNode.2 ⟨n, hn, rfl⟩, congrArg State.id (hstate n), ?_⟩
      rwa [hstate]
  exact Outline.ext rfl rfl rfl rfl hstates htransitions hfinals

theorem outline_link (ha : a.Valid) {t : Transition} (hs : t.source ∈ a.stateIds)
    (hb : (a.link t).Valid) :
    (a.link t).outline =
      { a.outline with transitions := insert t a.outline.transitions } :=
  outline_updateNode ha hb (fun _ => rfl) fun _ => mem_transitions_link ha hs

/-! ## Removing a transition -/

theorem Valid.removeTransition_eq (ha : a.Valid) {t : Transition} (ht : t ∈ a.transitions) :
    a.removeTransition t.source t.id = .ok (t, a.unlink t.source t.id) := by
  have howner : t.id.owner = a.owner := (ha.transition_issued t ht).1
  have hsowner : t.source.owner = a.owner := (ha.state_issued _ (ha.source_mem ht)).1
  have hfind : (a.out t.source).find? (fun u => u.id = t.id) = some t := by
    cases h : (a.out t.source).find? (fun u => u.id = t.id) with
    | none =>
        have hno := List.find?_eq_none.1 h t (ha.mem_out.2 ⟨ht, rfl⟩)
        simp at hno
    | some u =>
        have hu := (ha.mem_out.1 (List.mem_of_find?_eq_some h)).1
        have hid : u.id = t.id := by simpa using List.find?_some h
        rw [ha.eq_of_id_eq u hu t ht hid]
  simp only [removeTransition, checkTransition, checkState, howner, hsowner, if_true, bind,
    Except.bind, hfind]
  rfl

theorem mem_transitions_unlink (ha : a.Valid) {t u : Transition} (ht : t ∈ a.transitions) :
    u ∈ (a.unlink t.source t.id).transitions ↔ u ∈ a.transitions ∧ u ≠ t := by
  rw [unlink, mem_transitions_updateNode]
  constructor
  · rintro (⟨n, hn, -, hu⟩ | ⟨n, hn, hns, hu⟩)
    · obtain ⟨hu, hne⟩ := List.mem_filter.1 hu
      refine ⟨mem_transitions.2 ⟨n, hn, hu⟩, ?_⟩
      rintro rfl
      simp at hne
    · refine ⟨mem_transitions.2 ⟨n, hn, hu⟩, ?_⟩
      rintro rfl
      exact hns (ha.source_eq n hn u hu).symm
  · rintro ⟨hu, hne⟩
    have hid : u.id ≠ t.id := fun heq => hne (ha.eq_of_id_eq u hu t ht heq)
    obtain ⟨n, hn, hun⟩ := mem_transitions.1 hu
    by_cases hns : n.id = t.source
    · exact .inl ⟨n, hn, hns, List.mem_filter.2 ⟨hun, by simpa using hid⟩⟩
    · exact .inr ⟨n, hn, hns, hun⟩

theorem Valid.unlink (ha : a.Valid) (s : StateId) (t : TransitionId) : (a.unlink s t).Valid := by
  refine ha.updateNode (fun _ => rfl) (fun n hn _ => ?_) fun n hn hns u hu => ?_
  · exact (ha.out_ascending n hn).filter _
  · have hu := (List.mem_filter.1 hu).1
    have hmem := mem_transitions.2 ⟨n, hn, hu⟩
    exact ⟨(ha.source_eq n hn u hu).trans hns, ha.target_mem u hmem,
      ha.transition_issued u hmem, fun v hv heq => ha.eq_of_id_eq u hmem v hv heq⟩

theorem link_unlink (ha : a.Valid) {t : Transition} (ht : t ∈ a.transitions) :
    (a.unlink t.source t.id).link t = a := by
  refine updateNode_updateNode _ (fun _ => rfl) fun n hn hns => ?_
  obtain ⟨m, hm, htm⟩ := mem_transitions.1 ht
  have hmn : m.id = n.id := (ha.source_eq m hm t htm).symm.trans hns.symm
  obtain rfl := ha.ascending.eq_of_key_eq hm hn hmn
  exact congrArg (fun out => { m with out := out })
    ((ha.out_ascending m hm).insertAt_filter htm)

theorem outline_unlink (ha : a.Valid) {t : Transition} (ht : t ∈ a.transitions) :
    (a.unlink t.source t.id).outline =
      { a.outline with transitions := a.outline.transitions \ {t} } :=
  outline_updateNode ha (ha.unlink _ _) (fun _ => rfl) fun _ => mem_transitions_unlink ha ht

/-! ## Setting a flag -/

theorem Valid.setAccepting_eq (ha : a.Valid) {s : StateId} (hs : s ∈ a.stateIds)
    (accepting : Bool) :
    a.setAccepting s accepting = .ok (a.accepting s, a.mark s accepting) := by
  obtain ⟨n, hn, hns, hnode⟩ := ha.exists_node hs
  have howner : s.owner = a.owner := (ha.state_issued s hs).1
  simp [setAccepting, checkState, howner, hnode, Automaton.accepting, mark, bind, Except.bind]

theorem Valid.mark (ha : a.Valid) (s : StateId) (accepting : Bool) :
    (a.mark s accepting).Valid := by
  refine ha.updateNode (fun _ => rfl) (fun n hn _ => ha.out_ascending n hn)
    fun n hn hns u hu => ?_
  have hmem := mem_transitions.2 ⟨n, hn, hu⟩
  exact ⟨(ha.source_eq n hn u hu).trans hns, ha.target_mem u hmem,
    ha.transition_issued u hmem, fun v hv heq => ha.eq_of_id_eq u hmem v hv heq⟩

theorem mark_mark (ha : a.Valid) (s : StateId) (accepting : Bool) :
    (a.mark s accepting).mark s (a.accepting s) = a := by
  refine updateNode_updateNode _ (fun _ => rfl) fun n hn hns => ?_
  have hflag : a.accepting s = n.state.accepting := by
    rw [Automaton.accepting, ha.node?_eq_some_iff.2 ⟨hn, hns⟩]
  rw [hflag]

theorem mem_transitions_mark {s : StateId} {accepting : Bool} {t : Transition} :
    t ∈ (a.mark s accepting).transitions ↔ t ∈ a.transitions := by
  refine mem_transitions_updateNode.trans (Iff.trans ?_ mem_transitions.symm)
  constructor
  · rintro (⟨n, hn, -, ht⟩ | ⟨n, hn, -, ht⟩)
    · exact ⟨n, hn, ht⟩
    · exact ⟨n, hn, ht⟩
  · rintro ⟨n, hn, ht⟩
    by_cases hns : n.id = s
    · exact .inl ⟨n, hn, hns, ht⟩
    · exact .inr ⟨n, hn, hns, ht⟩

theorem Valid.accepting_mark_self (ha : a.Valid) {s : StateId} (hs : s ∈ a.stateIds)
    (accepting : Bool) : (a.mark s accepting).accepting s = true ↔ accepting = true := by
  rw [(ha.mark s accepting).accepting_iff]
  obtain ⟨m, hm, hms⟩ := mem_stateIds.1 hs
  constructor
  · rintro ⟨n, hn, hnr, hacc⟩
    obtain ⟨k, hk, rfl⟩ := mem_nodes_updateNode.1 hn
    by_cases hks : k.id = s
    · rwa [if_pos hks] at hacc
    · rw [if_neg hks] at hnr
      exact absurd hnr hks
  · intro hacc
    exact ⟨_, mem_nodes_updateNode.2 ⟨m, hm, if_pos hms⟩, hms, hacc⟩

theorem Valid.accepting_mark_of_ne (ha : a.Valid) {s r : StateId} (hrs : r ≠ s)
    (accepting : Bool) : (a.mark s accepting).accepting r = true ↔ a.accepting r = true := by
  rw [(ha.mark s accepting).accepting_iff, ha.accepting_iff]
  constructor
  · rintro ⟨n, hn, hnr, hacc⟩
    obtain ⟨k, hk, rfl⟩ := mem_nodes_updateNode.1 hn
    by_cases hks : k.id = s
    · rw [if_pos hks] at hnr
      exact absurd (hnr.symm.trans hks) hrs
    · rw [if_neg hks] at hnr hacc
      exact ⟨k, hk, hnr, hacc⟩
  · rintro ⟨n, hn, hnr, hacc⟩
    have hns : n.id ≠ s := fun h => hrs (hnr.symm.trans h)
    exact ⟨n, mem_nodes_updateNode.2 ⟨n, hn, if_neg hns⟩, hnr, hacc⟩

theorem outline_mark (ha : a.Valid) {s : StateId} (hs : s ∈ a.stateIds) (accepting : Bool) :
    (a.mark s accepting).outline =
      { a.outline with
        finals := if accepting then insert s a.outline.finals else a.outline.finals \ {s} } := by
  have hstates : (a.mark s accepting).outline.states = a.outline.states := by
    ext r
    rw [mem_outline_states, mem_outline_states, stateIds_mark]
  have htransitions : (a.mark s accepting).outline.transitions = a.outline.transitions :=
    Set.ext fun t => mem_transitions_mark
  have hfinals : (a.mark s accepting).outline.finals =
      if accepting then insert s a.outline.finals else a.outline.finals \ {s} := by
    ext r
    rw [mem_outline_finals]
    by_cases hrs : r = s
    · rw [hrs, ha.accepting_mark_self hs]
      cases accepting <;> simp
    · rw [ha.accepting_mark_of_ne hrs, ← mem_outline_finals]
      cases accepting <;> simp [hrs]
  exact Outline.ext rfl rfl rfl rfl hstates htransitions hfinals

end Automaton

end RegularForms
