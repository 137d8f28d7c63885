import RegularForms.Automaton.Reach
import RegularForms.Automaton.Basic
import RegularForms.Proofs.Stamp.Basic

/-!
# Graphs with exchanged stamps

What is looked up in a graph, how it is changed and how it is searched goes along with an
embedding of the stamps. Sets of states, lists of transitions and whatever else is sorted by
identifiers come in the same order, because an embedding keeps the order.
-/

namespace RegularForms

open Stamped

variable {α : Type} [Stamped α] {kind : Kind} {σ : Nat ↪o Nat}

@[simp] theorem mem_map_restamp {x : α} {xs : List α} :
    restamp σ x ∈ xs.map (restamp σ) ↔ x ∈ xs :=
  List.mem_map_of_injective (restamp_injective σ)

theorem filter_restamp {p q : α → Bool} (hp : ∀ x, q (restamp σ x) = p x) (xs : List α) :
    (xs.map (restamp σ)).filter q = (xs.filter p).map (restamp σ) := by
  rw [List.filter_map]
  exact congrArg (fun r => (xs.filter r).map (restamp σ)) (funext hp)

theorem find?_restamp {p q : α → Bool} (hp : ∀ x, q (restamp σ x) = p x) (xs : List α) :
    (xs.map (restamp σ)).find? q = (xs.find? p).map (restamp σ) := by
  rw [List.find?_map]
  exact congrArg (fun r => (xs.find? r).map (restamp σ)) (funext hp)

/-! ## Lists sorted by identifiers -/

namespace Ident

@[simp] theorem order_restamp (i j : Ident kind) :
    (restamp σ i).order (restamp σ j) = i.order j := by
  simp [order]

@[simp] theorem before_restamp (i j : Ident kind) :
    (restamp σ i).before (restamp σ j) = i.before j := by
  simp [before]

variable (key : α → Ident kind) (hkey : ∀ x, key (restamp σ x) = restamp σ (key x))

include hkey

theorem insertAt_restamp (x : α) (xs : List α) :
    insertAt key (restamp σ x) (xs.map (restamp σ)) = (insertAt key x xs).map (restamp σ) := by
  induction xs with
  | nil => rfl
  | cons y ys ih =>
      rw [List.map_cons, insertAt, insertAt, hkey, hkey, before_restamp, ih]
      split <;> rfl

theorem sort_restamp (xs : List α) :
    sort key (xs.map (restamp σ)) = (sort key xs).map (restamp σ) := by
  have hfold : ∀ ys : List α,
      (xs.map (restamp σ)).foldl (fun sorted x => insertAt key x sorted) (ys.map (restamp σ)) =
        (xs.foldl (fun sorted x => insertAt key x sorted) ys).map (restamp σ) := by
    induction xs with
    | nil => exact fun _ => rfl
    | cons x xs ih =>
        intro ys
        rw [List.map_cons, List.foldl_cons, List.foldl_cons, insertAt_restamp key hkey, ih]
  exact hfold []

end Ident

namespace StateSet

@[simp] theorem insert_restamp (set : StateSet) (s : StateId) :
    insert (set.map (restamp σ)) (restamp σ s) = (set.insert s).map (restamp σ) := by
  have hinsert := Ident.insertAt_restamp (σ := σ) id (fun _ => rfl) s set
  rw [insert, insert, hinsert]
  simp only [mem_map_restamp]
  split <;> rfl

@[simp] theorem union_restamp (set other : StateSet) :
    union (set.map (restamp σ)) (other.map (restamp σ)) = (set.union other).map (restamp σ) := by
  induction other generalizing set with
  | nil => rfl
  | cons s ss ih =>
      show union (insert (set.map (restamp σ)) (restamp σ s)) (ss.map (restamp σ)) = _
      rw [insert_restamp, ih]
      rfl

@[simp] theorem ofList_restamp (ss : List StateId) :
    ofList (ss.map (restamp σ)) = (ofList ss).map (restamp σ) :=
  union_restamp [] ss

end StateSet

namespace Automaton

variable (a : Automaton)

/-! ## Handing out -/

@[simp] theorem freshState_restamp (i : Nat) :
    (restamp σ a).freshState i = restamp σ (a.freshState i) := rfl

@[simp] theorem freshTransition_restamp (i : Nat) (source target : StateId) (label : Expr) :
    (restamp σ a).freshTransition i (restamp σ source) (restamp σ target) label =
      restamp σ (a.freshTransition i source target label) := rfl

@[simp] theorem freshTransitions_restamp (arcs : List (StateId × StateId × Expr)) :
    (restamp σ a).freshTransitions (arcs.map (restamp σ)) =
      (a.freshTransitions arcs).map (restamp σ) := by
  rw [freshTransitions, freshTransitions, List.mapIdx_eq_zipIdx_map, List.mapIdx_eq_zipIdx_map,
    List.zipIdx_map, List.map_map, List.map_map]
  rfl

@[simp] theorem reserve_restamp (m n : Nat) :
    (restamp σ a).reserve m n = restamp σ (a.reserve m n) := rfl

@[simp] theorem clear_restamp : (restamp σ a).clear = restamp σ a.clear := rfl

/-! ## Look-ups -/

@[simp] theorem states_restamp : (restamp σ a).states = a.states.map (restamp σ) := by
  simp [states, Function.comp_def]

@[simp] theorem stateIds_restamp : (restamp σ a).stateIds = a.stateIds.map (restamp σ) := by
  simp [stateIds, Function.comp_def, Node.id]

@[simp] theorem transitions_restamp :
    (restamp σ a).transitions = a.transitions.map (restamp σ) := by
  simp [transitions, List.flatMap_map, List.map_flatMap]

@[simp] theorem node?_restamp (s : StateId) :
    (restamp σ a).node? (restamp σ s) = (a.node? s).map (restamp σ) := by
  simp only [node?, nodes_restamp, List.find?_map, Function.comp_def, Node.id, Node.state_restamp,
    State.id_restamp, restamp_beq]

@[simp] theorem out_restamp (s : StateId) :
    (restamp σ a).out (restamp σ s) = (a.out s).map (restamp σ) := by
  rw [out, out, node?_restamp]
  cases a.node? s <;> rfl

@[simp] theorem into_restamp (s : StateId) :
    (restamp σ a).into (restamp σ s) = (a.into s).map (restamp σ) := by
  simp [into, List.filter_map, Function.comp_def]

@[simp] theorem hasState_restamp (s : StateId) :
    (restamp σ a).hasState (restamp σ s) = a.hasState s := by
  rw [hasState, hasState, node?_restamp, Option.isSome_map]
  simp

@[simp] theorem accepting_restamp (s : StateId) :
    (restamp σ a).accepting (restamp σ s) = a.accepting s := by
  rw [accepting, accepting, node?_restamp]
  cases a.node? s <;> rfl

@[simp] theorem isStart_restamp (s : StateId) :
    (restamp σ a).isStart (restamp σ s) = a.isStart s := by
  simp [isStart]

@[simp] theorem stateAt?_restamp (index : Nat) :
    (restamp σ a).stateAt? index = (a.stateAt? index).map (restamp σ) := by
  have hnode := node?_restamp (σ := σ) a ⟨a.owner, index⟩
  rw [stateAt?, stateAt?, Option.map_map]
  refine (congrArg (Option.map _) hnode).trans ?_
  rw [Option.map_map]
  rfl

@[simp] theorem hasAccepting_restamp : (restamp σ a).hasAccepting = a.hasAccepting := by
  simp [hasAccepting, List.any_map, Function.comp_def]

@[simp] theorem isEpsilon_restamp (t : Transition) :
    (restamp σ t).isEpsilon = t.isEpsilon := rfl

@[simp] theorem isLoop_restamp (t : Transition) : (restamp σ t).isLoop = t.isLoop := by
  simp [Transition.isLoop]

@[simp] theorem hasEpsilon_restamp : (restamp σ a).hasEpsilon = a.hasEpsilon := by
  simp [hasEpsilon, List.any_map, Function.comp_def]

/-! ## Look-ups with refusal -/

@[simp] theorem checkState_restamp (s : StateId) :
    (restamp σ a).checkState (restamp σ s) = restamp σ (a.checkState s) := by
  simp only [checkState, owner_restamp, Ident.owner_restamp, σ.injective.eq_iff]
  split <;> rfl

@[simp] theorem checkTransition_restamp (t : TransitionId) :
    (restamp σ a).checkTransition (restamp σ t) = restamp σ (a.checkTransition t) := by
  simp only [checkTransition, owner_restamp, Ident.owner_restamp, σ.injective.eq_iff]
  split <;> rfl

@[simp] theorem node_restamp (s : StateId) :
    (restamp σ a).node (restamp σ s) = restamp σ (a.node s) := by
  rw [node, node, checkState_restamp, node?_restamp]
  refine restamp_bind _ fun _ => ?_
  cases a.node? s <;> rfl

@[simp] theorem state_restamp (s : StateId) :
    (restamp σ a).state (restamp σ s) = restamp σ (a.state s) := by
  rw [state, state, node_restamp]
  exact restamp_bind _ fun _ => rfl

@[simp] theorem outgoing_restamp (s : StateId) :
    (restamp σ a).outgoing (restamp σ s) = restamp σ (a.outgoing s) := by
  rw [outgoing, outgoing, node_restamp]
  exact restamp_bind _ fun _ => rfl

@[simp] theorem incoming_restamp (s : StateId) :
    (restamp σ a).incoming (restamp σ s) = restamp σ (a.incoming s) := by
  rw [incoming, incoming, node_restamp, into_restamp]
  exact restamp_bind _ fun _ => rfl

@[simp] theorem isAccepting_restamp (s : StateId) :
    (restamp σ a).isAccepting (restamp σ s) = restamp σ (a.isAccepting s) := by
  rw [isAccepting, isAccepting, node_restamp]
  exact restamp_bind _ fun _ => rfl

@[simp] theorem transition_restamp (t : TransitionId) :
    (restamp σ a).transition (restamp σ t) = restamp σ (a.transition t) := by
  rw [transition, transition, checkTransition_restamp, transitions_restamp, List.find?_map]
  refine restamp_bind _ fun _ => ?_
  simp only [Function.comp_def, Transition.id_restamp, restamp_beq]
  cases a.transitions.find? fun u => u.id == t <;> rfl

/-! ## Changes -/

@[simp] theorem insertNode_restamp (n : Node) :
    (restamp σ a).insertNode (restamp σ n) = restamp σ (a.insertNode n) :=
  congrArg (Automaton.mk _ _ _ _) (Ident.insertAt_restamp Node.id (fun _ => rfl) n a.nodes)

@[simp] theorem eraseNode_restamp (s : StateId) :
    (restamp σ a).eraseNode (restamp σ s) = restamp σ (a.eraseNode s) := by
  have hnodes : (a.nodes.map (restamp σ)).filter (fun n => n.id ≠ restamp σ s) =
      (a.nodes.filter fun n => n.id ≠ s).map (restamp σ) := by
    simp [List.filter_map, Function.comp_def, Node.id]
  exact congrArg (Automaton.mk _ _ _ _) hnodes

theorem updateNode_restamp (s : StateId) {f g : Node → Node}
    (hfg : ∀ n, g (restamp σ n) = restamp σ (f n)) :
    (restamp σ a).updateNode (restamp σ s) g = restamp σ (a.updateNode s f) := by
  have hnodes : (a.nodes.map (restamp σ)).map (fun n => if n.id = restamp σ s then g n else n) =
      (a.nodes.map fun n => if n.id = s then f n else n).map (restamp σ) := by
    rw [List.map_map, List.map_map]
    refine List.map_congr_left fun n _ => ?_
    show (if restamp σ n.id = restamp σ s then g (restamp σ n) else restamp σ n) =
      restamp σ (if n.id = s then f n else n)
    simp only [restamp_inj, hfg]
    split <;> rfl
  exact congrArg (Automaton.mk _ _ _ _) hnodes

@[simp] theorem refusal?_restamp (s : StateId) (t : Transition) :
    (restamp σ a).refusal? (restamp σ s) (restamp σ t) = (a.refusal? s t).map (restamp σ) := by
  have hnone : (restamp σ a).node? (restamp σ t.target) = none ↔ a.node? t.target = none := by
    rw [node?_restamp, Option.map_eq_none_iff]
  simp only [refusal?, owner_restamp, Ident.owner_restamp, Transition.id_restamp,
    Transition.source_restamp, Transition.target_restamp, restamp_inj, ne_eq, hnone,
    σ.injective.eq_iff]
  split_ifs <;> rfl

end Automaton

@[simp] theorem repeated?_restamp (ts : List Transition) :
    repeated? (ts.map (restamp σ)) = (repeated? ts).map (restamp σ) := by
  induction ts using repeated?.induct with
  | case1 t u ts h => simp [repeated?, h]
  | case2 t u ts h ih => simp_all [repeated?]
  | case3 ts h =>
      rcases ts with _ | ⟨t, _ | ⟨u, ts⟩⟩
      · rfl
      · rfl
      · exact absurd rfl (h t u ts)

namespace Automaton

variable (a : Automaton)

theorem findSome?_refusal?_restamp (s : StateId) (ts : List Transition) :
    (ts.map (restamp σ)).findSome? ((restamp σ a).refusal? (restamp σ s)) =
      (ts.findSome? (a.refusal? s)).map (restamp σ) := by
  rw [List.findSome?_map, List.map_findSome?]
  exact congrArg (List.findSome? · ts) (funext (refusal?_restamp a s))

@[simp] theorem addState_restamp (s : State) (out : List Transition) :
    (restamp σ a).addState (restamp σ s) (out.map (restamp σ)) =
      restamp σ (a.addState s out) := by
  have hsort := Ident.sort_restamp (σ := σ) Transition.id (fun _ => rfl) out
  have hinsert := fun out => insertNode_restamp (σ := σ) a ⟨s, out⟩
  rw [addState, addState, State.id_restamp, checkState_restamp, node?_restamp, Option.isSome_map,
    hsort]
  refine restamp_bind _ fun _ => ?_
  simp only [findSome?_refusal?_restamp, repeated?_restamp]
  split
  · rfl
  · cases (Ident.sort Transition.id out).findSome? (a.refusal? s.id) with
    | some err => rfl
    | none =>
        cases repeated? (Ident.sort Transition.id out) with
        | some t => rfl
        | none => exact congrArg Except.ok (hinsert _)

@[simp] theorem removeState_restamp (s : StateId) :
    (restamp σ a).removeState (restamp σ s) = restamp σ (a.removeState s) := by
  rw [removeState, removeState, checkState_restamp]
  refine restamp_bind _ fun _ => ?_
  simp only [start_restamp, restamp_inj, node?_restamp, into_restamp, List.any_map,
    Function.comp_def, Transition.source_restamp, eraseNode_restamp, ne_eq]
  split
  · rfl
  · cases a.node? s with
    | none => rfl
    | some n =>
        simp only [Option.map_some]
        split <;> rfl

@[simp] theorem addTransition_restamp (t : Transition) :
    (restamp σ a).addTransition (restamp σ t) = restamp σ (a.addTransition t) := by
  rw [addTransition, addTransition, Transition.id_restamp, Transition.source_restamp,
    Transition.target_restamp, checkTransition_restamp, checkState_restamp, checkState_restamp]
  refine restamp_bind _ fun _ => restamp_bind _ fun _ => restamp_bind _ fun _ => ?_
  rw [node?_restamp, node?_restamp]
  cases a.node? t.target with
  | none => rfl
  | some _ =>
      cases a.node? t.source with
      | none => rfl
      | some n =>
          simp only [Option.map_some, Node.out_restamp, List.any_map, Function.comp_def,
            Transition.id_restamp, restamp_inj]
          split
          · rfl
          · refine congrArg Except.ok (updateNode_restamp a t.source fun n => ?_)
            exact congrArg (Node.mk _) 
              (Ident.insertAt_restamp Transition.id (fun _ => rfl) t n.out)

@[simp] theorem removeTransition_restamp (s : StateId) (t : TransitionId) :
    (restamp σ a).removeTransition (restamp σ s) (restamp σ t) =
      restamp σ (a.removeTransition s t) := by
  rw [removeTransition, removeTransition, checkTransition_restamp, checkState_restamp]
  refine restamp_bind _ fun _ => restamp_bind _ fun _ => ?_
  simp only [out_restamp, List.find?_map, Function.comp_def, Transition.id_restamp, restamp_inj]
  cases (a.out s).find? fun u => decide (u.id = t) with
  | none => rfl
  | some u =>
      refine congrArg (fun b => Except.ok (restamp σ u, b)) (updateNode_restamp a s fun n => ?_)
      refine congrArg (Node.mk _) ?_
      simp [List.filter_map, Function.comp_def]

@[simp] theorem setAccepting_restamp (s : StateId) (accepting : Bool) :
    (restamp σ a).setAccepting (restamp σ s) accepting =
      restamp σ (a.setAccepting s accepting) := by
  rw [setAccepting, setAccepting, checkState_restamp, node?_restamp]
  refine restamp_bind _ fun _ => ?_
  cases a.node? s with
  | none => rfl
  | some n =>
      exact congrArg (fun b => Except.ok (n.state.accepting, b))
        (updateNode_restamp a s fun _ => rfl)

/-! ## Searching -/

variable {p q : Transition → Bool}

section Following

variable (hp : ∀ t, q (restamp σ t) = p t)

include hp

theorem stepTargets_restamp (sources : List StateId) :
    (restamp σ a).stepTargets q (sources.map (restamp σ)) =
      (a.stepTargets p sources).map (restamp σ) := by
  simp [stepTargets, List.flatMap_map, List.map_flatMap, List.filter_map, Function.comp_def,
    hp]

theorem reachLayers_restamp (layers : Nat) (seen last : StateSet) :
    (restamp σ a).reachLayers q layers (seen.map (restamp σ)) (last.map (restamp σ)) =
      (a.reachLayers p layers seen last).map (restamp σ) := by
  induction layers generalizing seen last with
  | zero => rfl
  | succ layers ih =>
      simp only [reachLayers, stepTargets_restamp a hp, List.filter_map, Function.comp_def,
        mem_map_restamp, StateSet.ofList_restamp, List.isEmpty_map, StateSet.union_restamp, ih]
      split <;> rfl

theorem reachFrom_restamp (set : StateSet) :
    (restamp σ a).reachFrom q (set.map (restamp σ)) =
      (a.reachFrom p set).map (restamp σ) := by
  rw [reachFrom, reachFrom, nodes_restamp, List.length_map, reachLayers_restamp a hp]

theorem reachable_restamp (s : StateId) :
    (restamp σ a).reachable q (restamp σ s) = restamp σ (a.reachable p s) := by
  rw [reachable, reachable, node_restamp]
  exact restamp_bind _ fun _ => congrArg Except.ok (reachFrom_restamp a hp [s])

end Following

@[simp] theorem closure_restamp (set : StateSet) :
    (restamp σ a).closure (set.map (restamp σ)) = (a.closure set).map (restamp σ) :=
  reachFrom_restamp a isEpsilon_restamp set

@[simp] theorem epsilonClosure_restamp (s : StateId) :
    (restamp σ a).epsilonClosure (restamp σ s) = restamp σ (a.epsilonClosure s) :=
  reachable_restamp a isEpsilon_restamp s

@[simp] theorem reachableStates_restamp :
    (restamp σ a).reachableStates = a.reachableStates.map (restamp σ) :=
  reachFrom_restamp a (fun _ => rfl) [a.start]

@[simp] theorem unreachableStates_restamp :
    (restamp σ a).unreachableStates = a.unreachableStates.map (restamp σ) := by
  simp only [unreachableStates, stateIds_restamp, reachableStates_restamp, List.filter_map,
    Function.comp_def, mem_map_restamp]

/-! ## Words -/

theorem readSymbol_restamp (current : StateSet) (c : Char) :
    (restamp σ a).readSymbol (current.map (restamp σ)) c =
      (a.readSymbol current c).map (restamp σ) := by
  rw [readSymbol, stepTargets_restamp a (p := readsSymbol c) fun _ => rfl,
    StateSet.ofList_restamp, closure_restamp, readSymbol]

theorem readWord_restamp (word : List Char) :
    (restamp σ a).readWord word = (a.readWord word).map (restamp σ) := by
  have hfold : ∀ set : StateSet, word.foldl (restamp σ a).readSymbol (set.map (restamp σ)) =
      (word.foldl a.readSymbol set).map (restamp σ) := by
    induction word with
    | nil => exact fun _ => rfl
    | cons c word ih =>
        intro set
        rw [List.foldl_cons, List.foldl_cons, readSymbol_restamp, ih]
  have hstart : (restamp σ a).closure [(restamp σ a).start] =
      (a.closure [a.start]).map (restamp σ) := closure_restamp a [a.start]
  rw [readWord, hstart, hfold, readWord]

@[simp] theorem accepts_restamp (word : String) :
    (restamp σ a).accepts word = restamp σ (a.accepts word) := by
  simp only [accepts, transitions_restamp, List.find?_map, Function.comp_def,
    Transition.label_restamp, readWord_restamp, List.any_map, accepting_restamp]
  cases a.transitions.find? fun t => !t.label.isSymbol <;> rfl

/-! ## Texts -/

@[simp] theorem print_restamp : (restamp σ a).print = a.print := by
  have hnode : ∀ n : Node, (restamp σ n).print = n.print := fun n => by
    simp only [Node.print, Node.out_restamp, List.map_map]
    rfl
  simp only [print, nodes_restamp, List.map_map, Function.comp_def, hnode]
  rfl

end Automaton

end RegularForms
