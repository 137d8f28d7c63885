import RegularForms.Determinization.Subset
import RegularForms.Proofs.Edit.Batch

/-!
# Tables of states that stand for sets

In a sound table different states stand for different sets of states of the graph that the
table was begun for, and none of them is a state of that graph. A state that stands for a
set counts as the members of the set, a state of the graph as itself. Assigning a state to
a set keeps a table sound, and every state that was bound before keeps its set.
-/

namespace RegularForms

namespace SubsetTable

variable {table : SubsetTable} {a b : Automaton} {s p : StateId} {set : StateSet}

/-- The states with bindings were handed out by `b` and stand for different sets of states
of `a`. -/
structure Sound (table : SubsetTable) (a b : Automaton) : Prop where
  plain : ∀ x ∈ table.bindings, x.state.accepting = false
  issued : ∀ x ∈ table.bindings,
    x.state.id.owner = b.owner ∧ x.state.id.index < b.nextState
  state_notMem : ∀ x ∈ table.bindings, x.state.id ∉ a.stateIds
  set_ascending : ∀ x ∈ table.bindings, Ident.Ascending id x.set
  set_subset : ∀ x ∈ table.bindings, ∀ p ∈ x.set, p ∈ a.stateIds
  eq_of_state_eq : ∀ x ∈ table.bindings, ∀ y ∈ table.bindings, x.state.id = y.state.id → x = y
  eq_of_set_eq : ∀ x ∈ table.bindings, ∀ y ∈ table.bindings, x.set = y.set → x = y

theorem sound_empty : empty.Sound a b where
  plain _ h := nomatch h
  issued _ h := nomatch h
  state_notMem _ h := nomatch h
  set_ascending _ h := nomatch h
  set_subset _ h := nomatch h
  eq_of_state_eq _ h := nomatch h
  eq_of_set_eq _ h := nomatch h

/-- Only what has been handed out matters of the graph as it is now. -/
theorem Sound.congr {d : Automaton} (h : table.Sound a b) (howner : d.owner = b.owner)
    (hnext : d.nextState = b.nextState) : table.Sound a d :=
  { h with issued := fun x hx => by rw [howner, hnext]; exact h.issued x hx }

/-- Different bindings are to sets with different members. -/
theorem Sound.eq_of_mem_set_iff (h : table.Sound a b) {x y : Binding} (hx : x ∈ table.bindings)
    (hy : y ∈ table.bindings) (hmem : ∀ p, p ∈ x.set ↔ p ∈ y.set) : x = y :=
  h.eq_of_set_eq x hx y hy
    (StateSet.eq_of_mem_iff (h.set_ascending x hx) (h.set_ascending y hy) hmem)

/-- A state of the graph counts as itself. -/
theorem Sound.members_of_mem (h : table.Sound a b) (hs : s ∈ a.stateIds) :
    table.members s = [s] := by
  have hnone : table.bindings.find? (fun x => x.state.id == s) = none := by
    rw [List.find?_eq_none]
    intro x hx heq
    exact h.state_notMem x hx (beq_iff_eq.1 heq ▸ hs)
  rw [members, setOf?, hnone]
  rfl

/-- A state that stands for a set counts as the members of the set. -/
theorem Sound.members_of_bound (h : table.Sound a b) {x : Binding} (hx : x ∈ table.bindings) :
    table.members x.state.id = x.set := by
  cases hfind : table.bindings.find? (fun y => y.state.id == x.state.id) with
  | none =>
      have hno := List.find?_eq_none.1 hfind x hx
      exact absurd (beq_self_eq_true x.state.id) hno
  | some y =>
      have hid := List.find?_some hfind
      have hyx := h.eq_of_state_eq y (List.mem_of_find?_eq_some hfind) x hx (beq_iff_eq.1 hid)
      rw [members, setOf?, hfind, hyx]
      rfl

theorem mem_expand {ss : List StateId} :
    p ∈ table.expand ss ↔ ∃ s ∈ ss, p ∈ table.members s := by
  rw [expand, StateSet.mem_ofList, List.mem_flatMap]

theorem mem_bind {s : State} {x : Binding} :
    x ∈ (table.bind s set).bindings ↔
      x = ⟨s, set⟩ ∨ x ∈ table.bindings ∧ x.state.id ≠ s.id := by
  rw [bind, Ident.mem_insertAt, unbind, List.mem_filter, decide_eq_true_eq]

/-- Letting a state that has just been handed out stand for a set of its own. -/
theorem Sound.bind (h : table.Sound a b) (hb : b.Valid) (hsub : ∀ s ∈ a.stateIds, s ∈ b.stateIds)
    (hset : ∀ p ∈ set, p ∈ a.stateIds) (hascending : Ident.Ascending id set)
    (hnew : table.stateFor? set = none) (n : Nat) :
    (table.bind (b.freshState 0) set).Sound a (b.reserve 1 n) := by
  have hother : ∀ x ∈ table.bindings, x.set ≠ set := by
    intro x hx heq
    have hno := List.find?_eq_none.1 (Option.map_eq_none_iff.1 hnew) x hx
    exact hno (beq_iff_eq.2 heq)
  have hfresh : ∀ x ∈ table.bindings, x.state.id ≠ (b.freshState 0).id := by
    intro x hx heq
    have hlt := (h.issued x hx).2
    rw [heq] at hlt
    exact absurd hlt (Nat.lt_irrefl _)
  constructor
  · intro x hx
    rcases mem_bind.1 hx with rfl | ⟨hx, -⟩
    · rfl
    · exact h.plain x hx
  · intro x hx
    rcases mem_bind.1 hx with rfl | ⟨hx, -⟩
    · exact ⟨rfl, Nat.lt_succ_self _⟩
    · exact ⟨(h.issued x hx).1, Nat.lt_succ_of_lt (h.issued x hx).2⟩
  · intro x hx hmem
    rcases mem_bind.1 hx with rfl | ⟨hx, -⟩
    · exact hb.freshState_notMem 0 (hsub _ hmem)
    · exact h.state_notMem x hx hmem
  · intro x hx
    rcases mem_bind.1 hx with rfl | ⟨hx, -⟩
    · exact hascending
    · exact h.set_ascending x hx
  · intro x hx
    rcases mem_bind.1 hx with rfl | ⟨hx, -⟩
    · exact hset
    · exact h.set_subset x hx
  · intro x hx y hy heq
    rcases mem_bind.1 hx with rfl | ⟨hx, -⟩ <;> rcases mem_bind.1 hy with rfl | ⟨hy, -⟩
    · rfl
    · exact absurd heq.symm (hfresh y hy)
    · exact absurd heq (hfresh x hx)
    · exact h.eq_of_state_eq x hx y hy heq
  · intro x hx y hy heq
    rcases mem_bind.1 hx with rfl | ⟨hx, -⟩ <;> rcases mem_bind.1 hy with rfl | ⟨hy, -⟩
    · rfl
    · exact absurd heq.symm (hother y hy)
    · exact absurd heq (hother x hx)
    · exact h.eq_of_set_eq x hx y hy heq

/-- The state that stands for a set, the number of states handed out for it, and the table
with it. -/
def assign (table : SubsetTable) (set : StateSet) (b : Automaton) : State × Nat × SubsetTable :=
  match table.stateFor? set with
  | some state => (state, 0, table)
  | none => (b.freshState 0, 1, table.bind (b.freshState 0) set)

/-- No set is bound but the one that a state is assigned to. -/
theorem cases_of_mem_assign {target : State} {created : Nat} {table' : SubsetTable}
    (h : table.assign set b = (target, created, table')) {x : Binding} (hx : x ∈ table'.bindings) :
    x ∈ table.bindings ∨ x.set = set := by
  unfold assign at h
  cases hfor : table.stateFor? set with
  | some state =>
      rw [hfor] at h
      obtain ⟨rfl, rfl, rfl⟩ := h
      exact .inl hx
  | none =>
      rw [hfor] at h
      obtain ⟨rfl, rfl, rfl⟩ := h
      rcases mem_bind.1 hx with rfl | ⟨hx, -⟩
      · exact .inr rfl
      · exact .inl hx

/-- A set is assigned a state, and the bindings that there were stay. -/
theorem Sound.exists_assign (h : table.Sound a b) (hb : b.Valid)
    (hsub : ∀ s ∈ a.stateIds, s ∈ b.stateIds) (hset : ∀ p ∈ set, p ∈ a.stateIds)
    (hascending : Ident.Ascending id set) (n : Nat) :
    ∃ target created table', table.assign set b = (target, created, table') ∧
      table'.Sound a (b.reserve created n) ∧ ⟨target, set⟩ ∈ table'.bindings ∧
        ∀ x ∈ table.bindings, x ∈ table'.bindings := by
  unfold assign
  cases hfor : table.stateFor? set with
  | some state =>
      obtain ⟨x, hfind, rfl⟩ := Option.map_eq_some_iff.1 hfor
      have hx := List.mem_of_find?_eq_some hfind
      have hbeq := List.find?_some hfind
      have hxs : x.set = set := beq_iff_eq.1 hbeq
      exact ⟨x.state, 0, table, rfl, h.congr rfl rfl, hxs ▸ hx, fun y hy => hy⟩
  | none =>
      refine ⟨_, 1, _, rfl, h.bind hb hsub hset hascending hfor n, mem_bind.2 (.inl rfl),
        fun x hx => mem_bind.2 (.inr ⟨hx, fun heq => ?_⟩)⟩
      have hlt := (h.issued x hx).2
      rw [heq] at hlt
      exact absurd hlt (Nat.lt_irrefl _)

end SubsetTable

end RegularForms
