import RegularForms.Automaton.Ident

/-!
# Sets of states

A set of states is kept as the list of its members in ascending order, so that equal
sets are equal lists.
-/

namespace RegularForms

/-- A set of states, as the ascending list of its members. -/
abbrev StateSet := List StateId

namespace StateSet

def insert (set : StateSet) (s : StateId) : StateSet :=
  if s ∈ set then set else Ident.insertAt id s set

def ofList (ss : List StateId) : StateSet := ss.foldl insert []

def union (set other : StateSet) : StateSet := other.foldl insert set

theorem mem_insert {set : StateSet} {s t : StateId} :
    t ∈ set.insert s ↔ t = s ∨ t ∈ set := by
  unfold insert
  split
  · next h => exact ⟨.inr, fun ht => ht.elim (· ▸ h) id⟩
  · exact Ident.mem_insertAt

theorem mem_union {set other : StateSet} {s : StateId} :
    s ∈ set.union other ↔ s ∈ set ∨ s ∈ other := by
  unfold union
  induction other generalizing set with
  | nil => simp
  | cons t ts ih =>
      rw [List.foldl_cons, ih, mem_insert, List.mem_cons]
      exact ⟨fun h => h.elim (·.elim (fun h => .inr (.inl h)) .inl) (fun h => .inr (.inr h)),
        fun h => h.elim (fun h => .inl (.inr h)) (·.elim (fun h => .inl (.inl h)) .inr)⟩

@[simp] theorem mem_ofList {ss : List StateId} {s : StateId} :
    s ∈ ofList ss ↔ s ∈ ss := by
  have h : ofList ss = union [] ss := rfl
  rw [h, mem_union]
  simp

theorem ascending_insert {set : StateSet} (h : Ident.Ascending id set) (s : StateId) :
    Ident.Ascending id (set.insert s) := by
  unfold insert
  split
  · exact h
  · next hs => exact h.insertAt fun t ht (heq : t = s) => hs (heq ▸ ht)

theorem ascending_union {set : StateSet} (h : Ident.Ascending id set) (other : StateSet) :
    Ident.Ascending id (set.union other) := by
  unfold union
  induction other generalizing set with
  | nil => exact h
  | cons t ts ih => exact ih (ascending_insert h t)

theorem ascending_ofList (ss : List StateId) : Ident.Ascending id (ofList ss) :=
  ascending_union List.Pairwise.nil ss

/-- Ascending lists with the same members are equal. -/
theorem eq_of_mem_iff {set other : StateSet} (h : Ident.Ascending id set)
    (h' : Ident.Ascending id other) (hmem : ∀ s, s ∈ set ↔ s ∈ other) : set = other :=
  h.eq_of_mem_iff h' hmem

end StateSet

end RegularForms
