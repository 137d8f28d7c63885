/-!
# Identifiers of states and transitions

Every automaton has an owner stamp of its own, and the identifier of a state or
transition carries the stamp of the automaton that handed it out. An identifier of
another automaton is therefore never mistaken for one's own, even when the indexes
agree. Identifiers are ordered by stamp, then by index; `insertAt` keeps a list of
things sorted by the identifiers they carry.
-/

namespace RegularForms

inductive Kind where
  | state
  | transition

/-- An identifier: the stamp of the automaton that handed it out, and its number
there. -/
structure Ident (kind : Kind) where
  owner : Nat
  index : Nat
  deriving DecidableEq

abbrev StateId := Ident .state

abbrev TransitionId := Ident .transition

namespace Ident

variable {kind : Kind}

instance : LawfulBEq (Ident kind) := inferInstance

/-- Compares identifiers by owner, then by index. -/
def order (i j : Ident kind) : Ordering :=
  (compare i.owner j.owner).then (compare i.index j.index)

def before (i j : Ident kind) : Bool :=
  i.owner < j.owner || (i.owner == j.owner && i.index < j.index)

instance : ToString (Ident kind) := ⟨fun i => toString i.index⟩

theorem before_iff {i j : Ident kind} :
    i.before j = true ↔ i.owner < j.owner ∨ i.owner = j.owner ∧ i.index < j.index := by
  simp [before]

theorem order_eq_iff {i j : Ident kind} : order i j = .eq ↔ i = j := by
  cases i; cases j
  simp [order, Ordering.then_eq_eq]

@[simp] theorem not_before_self (i : Ident kind) : i.before i = false := by
  simp [before]

theorem before_trans {i j k : Ident kind} (hij : i.before j = true)
    (hjk : j.before k = true) : i.before k = true := by
  rw [before_iff] at hij hjk ⊢
  omega

/-- Of two different identifiers one comes before the other. -/
theorem before_or_before {i j : Ident kind} (h : i ≠ j) :
    i.before j = true ∨ j.before i = true := by
  obtain ⟨a, m⟩ := i
  obtain ⟨b, n⟩ := j
  simp only [ne_eq, mk.injEq] at h
  simp only [before_iff]
  omega

/-- Places something among things sorted by identifier, before the first with a
greater one. -/
def insertAt {α : Type} (key : α → Ident kind) (x : α) : List α → List α
  | [] => [x]
  | y :: ys => if (key x).before (key y) then x :: y :: ys else y :: insertAt key x ys

/-- Things in the order of their identifiers; things with one identifier keep their
order. -/
def sort {α : Type} (key : α → Ident kind) (xs : List α) : List α :=
  xs.foldl (fun sorted x => insertAt key x sorted) []

theorem mem_insertAt {α : Type} {key : α → Ident kind} {x y : α} {xs : List α} :
    y ∈ insertAt key x xs ↔ y = x ∨ y ∈ xs := by
  induction xs with
  | nil => simp [insertAt]
  | cons z zs ih =>
      simp only [insertAt]
      split
      · simp
      · simp only [List.mem_cons, ih]
        exact or_left_comm

theorem mem_foldl_insertAt {α : Type} {key : α → Ident kind} {x : α} {xs sorted : List α} :
    x ∈ xs.foldl (fun sorted x => insertAt key x sorted) sorted ↔ x ∈ xs ∨ x ∈ sorted := by
  induction xs generalizing sorted with
  | nil => simp
  | cons y ys ih =>
      simp only [List.foldl_cons, ih, mem_insertAt, List.mem_cons]
      exact ⟨fun h => h.elim (fun h => .inl (.inr h)) (·.elim (fun h => .inl (.inl h)) .inr),
        fun h => h.elim (·.elim (fun h => .inr (.inl h)) .inl) (fun h => .inr (.inr h))⟩

@[simp] theorem mem_sort {α : Type} {key : α → Ident kind} {x : α} {xs : List α} :
    x ∈ sort key xs ↔ x ∈ xs := by
  simp [sort, mem_foldl_insertAt]

/-- Things in strictly ascending order of their identifiers. -/
def Ascending {α : Type} (key : α → Ident kind) (xs : List α) : Prop :=
  xs.Pairwise fun x y => (key x).before (key y) = true

theorem Ascending.insertAt {α : Type} {key : α → Ident kind} {x : α} {xs : List α}
    (h : Ascending key xs) (hx : ∀ y ∈ xs, key y ≠ key x) :
    Ascending key (insertAt key x xs) := by
  induction xs with
  | nil => simp [Ident.insertAt, Ascending]
  | cons y ys ih =>
      obtain ⟨hy, hys⟩ := List.pairwise_cons.1 h
      simp only [Ident.insertAt]
      split
      · next hxy =>
          refine List.pairwise_cons.2 ⟨fun z hz => ?_, h⟩
          rcases List.mem_cons.1 hz with rfl | hz
          · exact hxy
          · exact before_trans hxy (hy z hz)
      · next hxy =>
          have hyx : (key y).before (key x) = true :=
            (before_or_before (hx y (by simp))).resolve_right hxy
          refine List.pairwise_cons.2 ⟨fun z hz => ?_, ih hys fun z hz => hx z (by simp [hz])⟩
          rcases mem_insertAt.1 hz with rfl | hz
          · exact hyx
          · exact hy z hz

/-- Lists that are sorted by identifiers are equal when they have the same members. -/
theorem Ascending.eq_of_mem_iff {α : Type} {key : α → Ident kind} {xs ys : List α}
    (h : Ascending key xs) (h' : Ascending key ys) (hmem : ∀ x, x ∈ xs ↔ x ∈ ys) : xs = ys := by
  induction xs generalizing ys with
  | nil =>
      cases ys with
      | nil => rfl
      | cons y ys => exact absurd ((hmem y).2 (by simp)) (by simp)
  | cons x xs ih =>
      cases ys with
      | nil => exact absurd ((hmem x).1 (by simp)) (by simp)
      | cons y ys =>
          obtain ⟨hx, hxs⟩ := List.pairwise_cons.1 h
          obtain ⟨hy, hys⟩ := List.pairwise_cons.1 h'
          have hxy : x = y := by
            rcases List.mem_cons.1 ((hmem x).1 (by simp)) with hxy | hxy
            · exact hxy
            · rcases List.mem_cons.1 ((hmem y).2 (by simp)) with hyx | hyx
              · exact hyx.symm
              · have hloop := before_trans (hx y hyx) (hy x hxy)
                simp at hloop
          subst hxy
          refine congrArg (x :: ·) (ih hxs hys fun z => ⟨fun hz => ?_, fun hz => ?_⟩)
          · rcases List.mem_cons.1 ((hmem z).1 (by simp [hz])) with rfl | hz'
            · exact absurd (hx z hz) (by simp)
            · exact hz'
          · rcases List.mem_cons.1 ((hmem z).2 (by simp [hz])) with rfl | hz'
            · exact absurd (hy z hz) (by simp)
            · exact hz'

end Ident

end RegularForms
