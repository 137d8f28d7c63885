/-!
# Leaving out repetitions

`distinct` keeps the first of equal members of a list. `firstOfRuns` keeps the first
member of each run, a run being a stretch of neighbours that agree with the first of
them: after sorting by a key the members with one key form a run, so this keeps one
member for each key.
-/

namespace RegularForms

variable {α : Type}

/-! ## Equal members -/

/-- The list with only the first of equal members kept. -/
def distinct [DecidableEq α] : List α → List α
  | [] => []
  | x :: xs => x :: (distinct xs).filter (· ≠ x)

@[simp] theorem distinct_nil [DecidableEq α] : distinct ([] : List α) = [] := rfl

theorem distinct_sublist [DecidableEq α] (xs : List α) : (distinct xs).Sublist xs := by
  induction xs with
  | nil => exact .slnil
  | cons x xs ih => exact (List.filter_sublist.trans ih).cons_cons x

theorem mem_distinct [DecidableEq α] {x : α} {xs : List α} :
    x ∈ distinct xs ↔ x ∈ xs := by
  induction xs with
  | nil => rfl
  | cons y ys ih => by_cases h : x = y <;> simp [distinct, ih, h]

theorem nodup_distinct [DecidableEq α] (xs : List α) : (distinct xs).Nodup := by
  induction xs with
  | nil => exact List.nodup_nil
  | cons x xs ih =>
      rw [distinct, List.nodup_cons]
      exact ⟨by simp, List.Pairwise.filter _ ih⟩

theorem filter_distinct [DecidableEq α] (p : α → Bool) (xs : List α) :
    (distinct xs).filter p = distinct (xs.filter p) := by
  induction xs with
  | nil => rfl
  | cons x xs ih =>
      by_cases hx : p x = true
      · rw [List.filter_cons_of_pos hx, distinct, distinct, List.filter_cons_of_pos hx, ← ih,
          List.filter_filter, List.filter_filter]
        simp only [Bool.and_comm]
      · rw [List.filter_cons_of_neg hx, distinct, List.filter_cons_of_neg hx, ← ih,
          List.filter_filter]
        refine List.filter_congr fun y _ => ?_
        cases hy : p y with
        | false => rfl
        | true =>
            have hne : y ≠ x := by
              rintro rfl
              exact hx hy
            simp [hne]

theorem distinct_map {β : Type} [DecidableEq α] [DecidableEq β] {f : α → β}
    (hf : ∀ x y, f x = f y → x = y) (xs : List α) :
    distinct (xs.map f) = (distinct xs).map f := by
  induction xs with
  | nil => rfl
  | cons x xs ih =>
      have hne : ∀ y, decide (f y ≠ f x) = decide (y ≠ x) := fun y =>
        decide_eq_decide.2 (not_congr ⟨hf y x, congrArg f⟩)
      rw [List.map_cons, distinct, distinct, ih, List.filter_map, List.map_cons]
      exact congrArg (fun p => f x :: ((distinct xs).filter p).map f) (funext hne)

/-! ## Runs -/

def firstsFrom (agree : α → α → Bool) : α → List α → List α
  | x, [] => [x]
  | x, y :: ys => if agree x y then firstsFrom agree x ys else x :: firstsFrom agree y ys

def firstOfRuns (agree : α → α → Bool) : List α → List α
  | [] => []
  | x :: xs => firstsFrom agree x xs

@[simp] theorem firstOfRuns_nil (agree : α → α → Bool) : firstOfRuns agree [] = [] := rfl

theorem firstsFrom_sublist (agree : α → α → Bool) (x : α) (xs : List α) :
    (firstsFrom agree x xs).Sublist (x :: xs) := by
  induction xs generalizing x with
  | nil => exact List.Sublist.refl _
  | cons y ys ih =>
      simp only [firstsFrom]
      split
      · exact (ih x).trans ((List.sublist_cons_self y ys).cons_cons x)
      · exact (ih y).cons_cons x

theorem firstOfRuns_sublist (agree : α → α → Bool) (xs : List α) :
    (firstOfRuns agree xs).Sublist xs := by
  cases xs with
  | nil => exact List.Sublist.refl _
  | cons x xs => exact firstsFrom_sublist agree x xs

theorem firstOfRuns_map {β : Type} {agree : α → α → Bool} {agree' : β → β → Bool} {f : α → β}
    (hf : ∀ x y, agree' (f x) (f y) = agree x y) (xs : List α) :
    firstOfRuns agree' (xs.map f) = (firstOfRuns agree xs).map f := by
  have hfrom : ∀ x, firstsFrom agree' (f x) (xs.tail.map f) =
      (firstsFrom agree x xs.tail).map f := by
    induction xs.tail with
    | nil => exact fun _ => rfl
    | cons y ys ih =>
        intro x
        rw [List.map_cons, firstsFrom, firstsFrom, hf, ih, ih]
        split <;> rfl
  cases xs with
  | nil => rfl
  | cons x xs => exact hfrom x

/-- The first member of a list begins a run. -/
theorem mem_firstsFrom_self (agree : α → α → Bool) (x : α) (xs : List α) :
    x ∈ firstsFrom agree x xs := by
  induction xs with
  | nil => simp [firstsFrom]
  | cons y ys ih => simp only [firstsFrom]; split <;> simp [ih]

/-- Everything in a list agrees with the first member of its run, and is that member or
comes after it. -/
theorem exists_mem_firstsFrom {agree : α → α → Bool} (refl : ∀ x, agree x x = true)
    {x y : α} {xs : List α} (h : y ∈ x :: xs) :
    ∃ z ∈ firstsFrom agree x xs, agree z y = true ∧ (z = y ∨ [z, y].Sublist (x :: xs)) := by
  induction xs generalizing x with
  | nil =>
      obtain rfl : y = x := by simpa using h
      exact ⟨y, mem_firstsFrom_self agree y [], refl y, .inl rfl⟩
  | cons w ws ih =>
      rcases List.mem_cons.1 h with rfl | h
      · exact ⟨y, mem_firstsFrom_self agree y _, refl y, .inl rfl⟩
      · simp only [firstsFrom]
        split
        · next hw =>
            rcases List.mem_cons.1 h with rfl | h
            · exact ⟨x, mem_firstsFrom_self agree x ws, hw,
                .inr ((List.nil_sublist ws).cons_cons y |>.cons_cons x)⟩
            · obtain ⟨z, hz, hzy, hbefore⟩ := ih (List.mem_cons_of_mem x h)
              refine ⟨z, hz, hzy, hbefore.imp_right fun hbefore => hbefore.trans ?_⟩
              exact (List.sublist_cons_self w ws).cons_cons x
        · obtain ⟨z, hz, hzy, hbefore⟩ := ih h
          exact ⟨z, List.mem_cons_of_mem x hz, hzy, hbefore.imp_right fun h => h.cons x⟩

theorem exists_mem_firstOfRuns {agree : α → α → Bool} (refl : ∀ x, agree x x = true)
    {y : α} {xs : List α} (h : y ∈ xs) :
    ∃ z ∈ firstOfRuns agree xs, agree z y = true ∧ (z = y ∨ [z, y].Sublist xs) := by
  cases xs with
  | nil => nomatch h
  | cons x xs => exact exists_mem_firstsFrom refl h

/-- In a list in which nothing comes between two members that agree but what agrees with
them, no two members that are kept agree. -/
theorem pairwise_firstsFrom {agree : α → α → Bool} {le : α → α → Prop}
    (hbetween : ∀ x y z, le x y → le y z → agree x z = true → agree x y = true) {x : α}
    {xs : List α} (h : (x :: xs).Pairwise le) :
    (firstsFrom agree x xs).Pairwise fun y z => agree y z = false := by
  induction xs generalizing x with
  | nil => exact List.pairwise_singleton _ x
  | cons y ys ih =>
      obtain ⟨hx, hxs⟩ := List.pairwise_cons.1 h
      simp only [firstsFrom]
      split
      · exact ih (h.sublist ((List.sublist_cons_self y ys).cons_cons x))
      · next hxy =>
          refine List.pairwise_cons.2 ⟨fun z hz => Bool.eq_false_iff.2 fun hxz => hxy ?_, ih hxs⟩
          rcases List.mem_cons.1 ((firstsFrom_sublist agree y ys).subset hz) with rfl | hz
          · exact hxz
          · exact hbetween x y z (hx y (by simp)) ((List.pairwise_cons.1 hxs).1 z hz) hxz

theorem pairwise_firstOfRuns {agree : α → α → Bool} {le : α → α → Prop}
    (hbetween : ∀ x y z, le x y → le y z → agree x z = true → agree x y = true) {xs : List α}
    (h : xs.Pairwise le) : (firstOfRuns agree xs).Pairwise fun y z => agree y z = false := by
  cases xs with
  | nil => exact .nil
  | cons x xs => exact pairwise_firstsFrom hbetween h

end RegularForms
