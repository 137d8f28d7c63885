import Mathlib.Data.List.Sort
import RegularForms.Proofs.Automaton.Arc
import RegularForms.Proofs.Expr.Normal
import RegularForms.Proofs.Expr.Shortest

/-!
# Leaving out repetitions by a linear order

The order of expressions is linear: an operator decides by its rank, then symbols decide by their
code points and operands lexicographically, and only the same tree compares as equal. This is all
that two ways of leaving out repetitions rely on.

A set that is searched by the order tells whether an expression has been seen before. With such
a set just the first occurrence of each operand of a choice is kept. And what is sorted by the
order has equal things side by side, so that comparing neighbours is enough to keep one
transition for each label and end.
-/

namespace RegularForms

structure Linear {α : Type} (cmp : α → α → Ordering) : Prop where
  eq_iff (x y : α) : cmp x y = .eq ↔ x = y
  swap (x y : α) : (cmp x y).swap = cmp y x
  trans (x y z : α) : (cmp x y).isLE = true → (cmp y z).isLE = true → (cmp x z).isLE = true
  total (x y : α) : (cmp x y).isLE = true ∨ (cmp y x).isLE = true

/-! ## First occurrences -/

section FirstOccurrences

variable {α : Type} [DecidableEq α]

/-- The members of a list that stand where they occur first, in order. -/
def firstOccurrences (xs : List α) : List α :=
  (xs.zipIdx.filter fun p => xs.idxOf p.1 = p.2).map Prod.fst

theorem firstOccurrences_cons (x : α) (xs : List α) :
    firstOccurrences (x :: xs) = x :: (firstOccurrences xs).filter (· ≠ x) := by
  have hnext : ∀ p : α × Nat, decide ((x :: xs).idxOf p.1 = p.2 + 1) =
      (decide (p.1 ≠ x) && decide (xs.idxOf p.1 = p.2)) := by
    intro p
    by_cases h : p.1 = x
    · simp [h]
    · simp [h, List.idxOf_cons_ne xs (Ne.symm h)]
  rw [firstOccurrences, List.zipIdx_cons, List.filter_cons_of_pos (by simp), List.map_cons,
    List.zipIdx_succ, List.filter_map, List.map_map, firstOccurrences, List.filter_map,
    List.filter_filter]
  exact congrArg (fun q => x :: (xs.zipIdx.filter q).map Prod.fst) (funext hnext)

theorem distinct_eq_firstOccurrences (xs : List α) : distinct xs = firstOccurrences xs := by
  induction xs with
  | nil => rfl
  | cons x xs ih => rw [distinct, ih, firstOccurrences_cons]

end FirstOccurrences

namespace Expr

variable {es : List Expr}

theorem linear_order : Linear order where
  eq_iff _ _ := order_eq_iff
  swap := swap_order
  trans _ _ _ := isLE_order_trans
  total := isLE_order_or

/-- Drops what has been seen. A set of expressions is searched by their order. -/
def keepUnseen (seen : Std.TreeSet Expr order) : List Expr → List Expr
  | [] => []
  | e :: es =>
    if seen.contains e then keepUnseen seen es else e :: keepUnseen (seen.insert e) es

/-- What is kept are the first occurrences among what was not seen at the outset. -/
theorem keepUnseen_eq (seen : Std.TreeSet Expr order) (es : List Expr) :
    keepUnseen seen es = (distinct es).filter fun e => !seen.contains e := by
  induction es generalizing seen with
  | nil => rfl
  | cons e es ih =>
      rw [keepUnseen, distinct]
      cases hseen : seen.contains e with
      | true =>
          rw [if_pos rfl, ih, List.filter_cons_of_neg (by simp [hseen]), List.filter_filter]
          refine List.filter_congr fun d _ => ?_
          by_cases hd : d = e
          · simp [hd, hseen]
          · simp [hd]
      | false =>
          rw [if_neg Bool.false_ne_true, ih, List.filter_cons_of_pos (by simp [hseen]),
            List.filter_filter]
          refine congrArg (e :: ·) (List.filter_congr fun d _ => ?_)
          have heq : (order e d == .eq) = decide (e = d) := by
            rw [Bool.eq_iff_iff, beq_iff_eq, decide_eq_true_eq, order_eq_iff]
          rw [Std.TreeSet.contains_insert, heq]
          simp [eq_comm, Bool.and_comm]

theorem keepUnseen_empty (es : List Expr) : keepUnseen ∅ es = firstOccurrences es := by
  rw [keepUnseen_eq, ← distinct_eq_firstOccurrences, List.filter_eq_self]
  exact fun e _ => by rw [Std.TreeSet.contains_emptyc]; rfl

/-- The alternatives of well-formed expressions stay apart in their choice. -/
theorem parts_choiceOf (h : ∀ e ∈ es, e.WellFormed) :
    parts .choice (choiceOf es) = firstOccurrences (es.flatMap (parts .choice)) := by
  have hflat : ∀ d ∈ distinct (es.flatMap (parts .choice)),
      d.WellFormed ∧ d.operator ≠ .choice := by
    intro d hd
    obtain ⟨e, he, hde⟩ := List.mem_flatMap.1 (mem_distinct.1 hd)
    exact (h e he).of_mem_parts hde
  rw [choiceOf, parts_join .choice fun d hd => (hflat d hd).1,
    flatMap_parts_of_ne .choice fun d hd => (hflat d hd).2, distinct_eq_firstOccurrences]

end Expr

namespace Transition

variable {ts : List Transition}

instance : Std.TransCmp orderBySource :=
  have := transCmp_comap Ident.order source
  have := transCmp_comap Expr.order label
  inferInstanceAs (Std.TransCmp (compareLex
    (fun t u : Transition => Ident.order t.source u.source)
    fun t u : Transition => Expr.order t.label u.label))

/-- Whether two transitions have one label and one end in common, by equality alone. -/
def sameArc (stop : Transition → StateId) (t u : Transition) : Bool :=
  stop t == stop u && t.label = u.label

/-- For each label and end that occurs just one transition is kept, a preferred one where there
is one. -/
structure KeepsOne (stop : Transition → StateId) (preferred : Transition → Bool)
    (ts kept : List Transition) : Prop where
  subset : ∀ t ∈ kept, t ∈ ts
  nodup : (kept.map fun t => (t.label, stop t)).Nodup
  occurs : ∀ t ∈ ts, ∃ u ∈ kept, u.label = t.label ∧ stop u = stop t
  prefers : ∀ u ∈ kept, ∀ t ∈ ts, u.label = t.label → stop u = stop t →
    preferred t = true → preferred u = true

section

variable {stop : Transition → StateId} {key : Transition → Transition → Ordering}
  {preferred : Transition → Bool}

/-- A key that tells apart just labels and ends keeps one transition for each. -/
theorem keepsOne_onePerArc [Std.TransCmp key]
    (hkey : ∀ {t u}, key t u = .eq ↔ stop t = stop u ∧ t.label = u.label) :
    KeepsOne stop preferred ts (onePerArc key preferred ts) where
  subset _ := mem_of_mem_onePerArc
  nodup := by
    refine List.pairwise_map.2 ((pairwise_onePerArc preferred ts).imp fun {t u} hne heq => ?_)
    obtain ⟨hlabel, hstop⟩ := Prod.mk.inj heq
    rw [hkey.2 ⟨hstop, hlabel⟩] at hne
    nomatch hne
  occurs t ht := by
    obtain ⟨u, hu, heq⟩ : ∃ u ∈ onePerArc key preferred ts, key u t = .eq :=
      exists_mem_onePerArc (fun _ => Std.ReflCmp.compare_self) ht
    obtain ⟨hstop, hlabel⟩ := hkey.1 heq
    exact ⟨u, hu, hlabel, hstop⟩
  prefers u hu t ht hlabel hstop :=
    preferred_of_mem_onePerArc hu (hkey.2 ⟨hstop, hlabel⟩) ht

/-- For such a key runs of equal neighbours are runs of one label and end. -/
theorem onePerArc_eq_firstOfRuns
    (hkey : ∀ {t u}, key t u = .eq ↔ stop t = stop u ∧ t.label = u.label) :
    onePerArc key preferred ts =
      firstOfRuns (sameArc stop) (ts.mergeSort (notAfter key preferred)) := by
  have hagree : (fun t u => (key t u).isEq) = sameArc stop := by
    funext t u
    rw [Bool.eq_iff_iff, Ordering.isEq_iff_eq_eq, hkey, sameArc]
    simp
  rw [onePerArc, hagree]

end

end Transition

open RegularForms.Expr Transition

/-- Expressions are ordered linearly, by their operators, then by their symbols or operands. So
the choice between expressions, each dropped that a set has seen before, offers the first
occurrences of what they offer, and nothing more is dropped when they are well formed. And of
transitions sorted by one end and the label, and then compared with their neighbours only, just
one is kept for each end and label that occurs. -/
theorem linear_order_and_keepsOne :
    (Linear order ∧ ∀ e f, order e f = (compare e.operator.rank f.operator.rank).then
      ((compare (e.symbol?.map Char.toNat) (f.symbol?.map Char.toNat)).then
        (List.compareLex order e.operands f.operands))) ∧
    (∀ es, choiceOf es = join .choice (keepUnseen ∅ (es.flatMap (parts .choice))) ∧
      keepUnseen ∅ (es.flatMap (parts .choice)) = firstOccurrences (es.flatMap (parts .choice)) ∧
      ((∀ e ∈ es, e.WellFormed) →
        parts .choice (choiceOf es) = firstOccurrences (es.flatMap (parts .choice)))) ∧
    ∀ preferred ts,
      (onePerArc orderByTarget preferred ts =
          firstOfRuns (sameArc target) (ts.mergeSort (notAfter orderByTarget preferred)) ∧
        KeepsOne target preferred ts (onePerArc orderByTarget preferred ts)) ∧
      onePerArc orderBySource preferred ts =
          firstOfRuns (sameArc source) (ts.mergeSort (notAfter orderBySource preferred)) ∧
        KeepsOne source preferred ts (onePerArc orderBySource preferred ts) := by
  refine ⟨⟨linear_order, order_eq_then⟩, fun es => ?_, fun preferred ts => ?_⟩
  · refine ⟨?_, keepUnseen_empty _, parts_choiceOf⟩
    rw [keepUnseen_empty, ← distinct_eq_firstOccurrences, choiceOf]
  · have htarget := @orderByTarget_eq_iff
    have hsource := @orderBySource_eq_iff
    exact ⟨⟨onePerArc_eq_firstOfRuns htarget, keepsOne_onePerArc htarget⟩,
      onePerArc_eq_firstOfRuns hsource, keepsOne_onePerArc hsource⟩

/-- Of a choice in a choice each alternative is offered once. Of two transitions with one target
and label just the one that leaves the preferred state is kept. -/
theorem linear_order_and_keepsOne_two :
    (∀ e ∈ [alt [sym 'a', star (sym 'b')], sym 'c', sym 'a'], e.WellFormed) ∧
      parts .choice (choiceOf [alt [sym 'a', star (sym 'b')], sym 'c', sym 'a']) =
        [sym 'a', star (sym 'b'), sym 'c'] ∧
      KeepsOne target (fun t => t.source == ⟨0, 1⟩)
        [⟨⟨0, 0⟩, ⟨0, 0⟩, ⟨0, 2⟩, sym 'a'⟩, ⟨⟨0, 1⟩, ⟨0, 1⟩, ⟨0, 2⟩, sym 'a'⟩]
        [⟨⟨0, 1⟩, ⟨0, 1⟩, ⟨0, 2⟩, sym 'a'⟩] := by
  obtain ⟨-, hchoice, hkeep⟩ := linear_order_and_keepsOne
  have hwf : ∀ e ∈ [alt [sym 'a', star (sym 'b')], sym 'c', sym 'a'], e.WellFormed := by decide
  have hkept : onePerArc orderByTarget (fun t => t.source == ⟨0, 1⟩)
      [⟨⟨0, 0⟩, ⟨0, 0⟩, ⟨0, 2⟩, sym 'a'⟩, ⟨⟨0, 1⟩, ⟨0, 1⟩, ⟨0, 2⟩, sym 'a'⟩] =
      [⟨⟨0, 1⟩, ⟨0, 1⟩, ⟨0, 2⟩, sym 'a'⟩] := by
    simp only [onePerArc, List.mergeSort, List.MergeSort.Internal.splitInTwo, List.splitAt,
      List.splitAt.go, List.length, List.reverse, List.reverseAux, List.merge]
    decide
  refine ⟨hwf, ((hchoice _).2.2 hwf).trans (by decide), ?_⟩
  exact Eq.subst (motive := KeepsOne _ _ _) hkept (hkeep _ _).1.2

end RegularForms
