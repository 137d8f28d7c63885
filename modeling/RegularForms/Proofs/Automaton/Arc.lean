import Mathlib.Data.List.Pairwise
import RegularForms.Automaton.Arc
import RegularForms.Proofs.Expr.Order
import RegularForms.Proofs.Plan

/-!
# The arcs of a graph

Transitions with the same ends and the same label are interchangeable, so what a graph
accepts depends only on its arcs. When each arc of one graph is matched by an arc of
another one, the states of the first have no more words than the states that match them.
Sorting transitions by one end and the label, and keeping one of each run, keeps exactly
one for each end and label that occur, and a preferred one where there is one.
-/

namespace RegularForms

namespace Automaton

variable {a b : Automaton} {s r : StateId} {e : Expr}

def HasArc (a : Automaton) (s : StateId) (e : Expr) (r : StateId) : Prop :=
  ∃ t ∈ a.transitions, t.source = s ∧ t.label = e ∧ t.target = r

theorem hasArc_of_mem {t : Transition} (ht : t ∈ a.transitions) :
    a.HasArc t.source t.label t.target := ⟨t, ht, rfl, rfl, rfl⟩

theorem Valid.mem_of_hasArc (ha : a.Valid) (h : a.HasArc s e r) :
    s ∈ a.stateIds ∧ r ∈ a.stateIds := by
  obtain ⟨t, ht, rfl, rfl, rfl⟩ := h
  exact ⟨ha.source_mem ht, ha.target_mem t ht⟩

theorem HasArc.mul_languageFrom_le (h : a.HasArc s e r) :
    e.language * a.languageFrom r ≤ a.languageFrom s := by
  obtain ⟨t, ht, rfl, rfl, rfl⟩ := h
  exact label_mul_languageFrom_le ht

/-- When the arcs of one graph are matched by those of another one, the words of a state
are words of each state that matches it. -/
theorem languageFrom_le_of_matches {R : StateId → StateId → Prop}
    (hacc : ∀ s s', R s s' → a.accepting s = true → b.accepting s' = true)
    (harc : ∀ s s' e r, R s s' → a.HasArc s e r → ∃ r', R r r' ∧ b.HasArc s' e r')
    {s s' : StateId} (h : R s s') : a.languageFrom s ≤ b.languageFrom s' := by
  rintro w ⟨r, hpath, hr⟩
  induction hpath generalizing s' with
  | nil s => exact nil_mem_languageFrom (hacc s s' h hr)
  | cons ht hu _ ih =>
      obtain ⟨q, hq, hmatch⟩ := harc _ s' _ _ h (hasArc_of_mem ht)
      exact hmatch.mul_languageFrom_le (Language.append_mem_mul hu (ih hq hr))

theorem Rewired.hasArc_iff {gone : Transition → Prop}
    {arcs : List (StateId × StateId × Expr)} (h : Rewired a b gone arcs) :
    b.HasArc s e r ↔
      (∃ t ∈ a.transitions, ¬ gone t ∧ t.source = s ∧ t.label = e ∧ t.target = r) ∨
        (s, r, e) ∈ arcs := by
  constructor
  · rintro ⟨t, ht, rfl, rfl, rfl⟩
    rcases (h.mem_transitions t).1 ht with ⟨ht, hgone⟩ | ht
    · exact .inl ⟨t, ht, hgone, rfl, rfl, rfl⟩
    · exact .inr (arc_mem_of_mem_freshTransitions ht)
  · rintro (⟨t, ht, hgone, rfl, rfl, rfl⟩ | harc)
    · exact ⟨t, (h.mem_transitions t).2 (.inl ⟨ht, hgone⟩), rfl, rfl, rfl⟩
    · obtain ⟨t, ht, heq⟩ := exists_mem_freshTransitions (a := a) harc
      refine ⟨t, (h.mem_transitions t).2 (.inr ht), congrArg Prod.fst heq,
        congrArg (fun x => x.2.2) heq, congrArg (fun x => x.2.1) heq⟩

end Automaton

/-- Comparing what is taken from things is as good as comparing the things. -/
theorem transCmp_comap {α β : Type} (cmp : β → β → Ordering) [Std.TransCmp cmp] (f : α → β) :
    Std.TransCmp fun x y => cmp (f x) (f y) where
  eq_swap {x y} := @Std.OrientedCmp.eq_swap _ cmp _ (f x) (f y)
  isLE_trans {x y z} := @Std.TransCmp.isLE_trans _ cmp _ (f x) (f y) (f z)

namespace Ident

instance {kind : Kind} : Std.TransCmp (@order kind) :=
  inferInstanceAs (Std.TransCmp (compareLex (compareOn owner) (compareOn index)))

end Ident

namespace Transition

variable {t u : Transition} {ts : List Transition}

instance : Std.TransCmp orderByTarget :=
  have := transCmp_comap Ident.order target
  have := transCmp_comap Expr.order label
  inferInstanceAs (Std.TransCmp (compareLex
    (fun t u : Transition => Ident.order t.target u.target)
    fun t u : Transition => Expr.order t.label u.label))

theorem orderByTarget_eq_iff :
    orderByTarget t u = .eq ↔ t.target = u.target ∧ t.label = u.label := by
  rw [orderByTarget, Ordering.then_eq_eq, Ident.order_eq_iff, Expr.order_eq_iff]

theorem orderBySource_eq_iff :
    orderBySource t u = .eq ↔ t.source = u.source ∧ t.label = u.label := by
  rw [orderBySource, Ordering.then_eq_eq, Ident.order_eq_iff, Expr.order_eq_iff]

/-! ## One for each key -/

section OnePerArc

variable {key : Transition → Transition → Ordering} {preferred : Transition → Bool}

theorem isLE_of_notAfter (h : notAfter key preferred t u = true) : (key t u).isLE = true := by
  rw [notAfter] at h
  cases hkey : key t u with
  | gt => rw [hkey] at h; nomatch h
  | lt | eq => rfl

theorem preferred_of_notAfter (h : notAfter key preferred t u = true) (heq : key t u = .eq)
    (hu : preferred u = true) : preferred t = true := by
  rw [notAfter, heq, hu] at h
  cases ht : preferred t with
  | true => rfl
  | false => rw [ht] at h; nomatch h

variable [Std.TransCmp key]

/-- A key still orders the transitions when the preferred ones come first among those
with one key. -/
theorem transCmp_preferring (preferred : Transition → Bool) : Std.TransCmp fun t u =>
    (key t u).then (compare (preferred u).toNat (preferred t).toNat) :=
  have := @Std.TransCmp.opposite Nat compare _
  have := transCmp_comap (fun m n : Nat => compare n m) fun t => (preferred t).toNat
  inferInstanceAs (Std.TransCmp (compareLex key fun t u : Transition =>
    compare (preferred u).toNat (preferred t).toNat))

theorem notAfter_trans (x y z : Transition) (hxy : notAfter key preferred x y = true)
    (hyz : notAfter key preferred y z = true) : notAfter key preferred x z = true :=
  (transCmp_preferring preferred).isLE_trans hxy hyz

theorem notAfter_total (x y : Transition) :
    (notAfter key preferred x y || notAfter key preferred y x) = true := by
  have hswap := @(@transCmp_preferring key _ preferred).eq_swap x y
  rw [notAfter, notAfter, hswap]
  cases (key y x).then (compare (preferred x).toNat (preferred y).toNat) <;> rfl

theorem pairwise_mergeSort_notAfter (preferred : Transition → Bool) (ts : List Transition) :
    (ts.mergeSort (notAfter key preferred)).Pairwise fun t u => notAfter key preferred t u :=
  List.pairwise_mergeSort notAfter_trans notAfter_total ts

/-- No key is represented twice. -/
theorem pairwise_onePerArc (preferred : Transition → Bool) (ts : List Transition) :
    (onePerArc key preferred ts).Pairwise fun t u => (key t u).isEq = false := by
  refine pairwise_firstOfRuns (fun x y z hxy hyz hxz => ?_)
    (pairwise_mergeSort_notAfter preferred ts)
  -- what comes between two transitions with one key has that key as well
  have hxz : key x z = .eq := Ordering.isEq_iff_eq_eq.1 hxz
  have hyx : (key y x).isLE = true := by
    rw [Std.TransCmp.congr_right hxz]
    exact isLE_of_notAfter hyz
  exact Ordering.isEq_iff_eq_eq.2 (Std.OrientedCmp.isLE_antisymm (isLE_of_notAfter hxy) hyx)

theorem eq_of_mem_onePerArc (ht : t ∈ onePerArc key preferred ts)
    (hu : u ∈ onePerArc key preferred ts) (h : key t u = .eq) : t = u := by
  have : Std.Symm fun t u => (key t u).isEq = false := ⟨fun x y hxy => by
    rwa [@Std.OrientedCmp.eq_swap _ key, Ordering.isEq_swap]⟩
  by_contra hne
  have hno := (pairwise_onePerArc preferred ts).forall ht hu hne
  rw [h] at hno
  nomatch hno

/-- A key with a preferred transition is represented by a preferred one. -/
theorem preferred_of_mem_onePerArc (hu : u ∈ onePerArc key preferred ts) (h : key u t = .eq)
    (ht : t ∈ ts) (hpreferred : preferred t = true) : preferred u = true := by
  have hsorted : t ∈ ts.mergeSort (notAfter key preferred) := List.mem_mergeSort.2 ht
  obtain ⟨v, hv, hvt, hbefore⟩ := @exists_mem_firstOfRuns _ (fun t u => (key t u).isEq)
    (fun u => by simp [Std.ReflCmp.compare_self]) _ _ hsorted
  have hvt : key v t = .eq := Ordering.isEq_iff_eq_eq.1 hvt
  have huv : key u v = .eq := by
    rw [Std.TransCmp.congr_right hvt]
    exact h
  rw [eq_of_mem_onePerArc hu hv huv]
  rcases hbefore with rfl | hbefore
  · exact hpreferred
  · have hle := (pairwise_mergeSort_notAfter preferred ts).sublist hbefore
    rw [List.pairwise_pair] at hle
    exact preferred_of_notAfter hle hvt hpreferred

end OnePerArc

/-! ## One for each end and label -/

/-- Some transition with the same target and label is kept. -/
theorem exists_onePerArc_orderByTarget (preferred : Transition → Bool) (h : t ∈ ts) :
    ∃ u ∈ onePerArc orderByTarget preferred ts, u.target = t.target ∧ u.label = t.label := by
  obtain ⟨u, hu, heq⟩ : ∃ u ∈ onePerArc orderByTarget preferred ts, orderByTarget u t = .eq :=
    exists_mem_onePerArc orderByTarget_self h
  exact ⟨u, hu, orderByTarget_eq_iff.1 heq⟩

/-- Some transition with the same source and label is kept. -/
theorem exists_onePerArc_orderBySource (preferred : Transition → Bool) (h : t ∈ ts) :
    ∃ u ∈ onePerArc orderBySource preferred ts, u.source = t.source ∧ u.label = t.label := by
  obtain ⟨u, hu, heq⟩ : ∃ u ∈ onePerArc orderBySource preferred ts, orderBySource u t = .eq :=
    exists_mem_onePerArc orderBySource_self h
  exact ⟨u, hu, orderBySource_eq_iff.1 heq⟩

end Transition

end RegularForms
