import RegularForms.Automaton.Basic
import RegularForms.Expr.Order
import RegularForms.Repetition

/-!
# One transition for each arc

Transitions that share one end and the label are interchangeable from there.
`onePerArc` sorts transitions by such a key and keeps one for each; among those with
one key it prefers some to others, and of equally good ones keeps the earliest.
-/

namespace RegularForms

namespace Transition

def orderByTarget (t u : Transition) : Ordering :=
  (t.target.order u.target).then (t.label.order u.label)

def orderBySource (t u : Transition) : Ordering :=
  (t.source.order u.source).then (t.label.order u.label)

/-- Whether a transition may stand before another in the order of a key, in which the
preferred ones come first among those with one key. -/
def notAfter (key : Transition → Transition → Ordering) (preferred : Transition → Bool)
    (t u : Transition) : Bool :=
  ((key t u).then (compare (preferred u).toNat (preferred t).toNat)).isLE

/-- Of the transitions with one key the first preferred one, or else the first, in the
order of the keys. -/
def onePerArc (key : Transition → Transition → Ordering) (preferred : Transition → Bool)
    (ts : List Transition) : List Transition :=
  firstOfRuns (fun t u => (key t u).isEq) (ts.mergeSort (notAfter key preferred))

theorem mem_of_mem_onePerArc {key : Transition → Transition → Ordering}
    {preferred : Transition → Bool} {t : Transition} {ts : List Transition}
    (h : t ∈ onePerArc key preferred ts) : t ∈ ts :=
  List.mem_mergeSort.1 ((firstOfRuns_sublist _ _).subset h)

/-- Every key that occurs is represented. -/
theorem exists_mem_onePerArc {key : Transition → Transition → Ordering}
    {preferred : Transition → Bool} {t : Transition} {ts : List Transition}
    (refl : ∀ u, key u u = .eq) (h : t ∈ ts) :
    ∃ u ∈ onePerArc key preferred ts, key u t = .eq := by
  have hsorted : t ∈ ts.mergeSort (notAfter key preferred) := List.mem_mergeSort.2 h
  obtain ⟨u, hu, hut, -⟩ :=
    @exists_mem_firstOfRuns _ (fun t u => (key t u).isEq) (fun u => by simp [refl]) _ _ hsorted
  exact ⟨u, hu, by simpa using hut⟩

@[simp] theorem orderByTarget_self (t : Transition) : orderByTarget t t = .eq := by
  simp [orderByTarget, Ident.order_eq_iff.2]

@[simp] theorem orderBySource_self (t : Transition) : orderBySource t t = .eq := by
  simp [orderBySource, Ident.order_eq_iff.2]

end Transition

end RegularForms
