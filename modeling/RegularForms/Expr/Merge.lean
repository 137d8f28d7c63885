import RegularForms.Expr.Iteration

/-!
# Merging neighbours in a sequence

Two neighbours in a sequence merge when together they are one iteration: two
iterations of the same expression that join into one, or an expression beside its
own star, which make a plus. `mergeAll` reads the operands from left to right and
merges the newest one into what is before it as often as possible; reading the result
back from right to left then finds the pairs that became neighbours on the way.
-/

namespace RegularForms

namespace Expr

def merge? (x y : Expr) : Option Expr :=
  match x.iterated?, y.iterated? with
  | some (i, c), some (j, d) => if c = d then (i.join? j).map (·.of c) else none
  | _, _ =>
    if x = star y then some (plus y)
    else if y = star x then some (plus x)
    else none

/-- Adds an operand after those read so far, which come latest first, merging it
into them as long as it merges with the latest. -/
def mergeOnto : List Expr → Expr → List Expr
  | [], e => [e]
  | last :: before, e =>
    match merge? last e with
    | some merged => mergeOnto before merged
    | none => e :: last :: before

/-- Reads operands from left to right, merging; the result is latest first. -/
def mergeAll (es : List Expr) : List Expr := es.foldl mergeOnto []

/-- The operands left when all have been merged from left to right and the outcome
from right to left. -/
def mergeBoth (es : List Expr) : List Expr := mergeAll (mergeAll es)

@[simp] theorem mergeOnto_nil (e : Expr) : mergeOnto [] e = [e] := rfl

@[simp] theorem mergeAll_nil : mergeAll [] = [] := rfl

theorem mergeAll_append (es fs : List Expr) :
    mergeAll (es ++ fs) = fs.foldl mergeOnto (mergeAll es) := by
  simp [mergeAll]

theorem mergeOnto_ne_nil (es : List Expr) (e : Expr) : mergeOnto es e ≠ [] := by
  induction es generalizing e with
  | nil => simp
  | cons d es ih => cases h : merge? d e <;> simp [mergeOnto, h, ih]

theorem mergeAll_ne_nil {es : List Expr} (h : es ≠ []) : mergeAll es ≠ [] := by
  rcases List.eq_nil_or_concat es with rfl | ⟨fs, e, rfl⟩
  · exact absurd rfl h
  · rw [List.concat_eq_append, mergeAll_append]
    exact mergeOnto_ne_nil _ e

theorem mergeBoth_ne_nil {es : List Expr} (h : es ≠ []) : mergeBoth es ≠ [] :=
  mergeAll_ne_nil (mergeAll_ne_nil h)

/-- What merges is the same in both directions. -/
theorem merge?_comm (x y : Expr) : merge? x y = merge? y x := by
  unfold merge?
  cases hx : x.iterated? <;> cases hy : y.iterated?
  · rcases x with _ | _ | _ | _ | _ | _ <;> rcases y with _ | _ | _ | _ | _ | _ <;>
      simp_all [iterated?]
  all_goals grind [Iteration.join?_comm, iterated?]

end Expr

end RegularForms
