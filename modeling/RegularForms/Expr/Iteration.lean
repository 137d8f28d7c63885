import RegularForms.Expr.Basic

/-!
# Iterations

Star, plus and option are the three operators with one operand. `iterated?` looks at
an expression as an iteration of another one, `bare` takes all iterations off, and
`Iteration.join?` says which single iteration two neighbouring iterations of the
same expression amount to.
-/

namespace RegularForms

inductive Iteration where
  | star
  | plus
  | option
  deriving DecidableEq

namespace Iteration

def mark : Iteration → Char
  | star => '*'
  | plus => '+'
  | option => '?'

theorem mark_injective {i j : Iteration} (h : i.mark = j.mark) : i = j := by
  cases i <;> cases j <;> first | rfl | exact absurd h (by decide)

def of : Iteration → Expr → Expr
  | star => .star
  | plus => .plus
  | option => .opt

/-- The iteration that equals one iteration followed by another of the same
expression: `r*r*` and `r*r?` are `r*`, and `r*r+` and `r+r?` are `r+`. Neither
`r+r+` nor `r?r?` is an iteration of `r`. -/
def join? : Iteration → Iteration → Option Iteration
  | star, star | star, option | option, star => some star
  | star, plus | plus, star | plus, option | option, plus => some plus
  | plus, plus | option, option => none

theorem join?_comm (i j : Iteration) : join? i j = join? j i := by
  cases i <;> cases j <;> rfl

end Iteration

namespace Expr

def iterated? : Expr → Option (Iteration × Expr)
  | star e => some (.star, e)
  | plus e => some (.plus, e)
  | opt e => some (.option, e)
  | _ => none

def bare : Expr → Expr
  | star e | plus e | opt e => bare e
  | e => e

theorem iterated?_eq_some_iff {e d : Expr} {i : Iteration} :
    e.iterated? = some (i, d) ↔ e = i.of d := by
  constructor
  · intro h
    cases e <;> simp only [iterated?, reduceCtorEq, Option.some.injEq, Prod.mk.injEq] at h <;>
      exact h.1 ▸ h.2 ▸ rfl
  · rintro rfl
    cases i <;> rfl

@[simp] theorem iterated?_of (i : Iteration) (e : Expr) :
    (i.of e).iterated? = some (i, e) :=
  iterated?_eq_some_iff.2 rfl

theorem size_bare_le (e : Expr) : e.bare.size ≤ e.size := by
  induction e using ind with
  | sym c => exact Nat.le_refl _
  | star e ih => exact Nat.le_succ_of_le ih
  | plus e ih => exact Nat.le_succ_of_le ih
  | opt e ih => exact Nat.le_succ_of_le ih
  | seq es ih => exact Nat.le_refl _
  | alt es ih => exact Nat.le_refl _

/-- Taking an iteration off makes the expression smaller. -/
theorem size_bare_lt {e : Expr} (h : e.iterated?.isSome = true) :
    e.bare.size < e.size := by
  cases e with
  | star e => exact Nat.lt_succ_of_le (size_bare_le e)
  | plus e => exact Nat.lt_succ_of_le (size_bare_le e)
  | opt e => exact Nat.lt_succ_of_le (size_bare_le e)
  | _ => simp [iterated?] at h

end Expr

end RegularForms
