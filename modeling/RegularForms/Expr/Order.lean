import RegularForms.Expr.Basic
import RegularForms.Repetition

/-!
# The order of expressions

Expressions are ordered first by the operator at the top (symbols, stars, pluses,
options, sequences, choices), then by what stands below it: symbols by code point,
iterations by their operand, and lists of operands lexicographically, a list coming
before its own extensions.
-/

namespace RegularForms

def Operator.rank : Operator → Nat
  | symbol => 0
  | star => 1
  | plus => 2
  | option => 3
  | sequence => 4
  | choice => 5

namespace Expr

mutual
def order : Expr → Expr → Ordering
  | sym c, sym d => compare c.toNat d.toNat
  | star e, star f => order e f
  | plus e, plus f => order e f
  | opt e, opt f => order e f
  | seq es, seq fs => orderList es fs
  | alt es, alt fs => orderList es fs
  | e, f => compare e.operator.rank f.operator.rank
def orderList : List Expr → List Expr → Ordering
  | [], [] => .eq
  | [], _ :: _ => .lt
  | _ :: _, [] => .gt
  | e :: es, f :: fs => (order e f).then (orderList es fs)
end

instance : Ord Expr := ⟨order⟩

def precedes (e f : Expr) : Bool := (order e f).isLE

def ascending (es : List Expr) : List Expr :=
  firstOfRuns (fun e f => e = f) (es.mergeSort precedes)

theorem order_of_operator_ne {e f : Expr} (h : e.operator ≠ f.operator) :
    order e f = compare e.operator.rank f.operator.rank := by
  cases e <;> cases f <;> simp_all [order, operator]

theorem orderList_self {es : List Expr} (h : ∀ e ∈ es, order e e = .eq) :
    orderList es es = .eq := by
  induction es with
  | nil => rfl
  | cons e es ih =>
      simp [orderList, h e (by simp), ih (fun d hd => h d (by simp [hd]))]

@[simp] theorem order_self (e : Expr) : order e e = .eq := by
  induction e using ind with
  | sym c => simp [order]
  | star e ih => simpa [order] using ih
  | plus e ih => simpa [order] using ih
  | opt e ih => simpa [order] using ih
  | seq es ih => simpa [order] using orderList_self ih
  | alt es ih => simpa [order] using orderList_self ih

end Expr

end RegularForms
