import RegularForms.Expr.Basic

/-!
# The written form of an expression

`render` writes an expression with as few parentheses as its structure allows: an
operand is enclosed exactly when its own operator binds less tightly than the one
above it. Symbols stand for themselves, iterations follow their operand, operands
of a sequence are juxtaposed and those of a choice are separated by bars.
-/

namespace RegularForms

namespace Expr

/-- The text of an operand `e` below the operator `op`, in parentheses when `e`
binds less tightly than `op`. -/
def enclose (op : Operator) (e : Expr) (text : List Char) : List Char :=
  if e.operator.precedence < op.precedence then '(' :: (text ++ [')']) else text

mutual
def render : Expr → List Char
  | sym c => [c]
  | star e => enclose .star e (render e) ++ ['*']
  | plus e => enclose .plus e (render e) ++ ['+']
  | opt e => enclose .option e (render e) ++ ['?']
  | seq es => renderSeq es
  | alt [] => []
  | alt (e :: es) => enclose .choice e (render e) ++ renderBars es
def renderSeq : List Expr → List Char
  | [] => []
  | e :: es => enclose .sequence e (render e) ++ renderSeq es
def renderBars : List Expr → List Char
  | [] => []
  | e :: es => '|' :: (enclose .choice e (render e) ++ renderBars es)
end

def print (e : Expr) : String := String.ofList e.render

instance : ToString Expr := ⟨print⟩

theorem enclose_of_le {op : Operator} {e : Expr} {text : List Char}
    (h : op.precedence ≤ e.operator.precedence) : enclose op e text = text :=
  if_neg (Nat.not_lt.2 h)

theorem enclose_of_lt {op : Operator} {e : Expr} {text : List Char}
    (h : e.operator.precedence < op.precedence) :
    enclose op e text = '(' :: (text ++ [')']) :=
  if_pos h

/-- Nothing binds less tightly than a choice. -/
@[simp] theorem enclose_choice (e : Expr) (text : List Char) :
    enclose .choice e text = text :=
  enclose_of_le (Nat.zero_le _)

@[simp] theorem render_sym (c : Char) : (sym c).render = [c] := rfl

theorem renderSeq_eq (es : List Expr) :
    renderSeq es = es.flatMap fun e => enclose .sequence e e.render := by
  induction es with
  | nil => rfl
  | cons e es ih => rw [renderSeq, ih, List.flatMap_cons]

theorem renderBars_eq (es : List Expr) :
    renderBars es = es.flatMap fun e => '|' :: e.render := by
  induction es with
  | nil => rfl
  | cons e es ih => rw [renderBars, ih, enclose_choice, List.flatMap_cons, List.cons_append]

theorem renderSeq_append (es fs : List Expr) :
    renderSeq (es ++ fs) = renderSeq es ++ renderSeq fs := by
  rw [renderSeq_eq, renderSeq_eq, renderSeq_eq, List.flatMap_append]

theorem renderBars_append (es fs : List Expr) :
    renderBars (es ++ fs) = renderBars es ++ renderBars fs := by
  rw [renderBars_eq, renderBars_eq, renderBars_eq, List.flatMap_append]

end Expr

end RegularForms
