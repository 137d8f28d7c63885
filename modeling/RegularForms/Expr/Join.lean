import RegularForms.Expr.Basic

/-!
# Joining operands

A sequence and a choice are the two nodes over any number of operands. `join` makes
one expression of operands: one that is itself a node of the kind wanted gives up
its own operands to the new node, and a lone operand is returned as it is, so joining
well-formed expressions yields a well-formed one. Joining nothing has no meaning, so
`join?` refuses it.
-/

namespace RegularForms

inductive Connective where
  | sequence
  | choice
  deriving DecidableEq

namespace Connective

def operator : Connective → Operator
  | sequence => .sequence
  | choice => .choice

def node : Connective → List Expr → Expr
  | sequence => .seq
  | choice => .alt

@[simp] theorem size_node (op : Connective) (es : List Expr) :
    (op.node es).size = Expr.sizeList es + 1 := by
  cases op <;> rfl

end Connective

namespace Expr

variable {op : Connective} {d e : Expr} {es : List Expr}

/-- The operands an expression contributes to a node. -/
def parts : Connective → Expr → List Expr
  | .sequence, seq es | .choice, alt es => es
  | _, e => [e]

/-- The operands joined into one expression, nested nodes of the kind spliced in. -/
def join (op : Connective) (es : List Expr) : Expr :=
  match es.flatMap (parts op) with
  | [e] => e
  | flat => op.node flat

def join? (op : Connective) : List Expr → Option Expr
  | [] => none
  | es => some (join op es)

def sequence? : List Expr → Option Expr := join? .sequence

def choice? : List Expr → Option Expr := join? .choice

@[simp] theorem parts_node (op : Connective) (es : List Expr) : parts op (op.node es) = es := by
  cases op <;> rfl

theorem node_parts (op : Connective) (h : e.operator = op.operator) : op.node (parts op e) = e := by
  cases op <;> cases e <;> first | rfl | nomatch h

theorem parts_of_ne (op : Connective) (h : e.operator ≠ op.operator) : parts op e = [e] := by
  cases op <;> cases e <;> first | rfl | exact absurd rfl h

theorem eq_or_mem_operands_of_mem_parts (h : d ∈ parts op e) : d = e ∨ d ∈ e.operands := by
  cases op <;> cases e <;> first | exact .inr h | exact .inl (List.mem_singleton.1 h)

theorem flatMap_parts_of_ne (op : Connective) (h : ∀ e ∈ es, e.operator ≠ op.operator) :
    es.flatMap (parts op) = es := by
  induction es with
  | nil => rfl
  | cons e es ih =>
      obtain ⟨he, hes⟩ := List.forall_mem_cons.1 h
      rw [List.flatMap_cons, parts_of_ne op he, ih hes, List.singleton_append]

/-- What operands are joined into is the node over what they contribute, unless that is just
one expression. -/
theorem join_eq (op : Connective) (es : List Expr) :
    (∃ e, es.flatMap (parts op) = [e] ∧ join op es = e) ∨
      ((es.flatMap (parts op)).length ≠ 1 ∧ join op es = op.node (es.flatMap (parts op))) := by
  unfold join
  split
  · next e h => exact .inl ⟨e, h, rfl⟩
  · next h =>
      refine .inr ⟨fun hl => ?_, rfl⟩
      obtain ⟨e, he⟩ := List.length_eq_one_iff.1 hl
      exact h e he

/-- Operands of which none is a node of the kind are not taken apart. -/
theorem join_of_flat (op : Connective) (hne : es ≠ [])
    (hflat : ∀ e ∈ es, e.operator ≠ op.operator) :
    (∃ e, es = [e] ∧ join op es = e) ∨ 2 ≤ es.length ∧ join op es = op.node es := by
  have heq := join_eq op es
  rw [flatMap_parts_of_ne op hflat] at heq
  have hpos := List.length_pos_iff.2 hne
  exact heq.imp_right fun ⟨hlength, h⟩ => ⟨by omega, h⟩

theorem join_eq_node (op : Connective) (hlength : 2 ≤ es.length)
    (hflat : ∀ e ∈ es, e.operator ≠ op.operator) : join op es = op.node es := by
  rcases join_of_flat op (List.ne_nil_of_length_pos (by omega)) hflat with ⟨e, rfl, -⟩ | ⟨-, heq⟩
  · exact absurd hlength (by simp)
  · exact heq

theorem sizeList_parts_le (op : Connective) (e : Expr) : sizeList (parts op e) ≤ e.size := by
  by_cases h : e.operator = op.operator
  · have hsize := congrArg size (node_parts op h)
    rw [Connective.size_node] at hsize
    omega
  · simp [parts_of_ne op h]

theorem sizeList_flatMap_parts_le (op : Connective) (es : List Expr) :
    sizeList (es.flatMap (parts op)) ≤ sizeList es := by
  induction es with
  | nil => exact Nat.le_refl _
  | cons e es ih =>
      have := sizeList_parts_le op e
      simp only [List.flatMap_cons, sizeList_append, sizeList_cons]
      omega

end Expr

end RegularForms
