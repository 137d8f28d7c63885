import RegularForms.Expr.Join

/-!
# Well-formed expressions

An expression is well formed when each of its sequences and choices has at least
two operands and holds no operand of its own kind. Joining operands with `join`
keeps this, and parsing produces nothing else.
-/

namespace RegularForms

namespace Expr

variable {op : Connective} {d e : Expr} {es : List Expr}

mutual
/-- Sequences and choices have at least two operands, none of their own kind. -/
def WellFormed : Expr → Prop
  | sym _ => True
  | star e | plus e | opt e => WellFormed e
  | seq es => 2 ≤ es.length ∧ (∀ e ∈ es, e.operator ≠ .sequence) ∧ AllWellFormed es
  | alt es => 2 ≤ es.length ∧ (∀ e ∈ es, e.operator ≠ .choice) ∧ AllWellFormed es
def AllWellFormed : List Expr → Prop
  | [] => True
  | e :: es => WellFormed e ∧ AllWellFormed es
end

theorem allWellFormed_iff : AllWellFormed es ↔ ∀ e ∈ es, e.WellFormed := by
  induction es with
  | nil => simp [AllWellFormed]
  | cons e es ih => simp [AllWellFormed, ih]

mutual
def decideWellFormed : (e : Expr) → Decidable e.WellFormed
  | sym _ => isTrue trivial
  | star e | plus e | opt e => decideWellFormed e
  | seq es | alt es =>
    have := decideAllWellFormed es
    inferInstanceAs (Decidable (_ ∧ _ ∧ _))
def decideAllWellFormed : (es : List Expr) → Decidable (AllWellFormed es)
  | [] => isTrue trivial
  | e :: es =>
    have := decideWellFormed e
    have := decideAllWellFormed es
    inferInstanceAs (Decidable (_ ∧ _))
end

instance (e : Expr) : Decidable e.WellFormed := decideWellFormed e

@[simp] theorem wellFormed_sym (c : Char) : (sym c).WellFormed := trivial

@[simp] theorem wellFormed_epsilon : epsilon.WellFormed := trivial

@[simp] theorem wellFormed_star : (star e).WellFormed ↔ e.WellFormed := Iff.rfl

@[simp] theorem wellFormed_plus : (plus e).WellFormed ↔ e.WellFormed := Iff.rfl

@[simp] theorem wellFormed_opt : (opt e).WellFormed ↔ e.WellFormed := Iff.rfl

theorem wellFormed_node (op : Connective) :
    (op.node es).WellFormed ↔
      2 ≤ es.length ∧ (∀ e ∈ es, e.operator ≠ op.operator) ∧ ∀ e ∈ es, e.WellFormed := by
  rw [← allWellFormed_iff]
  cases op <;> rfl

theorem wellFormed_seq :
    (seq es).WellFormed ↔
      2 ≤ es.length ∧ (∀ e ∈ es, e.operator ≠ .sequence) ∧ ∀ e ∈ es, e.WellFormed :=
  wellFormed_node .sequence

theorem wellFormed_alt :
    (alt es).WellFormed ↔
      2 ≤ es.length ∧ (∀ e ∈ es, e.operator ≠ .choice) ∧ ∀ e ∈ es, e.WellFormed :=
  wellFormed_node .choice

theorem ne_nil_of_wellFormed_node (op : Connective) (h : (op.node es).WellFormed) : es ≠ [] := by
  rintro rfl
  exact absurd ((wellFormed_node op).1 h).1 (by decide)

theorem WellFormed.of_mem_operands (h : e.WellFormed) (hd : d ∈ e.operands) : d.WellFormed := by
  cases e with
  | sym c => nomatch hd
  | star e | plus e | opt e => exact List.mem_singleton.1 hd ▸ h
  | seq es => exact (wellFormed_seq.1 h).2.2 d hd
  | alt es => exact (wellFormed_alt.1 h).2.2 d hd

/-- What a well-formed expression contributes is well formed, and of no kind to be taken apart. -/
theorem WellFormed.of_mem_parts (h : e.WellFormed) (hd : d ∈ parts op e) :
    d.WellFormed ∧ d.operator ≠ op.operator := by
  by_cases hop : e.operator = op.operator
  · have hof := (wellFormed_node op).1 ((node_parts op hop).symm ▸ h)
    exact ⟨hof.2.2 d hd, hof.2.1 d hd⟩
  · rw [parts_of_ne op hop, List.mem_singleton] at hd
    exact ⟨hd ▸ h, hd ▸ hop⟩

theorem WellFormed.parts_ne_nil (op : Connective) (h : e.WellFormed) : parts op e ≠ [] := by
  by_cases hop : e.operator = op.operator
  · exact ne_nil_of_wellFormed_node op ((node_parts op hop).symm ▸ h)
  · rw [parts_of_ne op hop]
    exact List.cons_ne_nil _ _

/-- Joining what a well-formed expression contributes gives it back. -/
theorem join_parts (op : Connective) (h : e.WellFormed) : join op (parts op e) = e := by
  by_cases hop : e.operator = op.operator
  · have hof := (wellFormed_node op).1 ((node_parts op hop).symm ▸ h)
    exact (join_eq_node op hof.1 hof.2.1).trans (node_parts op hop)
  · rw [parts_of_ne op hop, join, List.flatMap_singleton, parts_of_ne op hop]

/-- A lone well-formed expression is returned as it is. -/
theorem join_singleton (op : Connective) (h : e.WellFormed) : join op [e] = e := by
  have hflat : (parts op e).flatMap (parts op) = parts op e :=
    flatMap_parts_of_ne op fun d hd => (h.of_mem_parts hd).2
  calc join op [e] = join op (parts op e) := by rw [join, join, hflat, List.flatMap_singleton]
    _ = e := join_parts op h

/-- Well-formed expressions that are joined contribute what they did before. -/
theorem parts_join (op : Connective) (h : ∀ e ∈ es, e.WellFormed) :
    parts op (join op es) = es.flatMap (parts op) := by
  rcases join_eq op es with ⟨e, he, heq⟩ | ⟨-, heq⟩
  · obtain ⟨d, hd, hed⟩ := List.mem_flatMap.1 (he ▸ List.mem_singleton_self e)
    rw [heq, he, parts_of_ne op ((h d hd).of_mem_parts hed).2]
  · rw [heq, parts_node]

/-- Joining well-formed expressions keeps well-formedness. -/
theorem wellFormed_join (op : Connective) (hne : es ≠ []) (h : ∀ e ∈ es, e.WellFormed) :
    (join op es).WellFormed := by
  have hall : ∀ d ∈ es.flatMap (parts op), d.WellFormed ∧ d.operator ≠ op.operator := by
    intro d hd
    obtain ⟨e, he, hde⟩ := List.mem_flatMap.1 hd
    exact (h e he).of_mem_parts hde
  have hpos : es.flatMap (parts op) ≠ [] := by
    obtain ⟨e, he⟩ := List.exists_mem_of_ne_nil es hne
    obtain ⟨d, hd⟩ := List.exists_mem_of_ne_nil _ ((h e he).parts_ne_nil op)
    exact List.ne_nil_of_mem (List.mem_flatMap.2 ⟨e, he, hd⟩)
  rcases join_eq op es with ⟨e, he, heq⟩ | ⟨hl, heq⟩
  · rw [heq]
    exact (hall e (by simp [he])).1
  · rw [heq, wellFormed_node]
    refine ⟨?_, fun d hd => (hall d hd).2, fun d hd => (hall d hd).1⟩
    have := List.length_pos_iff.2 hpos
    omega

end Expr

end RegularForms
