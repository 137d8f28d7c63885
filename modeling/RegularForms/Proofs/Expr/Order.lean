import RegularForms.Expr.Order

/-!
# Comparing expressions

Two expressions compare as equal only if they are the same, and comparing them the other
way round gives the opposite result. What comes before an expression comes before all that
it comes before. So the order of expressions is linear, and what is sorted by its
expression, and then kept once for each run of equal ones, is kept once for each
expression.
-/

namespace RegularForms

theorem Operator.eq_of_rank_eq {i j : Operator} (h : i.rank = j.rank) : i = j := by
  cases i <;> cases j <;> first | rfl | nomatch h

namespace Expr

variable {e f g : Expr}

theorem operator_eq_of_order_eq (h : order e f = .eq) : e.operator = f.operator := by
  refine Decidable.not_not.1 fun hne => ?_
  rw [order_of_operator_ne hne, Nat.compare_eq_eq] at h
  exact hne (Operator.eq_of_rank_eq h)

theorem eq_of_orderList_eq {es fs : List Expr}
    (hes : ∀ e ∈ es, ∀ {f}, order e f = .eq → e = f) (h : orderList es fs = .eq) : es = fs := by
  induction es generalizing fs with
  | nil =>
      cases fs with
      | nil => rfl
      | cons f fs => nomatch h
  | cons e es ih =>
      cases fs with
      | nil => nomatch h
      | cons f fs =>
          obtain ⟨he, hes⟩ := List.forall_mem_cons.1 hes
          obtain ⟨hef, hrest⟩ := Ordering.then_eq_eq.1 h
          rw [he hef, ih hes hrest]

/-- Expressions that compare as equal are the same. -/
theorem eq_of_order_eq (h : order e f = .eq) : e = f := by
  induction e using ind generalizing f with
  | sym c =>
      cases f with
      | sym d => rw [Char.toNat_inj.1 (Nat.compare_eq_eq.1 h)]
      | _ => nomatch operator_eq_of_order_eq h
  | star e ih =>
      cases f with
      | star f => rw [ih h]
      | _ => nomatch operator_eq_of_order_eq h
  | plus e ih =>
      cases f with
      | plus f => rw [ih h]
      | _ => nomatch operator_eq_of_order_eq h
  | opt e ih =>
      cases f with
      | opt f => rw [ih h]
      | _ => nomatch operator_eq_of_order_eq h
  | seq es ih =>
      cases f with
      | seq fs => rw [eq_of_orderList_eq ih h]
      | _ => nomatch operator_eq_of_order_eq h
  | alt es ih =>
      cases f with
      | alt fs => rw [eq_of_orderList_eq ih h]
      | _ => nomatch operator_eq_of_order_eq h

theorem order_eq_iff : order e f = .eq ↔ e = f :=
  ⟨eq_of_order_eq, fun h => h ▸ order_self e⟩

/-! ## A linear order -/

/-- Induction on expressions in terms of their operands. -/
@[elab_as_elim]
theorem ind_operands {motive : Expr → Prop} (sym : ∀ c, motive (.sym c))
    (compound : ∀ e, e.operator ≠ .symbol → (∀ d ∈ e.operands, motive d) → motive e) (e : Expr) :
    motive e := by
  induction e using ind with
  | sym c => exact sym c
  | star e ih | plus e ih | opt e ih =>
      exact compound _ nofun fun d hd => List.mem_singleton.1 hd ▸ ih
  | seq es ih | alt es ih => exact compound _ nofun ih

theorem eq_sym_of_operator_eq (h : e.operator = .symbol) : ∃ c, e = sym c := by
  cases e with
  | sym c => exact ⟨c, rfl⟩
  | _ => nomatch h

/-- Expressions with the same operator compare as their operands do. -/
theorem order_of_operator_eq (h : e.operator = f.operator) (hsym : e.operator ≠ .symbol) :
    order e f = orderList e.operands f.operands := by
  cases e <;> cases f <;> simp_all [order, orderList, operator, operands]

theorem swap_orderList {es fs : List Expr} (hes : ∀ e ∈ es, ∀ f, (order e f).swap = order f e) :
    (orderList es fs).swap = orderList fs es := by
  induction es generalizing fs with
  | nil => cases fs <;> rfl
  | cons e es ih =>
      cases fs with
      | nil => rfl
      | cons f fs =>
          obtain ⟨he, hes⟩ := List.forall_mem_cons.1 hes
          rw [orderList, Ordering.swap_then, he f, ih hes, orderList]

theorem swap_order_of_operator_ne (hop : e.operator ≠ f.operator) :
    (order e f).swap = order f e := by
  rw [order_of_operator_ne hop, order_of_operator_ne hop.symm, Nat.compare_swap]

/-- Comparing the other way round gives the opposite result. -/
theorem swap_order (e f : Expr) : (order e f).swap = order f e := by
  induction e using ind_operands generalizing f with
  | sym c =>
      by_cases hop : (sym c).operator = f.operator
      · obtain ⟨d, rfl⟩ := eq_sym_of_operator_eq hop.symm
        exact Nat.compare_swap _ _
      · exact swap_order_of_operator_ne hop
  | compound e hsym ih =>
      by_cases hop : e.operator = f.operator
      · rw [order_of_operator_eq hop hsym, order_of_operator_eq hop.symm (hop ▸ hsym)]
        exact swap_orderList ih
      · exact swap_order_of_operator_ne hop

theorem rank_le_of_order_eq_lt (h : order e f = .lt) : e.operator.rank ≤ f.operator.rank := by
  by_cases hop : e.operator = f.operator
  · exact Nat.le_of_eq (congrArg Operator.rank hop)
  · rw [order_of_operator_ne hop, Nat.compare_eq_lt] at h
    exact Nat.le_of_lt h

theorem orderList_eq_lt_trans {es fs gs : List Expr}
    (hes : ∀ e ∈ es, ∀ {f g}, order e f = .lt → order f g = .lt → order e g = .lt)
    (hef : orderList es fs = .lt) (hfg : orderList fs gs = .lt) : orderList es gs = .lt := by
  induction es generalizing fs gs with
  | nil =>
      cases gs with
      | nil => cases fs <;> nomatch hfg
      | cons g gs => rfl
  | cons e es ih =>
      cases fs with
      | nil => nomatch hef
      | cons f fs =>
          cases gs with
          | nil => nomatch hfg
          | cons g gs =>
              obtain ⟨he, hes⟩ := List.forall_mem_cons.1 hes
              rw [orderList, Ordering.then_eq_lt] at hef hfg ⊢
              rcases hef with hef | ⟨hef, hrest⟩
              · rcases hfg with hfg | ⟨hfg, -⟩
                · exact .inl (he hef hfg)
                · exact .inl (eq_of_order_eq hfg ▸ hef)
              · obtain rfl := eq_of_order_eq hef
                exact hfg.imp_right fun hfg => ⟨hfg.1, ih hes hrest hfg.2⟩

theorem operator_eq_of_order_eq_lt (hef : order e f = .lt) (hfg : order f g = .lt)
    (hop : e.operator = g.operator) : e.operator = f.operator := by
  have hrank := rank_le_of_order_eq_lt hfg
  rw [← hop] at hrank
  exact Operator.eq_of_rank_eq (Nat.le_antisymm (rank_le_of_order_eq_lt hef) hrank)

theorem order_eq_lt_of_operator_ne (hef : order e f = .lt) (hfg : order f g = .lt)
    (hop : e.operator ≠ g.operator) : order e g = .lt := by
  have hrank := Nat.le_trans (rank_le_of_order_eq_lt hef) (rank_le_of_order_eq_lt hfg)
  rw [order_of_operator_ne hop, Nat.compare_eq_lt]
  exact Nat.lt_of_le_of_ne hrank (mt Operator.eq_of_rank_eq hop)

/-- What comes before an expression comes before all that the expression comes before. -/
theorem order_eq_lt_trans (hef : order e f = .lt) (hfg : order f g = .lt) : order e g = .lt := by
  induction e using ind_operands generalizing f g with
  | sym c =>
      by_cases hop : (sym c).operator = g.operator
      · obtain ⟨d, rfl⟩ := eq_sym_of_operator_eq (operator_eq_of_order_eq_lt hef hfg hop).symm
        obtain ⟨d', rfl⟩ := eq_sym_of_operator_eq hop.symm
        rw [order, Nat.compare_eq_lt] at hef hfg ⊢
        exact Nat.lt_trans hef hfg
      · exact order_eq_lt_of_operator_ne hef hfg hop
  | compound e hsym ih =>
      by_cases hop : e.operator = g.operator
      · have hopf := operator_eq_of_order_eq_lt hef hfg hop
        rw [order_of_operator_eq hopf hsym] at hef
        rw [order_of_operator_eq (hopf.symm.trans hop) (hopf ▸ hsym)] at hfg
        rw [order_of_operator_eq hop hsym]
        exact orderList_eq_lt_trans ih hef hfg
      · exact order_eq_lt_of_operator_ne hef hfg hop

theorem isLE_order_trans (hef : (order e f).isLE = true) (hfg : (order f g).isLE = true) :
    (order e g).isLE = true := by
  rw [Ordering.isLE_iff_eq_lt_or_eq_eq] at hef hfg ⊢
  rcases hef with hef | hef
  · rcases hfg with hfg | hfg
    · exact .inl (order_eq_lt_trans hef hfg)
    · exact .inl (eq_of_order_eq hfg ▸ hef)
  · exact eq_of_order_eq hef ▸ hfg

instance : Std.TransCmp order where
  eq_swap := (swap_order _ _).symm
  isLE_trans := isLE_order_trans

theorem isLE_order_or (e f : Expr) : (order e f).isLE = true ∨ (order f e).isLE = true := by
  rw [← swap_order e f]
  cases order e f with
  | lt | eq => exact .inl rfl
  | gt => exact .inr rfl

/-! ## The rule of the order -/

theorem orderList_eq_compareLex (es fs : List Expr) :
    orderList es fs = List.compareLex order es fs := by
  induction es generalizing fs with
  | nil => cases fs <;> rfl
  | cons e es ih =>
      cases fs with
      | nil => rfl
      | cons f fs => rw [orderList, ih, List.compareLex_cons_cons]

/-- The operators decide first, by their ranks; then the symbols by their code points, and the
operands lexicographically. -/
theorem order_eq_then (e f : Expr) : order e f =
    (compare e.operator.rank f.operator.rank).then
      ((compare (e.symbol?.map Char.toNat) (f.symbol?.map Char.toNat)).then
        (List.compareLex order e.operands f.operands)) := by
  by_cases hop : e.operator = f.operator
  · rw [Nat.compare_eq_eq.2 (congrArg Operator.rank hop), Ordering.eq_then]
    by_cases hsym : e.operator = .symbol
    · obtain ⟨c, rfl⟩ := eq_sym_of_operator_eq hsym
      obtain ⟨d, rfl⟩ := eq_sym_of_operator_eq (hop.symm.trans hsym)
      exact Ordering.then_eq.symm
    · have hnone : ∀ {d : Expr}, d.operator ≠ .symbol → d.symbol? = none := by
        intro d hd
        cases d <;> first | rfl | exact absurd rfl hd
      rw [order_of_operator_eq hop hsym, orderList_eq_compareLex, hnone hsym,
        hnone (hop ▸ hsym)]
      rfl
  · have hrank : compare e.operator.rank f.operator.rank ≠ .eq := fun h =>
      hop (Operator.eq_of_rank_eq (Nat.compare_eq_eq.1 h))
    rw [order_of_operator_ne hop]
    cases h : compare e.operator.rank f.operator.rank with
    | eq => exact absurd h hrank
    | lt | gt => rfl

end Expr

end RegularForms
