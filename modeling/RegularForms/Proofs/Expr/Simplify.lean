import Mathlib.Algebra.BigOperators.Group.List.Lemmas
import RegularForms.Expr.Simplify
import RegularForms.Proofs.Expr.Language

/-!
# Simplification keeps the language

Each constructor of a simplified node has the language of the plain node over the same
operands, whether these are simplified or not. `language_simplifyTo` follows by induction
on the expression, for any depth.

Neighbours that merge commute, so the pass that reads a sequence from right to left keeps
the language for the same reason as the one from left to right: both are instances of
`prod_reverse_mergeAll`, in the monoid of languages and in its opposite.
-/

namespace RegularForms

open scoped Computability

namespace Expr

/-! ## Joining operands -/

theorem total_append (es fs : List Expr) : total (es ++ fs) = total es + total fs := by
  induction es with
  | nil => exact (zero_add _).symm
  | cons e es ih => rw [List.cons_append, total_cons, ih, total_cons, add_assoc]

theorem language_node_singleton (op : Connective) (e : Expr) :
    (op.node [e]).language = e.language := by
  cases op with
  | sequence => exact mul_one _
  | choice => exact add_zero _

theorem language_node_parts (op : Connective) (e : Expr) :
    (op.node (parts op e)).language = e.language := by
  by_cases h : e.operator = op.operator
  · rw [node_parts op h]
  · rw [parts_of_ne op h, language_node_singleton]

/-- A node has the same language when its operands are taken apart. -/
theorem language_node_flatMap_parts (op : Connective) (es : List Expr) :
    (op.node (es.flatMap (parts op))).language = (op.node es).language := by
  induction es with
  | nil => rfl
  | cons e es ih =>
      have he := language_node_parts op e
      cases op with
      | sequence => exact (product_append _ _).trans (congrArg₂ (· * ·) he ih)
      | choice => exact (total_append _ _).trans (congrArg₂ (· + ·) he ih)

theorem language_join (op : Connective) (es : List Expr) :
    (join op es).language = (op.node es).language := by
  rw [← language_node_flatMap_parts]
  rcases join_eq op es with ⟨e, hflat, heq⟩ | ⟨-, heq⟩
  · rw [heq, hflat, language_node_singleton]
  · rw [heq]

theorem language_join_sequence (es : List Expr) : (join .sequence es).language = product es :=
  language_join .sequence es

theorem language_join_choice (es : List Expr) : (join .choice es).language = total es :=
  language_join .choice es

theorem language_choiceOf (es : List Expr) : (choiceOf es).language = total es := by
  have hflat : total (es.flatMap (parts .choice)) = total es :=
    language_node_flatMap_parts .choice es
  rw [choiceOf, language_join_choice, ← hflat]
  exact total_congr fun e => mem_distinct

/-! ## Iterations -/

section Kleene

variable {A : Type*} [KleeneAlgebra A] (a b : A)

theorem kstar_mul_kstar_self : (a * a∗)∗ = a∗ := by
  have hself : a ≤ a * a∗ := le_mul_of_one_le_right' one_le_kstar
  have hstar : a * a∗ ≤ a∗ := mul_kstar_le_kstar
  exact le_antisymm ((kstar_mono hstar).trans (kstar_idem a).le) (kstar_mono hself)

theorem kstar_one_add : (1 + a)∗ = a∗ := by
  have hle : 1 + a ≤ a∗ := add_le one_le_kstar le_kstar
  exact le_antisymm ((kstar_mono hle).trans (kstar_idem a).le) (kstar_mono le_add_self)

theorem kstar_add_congr {a b a' b' : A} (ha : a∗ = a'∗) (hb : b∗ = b'∗) :
    (a + b)∗ = (a' + b')∗ := by
  have key : ∀ {c d c' d' : A}, c∗ = c'∗ → d∗ = d'∗ → (c + d)∗ ≤ (c' + d')∗ := by
    intro c d c' d' hc hd
    have hcle : c ≤ (c' + d')∗ := (le_kstar.trans hc.le).trans (kstar_mono le_self_add)
    have hdle : d ≤ (c' + d')∗ := (le_kstar.trans hd.le).trans (kstar_mono le_add_self)
    exact (kstar_mono (add_le hcle hdle)).trans (kstar_idem _).le
  exact le_antisymm (key ha hb) (key ha.symm hb.symm)

theorem mul_kstar_of_one_le (h : 1 ≤ a) : a * a∗ = a∗ :=
  le_antisymm mul_kstar_le_kstar (le_mul_of_one_le_left' h)

end Kleene

theorem one_le_language {e : Expr} (h : e.nullable = true) : 1 ≤ e.language := by
  intro w hw
  rw [(Language.mem_one w).1 hw]
  exact nil_mem_language.2 h

/-- An iteration repeats, when it is repeated, what it repeats itself. -/
theorem kstar_language_bare (e : Expr) : e.bare.language∗ = e.language∗ := by
  induction e using ind with
  | sym c => rfl
  | star e ih => rw [bare, ih, language_star, kstar_idem]
  | plus e ih => rw [bare, ih, language_plus, kstar_mul_kstar_self]
  | opt e ih => rw [bare, ih, language_opt, kstar_one_add]
  | seq es ih => rfl
  | alt es ih => rfl

theorem kstar_total_starOperands (es : List Expr) :
    (total (starOperands es))∗ = (total es)∗ := by
  induction es with
  | nil => rfl
  | cons e es ih =>
      rw [total_cons]
      cases he : e.isEpsilon with
      | true =>
          have hdrop : starOperands (e :: es) = starOperands es := by simp [starOperands, he]
          rw [hdrop, ih, language_of_isEpsilon he, kstar_one_add]
      | false =>
          have hkeep : starOperands (e :: es) = e.bare :: starOperands es := by
            simp [starOperands, he]
          rw [hkeep, total_cons]
          exact kstar_add_congr (kstar_language_bare e) ih

/-- Below a star a sequence of nullable operands amounts to the choice between them. -/
theorem kstar_product_of_nullable {es : List Expr} (h : es.all nullable = true) :
    (product es)∗ = (total es)∗ := by
  have hnull : ∀ e ∈ es, 1 ≤ e.language := fun e he =>
    one_le_language (List.all_eq_true.1 h e he)
  have hprod : product es ≤ (total es)∗ := by
    clear h hnull
    induction es with
    | nil => exact one_le_kstar
    | cons e es ih =>
        have hhead : e.language ≤ (total (e :: es))∗ := (language_le_total (by simp)).trans le_kstar
        have htail : product es ≤ (total (e :: es))∗ := ih.trans (kstar_mono le_add_self)
        calc product (e :: es) = e.language * product es := rfl
          _ ≤ (total (e :: es))∗ * (total (e :: es))∗ := mul_le_mul' hhead htail
          _ = (total (e :: es))∗ := kstar_mul_kstar _
  have htotal : total es ≤ product es := by
    clear h hprod
    induction es with
    | nil => exact bot_le
    | cons e es ih =>
        obtain ⟨he, hes⟩ := List.forall_mem_cons.1 hnull
        have hone : ∀ fs : List Expr, (∀ f ∈ fs, 1 ≤ f.language) → 1 ≤ product fs := by
          intro fs hfs
          induction fs with
          | nil => exact le_rfl
          | cons f fs ihfs =>
              obtain ⟨hf, hfs⟩ := List.forall_mem_cons.1 hfs
              exact one_le_mul hf (ihfs hfs)
        exact add_le (le_mul_of_one_le_right' (hone es hes))
          ((ih hes).trans (le_mul_of_one_le_left' he))
  exact le_antisymm ((kstar_mono hprod).trans (kstar_idem _).le) (kstar_mono htotal)

theorem language_starOf (e : Expr) : (starOf e).language = e.language∗ := by
  have hnone : ∀ es, starOperands es = [] → (total es)∗ = 1 := by
    intro es hes
    rw [← kstar_total_starOperands, hes, total_nil, kstar_zero]
  induction e using starOf.induct with
  | case1 => rw [starOf, if_pos rfl]; exact kstar_one.symm
  | case2 c hc => rw [starOf, if_neg hc, language_star]
  | case3 e ih => rw [starOf, ih, language_star, kstar_idem]
  | case4 e ih => rw [starOf, ih, language_plus, kstar_mul_kstar_self]
  | case5 e ih => rw [starOf, ih, language_opt, kstar_one_add]
  | case6 es hnull hes =>
      rw [starOf, if_pos hnull, if_pos hes, language_seq, kstar_product_of_nullable hnull,
        hnone es hes, language_epsilon]
  | case7 es hnull hes ih =>
      rw [starOf, if_pos hnull, if_neg hes, ih, language_choiceOf, kstar_total_starOperands,
        language_seq, kstar_product_of_nullable hnull]
  | case8 es hnull => rw [starOf, if_neg hnull, language_star]
  | case9 es hany hes =>
      rw [starOf, if_pos hany, if_pos hes, language_alt, hnone es hes, language_epsilon]
  | case10 es hany hes ih =>
      rw [starOf, if_pos hany, if_neg hes, ih, language_choiceOf, kstar_total_starOperands,
        language_alt]
  | case11 es hany => rw [starOf, if_neg hany, language_star]

theorem language_plusOf (e : Expr) : (plusOf e).language = e.language * e.language∗ := by
  cases e with
  | sym c =>
      by_cases hc : c = epsilonSymbol
      · subst hc
        rw [plusOf, if_pos rfl]
        rw [show (sym epsilonSymbol).language = 1 from rfl, kstar_one, one_mul]
      · rw [plusOf, if_neg hc, language_plus]
  | star e =>
      rw [plusOf, language_starOf, language_star, kstar_idem, kstar_mul_kstar]
  | opt e =>
      rw [plusOf, language_starOf, language_opt, mul_kstar_of_one_le _ le_self_add, kstar_one_add]
  | plus e =>
      rw [plusOf, language_plus, kstar_mul_kstar_self, mul_assoc, kstar_mul_kstar]
  | seq es => rfl
  | alt es => rfl

theorem language_optOf (e : Expr) : (optOf e).language = 1 + e.language := by
  unfold optOf
  split
  · next h => exact (add_eq_right_iff_le.2 (one_le_language h)).symm
  · split
    · next d => rw [language_starOf, language_plus, one_add_mul_kstar]
    · rfl

/-! ## Sequences -/

/-- Two iterations of one expression that join commute, and the joint one is both
together. -/
theorem language_of_join? {i j k : Iteration} (h : i.join? j = some k) (e : Expr) :
    (k.of e).language = (i.of e).language * (j.of e).language := by
  have hstar : e.language∗ * (e.language * e.language∗) = e.language * e.language∗ := by
    rw [← mul_assoc, Language.mul_self_kstar_comm, mul_assoc, kstar_mul_kstar]
  have hopt : e.language∗ * (1 + e.language) = e.language∗ := by
    refine le_antisymm ?_ (le_mul_of_one_le_right' le_self_add)
    calc e.language∗ * (1 + e.language) ≤ e.language∗ * e.language∗ :=
          mul_le_mul' le_rfl (add_le one_le_kstar le_kstar)
      _ = e.language∗ := kstar_mul_kstar _
  have hopt' : (1 + e.language) * e.language∗ = e.language∗ := by
    refine le_antisymm ?_ (le_mul_of_one_le_left' le_self_add)
    calc (1 + e.language) * e.language∗ ≤ e.language∗ * e.language∗ :=
          mul_le_mul' (add_le one_le_kstar le_kstar) le_rfl
      _ = e.language∗ := kstar_mul_kstar _
  cases i <;> cases j <;> cases h
  · exact (kstar_mul_kstar _).symm
  · exact hstar.symm
  · exact hopt.symm
  · exact (by rw [mul_assoc, kstar_mul_kstar] :
      e.language * e.language∗ * e.language∗ = e.language * e.language∗).symm
  · exact (by rw [mul_assoc, hopt] :
      e.language * e.language∗ * (1 + e.language) = e.language * e.language∗).symm
  · exact hopt'.symm
  · exact (by rw [← Language.mul_self_kstar_comm, ← mul_assoc, hopt'] :
      (1 + e.language) * (e.language * e.language∗) = e.language * e.language∗).symm

/-- Two neighbours are together the expression they merge into. -/
theorem language_of_merge? {x y z : Expr} (h : merge? x y = some z) :
    z.language = x.language * y.language := by
  have hplain : (if x = star y then some (plus y) else if y = star x then some (plus x)
      else none) = some z → z.language = x.language * y.language := by
    intro h
    split at h
    · next hx =>
        cases h
        rw [hx, language_plus, language_star, Language.mul_self_kstar_comm]
    · split at h
      · next hy => cases h; rw [hy, language_plus, language_star]
      · nomatch h
  unfold merge? at h
  split at h
  · next i c j d hx hy =>
      obtain rfl := iterated?_eq_some_iff.1 hx
      obtain rfl := iterated?_eq_some_iff.1 hy
      split at h
      · next hcd =>
          subst hcd
          obtain ⟨k, hk, rfl⟩ := Option.map_eq_some_iff.1 h
          exact language_of_join? hk c
      · nomatch h
  · exact hplain h

section Merging

variable {M : Type*} [Monoid M] {f : Expr → M}

theorem prod_reverse_mergeOnto
    (hf : ∀ {x y z}, merge? x y = some z → f z = f x * f y) (before : List Expr) (e : Expr) :
    ((mergeOnto before e).reverse.map f).prod = (before.reverse.map f).prod * f e := by
  induction before generalizing e with
  | nil => simp
  | cons last before ih =>
      cases h : merge? last e with
      | none => simp [mergeOnto, h, mul_assoc]
      | some merged =>
          rw [mergeOnto, h, ih, hf h]
          simp [mul_assoc]

theorem prod_reverse_mergeAll
    (hf : ∀ {x y z}, merge? x y = some z → f z = f x * f y) (es : List Expr) :
    ((mergeAll es).reverse.map f).prod = (es.map f).prod := by
  have key : ∀ es before : List Expr, ((es.foldl mergeOnto before).reverse.map f).prod =
      (before.reverse.map f).prod * (es.map f).prod := by
    intro es
    induction es with
    | nil => simp
    | cons e es ih =>
        intro before
        rw [List.foldl_cons, ih, prod_reverse_mergeOnto hf, List.map_cons, List.prod_cons,
          mul_assoc]
  have h := key es []
  rwa [List.reverse_nil, List.map_nil, List.prod_nil, one_mul] at h

end Merging

/-- The language, as one of those that are multiplied from right to left. -/
noncomputable def oppositeLanguage (e : Expr) : (Language Char)ᵐᵒᵖ := MulOpposite.op e.language

/-- Merging from the left and then from the right keeps the language of a sequence. -/
theorem product_mergeBoth (es : List Expr) : product (mergeBoth es) = product es := by
  have hback : ∀ {x y z : Expr}, merge? x y = some z →
      oppositeLanguage z = oppositeLanguage x * oppositeLanguage y := by
    intro x y z h
    rw [oppositeLanguage, oppositeLanguage, oppositeLanguage, ← MulOpposite.op_mul,
      ← language_of_merge? (merge?_comm x y ▸ h)]
  have hsecond := congrArg MulOpposite.unop (prod_reverse_mergeAll hback (mergeAll es))
  rw [MulOpposite.unop_list_prod, MulOpposite.unop_list_prod, List.map_map, List.map_map,
    ← List.map_reverse, ← List.map_reverse, List.reverse_reverse] at hsecond
  calc product (mergeBoth es) = ((mergeAll (mergeAll es)).map language).prod := product_eq _
    _ = ((mergeAll es).reverse.map language).prod := hsecond
    _ = (es.map language).prod := prod_reverse_mergeAll language_of_merge? es
    _ = product es := (product_eq es).symm

theorem language_sequenceOf (es : List Expr) : (sequenceOf es).language = product es := by
  have hdrop : ∀ fs : List Expr, product (fs.filter fun e => !e.isEpsilon) = product fs := by
    intro fs
    induction fs with
    | nil => rfl
    | cons f fs ih =>
        cases hf : f.isEpsilon with
        | true => simp [hf, ih, language_of_isEpsilon hf]
        | false => simp [hf, ih]
  have hflat : product ((es.flatMap (parts .sequence)).filter fun e => !e.isEpsilon) =
      product es := (hdrop _).trans (language_node_flatMap_parts .sequence es)
  unfold sequenceOf
  split
  · next h => rw [← hflat, h, language_epsilon, product_nil]
  · rw [language_join_sequence, product_mergeBoth, hflat]

/-! ## Whole expressions -/

/-- Simplifying the top levels of an expression keeps its language. -/
theorem language_simplifyTo (n : Nat) (e : Expr) : (simplifyTo n e).language = e.language := by
  induction e using ind generalizing n with
  | sym c => rw [simplifyTo_sym]
  | star e ih =>
      cases n with
      | zero => rw [simplifyTo_zero]
      | succ n => rw [simplifyTo_succ_star, language_starOf, ih, language_star]
  | plus e ih =>
      cases n with
      | zero => rw [simplifyTo_zero]
      | succ n => rw [simplifyTo_succ_plus, language_plusOf, ih, language_plus]
  | opt e ih =>
      cases n with
      | zero => rw [simplifyTo_zero]
      | succ n => rw [simplifyTo_succ_opt, language_optOf, ih, language_opt]
  | seq es ih =>
      cases n with
      | zero => rw [simplifyTo_zero]
      | succ n =>
          rw [simplifyTo_succ_seq, language_sequenceOf, language_seq, product_eq, product_eq,
            List.map_map]
          exact congrArg List.prod (List.map_congr_left fun e he => ih e he n)
  | alt es ih =>
      cases n with
      | zero => rw [simplifyTo_zero]
      | succ n =>
          rw [simplifyTo_succ_alt, language_choiceOf, language_alt]
          ext w
          simp only [mem_total, List.mem_map, exists_exists_and_eq_and]
          exact exists_congr fun e => and_congr_right fun he => by rw [ih e he n]

theorem language_simplify (e : Expr) : e.simplify.language = e.language :=
  language_simplifyTo _ e

/-! ## The empty word -/

/-- The test for the empty word tells apart only what the language tells apart. -/
theorem nullable_eq_of_language_eq {e f : Expr} (h : e.language = f.language) :
    e.nullable = f.nullable := by
  rw [Bool.eq_iff_iff, ← nil_mem_language, ← nil_mem_language, h]

/-- The test by which stars and options choose how they are rewritten finds the empty word exactly
where it belongs to the language, and it answers the same before and after a simplification, to
whatever depth that goes. -/
theorem nullable_iff_and_nullable_simplifyTo (e : Expr) :
    (e.nullable = true ↔ [] ∈ e.language) ∧
      (∀ n, (simplifyTo n e).nullable = e.nullable) ∧ e.simplify.nullable = e.nullable := by
  refine ⟨nil_mem_language.symm, fun n => ?_, ?_⟩
  · exact nullable_eq_of_language_eq (language_simplifyTo n e)
  · exact nullable_eq_of_language_eq (language_simplify e)

/-- A sequence that may be empty, under an option that simplification drops. -/
example : (simplify (.opt (.seq [.star (.sym 'b'), .opt (.sym 'c')]))).nullable = true := by
  cbv

end Expr

end RegularForms
