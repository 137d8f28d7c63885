import Mathlib.Data.List.Chain
import RegularForms.Proofs.Expr.WellFormed

/-!
# Simplified expressions

An expression is `Normal` when nothing redundant is left at any of its nodes: no iteration
stands over another one or over the empty word, no option over something nullable, no star
over a sequence or choice that it could take apart, no empty word and no two neighbours
that merge in a sequence, and no operand twice in a choice.

Every constructor of a simplified node makes a normal expression out of normal operands,
and leaves a node that is normal already as it is. Hence simplification ends with a normal
expression, and simplifying that once more changes nothing.
-/

namespace RegularForms

namespace Expr

variable {e : Expr} {es : List Expr}

def Apart (x y : Expr) : Prop := merge? x y = none

/-- Nothing redundant is left in an expression. -/
inductive Normal : Expr → Prop
  | sym (c : Char) : Normal (.sym c)
  | star {e : Expr} (he : Normal e) (hrepeat : e.Repeatable) : Normal (.star e)
  | plus {e : Expr} (he : Normal e) (hplain : e.iterated? = none)
      (hsome : e.isEpsilon = false) : Normal (.plus e)
  | opt {e : Expr} (he : Normal e) (hplain : e.iterated? = none)
      (hsome : e.nullable = false) : Normal (.opt e)
  | seq {es : List Expr} (hlength : 2 ≤ es.length) (hes : ∀ e ∈ es, Normal e)
      (hflat : ∀ e ∈ es, e.operator ≠ .sequence ∧ e.isEpsilon = false) (hapart : es.IsChain Apart) :
      Normal (.seq es)
  | alt {es : List Expr} (hlength : 2 ≤ es.length) (hes : ∀ e ∈ es, Normal e)
      (hflat : ∀ e ∈ es, e.operator ≠ .choice) (hnodup : es.Nodup) : Normal (.alt es)

theorem normal_epsilon : Normal epsilon := .sym epsilonSymbol

theorem Normal.of_mem_operands (h : Normal e) {d : Expr} (hd : d ∈ e.operands) : Normal d := by
  cases h with
  | sym c => nomatch hd
  | star he => exact List.mem_singleton.1 hd ▸ he
  | plus he => exact List.mem_singleton.1 hd ▸ he
  | opt he => exact List.mem_singleton.1 hd ▸ he
  | seq _ hes => exact hes d hd
  | alt _ hes => exact hes d hd

theorem Normal.wellFormed (h : Normal e) : e.WellFormed := by
  induction h with
  | sym c => exact wellFormed_sym c
  | star _ _ ih => exact ih
  | plus _ _ _ ih => exact ih
  | opt _ _ _ ih => exact ih
  | seq hlength _ hflat _ ih => exact wellFormed_seq.2 ⟨hlength, fun d hd => (hflat d hd).1, ih⟩
  | alt hlength _ hflat _ ih => exact wellFormed_alt.2 ⟨hlength, hflat, ih⟩

theorem Normal.of_mem_parts {op : Connective} (h : Normal e) {d : Expr}
    (hd : d ∈ parts op e) : Normal d ∧ d.operator ≠ op.operator := by
  refine ⟨?_, (h.wellFormed.of_mem_parts hd).2⟩
  rcases eq_or_mem_operands_of_mem_parts hd with rfl | hd
  · exact h
  · exact h.of_mem_operands hd

/-! ## Choices -/

theorem normal_choiceOf (hne : es ≠ []) (h : ∀ e ∈ es, Normal e) : Normal (choiceOf es) := by
  have hall : ∀ d ∈ distinct (es.flatMap (parts .choice)), Normal d ∧ d.operator ≠ .choice := by
    intro d hd
    obtain ⟨e, he, hde⟩ := List.mem_flatMap.1 (mem_distinct.1 hd)
    exact (h e he).of_mem_parts hde
  have hsome := distinct_parts_ne_nil hne fun e he => (h e he).wellFormed
  rcases join_of_flat .choice hsome fun d hd => (hall d hd).2 with ⟨d, hd, heq⟩ | ⟨hlength, heq⟩
  · rw [choiceOf, heq]
    exact (hall d (hd ▸ List.mem_cons_self)).1
  · rw [choiceOf, heq]
    exact .alt hlength (fun d hd => (hall d hd).1) (fun d hd => (hall d hd).2) (nodup_distinct _)

theorem distinct_eq_self (h : es.Nodup) : distinct es = es := by
  induction es with
  | nil => rfl
  | cons d ds ih =>
      obtain ⟨hd, hds⟩ := List.nodup_cons.1 h
      rw [distinct, ih hds, List.filter_eq_self.2]
      intro c hc
      have hcd : c ≠ d := fun h => hd (h ▸ hc)
      simpa using hcd

/-- Different operands that are no choices themselves stay as they are. -/
theorem choiceOf_eq_alt (hlength : 2 ≤ es.length) (hflat : ∀ e ∈ es, e.operator ≠ .choice)
    (hnodup : es.Nodup) : choiceOf es = alt es := by
  rw [choiceOf, flatMap_parts_of_ne .choice hflat, distinct_eq_self hnodup,
    join_eq_node .choice hlength hflat]
  rfl

theorem hereditary_normal : Hereditary Normal where
  operand h hd := h.of_mem_operands hd
  choiceOf hne h := normal_choiceOf hne h

/-! ## Iterations -/

theorem normal_starOf (h : Normal e) : Normal (starOf e) := by
  rcases hereditary_normal.starOf_eq h with heq | ⟨d, heq, hrepeat, hd⟩
  · exact heq ▸ normal_epsilon
  · exact heq ▸ .star hd hrepeat

theorem normal_plusOf (h : Normal e) : Normal (plusOf e) := by
  cases h with
  | sym c =>
      rw [plusOf]
      split
      · exact .sym c
      · next hc => exact .plus (.sym c) rfl (beq_false_of_ne hc)
  | star he => exact normal_starOf he
  | opt he => exact normal_starOf he
  | plus he hplain hsome => exact .plus he hplain hsome
  | seq hlength hes hflat hapart => exact .plus (.seq hlength hes hflat hapart) rfl rfl
  | alt hlength hes hflat hnodup => exact .plus (.alt hlength hes hflat hnodup) rfl rfl

theorem plusOf_eq_plus (hplain : e.iterated? = none) (hsome : e.isEpsilon = false) :
    plusOf e = plus e := by
  cases e with
  | sym c => rw [plusOf, if_neg (ne_of_beq_false hsome)]
  | seq es => rfl
  | alt es => rfl
  | _ => cases hplain

theorem normal_optOf (h : Normal e) : Normal (optOf e) := by
  unfold optOf
  split
  · exact h
  · next hnull =>
      have hsome := Bool.eq_false_iff.2 hnull
      cases h with
      | plus he => exact normal_starOf he
      | sym c => exact .opt (.sym c) rfl hsome
      | star => exact absurd rfl hnull
      | opt => exact absurd rfl hnull
      | seq hlength hes hflat hapart => exact .opt (.seq hlength hes hflat hapart) rfl hsome
      | alt hlength hes hflat hnodup => exact .opt (.alt hlength hes hflat hnodup) rfl hsome

theorem optOf_eq_opt (hplain : e.iterated? = none) (hsome : e.nullable = false) :
    optOf e = opt e := by
  cases e with
  | plus e => nomatch hplain
  | _ => exact if_neg (Bool.eq_false_iff.1 hsome)

/-! ## Sequences -/

theorem Apart.symm {x y : Expr} (h : Apart x y) : Apart y x := (merge?_comm y x).trans h

/-- An operand is merged until it does not merge with what is before it. -/
theorem isChain_mergeOnto (h : es.IsChain Apart) (e : Expr) : (mergeOnto es e).IsChain Apart := by
  induction es generalizing e with
  | nil => exact .singleton e
  | cons last before ih =>
      rw [mergeOnto]
      split
      · next merged _ => exact ih h.tail merged
      · next hnone => exact List.isChain_cons_cons.2 ⟨Apart.symm hnone, h⟩

theorem isChain_mergeAll (es : List Expr) : (mergeAll es).IsChain Apart :=
  List.foldlRecOn (motive := fun before => before.IsChain Apart) es mergeOnto .nil
    fun _ hbefore e _ => isChain_mergeOnto hbefore e

theorem foldl_mergeOnto_eq {before : List Expr} (h : es.IsChain Apart)
    (hbefore : ∀ last ∈ before.head?, ∀ e ∈ es.head?, Apart last e) :
    es.foldl mergeOnto before = es.reverse ++ before := by
  induction es generalizing before with
  | nil => rfl
  | cons e es ih =>
      obtain ⟨he, hes⟩ := List.isChain_cons.1 h
      have hkeep : mergeOnto before e = e :: before := by
        cases before with
        | nil => rfl
        | cons last before =>
            have hnone : merge? last e = none := hbefore last rfl e rfl
            rw [mergeOnto, hnone]
      have hnext : ∀ last ∈ (e :: before).head?, ∀ d ∈ es.head?, Apart last d := by
        intro last hlast d hd
        obtain rfl := Option.some.inj hlast
        exact he d hd
      rw [List.foldl_cons, hkeep, ih hes hnext, List.reverse_cons, List.append_assoc,
        List.singleton_append]

/-- Where no neighbours merge, reading the operands only turns them round. -/
theorem mergeAll_eq_reverse (h : es.IsChain Apart) : mergeAll es = es.reverse := by
  have hnone : ∀ last ∈ ([] : List Expr).head?, ∀ e ∈ es.head?, Apart last e :=
    fun _ hlast => by cases hlast
  exact (foldl_mergeOnto_eq h hnone).trans (List.append_nil _)

/-- Nothing is left to merge after reading the operands once: the second reading restores
their order. -/
theorem mergeBoth_eq_reverse (es : List Expr) : mergeBoth es = (mergeAll es).reverse :=
  mergeAll_eq_reverse (isChain_mergeAll es)

theorem normal_of_merge? {x y z : Expr} (h : merge? x y = some z)
    (hx : Normal x ∧ x.operator ≠ .sequence ∧ x.isEpsilon = false)
    (hy : Normal y ∧ y.operator ≠ .sequence ∧ y.isEpsilon = false) :
    Normal z ∧ z.operator ≠ .sequence ∧ z.isEpsilon = false := by
  have hplus : ∀ {d : Expr}, Normal (star d) → Normal (plus d) := by
    intro d hd
    cases hd with
    | star hd hrepeat => exact .plus hd hrepeat.iterated?_eq_none hrepeat.isEpsilon_eq_false
  rcases merge?_eq_some h with rfl | rfl | ⟨rfl, rfl⟩ | ⟨rfl, rfl⟩
  · exact hx
  · exact hy
  · exact ⟨hplus hx.1, nofun, rfl⟩
  · exact ⟨hplus hy.1, nofun, rfl⟩

theorem normal_join_mergeBoth (hne : es ≠ [])
    (h : ∀ e ∈ es, Normal e ∧ e.operator ≠ .sequence ∧ e.isEpsilon = false) :
    Normal (join .sequence (mergeBoth es)) := by
  have hall := forall_mem_mergeBoth normal_of_merge? h
  have hapart : (mergeBoth es).IsChain Apart := by
    rw [mergeBoth_eq_reverse]
    exact List.isChain_reverse.2 ((isChain_mergeAll es).imp fun _ _ => Apart.symm)
  rcases join_of_flat .sequence (mergeBoth_ne_nil hne) fun d hd => (hall d hd).2.1 with
    ⟨d, hd, heq⟩ | ⟨hlength, heq⟩
  · rw [heq]
    exact (hall d (hd ▸ List.mem_cons_self)).1
  · rw [heq]
    exact .seq hlength (fun d hd => (hall d hd).1) (fun d hd => (hall d hd).2) hapart

theorem normal_sequenceOf (h : ∀ e ∈ es, Normal e) : Normal (sequenceOf es) := by
  unfold sequenceOf
  split
  · exact normal_epsilon
  · next hne =>
      refine normal_join_mergeBoth hne fun d hd => ?_
      obtain ⟨hd, hsome⟩ := List.mem_filter.1 hd
      obtain ⟨e, he, hde⟩ := List.mem_flatMap.1 hd
      obtain ⟨hnormal, hseq⟩ := (h e he).of_mem_parts hde
      exact ⟨hnormal, hseq, by simpa using hsome⟩

/-- Operands that do not merge and are neither sequences nor empty stay as they are. -/
theorem sequenceOf_eq_seq (hlength : 2 ≤ es.length)
    (hflat : ∀ e ∈ es, e.operator ≠ .sequence ∧ e.isEpsilon = false) (hapart : es.IsChain Apart) :
    sequenceOf es = seq es := by
  have hseq : ∀ e ∈ es, e.operator ≠ .sequence := fun e he => (hflat e he).1
  have hkeep : (es.flatMap (parts .sequence)).filter (fun e => !e.isEpsilon) = es := by
    rw [flatMap_parts_of_ne .sequence hseq, List.filter_eq_self]
    exact fun e he => by rw [(hflat e he).2]; rfl
  have hmerge : mergeBoth es = es := by
    rw [mergeBoth_eq_reverse, mergeAll_eq_reverse hapart, List.reverse_reverse]
  unfold sequenceOf
  rw [hkeep]
  split
  · exact absurd hlength (by decide)
  · rw [hmerge, join_eq_node .sequence hlength hseq]
    rfl

/-! ## Whole expressions -/

/-- Simplifying all levels of a well-formed expression leaves nothing redundant. -/
theorem normal_simplifyTo (he : e.WellFormed) {n : Nat} (hn : e.depth < n) :
    Normal (simplifyTo n e) := by
  induction n generalizing e with
  | zero => exact absurd hn (Nat.not_lt_zero _)
  | succ n ih =>
      have hoperand : ∀ {d : Expr}, d ∈ e.operands → Normal (simplifyTo n d) := fun hd =>
        ih (he.of_mem_operands hd)
          (Nat.lt_of_lt_of_le (depth_lt_of_mem_operands hd) (Nat.le_of_lt_succ hn))
      cases e with
      | sym c => rw [simplifyTo_sym]; exact .sym c
      | star e => exact normal_starOf (hoperand List.mem_cons_self)
      | plus e => exact normal_plusOf (hoperand List.mem_cons_self)
      | opt e => exact normal_optOf (hoperand List.mem_cons_self)
      | seq es =>
          rw [simplifyTo_succ_seq]
          exact normal_sequenceOf (List.forall_mem_map.2 fun d hd => hoperand hd)
      | alt es =>
          rw [simplifyTo_succ_alt]
          exact normal_choiceOf (by simpa using ne_nil_of_wellFormed_node .choice he)
            (List.forall_mem_map.2 fun d hd => hoperand hd)

/-- There is nothing to simplify in a normal expression. -/
theorem Normal.simplifyTo_eq (h : Normal e) (n : Nat) : simplifyTo n e = e := by
  induction n generalizing e with
  | zero => exact simplifyTo_zero e
  | succ n ih =>
      have hmap : ∀ {es : List Expr}, (∀ e ∈ es, Normal e) → es.map (simplifyTo n) = es :=
        fun hes => (List.map_congr_left fun d hd => ih (hes d hd)).trans (List.map_id' _)
      cases h with
      | sym c => exact simplifyTo_sym _ c
      | star he hrepeat => rw [simplifyTo_succ_star, ih he, starOf_of_repeatable hrepeat]
      | plus he hplain hsome => rw [simplifyTo_succ_plus, ih he, plusOf_eq_plus hplain hsome]
      | opt he hplain hsome => rw [simplifyTo_succ_opt, ih he, optOf_eq_opt hplain hsome]
      | seq hlength hes hflat hapart =>
          rw [simplifyTo_succ_seq, hmap hes, sequenceOf_eq_seq hlength hflat hapart]
      | alt hlength hes hflat hnodup =>
          rw [simplifyTo_succ_alt, hmap hes, choiceOf_eq_alt hlength hflat hnodup]

/-- Simplifying a well-formed expression twice is the same as simplifying it once. -/
theorem simplify_simplify (he : e.WellFormed) : e.simplify.simplify = e.simplify :=
  (normal_simplifyTo he (Nat.lt_succ_self _)).simplifyTo_eq _

/-- The case of `(a*(b?c*)+|a+)*`, in which one rule makes room for the next. -/
theorem simplify_simplify_nested :
    (star (alt [seq [star (.sym 'a'), plus (seq [opt (.sym 'b'), star (.sym 'c')])],
        plus (.sym 'a')])).WellFormed ∧
      (star (alt [seq [star (.sym 'a'), plus (seq [opt (.sym 'b'), star (.sym 'c')])],
          plus (.sym 'a')])).simplify.simplify =
        (star (alt [seq [star (.sym 'a'), plus (seq [opt (.sym 'b'), star (.sym 'c')])],
          plus (.sym 'a')])).simplify :=
  ⟨by decide, simplify_simplify (by decide)⟩

end Expr

end RegularForms
