import RegularForms.Proofs.Expr.Simplify

/-!
# Simplification keeps expressions well formed

A property is `Hereditary` when an expression passes it on to its operands, and operands
to the choice between them. That is all that the construction of a star needs to keep a
property, because it only ever takes operands apart and makes choices of them. What it
ends with is an empty word or a star over something `Repeatable`, of which no iteration
can be taken off any more.

Well-formedness is hereditary, and neighbours that are well formed merge into something
well formed. So simplification to any depth keeps it, and with it the guarantee that
nothing is ever joined out of no operands at all.
-/

namespace RegularForms

namespace Expr

variable {P : Expr → Prop} {e : Expr} {es : List Expr}

/-! ## Taking operands apart -/

/-- A property that passes to the operands of an expression and to choices. -/
structure Hereditary (P : Expr → Prop) : Prop where
  operand : ∀ {e d : Expr}, P e → d ∈ e.operands → P d
  choiceOf : ∀ {es : List Expr}, es ≠ [] → (∀ e ∈ es, P e) → P (choiceOf es)

/-- A star over the expression is not simplified any further. -/
def Repeatable : Expr → Prop
  | sym c => c ≠ epsilonSymbol
  | star _ | plus _ | opt _ => False
  | seq es => ¬ es.all nullable = true
  | alt es => ¬ (es.any fun e => e.iterated?.isSome || e.isEpsilon) = true

theorem starOf_of_repeatable (h : e.Repeatable) : starOf e = star e := by
  cases e with
  | sym c => rw [starOf, if_neg h]
  | seq es => rw [starOf, if_neg h]
  | alt es => rw [starOf, if_neg h]
  | _ => exact h.elim

theorem Repeatable.iterated?_eq_none (h : e.Repeatable) : e.iterated? = none := by
  cases e with
  | sym c => rfl
  | seq es => rfl
  | alt es => rfl
  | _ => exact h.elim

theorem Repeatable.isEpsilon_eq_false (h : e.Repeatable) : e.isEpsilon = false := by
  cases e with
  | sym c => exact beq_false_of_ne h
  | _ => rfl

theorem Hereditary.bare (hP : Hereditary P) (h : P e) : P e.bare := by
  induction e using ind with
  | sym c => exact h
  | star e ih => exact ih (hP.operand h List.mem_cons_self)
  | plus e ih => exact ih (hP.operand h List.mem_cons_self)
  | opt e ih => exact ih (hP.operand h List.mem_cons_self)
  | seq es => exact h
  | alt es => exact h

theorem Hereditary.starOperands (hP : Hereditary P) (h : ∀ e ∈ es, P e) :
    ∀ d ∈ starOperands es, P d := by
  intro d hd
  obtain ⟨e, he, rfl⟩ := List.mem_map.1 hd
  exact hP.bare (h e (List.mem_of_mem_filter he))

/-- The star of an expression is the empty word, or a star over something that has every
hereditary property of the expression. -/
theorem Hereditary.starOf_eq (hP : Hereditary P) (h : P e) :
    starOf e = epsilon ∨ ∃ d, starOf e = star d ∧ d.Repeatable ∧ P d := by
  have done : ∀ {d : Expr}, d.Repeatable → P d →
      starOf d = epsilon ∨ ∃ c, starOf d = star c ∧ c.Repeatable ∧ P c := fun hd hPd =>
    .inr ⟨_, starOf_of_repeatable hd, hd, hPd⟩
  induction e using starOf.induct with
  | case1 => exact .inl (by rw [starOf, if_pos rfl]; rfl)
  | case2 c hc => exact done hc h
  | case3 e ih => rw [starOf]; exact ih (hP.operand h List.mem_cons_self)
  | case4 e ih => rw [starOf]; exact ih (hP.operand h List.mem_cons_self)
  | case5 e ih => rw [starOf]; exact ih (hP.operand h List.mem_cons_self)
  | case6 es hnull hes => exact .inl (by rw [starOf, if_pos hnull, if_pos hes])
  | case7 es hnull hes ih =>
      rw [starOf, if_pos hnull, if_neg hes]
      exact ih (hP.choiceOf hes (hP.starOperands fun _ => hP.operand h))
  | case8 es hnull => exact done hnull h
  | case9 es hany hes => exact .inl (by rw [starOf, if_pos hany, if_pos hes])
  | case10 es hany hes ih =>
      rw [starOf, if_pos hany, if_neg hes]
      exact ih (hP.choiceOf hes (hP.starOperands fun _ => hP.operand h))
  | case11 es hany => exact done hany h

/-! ## Merging -/

theorem forall_mem_mergeOnto (hP : ∀ {x y z}, merge? x y = some z → P x → P y → P z)
    (h : ∀ d ∈ es, P d) (he : P e) : ∀ d ∈ mergeOnto es e, P d := by
  induction es generalizing e with
  | nil => exact List.forall_mem_singleton.2 he
  | cons last before ih =>
      obtain ⟨hlast, hbefore⟩ := List.forall_mem_cons.1 h
      rw [mergeOnto]
      split
      · next merged hm => exact ih hbefore (hP hm hlast he)
      · exact List.forall_mem_cons.2 ⟨he, h⟩

/-- What two neighbours that merge both have, and what they merge into has too, all
operands have after merging. -/
theorem forall_mem_mergeAll (hP : ∀ {x y z}, merge? x y = some z → P x → P y → P z)
    (h : ∀ e ∈ es, P e) : ∀ e ∈ mergeAll es, P e :=
  List.foldlRecOn (motive := fun before => ∀ d ∈ before, P d) es mergeOnto
    (List.forall_mem_nil _) fun _ hbefore e he => forall_mem_mergeOnto hP hbefore (h e he)

theorem forall_mem_mergeBoth (hP : ∀ {x y z}, merge? x y = some z → P x → P y → P z)
    (h : ∀ e ∈ es, P e) : ∀ e ∈ mergeBoth es, P e :=
  forall_mem_mergeAll hP (forall_mem_mergeAll hP h)

/-- Two iterations of one expression that join are one of the two. -/
theorem join?_eq_some {i j k : Iteration} (h : i.join? j = some k) : k = i ∨ k = j := by
  cases i <;> cases j <;> cases h <;> simp

/-- Neighbours that merge are merged into one of the two, or an expression beside its own
star into its plus. -/
theorem merge?_eq_some {x y z : Expr} (h : merge? x y = some z) :
    z = x ∨ z = y ∨ (x = star y ∧ z = plus y) ∨ (y = star x ∧ z = plus x) := by
  unfold merge? at h
  split at h
  · next i c j d hx hy =>
      obtain rfl := iterated?_eq_some_iff.1 hx
      obtain rfl := iterated?_eq_some_iff.1 hy
      split at h
      · next hcd =>
          obtain ⟨k, hk, rfl⟩ := Option.map_eq_some_iff.1 h
          rcases join?_eq_some hk with rfl | rfl
          · exact .inl rfl
          · exact .inr (.inl (congrArg _ hcd))
      · nomatch h
  · split at h
    · next hx => exact .inr (.inr (.inl ⟨hx, (Option.some.inj h).symm⟩))
    · split at h
      · next hy => exact .inr (.inr (.inr ⟨hy, (Option.some.inj h).symm⟩))
      · nomatch h

/-! ## Well-formed expressions -/

theorem distinct_parts_ne_nil (hne : es ≠ []) (h : ∀ e ∈ es, e.WellFormed) :
    distinct (es.flatMap (parts .choice)) ≠ [] := by
  obtain ⟨e, he⟩ := List.exists_mem_of_ne_nil es hne
  obtain ⟨d, hd⟩ := List.exists_mem_of_ne_nil _ ((h e he).parts_ne_nil .choice)
  exact List.ne_nil_of_mem (mem_distinct.2 (List.mem_flatMap.2 ⟨e, he, hd⟩))

theorem wellFormed_choiceOf (hne : es ≠ []) (h : ∀ e ∈ es, e.WellFormed) :
    (choiceOf es).WellFormed := by
  refine wellFormed_join .choice (distinct_parts_ne_nil hne h) fun d hd => ?_
  obtain ⟨e, he, hde⟩ := List.mem_flatMap.1 (mem_distinct.1 hd)
  exact ((h e he).of_mem_parts hde).1

theorem hereditary_wellFormed : Hereditary WellFormed where
  operand h hd := h.of_mem_operands hd
  choiceOf hne h := wellFormed_choiceOf hne h

theorem wellFormed_starOf (h : e.WellFormed) : (starOf e).WellFormed := by
  rcases hereditary_wellFormed.starOf_eq h with heq | ⟨d, heq, -, hd⟩
  · exact heq ▸ wellFormed_epsilon
  · exact heq ▸ hd

theorem wellFormed_plusOf (h : e.WellFormed) : (plusOf e).WellFormed := by
  cases e with
  | sym c => rw [plusOf]; split <;> exact trivial
  | star e => exact wellFormed_starOf h
  | opt e => exact wellFormed_starOf h
  | _ => exact h

theorem wellFormed_optOf (h : e.WellFormed) : (optOf e).WellFormed := by
  unfold optOf
  split
  · exact h
  · split
    · next d => exact wellFormed_starOf h
    · exact h

theorem wellFormed_of_merge? {x y z : Expr} (h : merge? x y = some z) (hx : x.WellFormed)
    (hy : y.WellFormed) : z.WellFormed := by
  rcases merge?_eq_some h with rfl | rfl | ⟨-, rfl⟩ | ⟨-, rfl⟩
  · exact hx
  · exact hy
  · exact hy
  · exact hx

theorem wellFormed_sequenceOf (h : ∀ e ∈ es, e.WellFormed) : (sequenceOf es).WellFormed := by
  unfold sequenceOf
  split
  · exact wellFormed_epsilon
  · next flat hne =>
      refine wellFormed_join .sequence (mergeBoth_ne_nil hne)
        (forall_mem_mergeBoth wellFormed_of_merge? fun d hd => ?_)
      obtain ⟨e, he, hde⟩ := List.mem_flatMap.1 (List.mem_of_mem_filter hd)
      exact ((h e he).of_mem_parts hde).1

/-- Simplifying the top levels of a well-formed expression keeps it well formed. -/
theorem WellFormed.simplifyTo (h : e.WellFormed) (n : Nat) : (simplifyTo n e).WellFormed := by
  induction n generalizing e with
  | zero => rwa [simplifyTo_zero]
  | succ n ih =>
      cases e with
      | sym c => rwa [simplifyTo_sym]
      | star e => exact wellFormed_starOf (ih h)
      | plus e => exact wellFormed_plusOf (ih h)
      | opt e => exact wellFormed_optOf (ih h)
      | seq es =>
          rw [simplifyTo_succ_seq]
          exact wellFormed_sequenceOf
            (List.forall_mem_map.2 fun d hd => ih (h.of_mem_operands hd))
      | alt es =>
          rw [simplifyTo_succ_alt]
          exact wellFormed_choiceOf (by simpa using ne_nil_of_wellFormed_node .choice h)
            (List.forall_mem_map.2 fun d hd => ih (h.of_mem_operands hd))

/-- Simplifying a well-formed expression to any depth yields a well-formed expression that
describes the same words, and so does simplifying it as a whole. -/
theorem simplifyTo_equivalent {e : Expr} (he : e.WellFormed) (n : Nat) :
    ((Expr.simplifyTo n e).WellFormed ∧ (Expr.simplifyTo n e).language = e.language) ∧
      e.simplify.WellFormed ∧ e.simplify.language = e.language :=
  ⟨⟨he.simplifyTo n, language_simplifyTo n e⟩, he.simplifyTo _, language_simplify e⟩

/-- The case of `a(b**)`, with the inner star out of reach at depth one. -/
theorem simplifyTo_equivalent_one :
    (seq [.sym 'a', star (star (.sym 'b'))]).WellFormed ∧
      (Expr.simplifyTo 1 (seq [.sym 'a', star (star (.sym 'b'))])).language =
        (seq [.sym 'a', star (star (.sym 'b'))]).language :=
  ⟨by decide, (simplifyTo_equivalent (by decide) 1).1.2⟩

end Expr

end RegularForms
