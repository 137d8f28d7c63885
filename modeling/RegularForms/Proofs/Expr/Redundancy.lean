import Mathlib.Data.List.Duplicate
import RegularForms.Proofs.Expr.Normal

/-!
# What is redundant in an expression

`Normal` is shaped like the constructors of simplified nodes. Here the same is said from
outside: `Redundant` lists the shapes that a node should not have, each with what gives it
away, and `Part` says what stands anywhere in an expression. A well-formed expression is
normal exactly when no part of it is redundant, hence simplification leaves no redundant
part, and it changes every expression that has one.
-/

namespace RegularForms

namespace Expr

variable {d e : Expr} {es : List Expr}

/-- The first expression stands somewhere in the second one, or is all of it. -/
inductive Part : Expr → Expr → Prop
  | self (e : Expr) : Part e e
  | under {d c e : Expr} (hd : Part d c) (hc : c ∈ e.operands) : Part d e

/-- The top of an expression says something that can be said with less. -/
inductive Redundant : Expr → Prop
  | iterated (i j : Iteration) (e : Expr) : Redundant (i.of (j.of e))
  | ofEpsilon (i : Iteration) : Redundant (i.of epsilon)
  | optional {e : Expr} (h : e.nullable = true) : Redundant (.opt e)
  | starOfNullable {es : List Expr} (h : (seq es).nullable = true) : Redundant (.star (.seq es))
  | starOfEpsilon {es : List Expr} (h : epsilon ∈ es) : Redundant (.star (.alt es))
  | starOfIterated {es : List Expr} (i : Iteration) {e : Expr} (h : i.of e ∈ es) :
      Redundant (.star (.alt es))
  | emptyOperand {es : List Expr} (h : epsilon ∈ es) : Redundant (.seq es)
  | neighbours {es : List Expr} {x y z : Expr} (h : [x, y] <:+: es)
      (hmerge : merge? x y = some z) : Redundant (.seq es)
  | repeated {es : List Expr} {e : Expr} (h : List.Duplicate e es) : Redundant (.alt es)

/-! ## Normal expressions -/

theorem Normal.of_part (h : Normal e) (hd : Part d e) : Normal d := by
  induction hd with
  | self => exact h
  | under _ hc ih => exact ih (h.of_mem_operands hc)

theorem Normal.of_iteration {i : Iteration} (h : Normal (i.of d)) :
    d.iterated? = none ∧ d.isEpsilon = false := by
  cases i with
  | star =>
      cases h with
      | star _ hrepeat => exact ⟨hrepeat.iterated?_eq_none, hrepeat.isEpsilon_eq_false⟩
  | plus =>
      cases h with
      | plus _ hplain hsome => exact ⟨hplain, hsome⟩
  | option =>
      cases h with
      | opt _ hplain hsome =>
          refine ⟨hplain, Bool.eq_false_iff.2 fun heps => ?_⟩
          exact Bool.eq_false_iff.1 hsome (isEpsilon_iff.1 heps ▸ rfl)

/-- No shape of the list is the top of a normal expression. -/
theorem Normal.not_redundant (h : Normal e) : ¬ Redundant e := by
  intro hr
  cases hr with
  | iterated i j d =>
      have hplain := h.of_iteration.1
      rw [iterated?_of] at hplain
      nomatch hplain
  | ofEpsilon i => exact absurd h.of_iteration.2 (by decide)
  | optional hnull =>
      cases h with
      | opt _ _ hsome => exact Bool.eq_false_iff.1 hsome hnull
  | starOfNullable hnull =>
      cases h with
      | star _ hrepeat => exact hrepeat (nullable_seq _ ▸ hnull)
  | starOfEpsilon hmem =>
      cases h with
      | star _ hrepeat => exact hrepeat (List.any_eq_true.2 ⟨_, hmem, rfl⟩)
  | starOfIterated i hmem =>
      cases h with
      | star _ hrepeat =>
          exact hrepeat (List.any_eq_true.2 ⟨_, hmem, by rw [iterated?_of]; rfl⟩)
  | emptyOperand hmem =>
      cases h with
      | seq _ _ hflat _ => exact absurd (hflat _ hmem).2 (by decide)
  | neighbours hpair hmerge =>
      cases h with
      | seq _ _ _ hapart =>
          have hchain := List.IsChain.infix hapart hpair
          have hnone : Apart _ _ := List.isChain_pair.1 hchain
          rw [Apart, hmerge] at hnone
          nomatch hnone
  | repeated hdup =>
      cases h with
      | alt _ _ _ hnodup => exact List.Duplicate.not_nodup hdup hnodup

/-! ## Expressions without redundant parts -/

theorem iterated?_eq_none_of_not_redundant {i : Iteration} (h : ¬ Redundant (i.of d)) :
    d.iterated? = none := by
  cases hd : d.iterated? with
  | none => rfl
  | some p =>
      obtain rfl := iterated?_eq_some_iff.1 hd
      exact absurd (.iterated i p.1 p.2) h

theorem isEpsilon_eq_false_of_not_redundant {i : Iteration} (h : ¬ Redundant (i.of d)) :
    d.isEpsilon = false :=
  Bool.eq_false_iff.2 fun hd => h (isEpsilon_iff.1 hd ▸ .ofEpsilon i)

theorem repeatable_of_not_redundant (h : ¬ Redundant (.star d)) : d.Repeatable := by
  cases d with
  | sym c => exact fun hc => h (hc ▸ .ofEpsilon .star)
  | star d => exact h (.iterated .star .star d)
  | plus d => exact h (.iterated .star .plus d)
  | opt d => exact h (.iterated .star .option d)
  | seq es => exact fun hnull => h (.starOfNullable (nullable_seq es ▸ hnull))
  | alt es =>
      intro hany
      obtain ⟨c, hc, hkind⟩ := List.any_eq_true.1 hany
      rcases (Bool.or_eq_true _ _).mp hkind with hiter | heps
      · obtain ⟨p, hp⟩ := Option.isSome_iff_exists.1 hiter
        obtain rfl := iterated?_eq_some_iff.1 hp
        exact h (.starOfIterated p.1 hc)
      · exact h (.starOfEpsilon (isEpsilon_iff.1 heps ▸ hc))

theorem isChain_apart_of_not_redundant (h : ¬ Redundant (.seq es)) : es.IsChain Apart := by
  refine List.isChain_iff_forall_rel_of_append_cons_cons.2 fun x y before after hes => ?_
  cases hmerge : merge? x y with
  | none => exact hmerge
  | some z => exact absurd (.neighbours ⟨before, after, by simp [hes]⟩ hmerge) h

/-- Where no part is redundant, the side conditions of `Normal` hold at every node. -/
theorem normal_of_not_redundant (he : e.WellFormed)
    (h : ∀ d, Part d e → ¬ Redundant d) : Normal e := by
  induction e using ind with
  | sym c => exact .sym c
  | star e ih =>
      have hbelow := ih he fun d hd => h d (.under hd List.mem_cons_self)
      exact .star hbelow (repeatable_of_not_redundant (h _ (.self _)))
  | plus e ih =>
      have hbelow := ih he fun d hd => h d (.under hd List.mem_cons_self)
      have htop : ¬ Redundant (Iteration.plus.of e) := h _ (.self _)
      exact .plus hbelow (iterated?_eq_none_of_not_redundant htop)
        (isEpsilon_eq_false_of_not_redundant htop)
  | opt e ih =>
      have hbelow := ih he fun d hd => h d (.under hd List.mem_cons_self)
      have htop : ¬ Redundant (Iteration.option.of e) := h _ (.self _)
      exact .opt hbelow (iterated?_eq_none_of_not_redundant htop)
        (Bool.eq_false_iff.2 fun hnull => htop (.optional hnull))
  | seq es ih =>
      obtain ⟨hlength, hflat, hes⟩ := wellFormed_seq.1 he
      have htop := h _ (.self _)
      refine .seq hlength (fun c hc => ih c hc (hes c hc) fun d hd => h d (.under hd hc))
        (fun c hc => ⟨hflat c hc, Bool.eq_false_iff.2 fun heps => ?_⟩)
        (isChain_apart_of_not_redundant htop)
      exact htop (.emptyOperand (isEpsilon_iff.1 heps ▸ hc))
  | alt es ih =>
      obtain ⟨hlength, hflat, hes⟩ := wellFormed_alt.1 he
      refine .alt hlength (fun c hc => ih c hc (hes c hc) fun d hd => h d (.under hd hc)) hflat
        (List.nodup_iff_forall_not_duplicate.2 fun c hc => ?_)
      exact h _ (.self _) (.repeated hc)

/-- Normal expressions are the well-formed ones without a redundant part. -/
theorem normal_iff_not_redundant :
    Normal e ↔ e.WellFormed ∧ ∀ d, Part d e → ¬ Redundant d :=
  ⟨fun h => ⟨h.wellFormed, fun _ hd => (h.of_part hd).not_redundant⟩,
    fun ⟨he, h⟩ => normal_of_not_redundant he h⟩

/-- Simplification leaves an expression as it is exactly when nothing in it is redundant. -/
theorem simplify_eq_self_iff (he : e.WellFormed) :
    e.simplify = e ↔ ∀ d, Part d e → ¬ Redundant d := by
  constructor
  · intro heq d hd
    have hnormal : Normal e := heq ▸ normal_simplifyTo he (Nat.lt_succ_self _)
    exact (hnormal.of_part hd).not_redundant
  · exact fun h => (normal_of_not_redundant he h).simplifyTo_eq _

/-- `((a?(b+)*)?|ε|(cc*c?)**)*`, redundant in several ways, of which some appear only when
others are gone. -/
def layered : Expr :=
  star (alt [opt (seq [opt (.sym 'a'), star (plus (.sym 'b'))]), epsilon,
    star (star (seq [.sym 'c', star (.sym 'c'), opt (.sym 'c')]))])

/-- What is left is `(a?b*|c)*`. -/
theorem simplify_layered :
    layered.simplify = star (alt [seq [opt (.sym 'a'), star (.sym 'b')], .sym 'c']) := by
  cbv

/-- No part of a simplified expression is redundant. -/
theorem not_redundant_of_part_simplify (he : e.WellFormed) (hd : Part d e.simplify) :
    ¬ Redundant d :=
  ((normal_simplifyTo he (Nat.lt_succ_self _)).of_part hd).not_redundant

/-- The case of `a?b*`, in which both operands may be empty, below the star of `(a?b*|c)*`. -/
theorem not_redundant_of_part_simplify_layered :
    layered.WellFormed ∧ Part (seq [opt (.sym 'a'), star (.sym 'b')]) layered.simplify ∧
      ¬ Redundant (seq [opt (.sym 'a'), star (.sym 'b')]) := by
  have hpart : Part (seq [opt (.sym 'a'), star (.sym 'b')]) layered.simplify := by
    rw [simplify_layered]
    exact .under (.under (.self _) List.mem_cons_self) List.mem_cons_self
  exact ⟨by decide, hpart, not_redundant_of_part_simplify (by decide) hpart⟩

end Expr

end RegularForms
