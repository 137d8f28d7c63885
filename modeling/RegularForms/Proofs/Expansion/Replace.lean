import Mathlib.Algebra.BigOperators.Group.List.Basic
import Mathlib.Algebra.GroupWithZero.Nat
import RegularForms.Expansion.Complete
import RegularForms.Proofs.Automaton.Query
import RegularForms.Proofs.Plan

/-!
# Replacing a transition

Every expansion removes one transition, adds some states and adds transitions along given
arcs. What comes of it, and what it means for the language and for the labels, is said
here for all of them.
-/

namespace RegularForms

namespace Expr

theorem operatorCountList_eq (es : List Expr) :
    operatorCountList es = (es.map operatorCount).sum := by
  induction es with
  | nil => rfl
  | cons e es ih => rw [operatorCountList, ih, List.map_cons, List.sum_cons]

/-- The operator on top of an expression is counted beside those of its operands. -/
theorem operatorCount_eq_sum {e : Expr} (h : e.isSymbol = false) :
    e.operatorCount = (e.operands.map operatorCount).sum + 1 := by
  cases e with
  | sym c => nomatch h
  | star e | plus e | opt e => simp [operatorCount, operands]
  | seq es | alt es => simp [operatorCount, operands, operatorCountList_eq]

end Expr

theorem Automaton.operatorCount_eq_sum (a : Automaton) :
    a.operatorCount = (a.transitions.map fun t => t.label.operatorCount).sum := by
  rw [operatorCount, Expr.operatorCountList_eq, List.map_map]
  rfl

namespace Expansion

open Automaton

variable {a b : Automaton} {u : Transition} {arcs : List (StateId × StateId × Expr)}

theorem labelled_eq (ha : a.Valid) (hu : u ∈ a.transitions) {ops : List Operator}
    (hop : u.label.operator ∈ ops) : a.labelled ops u.id = .ok u := by
  rw [labelled, ha.transition_eq hu]
  exact if_pos hop

/-- A transition is only found for an operator that its label has. -/
theorem exists_of_labelled_eq {ops : List Operator} {t : TransitionId}
    (h : a.labelled ops t = .ok u) :
    u ∈ a.transitions ∧ u.id = t ∧ u.label.operator ∈ ops := by
  obtain ⟨v, hv, h⟩ := bind_eq_ok_iff.1 h
  obtain ⟨hmem, hid⟩ := mem_transitions_of_transition_eq hv
  split at h
  · next hop =>
      obtain rfl := Except.ok.inj h
      exact ⟨hmem, hid, hop⟩
  · nomatch h

def Known (a : Automaton) (states : Nat) (s : StateId) : Prop :=
  s ∈ a.stateIds ∨ s ∈ a.freshIds states

structure Replaced (a : Automaton) (u : Transition)
    (arcs : List (StateId × StateId × Expr)) (b : Automaton) : Prop where
  valid : b.Valid
  rewired : a.Rewired b (· = u) arcs
  accepting_iff : ∀ s, b.accepting s = true ↔ a.accepting s = true

theorem exists_replaced (ha : a.Valid) (hu : u ∈ a.transitions) (purpose : Purpose)
    {states : Nat} (hends : ∀ x ∈ arcs, Known a states x.1 ∧ Known a states x.2.1) :
    ∃ b, (replace a purpose u states arcs).Performs a b ∧ Replaced a u arcs b := by
  have hfits : (replace a purpose u states arcs).edit.Fits
      (replace a purpose u states arcs).graph.outline := by
    show Edit.FitsAll (_ ++ _) _
    rw [Edit.fitsAll_append, Edit.fitsAll_cons, Edit.effectAll_cons, effectAll_freshStates]
    refine ⟨⟨hu, ha.fitsAll_freshStates rfl rfl fun s hs => hs⟩, ?_⟩
    exact ha.fitsAll_freshTransitions rfl rfl (fun t ht => ht.1) hends
  obtain ⟨b, hperforms, hb, hbo⟩ := ha.exists_performs rfl hfits
  have hbo : b.outline = Edit.effectAll (_ ++ _) _ := hbo
  rw [Edit.effectAll_append, Edit.effectAll_cons, effectAll_freshStates,
    Edit.effectAll_addTransition] at hbo
  exact ⟨b, hperforms, hb, ⟨start_of_outline hbo, fun t => mem_transitions_of_outline hbo⟩,
    fun s => accepting_of_outline hbo⟩

namespace Replaced

/-- The language stays when the new transitions can read what the old one read, and a
family of languages bears out that they can read no more. -/
theorem language_eq (h : Replaced a u arcs b) (ha : a.Valid)
    (hlabel : u.label.language * b.languageFrom u.target ≤ b.languageFrom u.source)
    {M : StateId → Language Char} (hold : ∀ s ∈ a.stateIds, a.languageFrom s ≤ M s)
    (htarget : ∀ t ∈ a.transitions, t ≠ u → M t.target ≤ a.languageFrom t.target)
    (hstart : M a.start ≤ a.languageFrom a.start)
    (harcs : ∀ x ∈ arcs, x.2.2.language * M x.2.1 ≤ M x.1) : b.language = a.language := by
  have hle : b.languageFrom a.start ≤ M a.start := by
    refine h.rewired.languageFrom_le (fun s hs => ?_) (fun t ht hne => ?_) harcs a.start
    · have hacc := (h.accepting_iff s).1 hs
      exact (one_le_languageFrom hacc).trans (hold s (ha.mem_stateIds_of_accepting hacc))
    · calc t.label.language * M t.target
          ≤ t.label.language * a.languageFrom t.target := mul_le_mul_right (htarget t ht hne) _
        _ ≤ a.languageFrom t.source := label_mul_languageFrom_le ht
        _ ≤ M t.source := hold t.source (ha.source_mem ht)
  have hge : a.languageFrom a.start ≤ b.languageFrom a.start := by
    refine languageFrom_le (fun s hs => ?_) (fun t ht => ?_) a.start
    · exact one_le_languageFrom ((h.accepting_iff s).2 hs)
    · by_cases htu : t = u
      · rw [htu]
        exact hlabel
      · exact h.rewired.stay_mul_languageFrom_le ht htu
  rw [language, language, h.rewired.start_eq]
  exact le_antisymm (hle.trans hstart) hge

/-- The new labels have all operators but one of the old one, when they are its operands
and otherwise `ε`. -/
theorem operatorCount_succ (h : Replaced a u arcs b) (ha : a.Valid) (hu : u ∈ a.transitions)
    (hsym : u.label.isSymbol = false) {k : Nat}
    (hlabels : (arcs.map fun x => x.2.2).Perm (List.replicate k .epsilon ++ u.label.operands)) :
    b.operatorCount + 1 = a.operatorCount := by
  have hperm := (h.rewired.perm_transitions ha h.valid).map fun t => t.label.operatorCount
  have hfresh : ((a.freshTransitions arcs).map fun t => t.label.operatorCount).sum =
      (u.label.operands.map Expr.operatorCount).sum := by
    have harcs := congrArg (List.map fun x => x.2.2.operatorCount)
      (map_arc_freshTransitions (a := a) arcs)
    rw [List.map_map] at harcs
    have hcount := (hlabels.map Expr.operatorCount).sum_eq
    rw [List.map_map, List.map_append, List.sum_append, List.map_replicate] at hcount
    have hzero : Expr.epsilon.operatorCount = 0 := rfl
    rw [hzero, List.sum_replicate_nat, Nat.mul_zero, Nat.zero_add] at hcount
    exact (congrArg List.sum harcs).trans hcount
  have hfilter : a.transitions.erase u = a.transitions.filter fun t => ¬ t = u := by
    rw [ha.nodup_transitions.erase_eq_filter]
    exact List.filter_congr fun t _ => by simp [bne, Bool.beq_eq_decide_eq]
  calc b.operatorCount + 1
      = ((a.transitions.erase u).map fun t => t.label.operatorCount).sum +
          (u.label.operands.map Expr.operatorCount).sum + 1 := by
        rw [Automaton.operatorCount_eq_sum, hperm.sum_eq, List.map_append, List.sum_append, hfresh,
          hfilter]
    _ = ((a.transitions.erase u).map fun t => t.label.operatorCount).sum +
          u.label.operatorCount := by
        rw [Expr.operatorCount_eq_sum hsym, Nat.add_assoc]
    _ = a.operatorCount := by
        rw [Automaton.operatorCount_eq_sum, Nat.add_comm]
        exact List.sum_map_erase (fun t : Transition => t.label.operatorCount) hu

theorem wellFormed (h : Replaced a u arcs b) (hu : u ∈ a.transitions)
    (hw : ∀ t ∈ a.transitions, t.label.WellFormed) {k : Nat}
    (hlabels : (arcs.map fun x => x.2.2).Perm (List.replicate k .epsilon ++ u.label.operands)) :
    ∀ t ∈ b.transitions, t.label.WellFormed := by
  refine h.rewired.forall_label hw fun x hx => ?_
  have hmem := hlabels.mem_iff.1 (List.mem_map_of_mem (f := fun x => x.2.2) hx)
  rcases List.mem_append.1 hmem with hmem | hmem
  · rw [List.eq_of_mem_replicate hmem]
    exact Expr.wellFormed_epsilon
  · exact (hw u hu).of_mem_operands hmem

end Replaced

/-- An expansion has been made that keeps the language and takes an operator out of the
labels. -/
structure Expanded (a b : Automaton) : Prop where
  valid : b.Valid
  wellFormed : ∀ t ∈ b.transitions, t.label.WellFormed
  language_eq : b.language = a.language
  operatorCount_succ : b.operatorCount + 1 = a.operatorCount

theorem Expanded.operatorCount_lt (h : Expanded a b) : b.operatorCount < a.operatorCount :=
  Nat.lt_of_succ_le h.operatorCount_succ.le

theorem Replaced.expanded (h : Replaced a u arcs b) (ha : a.Valid) (hu : u ∈ a.transitions)
    (hw : ∀ t ∈ a.transitions, t.label.WellFormed) (hsym : u.label.isSymbol = false) {k : Nat}
    (hlabels : (arcs.map fun x => x.2.2).Perm (List.replicate k .epsilon ++ u.label.operands))
    (hlanguage : b.language = a.language) : Expanded a b where
  valid := h.valid
  wellFormed := h.wellFormed hu hw hlabels
  language_eq := hlanguage
  operatorCount_succ := h.operatorCount_succ ha hu hsym hlabels

end Expansion

end RegularForms
