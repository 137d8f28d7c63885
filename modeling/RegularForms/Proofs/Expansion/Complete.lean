import RegularForms.Proofs.Automaton.Accept
import RegularForms.Proofs.Automaton.Ledger
import RegularForms.Proofs.Expansion.Loop

/-!
# Expanding every label

As long as some label is compound there is an expansion to be made, which takes an operator
out of the labels and keeps the language. So `expandAll` ends with single symbols for
labels, and with the language it began with.
-/

namespace RegularForms

namespace Expansion

open Automaton Rewriting

variable {a : Automaton} {u : Transition}

/-- What holds of the expansion for each operator holds of the one that a compound label gets. -/
theorem exists_plan?_of_operators {P : Plan → Prop} (ha : a.Valid) (hu : u ∈ a.transitions)
    (hsym : u.label.isSymbol = false)
    (hchoice : ∀ es, u.label = .alt es → ∃ p, choice u.id a = .ok p ∧ P p)
    (hsequence : ∀ es, u.label = .seq es → ∃ p, sequence u.id a = .ok p ∧ P p)
    (hoption : ∀ e, u.label = .opt e → ∃ p, option u.id a = .ok p ∧ P p)
    (hiteration : ∀ e required, IteratedLabel u e → a.requiredIsolation u = .ok required →
      ∃ p, iteration required u.id a = .ok p ∧ P p) :
    ∃ p, plan? u.id a = .ok (some p) ∧ P p := by
  have hplan : ∀ {x : Except Error Plan}, plan? u.id a = some <$> x → (∃ p, x = .ok p ∧ P p) →
      ∃ p, plan? u.id a = .ok (some p) ∧ P p := by
    rintro x heq ⟨p, rfl, hp⟩
    exact ⟨p, heq, hp⟩
  have hloop : ∀ e, IteratedLabel u e → ∃ p, plan? u.id a = .ok (some p) ∧ P p := by
    intro e hlabel
    obtain ⟨required, hrequired⟩ : ∃ r, a.requiredIsolation u = .ok r :=
      ⟨_, requiredIsolation_eq ha hu⟩
    refine hplan ?_ (hiteration e required hlabel hrequired)
    rw [plan?, ha.transition_eq hu]
    rcases hlabel with h | h <;>
    · simp only [h, Expr.operator, bind, Except.bind, hrequired]
  have hfound := ha.transition_eq hu
  cases hlabel : u.label with
  | sym c =>
      rw [hlabel] at hsym
      cases hsym
  | star e => exact hloop e (.inl hlabel)
  | plus e => exact hloop e (.inr hlabel)
  | opt e =>
      refine hplan ?_ (hoption e hlabel)
      simp only [plan?, hfound, hlabel, Expr.operator, bind, Except.bind]
  | seq es =>
      refine hplan ?_ (hsequence es hlabel)
      simp only [plan?, hfound, hlabel, Expr.operator, bind, Except.bind]
  | alt es =>
      refine hplan ?_ (hchoice es hlabel)
      simp only [plan?, hfound, hlabel, Expr.operator, bind, Except.bind]

/-- A compound label can be expanded. -/
theorem exists_plan? (ha : a.Valid) (hw : ∀ t ∈ a.transitions, t.label.WellFormed)
    (hu : u ∈ a.transitions) (hsym : u.label.isSymbol = false) :
    ∃ p, plan? u.id a = .ok (some p) ∧ ∃ b, p.Performs a b ∧ Expanded a b := by
  refine exists_plan?_of_operators ha hu hsym (fun es hlabel => ?_) (fun es hlabel => ?_)
    (fun e hlabel => ?_) fun e required hlabel hrequired => ?_
  · obtain ⟨p, b, hp, hb⟩ := exists_choice ha hu hw hlabel
    exact ⟨p, hp, b, hb⟩
  · obtain ⟨p, b, hp, hb⟩ := exists_sequence ha hu hw hlabel
    exact ⟨p, hp, b, hb⟩
  · obtain ⟨p, b, hp, hb⟩ := exists_option ha hu hw hlabel
    exact ⟨p, hp, b, hb⟩
  · obtain ⟨p, b, hp, hb⟩ := exists_iteration ha hu hw hlabel hrequired
      (Isolation.covers_self required)
    exact ⟨p, hp, b, hb⟩

theorem mem_compoundTransitions {t : TransitionId} {ts : List TransitionId}
    (h : a.compoundTransitions = t :: ts) :
    ∃ u ∈ a.transitions, u.id = t ∧ u.label.isSymbol = false := by
  have hmem : t ∈ a.compoundTransitions := h ▸ List.mem_cons_self
  obtain ⟨u, hu, rfl⟩ := List.mem_map.1 hmem
  obtain ⟨hu, hsym⟩ := List.mem_filter.1 hu
  exact ⟨u, hu, rfl, by simpa using hsym⟩

theorem literal_of_compoundTransitions (h : a.compoundTransitions = []) : a.Literal := by
  intro t ht
  have hno := List.filter_eq_nil_iff.1 (List.map_eq_nil_iff.1 h) t ht
  simpa using hno

structure Sought (l : Language Char) (a : Automaton) : Prop where
  valid : a.Valid
  wellFormed : ∀ t ∈ a.transitions, t.label.WellFormed
  language_eq : a.language = l

theorem sought_ofExpr (owner : Nat) {e : Expr} (he : e.WellFormed) :
    Sought e.language (ofExpr owner e) := by
  refine ⟨valid_ofExpr owner e, fun t ht => ?_, language_ofExpr owner e⟩
  rw [transitions_ofExpr, List.mem_singleton] at ht
  rwa [ht]

/-- Looking more often than there are operators leaves no compound label. -/
theorem achieves_expandFirst {l : Language Char} {looks : Nat}
    (h : Sought l a) (hlooks : a.operatorCount < looks) :
    Achieves (fun b => b.language = l) (expandFirst looks) a
      fun _ b => Sought l b ∧ b.Literal := by
  induction looks generalizing a with
  | zero => nomatch hlooks
  | succ looks ih =>
      refine Achieves.graph ?_
      cases hts : a.compoundTransitions with
      | nil => exact achieves_pure ⟨h, literal_of_compoundTransitions hts⟩
      | cons t ts =>
          obtain ⟨u, hu, rfl, hsym⟩ := mem_compoundTransitions hts
          obtain ⟨p, hp, b, hperforms, hb⟩ := exists_plan? h.valid h.wellFormed hu hsym
          have hlanguage : b.language = l := hb.language_eq.trans h.language_eq
          refine Achieves.bind (achieves_carryOut?_some language_reserve_eq hp hperforms
            hlanguage (ih ⟨hb.valid, hb.wellFormed, hlanguage⟩ ?_))
          exact Nat.lt_of_lt_of_le hb.operatorCount_lt (Nat.le_of_lt_succ hlooks)

/-- Expanding every label succeeds, keeps the language and leaves single symbols. -/
theorem achieves_expandAll {l : Language Char} (h : Sought l a) :
    Achieves (fun b => b.language = l) expandAll a fun _ b => Sought l b ∧ b.Literal :=
  Achieves.graph (achieves_expandFirst h (Nat.lt_succ_self _))

/-- Expanding every label of an automaton is not refused and leaves single symbols only, and
then the words that are accepted are those of the language there was to begin with; for an
automaton made from an expression, those of the expression. -/
theorem accepts_expandAll_iff (ha : a.Reachable) :
    ∃ b, expandAll.runOn a none = (.ok (), ⟨b, none⟩) ∧
      (∀ t ∈ b.transitions, t.label.isSymbol = true) ∧
        (∀ word, b.accepts word = .ok true ↔ word.toList ∈ a.language) ∧
          ∀ owner e, a = .ofExpr owner e →
            ∀ word, b.accepts word = .ok true ↔ word.toList ∈ e.language := by
  obtain ⟨_, b, hrun, hsought, hlit⟩ :=
    (achieves_expandAll ⟨ha.valid, ha.wellFormed, rfl⟩).runOn_none rfl
  have haccepts : ∀ word, b.accepts word = .ok true ↔ word.toList ∈ a.language := by
    intro word
    rw [hsought.valid.accepts_eq_true_iff hlit, hsought.language_eq]
  refine ⟨b, hrun, hlit, haccepts, ?_⟩
  rintro owner e rfl word
  rw [haccepts, language_ofExpr]

/-- The case of `a*`, which becomes a loop. -/
theorem accepts_expandAll_star :
    (ofExpr 0 (.star (.sym 'a'))).Reachable ∧
      ∃ b, expandAll.runOn (.ofExpr 0 (.star (.sym 'a'))) none = (.ok (), ⟨b, none⟩) ∧
        ∀ word, b.accepts word = .ok true ↔ word.toList ∈ (Expr.star (.sym 'a')).language := by
  have hreachable : (ofExpr 0 (.star (.sym 'a'))).Reachable := reachable_ofExpr 0 trivial
  obtain ⟨b, hrun, -, -, hexpr⟩ := accepts_expandAll_iff hreachable
  exact ⟨hreachable, b, hrun, hexpr 0 _ rfl⟩

end Expansion

end RegularForms
