import RegularForms.Proofs.Automaton.Accept
import RegularForms.Proofs.Automaton.Arc

/-!
# What a state offers

Through `ε` alone a state leads to the states of its closure; it offers the other arcs of
these, and it ends if one of them is accepting. The languages of the states are the least
family with the empty word where a state ends that is closed under what is offered. So two
graphs whose states offer the same and end alike have one language, whatever their `ε`
transitions are.
-/

namespace RegularForms

namespace Automaton

variable {a b : Automaton} {s r : StateId} {e : Expr}

theorem stepsTo_isEpsilon_iff :
    a.StepsTo Transition.isEpsilon s r ↔ ∃ e, e.isEpsilon = true ∧ a.HasArc s e r := by
  constructor
  · rintro ⟨t, ht, heps, rfl, rfl⟩
    exact ⟨t.label, heps, hasArc_of_mem ht⟩
  · rintro ⟨e, heps, t, ht, rfl, rfl, rfl⟩
    exact ⟨t, ht, heps, rfl, rfl⟩

/-- Through `ε` alone a state leads to one with a property. -/
def Closes (a : Automaton) (F : StateId → Prop) (s : StateId) : Prop :=
  ∃ p, a.LeadsTo Transition.isEpsilon s p ∧ F p

/-- The closure of a state has an arc that is not labelled `ε`. -/
def Offers (a : Automaton) (s : StateId) (e : Expr) (r : StateId) : Prop :=
  a.Closes (fun p => e.isEpsilon = false ∧ a.HasArc p e r) s

def Ends (a : Automaton) (s : StateId) : Prop := a.Closes (fun p => a.accepting p = true) s

theorem closes_self {F : StateId → Prop} (h : F s) : a.Closes F s := ⟨s, .refl, h⟩

theorem ends_self (h : a.accepting s = true) : a.Ends s := ⟨s, .refl, h⟩

theorem Closes.head {F : StateId → Prop} (hsr : a.LeadsTo Transition.isEpsilon s r)
    (h : a.Closes F r) : a.Closes F s := by
  obtain ⟨p, hrp, hp⟩ := h
  exact ⟨p, hsr.trans hrp, hp⟩

theorem Offers.mul_languageFrom_le (h : a.Offers s e r) :
    e.language * a.languageFrom r ≤ a.languageFrom s := by
  obtain ⟨p, hlead, -, harc⟩ := h
  exact harc.mul_languageFrom_le.trans hlead.languageFrom_le

theorem Ends.one_le_languageFrom (h : a.Ends s) : 1 ≤ a.languageFrom s := by
  obtain ⟨p, hlead, hp⟩ := h
  exact (Automaton.one_le_languageFrom hp).trans hlead.languageFrom_le

/-- A family of languages that has the empty word at the states that end and is closed under
what is offered contains the languages of the states. -/
theorem languageFrom_le_of_offers {M : StateId → Language Char}
    (hnil : ∀ s, a.Ends s → 1 ≤ M s)
    (hstep : ∀ s e r, a.Offers s e r → e.language * M r ≤ M s) (s : StateId) :
    a.languageFrom s ≤ M s := by
  -- along a path the `ε` transitions are put off until the next symbol is read
  have key : ∀ {q w r}, a.Path q w r → a.accepting r = true →
      ∀ s, a.LeadsTo Transition.isEpsilon s q → w ∈ M s := by
    intro q w r hpath hr
    induction hpath with
    | nil q => exact fun s hlead => hnil s ((ends_self hr).head hlead) rfl
    | @cons t u v r ht hu _ ih =>
        intro s hlead
        by_cases heps : t.isEpsilon = true
        · rw [Expr.language_of_isEpsilon heps] at hu
          rw [(Language.mem_one u).1 hu, List.nil_append]
          exact ih hr s (hlead.tail ⟨t, ht, heps, rfl, rfl⟩)
        · have hoffers : a.Offers t.source t.label t.target :=
            closes_self ⟨Bool.eq_false_iff.2 heps, hasArc_of_mem ht⟩
          exact hstep s _ _ (hoffers.head hlead) (Language.append_mem_mul hu (ih hr _ .refl))
  rintro w ⟨r, hpath, hr⟩
  exact key hpath hr s .refl

/-- Graphs whose states offer the same and end alike have one language. -/
theorem languageFrom_congr (hoffers : ∀ s e r, a.Offers s e r ↔ b.Offers s e r)
    (hends : ∀ s, a.Ends s ↔ b.Ends s) (s : StateId) : a.languageFrom s = b.languageFrom s := by
  refine le_antisymm (languageFrom_le_of_offers (fun s hs => ?_) (fun s e r h => ?_) s)
    (languageFrom_le_of_offers (fun s hs => ?_) (fun s e r h => ?_) s)
  · exact ((hends s).1 hs).one_le_languageFrom
  · exact ((hoffers s e r).1 h).mul_languageFrom_le
  · exact ((hends s).2 hs).one_le_languageFrom
  · exact ((hoffers s e r).2 h).mul_languageFrom_le

/-- Where no `ε` transition leaves a state, the state offers its arcs. -/
theorem offers_iff_of_no_epsilon (h : ∀ t ∈ a.transitions, t.source = s → t.isEpsilon = false) :
    a.Offers s e r ↔ a.HasArc s e r := by
  constructor
  · rintro ⟨p, hlead, -, harc⟩
    rcases Relation.ReflTransGen.cases_head hlead with rfl | ⟨q, ⟨t, ht, heps, hts, -⟩, -⟩
    · exact harc
    · rw [h t ht hts] at heps
      nomatch heps
  · rintro ⟨t, ht, rfl, rfl, rfl⟩
    exact closes_self ⟨h t ht rfl, hasArc_of_mem ht⟩

theorem ends_iff_of_no_epsilon (h : ∀ t ∈ a.transitions, t.source = s → t.isEpsilon = false) :
    a.Ends s ↔ a.accepting s = true := by
  constructor
  · rintro ⟨p, hlead, hp⟩
    rcases Relation.ReflTransGen.cases_head hlead with rfl | ⟨q, ⟨t, ht, heps, hts, -⟩, -⟩
    · exact hp
    · rw [h t ht hts] at heps
      nomatch heps
  · exact ends_self

/-- When a state loses its `ε` transitions, and has itself what its closure had before,
the closures of all states have what they had. -/
theorem closes_iff_of_flattened {F G : StateId → Prop}
    (hsteps : ∀ p q, b.StepsTo Transition.isEpsilon p q ↔
      p ≠ s ∧ a.StepsTo Transition.isEpsilon p q)
    (hself : G s ↔ a.Closes F s) (hother : ∀ p, p ≠ s → (G p ↔ F p)) (q : StateId) :
    b.Closes G q ↔ a.Closes F q := by
  constructor
  · rintro ⟨p, hlead, hp⟩
    have hlead : a.LeadsTo Transition.isEpsilon q p :=
      Relation.ReflTransGen.mono (fun p q h => ((hsteps p q).1 h).2) _ _ hlead
    by_cases hps : p = s
    · subst hps
      exact (hself.1 hp).head hlead
    · exact ⟨p, hlead, (hother p hps).1 hp⟩
  · rintro ⟨p, hlead, hp⟩
    induction hlead using Relation.ReflTransGen.head_induction_on with
    | refl =>
        by_cases hps : p = s
        · subst hps
          exact closes_self (hself.2 (closes_self hp))
        · exact closes_self ((hother p hps).2 hp)
    | @head q q' hstep hlead ih =>
        by_cases hqs : q = s
        · subst hqs
          exact closes_self (hself.2 ⟨p, .head hstep hlead, hp⟩)
        · exact ih.head (.single ((hsteps q q').2 ⟨hqs, hstep⟩))

end Automaton

end RegularForms
