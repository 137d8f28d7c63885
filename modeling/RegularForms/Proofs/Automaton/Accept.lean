import RegularForms.Automaton.Reach
import RegularForms.Proofs.Automaton.Language
import RegularForms.Proofs.Automaton.Reach

/-!
# Accepting the words of the language

When every label is a single symbol, a path reads a word one symbol at a time, with `ε`
transitions in between. So the sets of states that `readWord` goes through are the ends
of the paths that read the word, and the words that are accepted are those of the
language.
-/

namespace RegularForms

namespace Automaton

variable {a b : Automaton}

/-- Every label is a single symbol. -/
def Literal (a : Automaton) : Prop := ∀ t ∈ a.transitions, t.label.isSymbol = true

theorem language_of_readsSymbol {c : Char} {t : Transition} (h : readsSymbol c t = true) :
    t.label.language = {[c]} := by
  rw [readsSymbol, Bool.and_eq_true, beq_iff_eq, Expr.symbol?_eq_some_iff,
    Bool.not_eq_true'] at h
  obtain ⟨hlabel, heps⟩ := h
  rw [Transition.isEpsilon, hlabel, Expr.isEpsilon, beq_eq_false_iff_ne] at heps
  rw [hlabel, Expr.language_sym_of_ne heps]

theorem mem_language_of_readsSymbol {c : Char} {t : Transition}
    (h : readsSymbol c t = true) : [c] ∈ t.label.language := by
  rw [language_of_readsSymbol h]
  rfl

/-- A transition with a single symbol is an `ε` transition or reads its symbol. -/
theorem isEpsilon_or_readsSymbol {t : Transition} (hsym : t.label.isSymbol = true) :
    t.isEpsilon = true ∨ ∃ c, readsSymbol c t = true := by
  obtain ⟨c, hlabel⟩ := Expr.isSymbol_iff.1 hsym
  by_cases hc : c = epsilonSymbol
  · left
    rw [Transition.isEpsilon, hlabel, hc]
    rfl
  · right
    refine ⟨c, ?_⟩
    rw [readsSymbol, Transition.isEpsilon, hlabel, Expr.isEpsilon, Expr.symbol?]
    simp [hc]

/-- A word of a single symbol is empty, and the symbol `ε`, or it is the symbol. -/
theorem cases_of_mem_language {t : Transition} {u : List Char}
    (hsym : t.label.isSymbol = true) (h : u ∈ t.label.language) :
    (u = [] ∧ t.isEpsilon = true) ∨ ∃ c, u = [c] ∧ readsSymbol c t = true := by
  rcases isEpsilon_or_readsSymbol hsym with heps | ⟨c, hread⟩
  · rw [Expr.language_of_isEpsilon heps] at h
    exact .inl ⟨(Language.mem_one u).1 h, heps⟩
  · rw [language_of_readsSymbol hread] at h
    exact .inr ⟨c, Set.mem_singleton_iff.1 h, hread⟩

theorem LeadsTo.path {s r : StateId} (h : a.LeadsTo Transition.isEpsilon s r) :
    a.Path s [] r := by
  induction h with
  | refl => exact .nil s
  | tail _ hstep ih =>
      obtain ⟨t, ht, heps, rfl, rfl⟩ := hstep
      have hlast : a.Path t.source [] t.target := by
        refine Path.single ht ?_
        rw [Expr.language_of_isEpsilon heps]
        rfl
      exact ih.trans hlast

theorem LeadsTo.languageFrom_le {s r : StateId} (h : a.LeadsTo Transition.isEpsilon s r) :
    a.languageFrom r ≤ a.languageFrom s := by
  rintro w ⟨q, hpath, hq⟩
  exact ⟨q, h.path.trans hpath, hq⟩

/-- A path that reads nothing follows `ε` transitions only. -/
theorem Path.leadsTo (hlit : a.Literal) {s r : StateId} {w : List Char}
    (h : a.Path s w r) (hw : w = []) : a.LeadsTo Transition.isEpsilon s r := by
  induction h with
  | nil s => exact .refl
  | cons ht hu _ ih =>
      obtain ⟨hu', hv⟩ := List.append_eq_nil_iff.1 hw
      rcases cases_of_mem_language (hlit _ ht) hu with ⟨-, heps⟩ | ⟨c, hc, -⟩
      · exact .head ⟨_, ht, heps, rfl, rfl⟩ (ih hv)
      · rw [hc] at hu'
        nomatch hu'

/-- A path that reads a symbol first follows `ε` transitions up to the one that reads the
symbol. -/
theorem Path.exists_readsSymbol (hlit : a.Literal) {s r : StateId} {w v : List Char}
    {c : Char} (h : a.Path s w r) (hw : w = c :: v) :
    ∃ t ∈ a.transitions, a.LeadsTo Transition.isEpsilon s t.source ∧
      readsSymbol c t = true ∧ a.Path t.target v r := by
  induction h with
  | nil s => nomatch hw
  | @cons t u v' r ht hu hv ih =>
      rcases cases_of_mem_language (hlit _ ht) hu with ⟨rfl, heps⟩ | ⟨d, rfl, hread⟩
      · obtain ⟨t', ht', hlead, hread, hpath⟩ := ih hw
        exact ⟨t', ht', .head ⟨t, ht, heps, rfl, rfl⟩ hlead, hread, hpath⟩
      · obtain ⟨rfl, rfl⟩ := List.cons.inj hw
        exact ⟨t, ht, .refl, hread, hv⟩

theorem Valid.mem_readSymbol (ha : a.Valid) {current : StateSet} {c : Char} {r : StateId} :
    r ∈ a.readSymbol current c ↔ ∃ s ∈ current, ∃ t ∈ a.transitions,
      t.source = s ∧ readsSymbol c t = true ∧ a.LeadsTo Transition.isEpsilon t.target r := by
  rw [readSymbol, ha.mem_closure]
  constructor
  · rintro ⟨q, hq, hlead⟩
    obtain ⟨s, hs, t, ht, hread, hts, rfl⟩ := ha.mem_stepTargets.1 (StateSet.mem_ofList.1 hq)
    exact ⟨s, hs, t, ht, hts, hread, hlead⟩
  · rintro ⟨s, hs, t, ht, hts, hread, hlead⟩
    exact ⟨t.target, StateSet.mem_ofList.2 (ha.mem_stepTargets.2 ⟨s, hs, t, ht, hread, hts, rfl⟩),
      hlead⟩

/-- Reading on from a set that is closed under `ε` leads to the ends of the paths from its
members. -/
theorem Valid.mem_foldl_readSymbol (ha : a.Valid) (hlit : a.Literal) {w : List Char}
    {current : StateSet} (hclosed : ∀ s ∈ current, ∀ r,
      a.LeadsTo Transition.isEpsilon s r → r ∈ current) {r : StateId} :
    r ∈ w.foldl a.readSymbol current ↔ ∃ s ∈ current, a.Path s w r := by
  induction w generalizing current with
  | nil =>
      constructor
      · exact fun h => ⟨r, h, .nil r⟩
      · rintro ⟨s, hs, hpath⟩
        exact hclosed s hs r (hpath.leadsTo hlit rfl)
  | cons c w ih =>
      rw [List.foldl_cons, ih fun p hp q hpq => ?_]
      · constructor
        · rintro ⟨q, hq, hpath⟩
          obtain ⟨s, hs, t, ht, rfl, hread, hlead⟩ := ha.mem_readSymbol.1 hq
          exact ⟨t.source, hs, .cons ht (mem_language_of_readsSymbol hread)
            (hlead.path.trans hpath)⟩
        · rintro ⟨s, hs, hpath⟩
          obtain ⟨t, ht, hlead, hread, hrest⟩ := hpath.exists_readsSymbol hlit rfl
          exact ⟨t.target, ha.mem_readSymbol.2 ⟨t.source, hclosed s hs _ hlead, t, ht, rfl,
            hread, .refl⟩, hrest⟩
      · obtain ⟨s, hs, t, ht, hts, hread, hlead⟩ := ha.mem_readSymbol.1 hp
        exact ha.mem_readSymbol.2 ⟨s, hs, t, ht, hts, hread, hlead.trans hpq⟩

/-- Reading a word leads to the ends of the paths that read it. -/
theorem Valid.mem_readWord (ha : a.Valid) (hlit : a.Literal) {w : List Char} {r : StateId} :
    r ∈ a.readWord w ↔ a.Path a.start w r := by
  rw [readWord, ha.mem_foldl_readSymbol hlit fun s hs q hsq => ?_]
  · constructor
    · rintro ⟨s, hs, hpath⟩
      obtain ⟨p, hp, hlead⟩ := ha.mem_closure.1 hs
      obtain rfl := List.mem_singleton.1 hp
      exact hlead.path.trans hpath
    · intro hpath
      exact ⟨a.start, ha.mem_closure.2 ⟨a.start, List.mem_singleton.2 rfl, .refl⟩, hpath⟩
  · obtain ⟨p, hp, hlead⟩ := ha.mem_closure.1 hs
    exact ha.mem_closure.2 ⟨p, hp, hlead.trans hsq⟩

/-- The test for compound labels finds none. -/
theorem Literal.find?_eq_none (hlit : a.Literal) :
    (a.transitions.find? fun t => !t.label.isSymbol) = none := by
  rw [List.find?_eq_none]
  intro t ht
  simp [hlit t ht]

/-- The words that are accepted are those of the language. -/
theorem Valid.accepts_eq_true_iff (ha : a.Valid) (hlit : a.Literal) (word : String) :
    a.accepts word = .ok true ↔ word.toList ∈ a.language := by
  rw [accepts, hlit.find?_eq_none, Except.ok.injEq, List.any_eq_true]
  exact exists_congr fun r => and_congr_left fun _ => ha.mem_readWord hlit

theorem Literal.exists_accepts_eq (hlit : a.Literal) (word : String) :
    ∃ r, a.accepts word = .ok r := by
  rw [accepts, hlit.find?_eq_none]
  exact ⟨_, rfl⟩

/-- Graphs with one language accept the same words. -/
theorem Valid.accepts_congr (ha : a.Valid) (hb : b.Valid) (hla : a.Literal) (hlb : b.Literal)
    (h : a.language = b.language) (word : String) : a.accepts word = b.accepts word := by
  obtain ⟨r, hr⟩ := hla.exists_accepts_eq word
  obtain ⟨q, hq⟩ := hlb.exists_accepts_eq word
  have hiff : r = true ↔ q = true := by
    have hra := ha.accepts_eq_true_iff hla word
    have hqb := hb.accepts_eq_true_iff hlb word
    rw [hr, Except.ok.injEq] at hra
    rw [hq, Except.ok.injEq] at hqb
    rw [hra, hqb, h]
  rw [hr, hq, Bool.eq_iff_iff.2 hiff]

end Automaton

end RegularForms
