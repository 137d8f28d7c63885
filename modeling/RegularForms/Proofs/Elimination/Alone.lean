import RegularForms.Proofs.Automaton.Accept
import RegularForms.Proofs.Automaton.Ledger
import RegularForms.Proofs.Elimination.Plan

/-!
# The steps of an elimination, each on its own

An elimination does its steps in an order that makes each of them safe. Here they are looked
at one by one, for any automaton they may be asked of.

Isolating the accepting states or the start state and joining parallel transitions keep the
language wherever they are done; an isolation is not undone by the other one, and done again
it has nothing to do.

Neither folding a self-loop nor bypassing a state looks at whether the state is accepting.
After either nothing can be read that could not be read before, and every word that leads to
an accepting state other than this one can still be read. So the language is kept when the
state is not accepting. At an accepting state words are lost: those that end with a round of
the loop, when it is folded, for the star goes into the labels of the other transitions only;
and those that end in the state, when it is bypassed.
-/

namespace RegularForms

namespace Elimination

open Automaton

variable {a b : Automaton} {s r : StateId}

/-! ## Isolating and joining -/

/-- One transition takes the place of those that are joined. -/
theorem exists_between_of_joined {e : Expr}
    (h : a.Rewired b (fun t => t.source = s ∧ t.target = r) [(s, r, e)]) :
    ∃ t, ∀ u, u ∈ b.transitions ∧ u.source = s ∧ u.target = r ↔ u = t := by
  have hfresh : a.freshTransitions [(s, r, e)] = [a.freshTransition 0 s r e] := rfl
  refine ⟨a.freshTransition 0 s r e, fun u => ?_⟩
  rw [h.mem_transitions, hfresh, List.mem_singleton]
  constructor
  · rintro ⟨⟨-, hstay⟩ | hu, hends⟩
    · exact absurd hends hstay
    · exact hu
  · rintro rfl
    exact ⟨.inr rfl, rfl, rfl⟩

/-- What can be said of an automaton of which the accepting states have been isolated: the
start state is as isolated as before, and there is nothing more to be done. -/
theorem exists_isolateFinal (ha : a.Valid) {p : Plan} (hp : isolateFinal? a = some p) :
    ∃ b, p.Performs a b ∧ b.language = a.language ∧ (∃ final, Final b final) ∧
      (Initial a → Initial b) ∧ isolateFinal? b = none := by
  obtain ⟨finals, hfinals, rfl⟩ := exists_finals_of_isolateFinal? ha hp
  obtain ⟨b, hperforms, hb⟩ := exists_gathered ha hfinals
  have hfinal := hb.final ha hfinals
  refine ⟨b, hperforms, hb.language_eq ha hfinals, ⟨_, hfinal⟩, hb.initial ha, ?_⟩
  exact (isolateFinal?_eq_none_iff hb.valid).2 fun s hs => (hfinal.accepting_iff s).1 hs ▸ hfinal

theorem exists_isolateInitial (ha : a.Valid) {p : Plan} (hp : isolateInitial? a = some p) :
    ∃ b, p.Performs a b ∧ b.language = a.language ∧ Initial b ∧
      (∀ final, Final a final → Final b final) ∧ isolateInitial? b = none := by
  obtain ⟨moved, hnodup, hmoved, rfl⟩ := exists_moved_of_isolateInitial? ha hp
  obtain ⟨b, hperforms, hb⟩ := exists_twinStart ha hnodup hmoved
  have hinitial := hb.initial ha
  exact ⟨b, hperforms, (hb.keeps ha).language_eq, hinitial, fun final => hb.final ha,
    isolateInitial?_eq_none_iff.2 hinitial⟩

/-- Isolating the accepting states of any automaton, or its start state, and joining parallel
transitions keep the language. Afterwards there is a single accepting state, which is not the
start state and which nothing leaves; or nothing leads into the start state; or a single
transition joins the two states. The same holds where there is nothing to be done about it. No
isolation undoes the other, and there is nothing to be done when it is done again. -/
theorem language_isolate_join (h : a.Reachable) :
    (∀ p, isolateFinal? a = some p → ∃ left b,
      (Step.ofEdit p.edit).apply p.graph = ⟨left, b, none⟩ ∧ b.language = a.language ∧
        (∃ final, Final b final) ∧ (Initial a → Initial b) ∧ isolateFinal? b = none) ∧
    (isolateFinal? a = none → (∃ s, a.accepting s = true) → ∃ final, Final a final) ∧
    (∀ p, isolateInitial? a = some p → ∃ left b,
      (Step.ofEdit p.edit).apply p.graph = ⟨left, b, none⟩ ∧ b.language = a.language ∧
        Initial b ∧ (∀ final, Final a final → Final b final) ∧ isolateInitial? b = none) ∧
    (isolateInitial? a = none → Initial a) ∧
    ∀ s r p, joinParallel s r a = .ok p → ∃ left b,
      (Step.ofEdit p.edit).apply p.graph = ⟨left, b, none⟩ ∧ b.language = a.language ∧
        ∃ t, ∀ u, u ∈ b.transitions ∧ u.source = s ∧ u.target = r ↔ u = t := by
  have ha := h.valid
  refine ⟨fun p hp => ?_, fun hnone => ?_, fun p hp => ?_, isolateInitial?_eq_none_iff.1,
    fun s r p hp => ?_⟩
  · obtain ⟨b, hperforms, hb⟩ := exists_isolateFinal ha hp
    obtain ⟨left, happly⟩ := hperforms.exists_apply_eq
    exact ⟨left, b, happly, hb⟩
  · rintro ⟨s, hs⟩
    exact ⟨s, (isolateFinal?_eq_none_iff ha).1 hnone s hs⟩
  · obtain ⟨b, hperforms, hb⟩ := exists_isolateInitial ha hp
    obtain ⟨left, happly⟩ := hperforms.exists_apply_eq
    exact ⟨left, b, happly, hb⟩
  · obtain ⟨hlen, -⟩ := (joinParallel_eq_ok_iff ha).1 hp
    obtain ⟨q, b, hq, hperforms, hr, hk⟩ := exists_joinParallel ha hlen
    obtain rfl := Except.ok.inj (hp.symm.trans hq)
    obtain ⟨left, happly⟩ := hperforms.exists_apply_eq
    exact ⟨left, b, happly, hk.language_eq, exists_between_of_joined hr.rewired⟩

def acceptingEnd : Automaton :=
  ((new 0).withState true).withTransition ⟨0, 0⟩ ⟨0, 1⟩ (.sym 'a')

def acceptingEndLoop (s : StateId) : Automaton := acceptingEnd.withTransition s s (.sym 'b')

theorem reachable_acceptingEnd : acceptingEnd.Reachable :=
  ((reachable_new 0).withState true).withTransition _ _ _ trivial

theorem reachable_acceptingEndLoop (s : StateId) : (acceptingEndLoop s).Reachable :=
  reachable_acceptingEnd.withTransition _ _ _ trivial

/-- The case of an accepting state with a self-loop, and of a start state with one. -/
theorem language_isolate_join_loop :
    (∀ s, (acceptingEndLoop s).Reachable) ∧
    (∃ p left b final, isolateFinal? (acceptingEndLoop ⟨0, 1⟩) = some p ∧
      (Step.ofEdit p.edit).apply p.graph = ⟨left, b, none⟩ ∧
        b.language = (acceptingEndLoop ⟨0, 1⟩).language ∧ Final b final ∧
          isolateFinal? b = none) ∧
    ∃ p left b, isolateInitial? (acceptingEndLoop ⟨0, 0⟩) = some p ∧
      (Step.ofEdit p.edit).apply p.graph = ⟨left, b, none⟩ ∧
        b.language = (acceptingEndLoop ⟨0, 0⟩).language ∧ Initial b ∧ Final b ⟨0, 1⟩ := by
  refine ⟨reachable_acceptingEndLoop, ?_, ?_⟩
  · obtain ⟨p, hp⟩ : ∃ p, isolateFinal? (acceptingEndLoop ⟨0, 1⟩) = some p := ⟨_, rfl⟩
    obtain ⟨left, b, happly, hlanguage, ⟨final, hfinal⟩, -, hnone⟩ :=
      (language_isolate_join (reachable_acceptingEndLoop _)).1 p hp
    exact ⟨p, left, b, final, hp, happly, hlanguage, hfinal, hnone⟩
  · obtain ⟨-, hkept, hinitial, -⟩ := language_isolate_join (reachable_acceptingEndLoop ⟨0, 0⟩)
    obtain ⟨p, hp⟩ : ∃ p, isolateInitial? (acceptingEndLoop ⟨0, 0⟩) = some p := ⟨_, rfl⟩
    obtain ⟨left, b, happly, hlanguage, hb, hfinal, -⟩ := hinitial p hp
    obtain ⟨final, hisolated⟩ := hkept rfl ⟨⟨0, 1⟩, by decide⟩
    have hend : ⟨0, 1⟩ = final := (hisolated.accepting_iff _).1 (by decide)
    exact ⟨p, left, b, hp, happly, hlanguage, hb, hfinal _ (hend ▸ hisolated)⟩

/-! ## Folding and bypassing -/

/-- A folded self-loop is still read by the words that do not end at its state. -/
theorem languageApart_le_of_folded (ha : a.Valid) {loop : Transition}
    (hloop : loop ∈ a.transitions) (htarget : loop.target = loop.source)
    (h : Reduced a (fun t => t.source = loop.source) (foldArcs a loop) ∅ b) :
    a.languageApart loop.source a.start ≤ b.language := by
  rw [language, h.rewired.start_eq]
  refine (languageApart_le (M := pastLoop a b loop) (fun q hq hqs => ?_)
    (fun t ht => label_mul_pastLoop_le ha hloop htarget h ht) a.start).trans
    (pastLoop_le ha hloop h a.start)
  rw [pastLoop_of_ne hqs]
  exact one_le_languageFrom ((h.accepting_iff q).2 ⟨hq, Set.notMem_empty q⟩)

/-- A state that is bypassed takes along the words that end at it, and no others. -/
theorem language_eq_languageApart_of_bypassed (ha : a.Valid) (hstart : s ≠ a.start)
    (hloopless : Loopless a s)
    (h : Reduced a (fun t => t.source = s ∨ t.target = s) (bypassArcs a s) {s} b) :
    b.language = a.languageApart s a.start := by
  rw [language, h.rewired.start_eq]
  refine le_antisymm ?_ ?_
  · refine h.rewired.languageFrom_le (M := a.languageApart s) (fun q hq => ?_)
      (fun t ht _ => label_mul_languageApart_le s ht)
      (fun x hx => bypassArcs_mul_le ha (fun _ => label_mul_languageApart_le s) hx) a.start
    obtain ⟨hq, hqs⟩ := (h.accepting_iff q).1 hq
    exact one_le_languageApart hq hqs
  · have hle := languageApart_le (s := s) (M := pastState a b s) (fun q hq hqs => ?_)
      (fun t ht => label_mul_pastState_le ha hloopless h ht) a.start
    · rwa [pastState, if_neg hstart.symm] at hle
    · rw [pastState, if_neg hqs]
      exact one_le_languageFrom ((h.accepting_iff q).2 ⟨hq, hqs⟩)

/-- Folding a self-loop and bypassing a state of any automaton lead to a graph in which nothing
new can be read, and which has lost no words but those that end at an accepting state that the
loop is at, or that is bypassed. So neither changes the language at a state that is not
accepting. A loop is refused when it is not the only one of its state, and a state when it is
not in the graph, is the start state or has a self-loop; nothing else is. -/
theorem language_foldLoop_bypass (h : a.Reachable) :
    (∀ t p, foldLoop t a = .ok p → ∃ loop ∈ a.transitions, ∃ left b, loop.id = t ∧
      (Step.ofEdit p.edit).apply p.graph = ⟨left, b, none⟩ ∧ b.language ≤ a.language ∧
        a.languageApart loop.source a.start ≤ b.language ∧
          (¬ a.accepting loop.source = true → b.language = a.language)) ∧
    (∀ s p, bypass s a = .ok p → ∃ left b,
      (Step.ofEdit p.edit).apply p.graph = ⟨left, b, none⟩ ∧ b.language ≤ a.language ∧
        b.language = a.languageApart s a.start ∧
          (¬ a.accepting s = true → b.language = a.language)) ∧
    (∀ t, (∃ p, foldLoop t a = .ok p) ↔
      ∃ loop ∈ a.transitions, loop.id = t ∧ loop.target = loop.source ∧
        ∀ u ∈ a.transitions, u.source = loop.source → u.target = loop.source → u = loop) ∧
    ∀ s, (∃ p, bypass s a = .ok p) ↔ s ∈ a.stateIds ∧ s ≠ a.start ∧ Loopless a s := by
  have ha := h.valid
  refine ⟨fun t p hp => ?_, fun s p hp => ?_, fun t => ?_, fun s => ?_⟩
  · obtain ⟨loop, hloop, hid, htarget, -, rfl⟩ := (foldLoop_eq_ok_iff ha).1 hp
    obtain ⟨b, hperforms, hb⟩ := exists_folded ha hloop
    obtain ⟨left, happly⟩ := hperforms.exists_apply_eq
    exact ⟨loop, hloop, left, b, hid, happly,
      hb.language_le fun x hx => foldArcs_mul_le ha hloop htarget hx,
      languageApart_le_of_folded ha hloop htarget hb,
      fun hacc => (keeps_of_folded ha hloop htarget hacc hb).language_eq⟩
  · obtain ⟨hs, hstart, hloopless, rfl⟩ := (bypass_eq_ok_iff ha).1 hp
    obtain ⟨b, hperforms, hb⟩ := exists_bypassed ha hs hstart hloopless
    obtain ⟨left, happly⟩ := hperforms.exists_apply_eq
    have hlanguage := language_eq_languageApart_of_bypassed ha hstart hloopless hb
    refine ⟨left, b, happly, ?_, hlanguage, fun hacc => ?_⟩
    · exact hlanguage.trans_le (languageApart_le_languageFrom s a.start)
    · exact hlanguage.trans (languageApart_eq hacc a.start)
  · simp only [foldLoop_eq_ok_iff ha]
    constructor
    · rintro ⟨p, loop, hloop, hid, htarget, honly, -⟩
      exact ⟨loop, hloop, hid, htarget, honly⟩
    · rintro ⟨loop, hloop, hid, htarget, honly⟩
      exact ⟨_, loop, hloop, hid, htarget, honly, rfl⟩
  · simp only [bypass_eq_ok_iff ha]
    constructor
    · rintro ⟨p, hs, hstart, hloopless, -⟩
      exact ⟨hs, hstart, hloopless⟩
    · rintro ⟨hs, hstart, hloopless⟩
      exact ⟨_, hs, hstart, hloopless, rfl⟩

/-- The case of a self-loop at the start state, which is not accepting. -/
theorem language_foldLoop_bypass_start :
    (acceptingEndLoop ⟨0, 0⟩).Reachable ∧ ∃ p left b,
      foldLoop ⟨0, 1⟩ (acceptingEndLoop ⟨0, 0⟩) = .ok p ∧
        (Step.ofEdit p.edit).apply p.graph = ⟨left, b, none⟩ ∧
          b.language = (acceptingEndLoop ⟨0, 0⟩).language := by
  have hreachable := reachable_acceptingEndLoop ⟨0, 0⟩
  obtain ⟨p, hp⟩ : ∃ p, foldLoop ⟨0, 1⟩ (acceptingEndLoop ⟨0, 0⟩) = .ok p := ⟨_, rfl⟩
  obtain ⟨loop, hloop, left, b, -, happly, -, -, hlanguage⟩ :=
    (language_foldLoop_bypass hreachable).1 _ _ hp
  have hsource : ∀ t ∈ (acceptingEndLoop ⟨0, 0⟩).transitions,
      ¬ (acceptingEndLoop ⟨0, 0⟩).accepting t.source = true := by decide
  exact ⟨hreachable, p, left, b, hp, happly, hlanguage (hsource loop hloop)⟩

/-- A word that is no longer accepted tells that the language has changed. -/
theorem exists_language_ne (ha : a.Valid) (hb : b.Valid) {p : Plan} (hp : p.Performs a b)
    (hla : a.Literal) (hlb : ((Step.ofEdit p.edit).apply p.graph).graph.Literal) {word : String}
    (hword : a.accepts word = .ok true)
    (hlost : ((Step.ofEdit p.edit).apply p.graph).graph.accepts word = .ok false) :
    ∃ left c, (Step.ofEdit p.edit).apply p.graph = ⟨left, c, none⟩ ∧
      c.accepts word = .ok false ∧ c.language ≠ a.language := by
  obtain ⟨left, happly⟩ := hp.exists_apply_eq
  rw [happly] at hlb hlost
  refine ⟨left, b, happly, hlost, fun h => ?_⟩
  rw [ha.accepts_congr hb hla hlb h.symm word, hlost] at hword
  nomatch hword

def endLoop : Transition := ⟨⟨0, 1⟩, ⟨0, 1⟩, ⟨0, 1⟩, .sym 'b'⟩

/-- At an accepting state both lose a word, and neither is refused. -/
theorem exists_language_ne_of_accepting :
    (acceptingEnd.Reachable ∧ acceptingEnd.accepts "a" = .ok true ∧
      ∃ p, bypass ⟨0, 1⟩ acceptingEnd = .ok p ∧
        ∃ left b, (Step.ofEdit p.edit).apply p.graph = ⟨left, b, none⟩ ∧
          b.accepts "a" = .ok false ∧ b.language ≠ acceptingEnd.language) ∧
    (acceptingEndLoop ⟨0, 1⟩).Reachable ∧ (acceptingEndLoop ⟨0, 1⟩).accepts "ab" = .ok true ∧
      ∃ p, foldLoop ⟨0, 1⟩ (acceptingEndLoop ⟨0, 1⟩) = .ok p ∧
        ∃ left b, (Step.ofEdit p.edit).apply p.graph = ⟨left, b, none⟩ ∧
          b.accepts "ab" = .ok false ∧ b.language ≠ (acceptingEndLoop ⟨0, 1⟩).language := by
  refine ⟨⟨reachable_acceptingEnd, by decide, ?_⟩, reachable_acceptingEndLoop _, by decide, ?_⟩
  · have ha := reachable_acceptingEnd.valid
    have hloopless : ∀ t ∈ acceptingEnd.transitions, t.source = ⟨0, 1⟩ → t.target ≠ ⟨0, 1⟩ := by
      decide
    have hliteral : ∀ t ∈ acceptingEnd.transitions, t.label.isSymbol = true := by decide
    obtain ⟨b, hperforms, hb⟩ := exists_bypassed ha (by decide) (by decide) hloopless
    exact ⟨_, bypass_eq ha (by decide) (by decide) hloopless,
      exists_language_ne ha hb.valid hperforms hliteral nofun (by decide) (by decide)⟩
  · have ha := (reachable_acceptingEndLoop ⟨0, 1⟩).valid
    have hloop : endLoop ∈ (acceptingEndLoop ⟨0, 1⟩).transitions := by decide
    have honly : ∀ u ∈ (acceptingEndLoop ⟨0, 1⟩).transitions,
        u.source = ⟨0, 1⟩ → u.target = ⟨0, 1⟩ → u = endLoop := by decide
    have hliteral : ∀ t ∈ (acceptingEndLoop ⟨0, 1⟩).transitions, t.label.isSymbol = true := by
      decide
    obtain ⟨b, hperforms, hb⟩ := exists_folded ha hloop
    have hfolded : ∀ t ∈ ((Step.ofEdit (folding (acceptingEndLoop ⟨0, 1⟩) endLoop).edit).apply
        (folding (acceptingEndLoop ⟨0, 1⟩) endLoop).graph).graph.transitions,
        t.label.isSymbol = true := by decide
    exact ⟨_, (foldLoop_eq_ok_iff ha).2 ⟨endLoop, hloop, rfl, rfl, honly, rfl⟩,
      exists_language_ne ha hb.valid hperforms hliteral hfolded (by decide) (by decide)⟩

end Elimination

end RegularForms
