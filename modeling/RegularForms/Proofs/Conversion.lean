import RegularForms.Proofs.Determinization.Complete
import RegularForms.Proofs.Elimination.Complete
import RegularForms.Proofs.Expansion.Complete

/-!
# Converting an expression

An expression is expanded into an automaton, which can be made deterministic and turned
back into an expression. None of the steps changes the language. So in the history of the
conversion one can seek any position, as often as one likes, and always finds a graph for
the language of the expression.
-/

namespace RegularForms

namespace Rewriting

open Automaton

variable {a : Automaton} {l : Language Char}

/-- Expands every label and, if asked for, makes the automaton deterministic and turns it
into an expression. -/
def convertAll (deterministic expression : Bool) : Rewriting Unit := do
  Expansion.expandAll
  if deterministic then Determinization.determinizeAll
  if expression then discard Elimination.eliminateAll

structure Spelled (l : Language Char) (a : Automaton) : Prop where
  valid : a.Valid
  literal : a.Literal
  language_eq : a.language = l

theorem Spelled.wellLabelled (h : Spelled l a) : a.WellLabelled := by
  intro t ht
  obtain ⟨c, hc⟩ := Expr.isSymbol_iff.1 (h.literal t ht)
  rw [hc]
  exact Expr.wellFormed_sym c

theorem Spelled.worded (h : Spelled l a) : a.Worded :=
  Elimination.worded_of_wellFormed h.wellLabelled

/-- Converting an automaton succeeds, and the language does not change on the way. -/
theorem achieves_convertAll (ha : Expansion.Sought l a) (deterministic expression : Bool) :
    Achieves (fun b => b.language = l) (convertAll deterministic expression) a fun _ _ => True := by
  have hlast : ∀ {b}, Spelled l b → Achieves (fun b => b.language = l)
      (if expression then discard Elimination.eliminateAll else pure ()) b fun _ _ => True := by
    intro b hb
    cases expression with
    | false => exact achieves_pure trivial
    | true =>
        refine Achieves.bind ?_
        exact (Elimination.achieves_eliminateAll hb.valid hb.worded hb.language_eq).mono
          fun _ _ _ => achieves_pure trivial
  refine Achieves.bind ((Expansion.achieves_expandAll ha).mono ?_)
  rintro _ b ⟨hb, hlit⟩
  cases deterministic with
  | false => exact hlast ⟨hb.valid, hlit, hb.language_eq⟩
  | true =>
      refine Achieves.bind ?_
      exact (Determinization.achieves_determinizeAll hb.valid hlit hb.language_eq).mono
        fun _ c hc => hlast ⟨hc.valid, hc.literal, hc.language_eq⟩

/-- Converting an expression is not refused, whatever it is converted into. In the history
of the conversion every position can be sought, at once or after any others, and each graph
that is found has the language of the expression. -/
theorem language_seek_convertAll {e : Expr} (he : e.WellFormed) (owner : Nat)
    (clobber deterministic expression : Bool) :
    ∃ b h, (convertAll deterministic expression).runOn (.ofExpr owner e)
        (some (History.new clobber)) = (.ok (), ⟨b, some h⟩) ∧
      b.language = e.language ∧
      (∀ i ≤ h.length, (h.seek i b).refusal = none ∧ (h.seek i b).history.cursor = i ∧
        (h.seek i b).graph.language = e.language) ∧
      ∀ positions : List Nat, (∀ i ∈ positions, i ≤ h.length) →
        (h.seekAll positions b).refusal = none ∧
          (h.seekAll positions b).graph.language = e.language := by
  have hachieves :=
    achieves_convertAll (Expansion.sought_ofExpr owner he) deterministic expression
  obtain ⟨_, b, h, hrun, hsound, -⟩ := hachieves.runOn_new (language_ofExpr owner e) clobber
  refine ⟨b, h, hrun, hsound.holds, fun i hi => ?_, fun positions hpositions => ?_⟩
  · obtain ⟨hrefusal, hsought, -, hcursor⟩ := hsound.seek hi
    exact ⟨hrefusal, hcursor, hsought.holds⟩
  · obtain ⟨hrefusal, hsought⟩ := hsound.seekAll hpositions
    exact ⟨hrefusal, hsought.holds⟩

/-- The case of `(a|b)*`, converted back into an expression by way of a deterministic
automaton. -/
theorem language_seek_convertAll_star :
    (Expr.star (.alt [.sym 'a', .sym 'b'])).WellFormed ∧
      ∃ b h, (convertAll true true).runOn (.ofExpr 0 (.star (.alt [.sym 'a', .sym 'b'])))
          (some (History.new false)) = (.ok (), ⟨b, some h⟩) ∧
        (h.seek 0 b).graph.language = (Expr.star (.alt [.sym 'a', .sym 'b'])).language := by
  have hwf : (Expr.star (.alt [.sym 'a', .sym 'b'])).WellFormed := by decide
  obtain ⟨b, h, hrun, -, hseek, -⟩ := language_seek_convertAll hwf 0 false true true
  exact ⟨hwf, b, h, hrun, (hseek 0 (Nat.zero_le _)).2.2⟩

end Rewriting

end RegularForms
