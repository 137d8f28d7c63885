import RegularForms.Proofs.Edit.Retention
import RegularForms.Proofs.Replay
import RegularForms.Proofs.Automaton.Ledger

/-!
# Going back once more after a refusal

Going back in a history may be refused, because the graph has been changed otherwise or because
it is the graph of another automaton. One may put the graph in order and try again: the history
is exactly as before, so going back leads to the graph from before the last step.

This does not hold if it is the putting back of a state or of a flag that has been refused. What
the step remembered of it is used up then, and going back once more seems to be fine but does not
put it back.
-/

namespace RegularForms

namespace Automaton

/-- A graph that is the same is the same but for the counters. -/
theorem SameGraph.eq_recount {a b : Automaton} (h : a.SameGraph b) :
    a = b.recount a.nextState a.nextTransition := by
  obtain ⟨owner, start, i, j, nodes⟩ := a
  obtain ⟨rfl, rfl, rfl⟩ := h
  rfl

end Automaton

namespace Edit

open Automaton

/-- Where an edit can be reverted, it can be reverted on the same graph with other counters. -/
theorem exists_revert_eq_of_sameGraph {e : Edit} {left used : Backup} {a b x : Automaton}
    (hrevert : e.revert left b = ⟨used, a, none⟩) (hx : x.SameGraph b) :
    ∃ y, e.revert left x = ⟨used, y, none⟩ ∧ y.SameGraph a := by
  refine ⟨a.recount x.nextState x.nextTransition, ?_, sameGraph_recount _ _ _⟩
  have hcounters := (oblivious e left b x.nextState x.nextTransition).2
  rwa [← hx.eq_recount, hrevert] at hcounters

/-- Removing a state and setting a flag use up what they remember when they are reverted, also
when this is refused. Then there is nothing to do when they are reverted again. -/
theorem revert_again_of_refusal {e : Edit} {left used : Backup} {a c : Automaton} {err : Error}
    (he : (∃ r, e = removeState r) ∨ ∃ r accepting, e = setAccepting r accepting)
    (hrevert : e.revert left a = ⟨used, c, some err⟩) (b : Automaton) :
    e.revert used b = ⟨used, b, none⟩ := by
  rcases he with ⟨r, rfl⟩ | ⟨r, accepting, rfl⟩
  · cases left with
    | node n =>
        rw [revert] at hrevert
        obtain rfl : .nothing = used :=
          (backup_ofChange _ _ _).symm.trans (congrArg Outcome.backup hrevert)
        rfl
    | _ => cases hrevert
  · cases left with
    | flag previous =>
        rw [revert] at hrevert
        obtain rfl : .nothing = used :=
          (backup_ofChange _ _ _).symm.trans (congrArg Outcome.backup hrevert)
        rfl
    | _ => cases hrevert

end Edit

namespace History

open Automaton

variable {h : History} {s : Step} {done : List Step} {used : Backup} {a b : Automaton}

theorem back_of_refused {err : Error} (hdone : h.done = s :: done)
    (hrevert : s.revert a = ⟨used, b, some err⟩) :
    h.back a = ⟨{ h with done := s.remember used :: done }, b, some err⟩ := by
  simp only [back, hdone, hrevert]

theorem back_of_reverted (hdone : h.done = s :: done) (hrevert : s.revert a = ⟨used, b, none⟩) :
    (h.back a).refusal = none ∧ (h.back a).graph = b ∧
      (h.back a).history.cursor + 1 = h.cursor := by
  simp only [back, hdone, hrevert, cursor_announce, true_and]
  rw [cursor, cursor, hdone]
  rfl

/-- A refusal after which the step remembers the same leaves the history as it is. -/
theorem history_back_of_refusal (hdone : h.done = s :: done)
    (hrefusal : (h.back a).refusal ≠ none) (hbackup : (s.revert a).backup = s.backup) :
    (h.back a).history = h := by
  rcases hrevert : s.revert a with ⟨used, b, _ | err⟩
  · exact absurd (back_of_reverted hdone hrevert).1 hrefusal
  · rw [hrevert] at hbackup
    obtain rfl : used = s.backup := hbackup
    obtain ⟨_, undone, clobber, events⟩ := h
    obtain rfl := hdone
    rw [back_of_refused rfl hrevert]
    rfl

/-- When going back over the removal of a state or the setting of a flag has been refused, going
back once more is never refused and does nothing at all to the graph, whichever it is. -/
theorem back_back_of_forgets (hdone : h.done = s :: done)
    (hs : (∃ r, s.edit = .removeState r) ∨ ∃ r accepting, s.edit = .setAccepting r accepting)
    (hrefusal : (h.back a).refusal ≠ none) (b : Automaton) :
    ((h.back a).history.back b).refusal = none ∧ ((h.back a).history.back b).graph = b := by
  obtain ⟨edit, left⟩ := s
  rcases hrevert : Step.revert ⟨edit, left⟩ a with ⟨used, c, _ | err⟩
  · exact absurd (back_of_reverted hdone hrevert).1 hrefusal
  · rw [back_of_refused hdone hrevert]
    have hagain : Step.revert ⟨edit, used⟩ b = ⟨used, b, none⟩ :=
      Edit.revert_again_of_refusal hs hrevert b
    obtain ⟨hnone, hgraph, -⟩ := back_of_reverted
      (h := { h with done := Step.remember ⟨edit, left⟩ used :: done }) rfl hagain
    exact ⟨hnone, hgraph⟩

end History

namespace Ledger

open Automaton

/-- A step has been applied and is the last one done in a history. Since then any operations have
been performed, or there is another automaton. If it is refused to go back on that graph, though
not where a state or a flag is to be put back, the history is the same as before; and when the
graph is again as the step has left it, one can go back in that history, which restores the graph
from before the step. -/
theorem Reachable.back_of_back_refusal {l m : Ledger} (h : l.Reachable) {hist : History} {s : Step}
    {done : List Step} (hs : s.edit.From l.stock) (hok : (s.apply l.graph).refusal = none)
    (hdone : hist.done = s.remember (s.apply l.graph).backup :: done)
    (hm : (l.perform (.apply s.edit s.backup)).Since m ∨
      m.Reachable ∧ m.graph.owner ≠ l.graph.owner)
    (hrefusal : (hist.back m.graph).refusal ≠ none)
    (hkept : ¬ s.edit.Forgets (s.apply l.graph).backup m.graph) :
    (hist.back m.graph).history = hist ∧
      ∀ x : Automaton, x.SameGraph (s.apply l.graph).graph →
        ((hist.back m.graph).history.back x).refusal = none ∧
          ((hist.back m.graph).history.back x).graph.SameGraph l.graph ∧
            ((hist.back m.graph).history.back x).history.cursor + 1 = hist.cursor := by
  have happly : s.edit.apply s.backup l.graph =
      ⟨(s.apply l.graph).backup, (s.apply l.graph).graph, none⟩ := congrArg (Outcome.mk _ _) hok
  have hsupplies : m.Kept ∧ Supplies l.transitions l.stock m.stock := by
    rcases hm with hsince | ⟨hreachable, hne⟩
    · have hb := Edit.stocked_of_apply_eq h.kept.stocked hs happly
      have hnext := h.kept.continues_of_stocked hb
      have hlater := hnext.trans (hsince.continues hnext.kept)
      exact ⟨hlater.kept, supplies_of_within hlater.stock⟩
    · exact ⟨hreachable.kept, supplies_of_owner_ne h.kept.stocked hreachable.kept.stocked hne⟩
  have hsame : (hist.back m.graph).history = hist := by
    refine History.history_back_of_refusal hdone hrefusal ?_
    refine Edit.backup_revert_of_refusal hsupplies.2 h.kept.stocked hs happly
      hsupplies.1.stocked ?_ hkept
    intro hnone
    exact hrefusal (History.back_of_reverted hdone (congrArg (Outcome.mk _ _) hnone)).1
  refine ⟨hsame, fun x hx => ?_⟩
  rw [hsame]
  rcases Edit.settled _ _ s.edit _ h.kept.stocked hs with ⟨b, hjoins, -⟩ | hrefused
  · obtain ⟨left, happly', hretracts⟩ := hjoins.apply_eq s.backup
    obtain ⟨used, hrevert⟩ := hretracts.revert_eq
    obtain ⟨rfl, rfl, -⟩ := Outcome.mk.inj (happly'.symm.trans happly)
    obtain ⟨y, hrevert', hy⟩ := Edit.exists_revert_eq_of_sameGraph hrevert hx
    obtain ⟨hnone, hgraph, hcursor⟩ := History.back_of_reverted hdone hrevert'
    exact ⟨hnone, hgraph ▸ hy, hcursor⟩
  · exact absurd happly (hrefused.apply_ne _ _ _)

/-- A self-loop comes in at the start state, which is made accepting, and another state goes. -/
def bypassing : Step :=
  .ofEdit (.batch (.bypass ⟨0, 1⟩) [.addTransition ⟨⟨0, 0⟩, ⟨0, 0⟩, ⟨0, 0⟩, .sym 'a'⟩,
    .removeState ⟨0, 1⟩, .setAccepting ⟨0, 0⟩ true])

def beforeBypassing : Ledger :=
  ((((ofGraph (.new 0)).perform .createState).perform
    (.createTransition ⟨0, 0⟩ ⟨0, 0⟩ (.sym 'a'))).perform
      (.createTransition ⟨0, 1⟩ ⟨0, 0⟩ (.sym 'b'))).perform
        (.addState ⟨⟨0, 1⟩, true⟩ [⟨⟨0, 1⟩, ⟨0, 1⟩, ⟨0, 0⟩, .sym 'b'⟩])

theorem reachable_beforeBypassing : beforeBypassing.Reachable :=
  ((((Reachable.new 0).perform (o := .createState) trivial).perform
    (o := .createTransition _ _ _) trivial).perform (o := .createTransition _ _ _) trivial).perform
      (o := .addState _ _) ⟨fun _ => by decide, fun t ht _ => by
        obtain rfl := List.mem_singleton.1 ht
        exact Or.inl rfl⟩

def afterBypassing : History :=
  ⟨[bypassing.remember (bypassing.apply beforeBypassing.graph).backup], [], false, []⟩

/-- The self-loop that has come in is missing again. -/
def withoutLoop : Ledger :=
  (beforeBypassing.perform (.apply bypassing.edit .nothing)).perform
    (.removeTransition ⟨0, 0⟩ ⟨0, 0⟩)

theorem not_forgets_withoutLoop :
    ¬ bypassing.edit.Forgets (bypassing.apply beforeBypassing.graph).backup withoutLoop.graph := by
  rintro (((hforgets | ⟨-, hflag⟩) | ⟨-, hstate⟩) | ⟨-, hforgets⟩)
  · exact hforgets
  · exact hflag (by decide)
  · exact hstate (by decide)
  · exact hforgets

/-- The loop that a batch has added has been removed since. The state and the flag that the batch
puts back are overwritten again when the loop is missed; when there is the loop again, they are
put back for good. -/
theorem Reachable.back_of_back_refusal_loop :
    beforeBypassing.Reachable ∧ bypassing.edit.From beforeBypassing.stock ∧
      (bypassing.apply beforeBypassing.graph).refusal = none ∧
      afterBypassing.done = [bypassing.remember (bypassing.apply beforeBypassing.graph).backup] ∧
      (beforeBypassing.perform (.apply bypassing.edit bypassing.backup)).Since withoutLoop ∧
      ¬ bypassing.edit.Forgets (bypassing.apply beforeBypassing.graph).backup withoutLoop.graph ∧
      (afterBypassing.back withoutLoop.graph).refusal = some (.unknownTransition ⟨0, 0⟩) ∧
      (afterBypassing.back withoutLoop.graph).history = afterBypassing ∧
      beforeBypassing.graph.states = [⟨⟨0, 0⟩, false⟩, ⟨⟨0, 1⟩, true⟩] ∧
      withoutLoop.graph.states = [⟨⟨0, 0⟩, true⟩] ∧
      ∀ x : Automaton, x.SameGraph (bypassing.apply beforeBypassing.graph).graph →
        ((afterBypassing.back withoutLoop.graph).history.back x).refusal = none ∧
          ((afterBypassing.back withoutLoop.graph).history.back x).graph.SameGraph
            beforeBypassing.graph := by
  have hs : bypassing.edit.From beforeBypassing.stock :=
    ⟨fun _ => Or.inr (Or.inl rfl), trivial, trivial, trivial⟩
  have hsince : (beforeBypassing.perform (.apply bypassing.edit bypassing.backup)).Since
      withoutLoop := Since.refl.perform (o := .removeTransition _ _) trivial
  have hok : (bypassing.apply beforeBypassing.graph).refusal = none := by decide
  have hrefusal : (afterBypassing.back withoutLoop.graph).refusal =
      some (.unknownTransition ⟨0, 0⟩) := by decide
  have hdone : afterBypassing.done =
      [bypassing.remember (bypassing.apply beforeBypassing.graph).backup] := rfl
  obtain ⟨hsame, hback⟩ := reachable_beforeBypassing.back_of_back_refusal hs hok hdone
    (.inl hsince) (by simp [hrefusal]) not_forgets_withoutLoop
  exact ⟨reachable_beforeBypassing, hs, hok, hdone, hsince, not_forgets_withoutLoop, hrefusal,
    hsame, by decide, by decide, fun x hx => ⟨(hback x hx).1, (hback x hx).2.1⟩⟩

def removal : Step := .ofEdit (.removeState ⟨0, 1⟩)

def beforeRemoval : Ledger :=
  ((ofGraph (.new 0)).perform .createState).perform (.addState ⟨⟨0, 1⟩, false⟩ [])

theorem reachable_beforeRemoval : beforeRemoval.Reachable :=
  ((Reachable.new 0).perform (o := .createState) trivial).perform
    (o := .addState _ _) ⟨fun _ => by decide, List.forall_mem_nil _⟩

def afterRemoval : History :=
  ⟨[removal.remember (removal.apply beforeRemoval.graph).backup], [], false, []⟩

/-- The state that has been removed has been added from outside. -/
def addedAgain : Ledger :=
  (beforeRemoval.perform (.apply removal.edit .nothing)).perform (.addState ⟨⟨0, 1⟩, false⟩ [])

/-- As before, but it is a state that cannot be put back, since it is there already. When it has
been removed once more, the graph is as the step has left it; now going back is fine but the state
is not put back. -/
theorem exists_lost_of_back_refusal :
    beforeRemoval.Reachable ∧ removal.edit.From beforeRemoval.stock ∧
      (removal.apply beforeRemoval.graph).refusal = none ∧
      afterRemoval.done = [removal.remember (removal.apply beforeRemoval.graph).backup] ∧
      (beforeRemoval.perform (.apply removal.edit removal.backup)).Since addedAgain ∧
      (afterRemoval.back addedAgain.graph).refusal = some (.stateExists ⟨0, 1⟩) ∧
      (afterRemoval.back addedAgain.graph).graph = addedAgain.graph ∧
      (addedAgain.perform (.removeState ⟨0, 1⟩)).graph =
        (removal.apply beforeRemoval.graph).graph ∧
      ((afterRemoval.back addedAgain.graph).history.back
        (removal.apply beforeRemoval.graph).graph).refusal = none ∧
      beforeRemoval.graph.states = [⟨⟨0, 0⟩, false⟩, ⟨⟨0, 1⟩, false⟩] ∧
      ((afterRemoval.back addedAgain.graph).history.back
        (removal.apply beforeRemoval.graph).graph).graph.states = [⟨⟨0, 0⟩, false⟩] := by
  have hsince : (beforeRemoval.perform (.apply removal.edit removal.backup)).Since addedAgain :=
    Since.refl.perform (o := .addState _ _) ⟨fun _ => by decide, List.forall_mem_nil _⟩
  exact ⟨reachable_beforeRemoval, trivial, by decide, rfl, hsince, by decide, by decide, by decide,
    by decide, by decide, by decide⟩

end Ledger

end RegularForms
