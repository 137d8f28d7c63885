import RegularForms.Proofs.Automaton.Ledger
import RegularForms.Proofs.Edit.Reversal
import RegularForms.Proofs.History

/-!
# What is left of an edit that is refused

Whatever an edit remembers and however deep its batches are nested, the graph is the same as
before when applying the edit is refused: the members that have been applied until then have
joined graphs, so taking them back cannot fail. A history that refuses to record an edit, or
passes on that the edit is refused, is the same as before as well; in particular it does not
drop the undone steps which it would have dropped for the edit.

Reverting an edit may be refused when other operations have come in between. Then the graph
is the same as before if the states that the edit adds and the flags that it sets have been
left alone. If not, it may be another one: taking back a state that was added drops the
transitions that leave it and its flag, and nothing remembers them.
-/

namespace RegularForms

namespace Ledger

/-- An edit about states and transitions that have been handed out leaves the graph of a
ledger exactly as it was when it is refused. If it is refused when it is to be recorded in a
history, the history is exactly what it was, too. -/
theorem Reachable.unchanged_of_refusal {l : Ledger} (h : l.Reachable) {e : Edit}
    (he : e.From l.stock) (backup : Backup) :
    ((e.apply backup l.graph).refusal ≠ none → (e.apply backup l.graph).graph = l.graph) ∧
      ∀ hist : History, (hist.record ⟨e, backup⟩ l.graph).refusal ≠ none →
        (hist.record ⟨e, backup⟩ l.graph).graph = l.graph ∧
          (hist.record ⟨e, backup⟩ l.graph).history = hist := by
  rcases Edit.settled _ _ e _ h.kept.stocked he with ⟨b, hjoins, -⟩ | hrefused
  · obtain ⟨left, happly, -⟩ := hjoins.apply_eq backup
    rw [happly]
    refine ⟨fun hrefusal => absurd rfl hrefusal, fun hist hrefusal => ?_⟩
    by_cases hfree : hist.undone = [] ∨ hist.clobber = true
    · obtain ⟨_, -, hrecord⟩ := History.exists_record_eq (s := ⟨e, backup⟩) hjoins hfree
      rw [hrecord] at hrefusal
      exact absurd rfl hrefusal
    · rw [History.record_of_blocked hfree]
      exact ⟨rfl, rfl⟩
  · obtain ⟨left, err, happly⟩ := hrefused backup
    rw [happly]
    exact ⟨fun _ => rfl, fun hist _ => (History.record_of_refused (s := ⟨e, backup⟩) happly).symm⟩

/-- A batch within a batch, with a backup from before. -/
def nestedBatch : Step :=
  ⟨.batch .isolateFinal [.addState ⟨⟨0, 1⟩, false⟩,
      .batch .isolateInitial [.setAccepting ⟨0, 1⟩ true, .removeState ⟨0, 0⟩]],
    .batch [.nothing, .batch [.flag true]]⟩

/-- The inner batch is refused when it comes to the start state, so the state that the outer
batch has added goes again, and the undone step stays, although it stands in nobody's way. -/
theorem Reachable.unchanged_of_refusal_nested :
    ∃ (l : Ledger) (hist : History),
      l.Reachable ∧ nestedBatch.edit.From l.stock ∧ hist.clobber = true ∧
        hist.cursor < hist.length ∧
        (nestedBatch.apply l.graph).refusal = some .startRemoval ∧
          (nestedBatch.apply l.graph).graph = l.graph ∧
            (hist.record nestedBatch l.graph).graph = l.graph ∧
              (hist.record nestedBatch l.graph).history = hist := by
  have h := (Reachable.new 0).perform (o := .createState) trivial
  have he : nestedBatch.edit.From ((ofGraph (.new 0)).perform .createState).stock :=
    ⟨fun _ => by decide, ⟨trivial, trivial, trivial⟩, trivial⟩
  obtain ⟨happly, hrecord⟩ := h.unchanged_of_refusal he nestedBatch.backup
  have hrefusal : (nestedBatch.apply ((ofGraph (.new 0)).perform .createState).graph).refusal =
      some .startRemoval := by decide
  refine ⟨_, ⟨[], [.ofEdit (.setAccepting ⟨0, 0⟩ true)], true, []⟩, h, he, rfl, by decide,
    hrefusal, happly (hrefusal ▸ nofun), ?_⟩
  exact hrecord _ (by decide)

/-- An edit has been applied to a graph, and any operations have been performed since. If
reverting the edit is refused now, the graph stays exactly as it is, provided that where the
states which the edit adds are still there they have the same transitions and flag, and where
the states whose flags it sets are still there they have the same flag. -/
theorem Reachable.unchanged_of_revert_refusal {l m : Ledger} (h : l.Reachable) {e : Edit}
    (he : e.From l.stock) {backup : Backup} (hok : (e.apply backup l.graph).refusal = none)
    (hsince : (l.perform (.apply e backup)).Since m)
    (hagree : Automaton.Agree e.added e.flagged (e.apply backup l.graph).graph m.graph)
    (hrefusal : (e.revert (e.apply backup l.graph).backup m.graph).refusal ≠ none) :
    (e.revert (e.apply backup l.graph).backup m.graph).graph = m.graph := by
  have happly : e.apply backup l.graph =
      ⟨(e.apply backup l.graph).backup, (e.apply backup l.graph).graph, none⟩ :=
    congrArg (Outcome.mk _ _) hok
  have hb := Edit.stocked_of_apply_eq h.kept.stocked he happly
  have hnext := h.kept.continues_of_stocked hb
  have hlater := hnext.trans (hsince.continues hnext.kept)
  exact Edit.graph_revert_of_refusal hlater.stock h.kept.stocked he happly hlater.kept.stocked
    hagree hrefusal

/-- A batch that adds a self-loop at the start state, and a state. -/
def loopAndState : Edit :=
  .batch .isolateFinal
    [.addTransition ⟨⟨0, 0⟩, ⟨0, 0⟩, ⟨0, 0⟩, .sym 'a'⟩, .addState ⟨⟨0, 1⟩, false⟩]

/-- The states and transitions have been handed out that the batch adds, and one more. -/
def beforeBatch : Ledger :=
  (((ofGraph (.new 0)).perform .createState).perform
    (.createTransition ⟨0, 0⟩ ⟨0, 0⟩ (.sym 'a'))).perform
      (.createTransition ⟨0, 1⟩ ⟨0, 0⟩ (.sym 'b'))

theorem reachable_beforeBatch : beforeBatch.Reachable :=
  (((Reachable.new 0).perform (o := .createState) trivial).perform
    (o := .createTransition _ _ _) trivial).perform (o := .createTransition _ _ _) trivial

theorem from_loopAndState : loopAndState.From beforeBatch.stock :=
  ⟨fun _ => .inr (.inl rfl), fun _ => by decide, trivial⟩

def afterBatch : Ledger := beforeBatch.perform (.apply loopAndState .nothing)

/-- The batch has been applied, the start state has been made accepting, and the self-loop is
missing again. -/
def afterFlag : Ledger :=
  (afterBatch.perform (.setAccepting ⟨0, 0⟩ true)).perform (.removeTransition ⟨0, 0⟩ ⟨0, 0⟩)

theorem agree_afterFlag :
    Automaton.Agree loopAndState.added loopAndState.flagged
      (loopAndState.apply .nothing beforeBatch.graph).graph afterFlag.graph := by
  have hadded : ∀ s ∈ loopAndState.added, s = ⟨0, 1⟩ := by
    simp [loopAndState, Edit.added, Edit.addedAll]
  have hflagged : loopAndState.flagged = ∅ := by
    simp [loopAndState, Edit.flagged, Edit.flaggedAll]
  have hnode : ∀ k ∈ (loopAndState.apply .nothing beforeBatch.graph).graph.nodes,
      ∀ n ∈ afterFlag.graph.nodes, k.id = n.id → n.id = ⟨0, 1⟩ → k = n := by decide
  exact ⟨fun k hk n hn hid hn' => hnode k hk n hn hid (hadded _ hn'),
    fun k hk n hn hid hn' => absurd (hflagged ▸ hn') (Set.notMem_empty _)⟩

/-- The state that the batch has added is taken out and put in again. -/
theorem Reachable.unchanged_of_revert_refusal_loop :
    beforeBatch.Reachable ∧ loopAndState.From beforeBatch.stock ∧
      (loopAndState.apply .nothing beforeBatch.graph).refusal = none ∧
      afterBatch.Since afterFlag ∧
      afterFlag.graph.states = [⟨⟨0, 0⟩, true⟩, ⟨⟨0, 1⟩, false⟩] ∧
      afterFlag.graph.transitions = [] ∧
      (loopAndState.revert (loopAndState.apply .nothing beforeBatch.graph).backup
        afterFlag.graph).refusal = some (.unknownTransition ⟨0, 0⟩) ∧
      (loopAndState.revert (loopAndState.apply .nothing beforeBatch.graph).backup
        afterFlag.graph).graph = afterFlag.graph := by
  have hok : (loopAndState.apply .nothing beforeBatch.graph).refusal = none := by decide
  have hsince : afterBatch.Since afterFlag :=
    (Since.refl.perform (o := .setAccepting _ _) trivial).perform
      (o := .removeTransition _ _) trivial
  refine ⟨reachable_beforeBatch, from_loopAndState, hok, hsince, by decide, by decide,
    by decide, ?_⟩
  exact reachable_beforeBatch.unchanged_of_revert_refusal from_loopAndState hok hsince
    agree_afterFlag (by decide)

/-- The state which the batch has added has got a transition and been made accepting, and the
self-loop is missing again. -/
def afterLink : Ledger :=
  ((afterBatch.perform (.addTransition ⟨⟨0, 1⟩, ⟨0, 1⟩, ⟨0, 0⟩, .sym 'b'⟩)).perform
    (.setAccepting ⟨0, 1⟩ true)).perform (.removeTransition ⟨0, 0⟩ ⟨0, 0⟩)

/-- Reverting the batch is refused, and the transition and the flag are gone. -/
theorem exists_changed_of_revert_refusal :
    beforeBatch.Reachable ∧ loopAndState.From beforeBatch.stock ∧
      (loopAndState.apply .nothing beforeBatch.graph).refusal = none ∧
      afterBatch.Since afterLink ∧
      afterLink.graph.states = [⟨⟨0, 0⟩, false⟩, ⟨⟨0, 1⟩, true⟩] ∧
      afterLink.graph.transitions = [⟨⟨0, 1⟩, ⟨0, 1⟩, ⟨0, 0⟩, .sym 'b'⟩] ∧
      (loopAndState.revert (loopAndState.apply .nothing beforeBatch.graph).backup
        afterLink.graph).refusal = some (.unknownTransition ⟨0, 0⟩) ∧
      (loopAndState.revert (loopAndState.apply .nothing beforeBatch.graph).backup
        afterLink.graph).graph.states = [⟨⟨0, 0⟩, false⟩, ⟨⟨0, 1⟩, false⟩] ∧
      (loopAndState.revert (loopAndState.apply .nothing beforeBatch.graph).backup
        afterLink.graph).graph.transitions = [] ∧
      (loopAndState.revert (loopAndState.apply .nothing beforeBatch.graph).backup
        afterLink.graph).graph ≠ afterLink.graph := by
  have hsince : afterBatch.Since afterLink :=
    ((Since.refl.perform (o := .addTransition _) fun _ => Or.inl rfl).perform
      (o := .setAccepting _ _) trivial).perform (o := .removeTransition _ _) trivial
  exact ⟨reachable_beforeBatch, from_loopAndState, by decide, hsince, by decide, by decide,
    by decide, by decide, by decide, by decide⟩

end Ledger

end RegularForms
