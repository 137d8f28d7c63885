import RegularForms.Proofs.Determinization.Complete

/-!
# The rounds of the last pass

`Rounds a table done b` follows the loop of the last pass without a limit on the number of
its rounds: it has led from the graph `a` to the graph `b` and treated the pairs `done` of a
state and a symbol, latest first. No pair comes up twice, and each state is one of those of
`a` or stands for a set of these that has a member and that no other state stands for. So
there are no more rounds than there are such states and symbols. The number of looks that
`determinizeStates` allows is never used up, and its rounds are just these.
-/

namespace RegularForms

def Edit.purpose? : Edit → Option Purpose
  | .batch purpose _ => some purpose
  | _ => none

namespace Determinization

open Automaton Rewriting

variable {a b d : Automaton} {table table' : SubsetTable} {done : List (StateId × Char)}
  {s : StateId} {c : Char} {p : Plan}

inductive Rounds (a : Automaton) : SubsetTable → List (StateId × Char) → Automaton → Prop
  | start : Rounds a .empty [] a
  | round {table table' : SubsetTable} {done : List (StateId × Char)} {b d : Automaton}
      {s : StateId} {c : Char} {p : Plan} {left : Backup} (h : Rounds a table done b)
      (hfound : ambiguity? b = some (s, c)) (hplan : determinize table s c b = .ok (p, table'))
      (happly : (Step.ofEdit p.edit).apply p.graph = ⟨left, d, none⟩) :
      Rounds a table' ((s, c) :: done) d

/-- Each state of a graph is one of those to begin with, or stands for a set of these that
has a member and that no other state stands for. -/
structure Registered (a : Automaton) (table : SubsetTable) (b : Automaton) : Prop where
  mem_cases : ∀ s ∈ b.stateIds, s ∈ a.stateIds ∨ ∃ x ∈ table.bindings, x.state.id = s
  set_ne_nil : ∀ x ∈ table.bindings, x.set ≠ []
  set_subset : ∀ x ∈ table.bindings, ∀ p ∈ x.set, p ∈ a.stateIds
  eq_of_mem_iff : ∀ x ∈ table.bindings, ∀ y ∈ table.bindings,
    (∀ p, p ∈ x.set ↔ p ∈ y.set) → x = y

/-! ## What a round keeps -/

theorem purpose_of_determinize (hb : b.Valid) (hs : s ∈ b.stateIds)
    (hplan : determinize table s c b = .ok (p, table')) :
    p.edit.purpose? = some (.determinize s c) := by
  obtain ⟨target, created, -, rfl⟩ := exists_assign_of_determinize hb hs hplan
  split <;> rfl

/-- A state counts as at least one state. -/
theorem Lifted.members_ne_nil (h : Lifted a table b) (hsets : ∀ x ∈ table.bindings, x.set ≠ [])
    (hs : s ∈ b.stateIds) : table.members s ≠ [] := by
  rcases h.mem_cases s hs with hsa | ⟨x, hx, rfl⟩
  · rw [h.sound.members_of_mem hsa]
    exact List.cons_ne_nil s []
  · rw [h.sound.members_of_bound hx]
    exact hsets x hx

/-- The set that a state is assigned to has a member. -/
theorem Lifted.targetSet_ne_nil (h : Lifted a table b)
    (hsets : ∀ x ∈ table.bindings, x.set ≠ []) (hno : ¬ Unambiguous b s c) :
    targetSet table b s c ≠ [] := by
  have hb := h.valid
  obtain ⟨q, harc⟩ : ∃ q, b.HasArc s (.sym c) q := by
    by_contra hnone
    exact hno fun t ht _ _ hts _ htc _ => absurd ⟨t.target, t, ht, hts, htc, rfl⟩ hnone
  obtain ⟨p, hp⟩ := List.exists_mem_of_ne_nil _ (h.members_ne_nil hsets (hb.mem_of_hasArc harc).2)
  exact List.ne_nil_of_mem ((mem_targetSet hb).2 ⟨q, harc, hp⟩)

structure Tracked (a : Automaton) (table : SubsetTable) (done : List (StateId × Char))
    (b : Automaton) : Prop where
  treated : Treated a table done.toFinset b
  nodup : done.Nodup
  set_ne_nil : ∀ x ∈ table.bindings, x.set ≠ []

theorem tracked_empty (ha : a.Valid) : Tracked a .empty [] a :=
  ⟨treated_empty ha, List.nodup_nil, nofun⟩

/-- An ambiguous symbol can be treated, and then as much is known again. -/
theorem Tracked.round (h : Tracked a table done b) (hfound : ambiguity? b = some (s, c)) :
    ∃ p table' left d, determinize table s c b = .ok (p, table') ∧
      (Step.ofEdit p.edit).apply p.graph = ⟨left, d, none⟩ ∧
        Tracked a table' ((s, c) :: done) d := by
  have hlifted := h.treated.lifted
  obtain ⟨hs, hno⟩ := of_ambiguity?_eq_some hlifted.valid hfound
  obtain ⟨p, table', d, target, copies, hplan, hperforms, hd, hsplit, -⟩ :=
    hlifted.exists_determinize hs c
  obtain ⟨left, happly⟩ := hperforms.exists_apply_eq
  obtain ⟨hnew, htreated⟩ := h.treated.insert hs hno hd hsplit
  refine ⟨p, table', left, d, hplan, happly, ?_, ?_, fun x hx => ?_⟩
  · rwa [List.toFinset_cons]
  · exact List.nodup_cons.2 ⟨fun hmem => hnew (List.mem_toFinset.2 hmem), h.nodup⟩
  · obtain ⟨_, _, hassign, -⟩ := exists_assign_of_determinize hlifted.valid hs hplan
    rcases SubsetTable.cases_of_mem_assign hassign hx with hx | hset
    · exact h.set_ne_nil x hx
    · rw [hset]
      exact hlifted.targetSet_ne_nil h.set_ne_nil hno

theorem Rounds.tracked (h : Rounds a table done b) (ha : a.Valid) : Tracked a table done b := by
  induction h with
  | start => exact tracked_empty ha
  | round _ hfound hplan happly ih =>
      obtain ⟨p, table', left, d, hplan', happly', hd⟩ := ih.round hfound
      obtain ⟨rfl, rfl⟩ := Prod.mk.inj (Except.ok.inj (hplan'.symm.trans hplan))
      obtain ⟨rfl, rfl⟩ : left = _ ∧ d = _ := by simpa using happly'.symm.trans happly
      exact hd

theorem Tracked.registered (h : Tracked a table done b) : Registered a table b where
  mem_cases := h.treated.lifted.mem_cases
  set_ne_nil := h.set_ne_nil
  set_subset := h.treated.lifted.sound.set_subset
  eq_of_mem_iff _ hx _ hy := h.treated.lifted.sound.eq_of_mem_set_iff hx hy

/-! ## The number of rounds -/

def roundLimit (a : Automaton) : Nat :=
  (a.stateIds.length + 2 ^ a.stateIds.length - 1) * (symbols a).length

/-- There are no more states than those to begin with and the sets of them that have a
member. -/
theorem Tracked.length_stateIds_le (h : Tracked a table done b) (ha : a.Valid) :
    b.stateIds.length ≤ a.stateIds.length + 2 ^ a.stateIds.length - 1 := by
  have hsets : ∀ x ∈ table.bindings, x.set.toFinset ∈ a.stateIds.toFinset.powerset.erase ∅ := by
    intro x hx
    refine Finset.mem_erase.2 ⟨fun hempty => h.set_ne_nil x hx ?_,
      h.treated.lifted.set_mem_powerset hx⟩
    exact (List.toFinset_eq_empty_iff _).1 hempty
  have hle := h.treated.lifted.length_stateIds_le_add_card ha hsets
  rwa [Finset.card_erase_of_mem (Finset.empty_mem_powerset _), Finset.card_powerset,
    List.toFinset_card_of_nodup ha.nodup_stateIds,
    ← Nat.add_sub_assoc Nat.one_le_two_pow] at hle

theorem Tracked.length_le (h : Tracked a table done b) (ha : a.Valid) :
    done.length ≤ roundLimit a := by
  calc done.length = done.toFinset.card := (List.toFinset_card_of_nodup h.nodup).symm
    _ ≤ b.stateIds.length * (symbols a).length := h.treated.card_le_mul
    _ ≤ roundLimit a := Nat.mul_le_mul_right _ (h.length_stateIds_le ha)

/-- The looks that are allowed are enough. -/
theorem roundLimit_le (a : Automaton) :
    roundLimit a ≤ (a.nodes.length + Nat.pow 2 a.nodes.length) * ((symbols a).length + 1) := by
  have hlen : a.nodes.length = a.stateIds.length := (List.length_map _).symm
  rw [hlen]
  exact Nat.mul_le_mul (Nat.sub_le _ _) (Nat.le_succ _)

/-- The rounds come to an end. -/
theorem Rounds.exists_last (h : Rounds a table done b) (ha : a.Valid) :
    ∃ table' done' b', Rounds a table' done' b' ∧ ambiguity? b' = none := by
  induction hleft : roundLimit a - done.length using Nat.strong_induction_on
    generalizing table done b with
  | _ left ih =>
      match hfound : ambiguity? b with
      | none => exact ⟨table, done, b, h, hfound⟩
      | some (s, c) =>
          obtain ⟨p, table', backup, d, hplan, happly, hd⟩ := (h.tracked ha).round hfound
          have hlt : done.length < roundLimit a := hd.length_le ha
          have hfewer : roundLimit a - (done.length + 1) < left := by omega
          exact ih _ hfewer (h.round hfound hplan happly) rfl

/-! ## The rounds of a run -/

theorem runOn_determinizeFirst_succ {history history' : Option History} {looks : Nat}
    (hfound : ambiguity? b = some (s, c)) (hplan : determinize table s c b = .ok (p, table'))
    (hrun : (enact p).runOn b history = (.ok (), ⟨d, history'⟩)) :
    (determinizeFirst (looks + 1) table).runOn b history =
      (determinizeFirst looks table').runOn d history' := by
  rw [determinizeFirst, runOn_graph, hfound]
  have hask : (ask (determinize table s c)).run.run ⟨b, history⟩ =
      (.ok (p, table'), ⟨b, history⟩) := by
    rw [run_ask, hplan]
  exact (run_bind hask).trans (run_bind hrun)

/-- The purposes of the edits that a history has recorded, latest first. -/
def purposes (h : History) : List (Option Purpose) := h.past.map Edit.purpose?

/-- As long as looks are left, a run goes through the rounds and records them. -/
theorem Rounds.exists_runOn_eq (h : Rounds a table done b) (ha : a.Valid)
    {history : Option History} (hfree : Unblocked history) (looks : Nat) :
    ∃ history', (determinizeFirst (done.length + looks) .empty).runOn a history =
        (determinizeFirst looks table).runOn b history' ∧ Unblocked history' ∧
      history'.map purposes = history.map fun h =>
        done.map (fun x => some (.determinize x.1 x.2)) ++ purposes h := by
  induction h generalizing looks with
  | start =>
      refine ⟨history, ?_, hfree, ?_⟩
      · rw [List.length_nil, Nat.zero_add]
      · simp
  | @round table table' done b d s c p left h hfound hplan happly ih =>
      obtain ⟨history', hrun, hfree', hpurposes⟩ := ih (looks + 1)
      obtain ⟨history'', henact, hfree'', hpast⟩ := exists_runOn_enact happly hfree'
      refine ⟨history'', ?_, hfree'', ?_⟩
      · rw [List.length_cons, Nat.add_assoc, Nat.add_comm 1 looks, hrun,
          runOn_determinizeFirst_succ hfound hplan henact]
      · have hb := (h.tracked ha).treated.lifted.valid
        have hpurpose := purpose_of_determinize hb (of_ambiguity?_eq_some hb hfound).1 hplan
        have hnext : history''.map purposes =
            (history'.map purposes).map (some (.determinize s c) :: ·) := by
          have hmap := congrArg (Option.map (List.map Edit.purpose?)) hpast
          rw [Option.map_map, Option.map_map] at hmap
          rw [← hpurpose, Option.map_map]
          exact hmap
        rw [hnext, hpurposes, Option.map_map]
        rfl

/-- The loop that makes an automaton with single symbols for labels deterministic, begun after
the other passes, comes to its end, whatever history is kept. With `n` states and `k` symbols
to begin with it carries out at most `(n + 2 ^ n - 1) * k` edits, each for another pair of a
state and a symbol, and it is never refused. On the way different states that are added stand
for different sets of the `n` states. What is recorded are the edits of the rounds. -/
theorem rounds_determinizeAll {l : Ledger} (hl : l.Reachable)
    (hlit : ∀ t ∈ l.graph.transitions, t.label.isSymbol = true) :
    ∃ d table done b, Rounds d table done b ∧ ambiguity? b = none ∧
      (∀ history, Unblocked history → ∃ history₁ history₂,
        (prepare l.graph).runOn l.graph history = (.ok (), ⟨d, history₁⟩) ∧
          determinizeStates.runOn d history₁ = (.ok (), ⟨b, history₂⟩) ∧
          determinizeAll.runOn l.graph history = Pruning.prune.runOn b history₂ ∧
          history₂.map purposes = history₁.map fun h =>
            done.map (fun x => some (.determinize x.1 x.2)) ++ purposes h) ∧
      ∀ table done b, Rounds d table done b →
        done.Nodup ∧ Registered d table b ∧
          done.length ≤ (d.stateIds.length + 2 ^ d.stateIds.length - 1) * (symbols d).length ∧
          ∀ s c, ambiguity? b = some (s, c) →
            ∃ table' b', Rounds d table' ((s, c) :: done) b' := by
  obtain ⟨_, d, hprepare, hd⟩ := (achieves_prepare hl.valid rfl).runOn_none rfl
  have hd := hd.valid
  obtain ⟨table, done, b, hrounds, hlast⟩ := (Rounds.start (a := d)).exists_last hd
  refine ⟨d, table, done, b, hrounds, hlast, fun history hfree => ?_, fun table done b h => ?_⟩
  · obtain ⟨history₁, hprepare, hfree⟩ := (heedless_prepare _).exists_runOn hprepare hfree
    -- the looks that are allowed are those of the rounds and some more
    obtain ⟨looks, hlooks⟩ := Nat.exists_eq_add_of_le
      (((hrounds.tracked hd).length_le hd).trans (roundLimit_le d))
    obtain ⟨history₂, hrun, -, hpurposes⟩ := hrounds.exists_runOn_eq hd hfree looks
    have hstates : determinizeStates.runOn d history₁ = (.ok (), ⟨b, history₂⟩) := by
      rw [determinizeStates, runOn_graph, hlooks, hrun, runOn_determinizeFirst_none looks hlast]
    refine ⟨history₁, history₂, hprepare, hstates, ?_, hpurposes⟩
    rw [runOn_determinizeAll hlit]
    exact (run_bind hprepare).trans (run_bind hstates)
  · have htracked := h.tracked hd
    refine ⟨htracked.nodup, htracked.registered, htracked.length_le hd, fun s c hfound => ?_⟩
    obtain ⟨p, table', left, b', hplan, happly, -⟩ := htracked.round hfound
    exact ⟨table', b', h.round hfound hplan happly⟩

/-- The case of an automaton with an ambiguous symbol and `ε` transitions. -/
theorem rounds_determinizeAll_ambiguousCycle :
    ambiguousCycle.Reachable ∧
      (∀ t ∈ ambiguousCycle.graph.transitions, t.label.isSymbol = true) ∧
      ambiguity? ambiguousCycle.graph = some (⟨0, 1⟩, 'a') ∧
        ∃ d table done b history, Rounds d table done b ∧ ambiguity? b = none ∧
          determinizeAll.runOn ambiguousCycle.graph (some (.new false)) =
            Pruning.prune.runOn b history ∧
          done.length ≤ (d.stateIds.length + 2 ^ d.stateIds.length - 1) * (symbols d).length := by
  have hlit := isSymbol_label_ambiguousCycle
  have hfree : Unblocked (some (.new false)) := by
    rintro h ⟨rfl⟩
    exact .inl rfl
  obtain ⟨d, table, done, b, hrounds, hlast, hrun, hbound⟩ :=
    rounds_determinizeAll reachable_ambiguousCycle hlit
  obtain ⟨_, history, -, -, hall, -⟩ := hrun _ hfree
  exact ⟨reachable_ambiguousCycle, hlit, by decide +kernel, d, table, done, b, history, hrounds,
    hlast, hall, (hbound table done b hrounds).2.2.1⟩

end Determinization

end RegularForms
