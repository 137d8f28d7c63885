import RegularForms.Proofs.Automaton.Ledger
import RegularForms.Proofs.Execution
import RegularForms.Proofs.Expansion.Complete

/-!
# How many expansions there are

An expansion takes away the operator on top of a label and keeps those below it: the operands
become the labels of new transitions, and the transitions that are added besides are labelled
`ε`. So each takes exactly one operator out of the labels of a graph, whichever transition it is
for and with whatever isolation; the order in which transitions are expanded has no influence on
how many expansions there are.
-/

namespace RegularForms

namespace Expansion

open Automaton Rewriting

variable {a b c : Automaton} {t : TransitionId} {p : Plan}

inductive Expands (a : Automaton) : Plan → Prop
  | choice {t : TransitionId} {p : Plan} (h : choice t a = .ok p) : Expands a p
  | sequence {t : TransitionId} {p : Plan} (h : sequence t a = .ok p) : Expands a p
  | option {t : TransitionId} {p : Plan} (h : option t a = .ok p) : Expands a p
  | iteration {isolation : Isolation} {t : TransitionId} {p : Plan}
      (h : iteration isolation t a = .ok p) : Expands a p

/-- Other transitions are planned to take the place of one whose label has an operator: they
lead between states of the graph and new states, and are labelled with the operands of the old
label and otherwise with `ε`. -/
inductive Unfolds (a : Automaton) : Plan → Prop
  | replace {u : Transition} (hu : u ∈ a.transitions) (hsym : u.label.isSymbol = false)
      (purpose : Purpose) {states k : Nat} {arcs : List (StateId × StateId × Expr)}
      (hends : ∀ x ∈ arcs, Known a states x.1 ∧ Known a states x.2.1)
      (hlabels :
        (arcs.map fun x => x.2.2).Perm (List.replicate k .epsilon ++ u.label.operands)) :
      Unfolds a (replace a purpose u states arcs)

/-- Such a plan can be carried out, and takes away one operator. -/
theorem Unfolds.exists_performs (h : Unfolds a p) (ha : a.Valid) :
    ∃ b, p.Performs a b ∧ b.Valid ∧ b.operatorCount + 1 = a.operatorCount := by
  cases h with
  | replace hu hsym purpose hends hlabels =>
      obtain ⟨b, hperforms, hb⟩ := exists_replaced ha hu purpose hends
      exact ⟨b, hperforms, hb.valid, hb.operatorCount_succ ha hu hsym hlabels⟩

/-- A transition that is found for an operator has a compound label. -/
theorem compound_of_labelled_eq {ops : List Operator} {u : Transition}
    (h : a.labelled ops t = .ok u) (hops : .symbol ∉ ops) :
    u ∈ a.transitions ∧ u.label.isSymbol = false := by
  obtain ⟨hu, -, hop⟩ := exists_of_labelled_eq h
  refine ⟨hu, Bool.eq_false_iff.2 fun hsym => hops ?_⟩
  obtain ⟨c, hc⟩ := Expr.isSymbol_iff.1 hsym
  rwa [hc] at hop

theorem unfolds_choice (ha : a.Valid) (h : choice t a = .ok p) : Unfolds a p := by
  obtain ⟨u, hfound, hp⟩ := bind_eq_ok_iff.1 h
  obtain ⟨hu, hsym⟩ := compound_of_labelled_eq hfound (by decide)
  obtain rfl := Except.ok.inj hp
  refine .replace (k := 0) hu hsym _ (fun x hx => ?_) (by simp [Function.comp_def])
  obtain ⟨e, -, rfl⟩ := List.mem_map.1 hx
  exact ⟨.inl (ha.source_mem hu), .inl (ha.target_mem u hu)⟩

theorem unfolds_sequence (ha : a.Valid) (h : sequence t a = .ok p) : Unfolds a p := by
  obtain ⟨u, hfound, hp⟩ := bind_eq_ok_iff.1 h
  obtain ⟨hu, hsym⟩ := compound_of_labelled_eq hfound (by decide)
  obtain rfl := Except.ok.inj hp
  refine .replace (k := 0) hu hsym _ (fun x hx => known_of_mem_chain ha hu hx) (.of_eq ?_)
  -- A sequence without operands has its two ends for points, too, and a chain with no arc.
  refine map_chain ?_
  show _ < (points a u (u.label.operands.length - 1)).length
  rw [length_points]
  omega

theorem unfolds_option (ha : a.Valid) (h : option t a = .ok p) : Unfolds a p := by
  obtain ⟨u, hfound, hp⟩ := bind_eq_ok_iff.1 h
  obtain ⟨hu, hsym⟩ := compound_of_labelled_eq hfound (by decide)
  obtain rfl := Except.ok.inj hp
  obtain ⟨k, hk⟩ := exists_map_epsilon fun x (hx : x ∈ skip a u.source u.target) => by
    rw [mem_skip hx]
  have hends : Known a 0 u.source ∧ Known a 0 u.target :=
    ⟨.inl (ha.source_mem hu), .inl (ha.target_mem u hu)⟩
  refine .replace (k := k) hu hsym _ (fun x hx => ?_)
    (by rw [List.map_append, hk, List.map_map]; simp [Function.comp_def])
  rcases List.mem_append.1 hx with hx | hx
  · rw [mem_skip hx]
    exact hends
  · obtain ⟨e, -, rfl⟩ := List.mem_map.1 hx
    exact hends

theorem unfolds_iteration (ha : a.Valid) {isolation : Isolation}
    (h : iteration isolation t a = .ok p) : Unfolds a p := by
  obtain ⟨u, hfound, -⟩ := bind_eq_ok_iff.1 h
  obtain ⟨hu, hsym⟩ := compound_of_labelled_eq hfound (by decide)
  obtain ⟨-, rfl, hop⟩ := exists_of_labelled_eq hfound
  obtain ⟨e, hlabel⟩ : ∃ e, IteratedLabel u e := by
    cases hlabel : u.label <;> simp [hlabel, Expr.operator, IteratedLabel] at hop ⊢
  rw [iteration_eq ha hu hlabel (requiredIsolation_eq ha hu)] at h
  split at h
  · split at h
    · obtain rfl := Except.ok.inj h
      obtain ⟨k, hk⟩ := exists_map_sharedLoop a u
      exact .replace hu hsym _ (fun x hx => known_sharedLoop ha hu hlabel hx) hk
    · obtain rfl := Except.ok.inj h
      obtain ⟨k, hk⟩ :=
        exists_map_isolatedLoop a u (loopStart isolation a u) (loopFinish isolation a u)
      obtain ⟨hstart, hfinish⟩ := known_loopEnds isolation ha hu
      exact .replace hu hsym _ (fun x hx => known_isolatedLoop ha hu hstart hfinish hx) (.of_eq hk)
  · cases h

theorem Expands.unfolds (h : Expands a p) (ha : a.Valid) : Unfolds a p := by
  cases h with
  | choice h => exact unfolds_choice ha h
  | sequence h => exact unfolds_sequence ha h
  | option h => exact unfolds_option ha h
  | iteration h => exact unfolds_iteration ha h

/-- What is planned by the operator of a label is one of the expansions. -/
theorem expands_of_plan? (h : plan? t a = .ok (some p)) : Expands a p := by
  have hsome : ∀ {x : Except Error Plan}, some <$> x = .ok (some p) → x = .ok p := by
    intro x hx
    cases x with
    | error err => nomatch hx
    | ok q => exact congrArg _ (Option.some.inj (Except.ok.inj hx))
  obtain ⟨u, -, hplan⟩ := bind_eq_ok_iff.1 h
  split at hplan
  · nomatch hplan
  · exact .choice (hsome hplan)
  · exact .sequence (hsome hplan)
  · exact .option (hsome hplan)
  · obtain ⟨isolation, -, hplan⟩ := bind_eq_ok_iff.1 hplan
    exact .iteration (hsome hplan)
  · obtain ⟨isolation, -, hplan⟩ := bind_eq_ok_iff.1 hplan
    exact .iteration (hsome hplan)

/-- An expansion of a compound label is planned. -/
theorem exists_plan?_unfolds (ha : a.Valid) {u : Transition} (hu : u ∈ a.transitions)
    (hsym : u.label.isSymbol = false) :
    ∃ p, plan? u.id a = .ok (some p) ∧ Unfolds a p := by
  refine exists_plan?_of_operators ha hu hsym (fun es hlabel => ?_) (fun es hlabel => ?_)
    (fun e hlabel => ?_) fun e required hlabel hrequired => ?_
  · have hp := choice_eq ha hu hlabel
    exact ⟨_, hp, unfolds_choice ha hp⟩
  · have hp := sequence_eq ha hu hlabel
    exact ⟨_, hp, unfolds_sequence ha hp⟩
  · have hp := option_eq ha hu hlabel
    exact ⟨_, hp, unfolds_option ha hp⟩
  · have hp := (iteration_eq ha hu hlabel hrequired required).trans
      (if_pos (Isolation.covers_self required))
    exact ⟨_, hp, unfolds_iteration ha hp⟩

/-! ## Counting -/

theorem operatorCount_eq_zero_iff : a.operatorCount = 0 ↔ a.Literal := by
  rw [Automaton.operatorCount_eq_sum, List.sum_eq_zero_iff_forall_eq_nat, List.forall_mem_map]
  exact forall₂_congr fun _ _ => Expr.operatorCount_eq_zero_iff

/-- Some transitions are expanded one after the other, in any order. -/
inductive Expansions : Automaton → Nat → Automaton → Prop
  | nil (a : Automaton) : Expansions a 0 a
  | cons {a b c : Automaton} {n : Nat} {p : Plan} {left : Backup} (hp : Expands a p)
      (happly : (Step.ofEdit p.edit).apply p.graph = ⟨left, b, none⟩) (h : Expansions b n c) :
      Expansions a (n + 1) c

/-- One more transition is expanded in the end. -/
theorem Expansions.concat {n : Nat} {left : Backup} (h : Expansions a n b) (hp : Expands b p)
    (happly : (Step.ofEdit p.edit).apply p.graph = ⟨left, c, none⟩) : Expansions a (n + 1) c := by
  induction h with
  | nil a => exact .cons hp happly (.nil c)
  | cons hq hfirst _ ih => exact .cons hq hfirst (ih hp)

theorem Expands.operatorCount_succ {left : Backup} (h : Expands a p) (ha : a.Valid)
    (happly : (Step.ofEdit p.edit).apply p.graph = ⟨left, b, none⟩) :
    b.Valid ∧ b.operatorCount + 1 = a.operatorCount := by
  obtain ⟨c, hperforms, hc⟩ := (h.unfolds ha).exists_performs ha
  obtain ⟨_, happly'⟩ := hperforms.exists_apply_eq
  obtain rfl := congrArg Outcome.graph (happly'.symm.trans happly)
  exact hc

/-- Each expansion takes away one operator, so their number does not depend on the order. -/
theorem Expansions.operatorCount_add {n : Nat} (h : Expansions a n b) (ha : a.Valid) :
    b.Valid ∧ b.operatorCount + n = a.operatorCount := by
  induction h with
  | nil a => exact ⟨ha, rfl⟩
  | cons hp happly _ ih =>
      obtain ⟨hb, hsucc⟩ := hp.operatorCount_succ ha happly
      obtain ⟨hvalid, hcount⟩ := ih hb
      exact ⟨hvalid, by rw [← hsucc, ← hcount, Nat.add_assoc]⟩

/-- Looking more often than there are operators executes one step for each of them. -/
theorem exists_executes_expandFirst {looks : Nat} (ha : a.Valid)
    (hlooks : a.operatorCount < looks) :
    ∃ steps b, Executes (expandFirst looks) a steps (.ok ()) b ∧
      Expansions a steps.length b ∧ b.Literal := by
  induction looks generalizing a with
  | zero => nomatch hlooks
  | succ looks ih =>
      cases hts : a.compoundTransitions with
      | nil =>
          refine ⟨[] ++ [], a, .bind .graph ?_, .nil a, literal_of_compoundTransitions hts⟩
          rw [hts]
          exact .pure ()
      | cons t ts =>
          obtain ⟨u, hu, rfl, hsym⟩ := mem_compoundTransitions hts
          obtain ⟨p, hp, hunfolds⟩ := exists_plan?_unfolds ha hu hsym
          obtain ⟨b, hperforms, hb, hcount⟩ := hunfolds.exists_performs ha
          obtain ⟨left, happly⟩ := hperforms.exists_apply_eq
          obtain ⟨steps, c, hexec, hexpansions, hlit⟩ := ih hb (by omega)
          refine ⟨[] ++ ([(Step.ofEdit p.edit).remember left] ++ steps), c, .bind .graph ?_,
            .cons (expands_of_plan? hp) happly hexpansions, hlit⟩
          rw [hts]
          exact .bind (executes_carryOut?_some hp hperforms.1 happly) hexec

/-- Expanding every label with a history at its end comes to an end after as many steps as there
are operators in all labels together, which the history has in addition then, and leaves single
symbols for labels. It is no matter of the order: expanding transitions in any other order, and
with any isolation, takes away one operator each time, and goes on as long as some label is
compound. -/
theorem length_expandAll {l : Ledger} (hl : l.Reachable) :
    (∀ h : History, h.undone = [] →
      ∃ b k steps, expandAll.runOn l.graph (some h) = (.ok (), ⟨b, some k⟩) ∧
        k.steps = h.steps ++ steps ∧ k.undone = [] ∧ steps.length = l.graph.operatorCount ∧
          ∀ t ∈ b.transitions, t.label.isSymbol = true) ∧
      ∀ n b, Expansions l.graph n b →
        b.operatorCount + n = l.graph.operatorCount ∧
          ((∀ t ∈ b.transitions, t.label.isSymbol = true) ↔ n = l.graph.operatorCount) ∧
          ∀ t ∈ b.transitions, t.label.isSymbol = false →
            ∃ p left c, plan? t.id b = .ok (some p) ∧
              (Step.ofEdit p.edit).apply p.graph = ⟨left, c, none⟩ ∧
                Expansions l.graph (n + 1) c := by
  have ha := hl.valid
  refine ⟨fun h hend => ?_, fun n b hb => ?_⟩
  · obtain ⟨steps, b, hexec, hexpansions, hlit⟩ :=
      exists_executes_expandFirst ha (Nat.lt_succ_self _)
    have hrun : Executes expandAll l.graph ([] ++ steps) (.ok ()) b := .bind .graph hexec
    obtain ⟨-, hcount⟩ := hexpansions.operatorCount_add ha
    rw [operatorCount_eq_zero_iff.2 hlit, Nat.zero_add] at hcount
    exact ⟨b, h.keepAll steps, steps, hrun.runOn_some (.inl hend), History.steps_keepAll hend steps,
      History.undone_keepAll hend steps, hcount, hlit⟩
  · obtain ⟨hvalid, hcount⟩ := hb.operatorCount_add ha
    refine ⟨hcount, ?_, fun t ht hsym => ?_⟩
    · show b.Literal ↔ _
      rw [← operatorCount_eq_zero_iff]
      omega
    · obtain ⟨p, hp, hunfolds⟩ := exists_plan?_unfolds hvalid ht hsym
      obtain ⟨c, hperforms, -⟩ := hunfolds.exists_performs hvalid
      obtain ⟨left, happly⟩ := hperforms.exists_apply_eq
      exact ⟨p, left, c, hp, happly, hb.concat (expands_of_plan? hp) happly⟩

/-- The case of `(ab*|c?)+`, with five operators, and a new history. -/
theorem length_expandAll_plus :
    (Ledger.ofGraph
      (ofExpr 0 (.plus (.alt [.seq [.sym 'a', .star (.sym 'b')], .opt (.sym 'c')])))).Reachable ∧
      ∃ b k, expandAll.runOn
          (ofExpr 0 (.plus (.alt [.seq [.sym 'a', .star (.sym 'b')], .opt (.sym 'c')])))
          (some (.new false)) = (.ok (), ⟨b, some k⟩) ∧ k.steps.length = 5 := by
  have hreachable := Ledger.Reachable.ofExpr 0
    (.plus (.alt [.seq [.sym 'a', .star (.sym 'b')], .opt (.sym 'c')]))
  obtain ⟨b, k, steps, hrun, hsteps, -, hlength, -⟩ :=
    (length_expandAll hreachable).1 (.new false) rfl
  refine ⟨hreachable, b, k, hrun, ?_⟩
  rw [hsteps]
  exact hlength

end Expansion

end RegularForms
