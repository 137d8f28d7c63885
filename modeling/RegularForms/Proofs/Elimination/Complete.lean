import RegularForms.Proofs.Automaton.Ledger
import RegularForms.Proofs.Elimination.State
import RegularForms.Proofs.Pruning

/-!
# Eliminating all states

When no state is left to be eliminated there are two states and, as the language is not
empty, one transition, whose label describes the language. Every label has a word, so the
language is empty only if pruning has left no accepting state.
-/

namespace RegularForms

namespace Elimination

open Automaton Rewriting

variable {a : Automaton} {final : StateId} {l : Language Char}

/-- Two states and one transition, which leads from the start state to the accepting
state. -/
structure Linked (a : Automaton) (t : Transition) : Prop where
  transitions_eq : a.transitions = [t]
  source_eq : t.source = a.start
  length_stateIds : a.stateIds.length = 2
  mem_stateIds : ∀ s, s ∈ a.stateIds ↔ s = a.start ∨ s = t.target
  accepting_iff : ∀ s, a.accepting s = true ↔ s = t.target
  target_ne_start : t.target ≠ a.start

/-- What is read between the two states is what their transition is labelled with. -/
theorem Linked.language_eq {t : Transition} (h : Linked a t) : a.language = t.label.language := by
  have hacc : 1 ≤ a.languageFrom t.target := one_le_languageFrom ((h.accepting_iff _).2 rfl)
  refine le_antisymm ?_ ?_
  · have hle := Automaton.languageFrom_le (a := a)
      (M := fun s => if s = a.start then t.label.language else 1) (fun s hs => ?_)
      (fun u hu => ?_) a.start
    · rwa [if_pos rfl] at hle
    · rw [if_neg fun hst => h.target_ne_start (((h.accepting_iff s).1 hs).symm.trans hst)]
    · rw [h.transitions_eq] at hu
      rw [List.mem_singleton.1 hu, if_neg h.target_ne_start, if_pos h.source_eq, mul_one]
  · have hmem : t ∈ a.transitions := h.transitions_eq ▸ List.mem_singleton.2 rfl
    calc t.label.language = t.label.language * 1 := (mul_one _).symm
      _ ≤ t.label.language * a.languageFrom t.target := mul_le_mul_right hacc _
      _ ≤ a.languageFrom t.source := label_mul_languageFrom_le hmem
      _ = a.language := by rw [h.source_eq, language]

/-- When no state remains, all transitions lead from the start to the accepting state. -/
theorem Framed.mem_between_of_nil {start : StateId} (h : Framed l start final [] a)
    {t : Transition} (ht : t ∈ a.transitions) : t ∈ between a a.start final := by
  refine (mem_between h.valid).2 ⟨ht, ?_, ?_⟩
  · rcases (h.mem_stateIds _).1 (h.valid.source_mem ht) with heq | heq | hno
    · exact heq
    · exact absurd heq (h.isolated.source_ne t ht)
    · nomatch hno
  · rcases (h.mem_stateIds _).1 (h.valid.target_mem t ht) with heq | heq | hno
    · exact absurd heq (h.initial t ht)
    · exact heq
    · nomatch hno

/-- When no state remains and no transitions are parallel, one transition is left, unless
the language is empty. -/
theorem Framed.exists_linked {start : StateId} (h : Framed l start final [] a)
    (hle : (between a a.start final).length ≤ 1) (hl : l ≠ 0) :
    ∃ t, between a a.start final = [t] ∧ Linked a t := by
  have hsub : a.transitions.Subperm (between a a.start final) :=
    h.valid.nodup_transitions.subperm fun t ht => h.mem_between_of_nil ht
  match hts : a.transitions with
  | [] =>
      refine absurd ?_ hl
      rw [← h.language_eq]
      refine le_antisymm (languageFrom_le_of_step (fun hacc => ?_) fun t ht => ?_) bot_le
      · exact absurd ((h.isolated.accepting_iff _).1 hacc).symm h.isolated.ne_start
      · rw [hts] at ht
        nomatch ht
  | t :: ts =>
      have ht : t ∈ between a a.start final :=
        h.mem_between_of_nil (hts ▸ List.mem_cons_self)
      obtain ⟨-, hsource, htarget⟩ := (mem_between h.valid).1 ht
      have hbetween : between a a.start final = [t] := by
        obtain ⟨u, hu⟩ := List.length_eq_one_iff.1 (le_antisymm hle (List.length_pos_of_mem ht))
        rw [hu] at ht ⊢
        rw [List.mem_singleton.1 ht]
      have hnil : ts = [] := by
        have hlen := hsub.length_le
        rw [hts, hbetween] at hlen
        exact List.length_eq_zero_iff.1 (Nat.le_zero.1 (Nat.le_of_succ_le_succ hlen))
      have hperm : a.stateIds.Perm [a.start, final] := by
        refine (List.perm_ext_iff_of_nodup h.valid.nodup_stateIds h.nodup).2 fun s => ?_
        rw [h.mem_stateIds, List.mem_cons, List.mem_cons]
      refine ⟨t, hbetween, hnil ▸ hts, hsource, hperm.length_eq, fun s => ?_, ?_, ?_⟩
      · rw [hperm.mem_iff, htarget, List.mem_cons, List.mem_singleton]
      · rw [htarget]
        exact h.isolated.accepting_iff
      · rw [htarget]
        exact h.isolated.ne_start

theorem framed (ha : a.Valid) (hw : a.Worded) (hl : a.language = l) (hinitial : Initial a)
    (hfinal : Final a final) :
    Framed l a.start final (a.stateIds.filter fun s => s ≠ a.start ∧ s ≠ final) a := by
  have hmem : ∀ s, s ∈ (a.stateIds.filter fun s => s ≠ a.start ∧ s ≠ final) ↔
      s ∈ a.stateIds ∧ s ≠ a.start ∧ s ≠ final := by
    intro s
    rw [List.mem_filter, decide_eq_true_eq]
  refine ⟨ha, hw, hl, rfl, hinitial, hfinal, fun s => ?_, ?_⟩
  · rw [hmem]
    constructor
    · intro hs
      by_cases hstart : s = a.start
      · exact .inl hstart
      by_cases hf : s = final
      · exact .inr (.inl hf)
      · exact .inr (.inr ⟨hs, hstart, hf⟩)
    · rintro (rfl | rfl | ⟨hs, -⟩)
      · exact ha.start_mem
      · exact ha.mem_stateIds_of_accepting ((hfinal.accepting_iff s).2 rfl)
      · exact hs
  · refine List.nodup_cons.2 ⟨fun hs => ?_, List.nodup_cons.2 ⟨fun hs => ?_,
      ha.nodup_stateIds.filter _⟩⟩
    · rcases List.mem_cons.1 hs with heq | hs
      · exact hfinal.ne_start heq.symm
      · exact ((hmem _).1 hs).2.1 rfl
    · exact ((hmem _).1 hs).2.2 rfl

/-- Eliminating all states but two leaves one transition, labelled with an expression for
the language. -/
theorem achieves_eliminateTo (h : Framed l a.start final
    (a.stateIds.filter fun s => s ≠ a.start ∧ s ≠ final) a) (hl : l ≠ 0) :
    Achieves (fun b => b.language = l) (eliminateTo final) a fun result b =>
      ∃ e t, result = some e ∧ e.language = l ∧ Linked b t := by
  have hlast : ∀ {b}, Framed l a.start final [] b → (between b b.start final).length ≤ 1 →
      Achieves (fun b => b.language = l)
        (ask (fun c => parallel c a.start final) >>= fun ts =>
          pure (ts.head?.map fun t => t.label.simplify)) b
        fun result b => ∃ e t, result = some e ∧ e.language = l ∧ Linked b t := by
    intro b hb hle
    obtain ⟨t, hbetween, hlinked⟩ := hb.exists_linked hle hl
    refine Achieves.ask (parallel_eq hb.valid (hb.start_eq ▸ hb.valid.start_mem)) (achieves_pure ?_)
    rw [← hb.start_eq, hbetween]
    refine ⟨_, t, rfl, ?_, hlinked⟩
    rw [Expr.language_simplify, ← hlinked.language_eq, hb.language_eq]
  refine Achieves.graph (Achieves.graph (Achieves.bind ((achieves_forM
    (I := fun ss b => Framed l a.start final ss b)
    (fun s ss b hb => achieves_eliminate hb) h).mono ?_)))
  intro _ b hb
  have hparallel : hasParallel b a.start final =
      .ok (decide (1 < (between b b.start final).length)) := by
    rw [hasParallel, ← hb.start_eq, parallel_eq hb.valid hb.valid.start_mem]
    rfl
  refine Achieves.ask hparallel ?_
  by_cases hmany : 1 < (between b b.start final).length
  · rw [decide_eq_true hmany]
    obtain ⟨p, c, hplan, hperforms, hr, hk⟩ := exists_joinParallel hb.valid hmany
    rw [hb.start_eq] at hplan
    refine Achieves.bind (achieves_carryOut language_reserve_eq hplan hperforms
      (hk.language_eq.trans hb.language_eq) ?_)
    refine hlast (hb.reduce_same hr hk fun x hx => ?_) ?_
    · rw [List.mem_singleton.1 hx]
      exact ⟨hb.isolated.ne_start.symm, hb.isolated.ne_start⟩
    · rw [hk.start_eq]
      exact (length_between_of_joined (p := (b.start, final)) hb.valid hk.valid hr.rewired).1
  · rw [decide_eq_false hmany]
    exact hlast hb (Nat.le_of_not_lt hmany)

/-- Where every label has a word, a word is read on the way to any state that is reached. -/
theorem exists_path (hw : a.Worded) {s : StateId} (h : a.Reaches s) : ∃ w, a.Path a.start w s := by
  induction h with
  | refl => exact ⟨[], .nil a.start⟩
  | tail _ hstep ih =>
      obtain ⟨w, hpath⟩ := ih
      obtain ⟨t, ht, -, rfl, rfl⟩ := hstep
      obtain ⟨u, hu⟩ := hw t ht
      exact ⟨w ++ u, hpath.trans (.single ht hu)⟩

theorem language_ne_zero (hw : a.Worded) {s : StateId} (h : a.Reaches s)
    (hacc : a.accepting s = true) : a.language ≠ 0 := by
  obtain ⟨w, hpath⟩ := exists_path hw h
  intro hzero
  have hmem : w ∈ a.language := ⟨s, hpath, hacc⟩
  rw [hzero] at hmem
  exact hmem

theorem language_eq_zero (h : ∀ s, ¬ a.accepting s = true) : a.language = 0 := by
  refine le_antisymm (Automaton.languageFrom_le (M := fun _ => 0) (fun s hs => ?_)
    (fun t _ => ?_) a.start) bot_le
  · exact absurd hs (h s)
  · rw [mul_zero]

theorem hasAccepting_iff (ha : a.Valid) : a.hasAccepting = true ↔ ∃ s, a.accepting s = true := by
  rw [hasAccepting, List.any_eq_true]
  constructor
  · rintro ⟨r, hr, hacc⟩
    exact ⟨r.id, ha.mem_finals.1 (List.mem_map_of_mem (List.mem_filter.2 ⟨hr, hacc⟩))⟩
  · rintro ⟨s, hs⟩
    obtain ⟨r, hr, -⟩ := List.mem_map.1 (ha.mem_finals.2 hs)
    obtain ⟨hr, hacc⟩ := List.mem_filter.1 hr
    exact ⟨r, hr, hacc⟩

theorem exists_find?_accepting (ha : a.Valid) (h : Final a final) :
    ∃ r, a.states.find? State.accepting = some r ∧ r.id = final := by
  cases hfind : a.states.find? State.accepting with
  | none =>
      obtain ⟨r, hr, -⟩ := List.mem_map.1 (ha.mem_finals.2 ((h.accepting_iff final).2 rfl))
      obtain ⟨hr, hacc⟩ := List.mem_filter.1 hr
      exact absurd hacc (List.find?_eq_none.1 hfind r hr)
  | some r =>
      refine ⟨r, rfl, (h.accepting_iff r.id).1 (ha.mem_finals.1 ?_)⟩
      exact List.mem_map_of_mem
        (List.mem_filter.2 ⟨List.mem_of_find?_eq_some hfind, List.find?_some hfind⟩)

theorem achieves_isolateFinal (ha : a.Valid) (hl : a.language = l)
    (hacc : ∃ s, a.accepting s = true) :
    Achieves (fun b => b.language = l) (carryOut? fun a => .ok (isolateFinal? a)) a
      fun _ b => Keeps a b ∧ ∃ final, Final b final := by
  rcases isolateFinal?_cases ha hacc with ⟨hnone, hfinal⟩ | ⟨p, b, hsome, hperforms, hb, hfinal⟩
  · exact achieves_carryOut?_none (congrArg Except.ok hnone) ⟨ha.keeps, hfinal⟩
  · exact achieves_carryOut?_some language_reserve_eq (congrArg Except.ok hsome) hperforms
      (hb.language_eq.trans hl) ⟨hb, hfinal⟩

theorem achieves_isolateInitial (ha : a.Valid) (hl : a.language = l) (hfinal : Final a final) :
    Achieves (fun b => b.language = l) (carryOut? fun a => .ok (isolateInitial? a)) a
      fun _ b => Keeps a b ∧ Initial b ∧ Final b final := by
  rcases isolateInitial?_cases ha with
    ⟨hnone, hinitial⟩ | ⟨p, b, hsome, hperforms, hb, hinitial, hkept⟩
  · exact achieves_carryOut?_none (congrArg Except.ok hnone) ⟨ha.keeps, hinitial, hfinal⟩
  · exact achieves_carryOut?_some language_reserve_eq (congrArg Except.ok hsome) hperforms
      (hb.language_eq.trans hl) ⟨hb, hinitial, hkept final hfinal⟩

/-- Turning an automaton into an expression succeeds, and the language does not change on the
way. There is no expression just if the language is empty. -/
theorem achieves_eliminateAll (ha : a.Valid) (hw : a.Worded) (hl : a.language = l) :
    Achieves (fun b => b.language = l) eliminateAll a fun result b =>
      (result = none ∧ l = 0) ∨
        l ≠ 0 ∧ ∃ e t, result = some e ∧ e.language = l ∧ Linked b t := by
  refine Achieves.bind ((Pruning.achieves_prune language_reserve_eq ha
    fun b kept hb hkept => (hb.language_eq hkept).trans hl).mono fun _ b hb => ?_)
  have hbl : b.language = l := (hb.language_eq fun s hs => hs).trans hl
  have hbw : b.Worded := fun t ht => hw t ((hb.mem_transitions t).1 ht).1
  refine Achieves.graph ?_
  by_cases hacc : b.hasAccepting = true
  · rw [if_pos hacc]
    obtain ⟨s, hs⟩ := (hasAccepting_iff hb.valid).1 hacc
    have hne : l ≠ 0 := by
      have hreach := hb.reaches s (hb.valid.mem_stateIds_of_accepting hs)
      rw [← hbl]
      exact language_ne_zero hbw hreach hs
    refine Achieves.bind ((achieves_isolateFinal hb.valid hbl ⟨s, hs⟩).mono ?_)
    rintro _ c ⟨hc, final, hfinal⟩
    refine Achieves.bind ((achieves_isolateInitial hc.valid (hc.language_eq.trans hbl)
      hfinal).mono ?_)
    rintro _ d ⟨hd, hinitial, hfinal⟩
    obtain ⟨r, hfind, rfl⟩ := exists_find?_accepting hd.valid hfinal
    refine Achieves.graph ?_
    rw [hfind]
    have hkeeps := hc.trans hd
    have hframed := framed hd.valid (hkeeps.worded hbw) (hkeeps.language_eq.trans hbl)
      hinitial hfinal
    exact (achieves_eliminateTo hframed hne).mono fun _ _ h => .inr ⟨hne, h⟩
  · rw [if_neg hacc]
    refine achieves_pure (.inl ⟨rfl, ?_⟩)
    rw [← hbl]
    exact language_eq_zero fun s hs => hacc ((hasAccepting_iff hb.valid).2 ⟨s, hs⟩)

theorem worded_of_wellFormed (h : ∀ t ∈ a.transitions, t.label.WellFormed) : a.Worded :=
  fun t ht => (h t ht).exists_mem_language

/-- Turning any automaton into an expression is not refused. There is no expression just if
the language is empty; otherwise there is one for the language, and two states are left,
with a single transition from the start state to the accepting one. -/
theorem eliminateAll_runOn (ha : a.Reachable) :
    ∃ result b, eliminateAll.runOn a none = (.ok result, ⟨b, none⟩) ∧
      (result = none ↔ a.language = 0) ∧
        ∀ e, result = some e → e.language = a.language ∧ ∃ t, Linked b t := by
  obtain ⟨result, b, hrun, h⟩ :=
    (achieves_eliminateAll ha.valid (worded_of_wellFormed ha.wellFormed) rfl).runOn_none rfl
  refine ⟨result, b, hrun, ?_⟩
  rcases h with ⟨rfl, hl⟩ | ⟨hl, e, t, rfl, he, ht⟩
  · exact ⟨⟨fun _ => hl, fun _ => rfl⟩, fun e h => nomatch h⟩
  · refine ⟨⟨fun h => (nomatch h), fun h => absurd h hl⟩, fun d hd => ?_⟩
    rw [← Option.some.inj hd]
    exact ⟨he, t, ht⟩

/-- The case of an automaton made from `ab*`, for which there is an expression. -/
theorem eliminateAll_runOn_seq :
    (ofExpr 0 (.seq [.sym 'a', .star (.sym 'b')])).Reachable ∧
      ∃ e b, eliminateAll.runOn (ofExpr 0 (.seq [.sym 'a', .star (.sym 'b')])) none =
          (.ok (some e), ⟨b, none⟩) ∧
        e.language = (Expr.seq [.sym 'a', .star (.sym 'b')]).language := by
  have hwf : (Expr.seq [.sym 'a', .star (.sym 'b')]).WellFormed := by decide
  have hreachable : (ofExpr 0 (.seq [.sym 'a', .star (.sym 'b')])).Reachable :=
    reachable_ofExpr 0 hwf
  obtain ⟨result, b, hrun, hnone, hsome⟩ := eliminateAll_runOn hreachable
  rw [language_ofExpr] at hnone hsome
  cases result with
  | none =>
      obtain ⟨w, hw⟩ := hwf.exists_mem_language
      rw [hnone.1 rfl] at hw
      exact absurd hw (Language.notMem_zero w)
  | some e => exact ⟨hreachable, e, b, hrun, (hsome e rfl).1⟩

end Elimination

end RegularForms
