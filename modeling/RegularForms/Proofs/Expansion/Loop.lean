import RegularForms.Proofs.Automaton.Ledger
import RegularForms.Proofs.Expansion.Chain
import RegularForms.Proofs.Expr.Simplify

/-!
# Stars and pluses

A star or a plus over `e` becomes a loop with a start and an end. At the end of the loop
one can read `e∗` before the words of the target of the old transition, and at its start,
if that is a new state, `e * e∗`. Every other state keeps its language. This is borne out
by the new transitions because an end of the loop that is not a new state is isolated:
nothing else leaves the start of the loop, and nothing else leads to its end. What isolates
the ends less than that is refused.
-/

namespace RegularForms

open scoped Computability

namespace Expansion

open Automaton

variable {a b : Automaton} {u : Transition} {e : Expr} {start finish : StateId}

/-- The ends of a loop in place of a transition are new, or else the ends of the
transition, where one can get into the loop or out of it in no other way. -/
structure LoopEnds (a : Automaton) (u : Transition) (start finish : StateId) : Prop where
  start_cases : start ∉ a.stateIds ∨ (start = u.source ∧ a.accepting u.source = false ∧
    ∀ t ∈ a.transitions, t.source = u.source → t = u)
  finish_cases : finish ∉ a.stateIds ∨ (finish = u.target ∧ u.target ≠ a.start ∧
    ∀ t ∈ a.transitions, t.target = u.target → t = u)
  start_ne_finish : start ∉ a.stateIds → start ≠ finish

def IteratedLabel (u : Transition) (e : Expr) : Prop := u.label = .star e ∨ u.label = .plus e

theorem IteratedLabel.operands_eq (h : IteratedLabel u e) : u.label.operands = [e] := by
  rcases h with h | h <;> rw [h] <;> rfl

theorem IteratedLabel.isSymbol_eq (h : IteratedLabel u e) : u.label.isSymbol = false := by
  rcases h with h | h <;> rw [h] <;> rfl

theorem IteratedLabel.operator_mem (h : IteratedLabel u e) :
    u.label.operator ∈ [.star, .plus] := by
  rcases h with h | h <;> rw [h] <;> simp [Expr.operator]

theorem IteratedLabel.language_le (h : IteratedLabel u e) :
    u.label.language ≤ e.language∗ := by
  rcases h with h | h
  · rw [h, Expr.language_star]
  · rw [h, Expr.language_plus]
    exact mul_kstar_le_kstar

theorem IteratedLabel.le_language (h : IteratedLabel u e) :
    e.language * e.language∗ ≤ u.label.language := by
  rcases h with h | h
  · rw [h, Expr.language_star]
    exact mul_kstar_le_kstar
  · rw [h, Expr.language_plus]

theorem IteratedLabel.mul_le (h : IteratedLabel u e) {l m : Language Char}
    (hbody : e.language * (e.language∗ * l) ≤ m) (hpast : u.label.operator = .star → l ≤ m) :
    u.label.language * l ≤ m := by
  rcases h with h | h
  · rw [h, Expr.language_star, ← one_add_mul_kstar, add_mul, one_mul, mul_assoc]
    exact add_le (hpast (by rw [h]; rfl)) hbody
  · rw [h, Expr.language_plus, mul_assoc]
    exact hbody

/-! ## The languages of the states -/

noncomputable def loopLanguage (a : Automaton) (u : Transition) (e : Expr) (finish : StateId)
    (q : StateId) : Language Char :=
  if q = finish then e.language∗ * a.languageFrom u.target
  else if q ∈ a.stateIds then a.languageFrom q
  else e.language * (e.language∗ * a.languageFrom u.target)

theorem loopLanguage_finish :
    loopLanguage a u e finish finish = e.language∗ * a.languageFrom u.target :=
  if_pos rfl

theorem loopLanguage_of_ne {q : StateId} (hq : q ∈ a.stateIds) (hne : q ≠ finish) :
    loopLanguage a u e finish q = a.languageFrom q := by
  rw [loopLanguage, if_neg hne, if_pos hq]

theorem le_kstar_mul (l m : Language Char) : m ≤ l∗ * m :=
  calc m = 1 * m := (one_mul m).symm
    _ ≤ l∗ * m := mul_le_mul_left one_le_kstar m

theorem LoopEnds.le_loopLanguage (h : LoopEnds a u start finish) {q : StateId}
    (hq : q ∈ a.stateIds) : a.languageFrom q ≤ loopLanguage a u e finish q := by
  by_cases hqf : q = finish
  · rcases h.finish_cases with hnew | ⟨hf, -, -⟩
    · exact absurd (hqf ▸ hq) hnew
    · rw [hqf, loopLanguage_finish, hf]
      exact le_kstar_mul _ _
  · rw [loopLanguage_of_ne hq hqf]

theorem body_le_languageFrom (hu : u ∈ a.transitions) (hlabel : IteratedLabel u e) :
    e.language * (e.language∗ * a.languageFrom u.target) ≤ a.languageFrom u.source := by
  rw [← mul_assoc]
  exact (mul_le_mul_left hlabel.le_language _).trans (label_mul_languageFrom_le hu)

theorem LoopEnds.body_le_loopLanguage (h : LoopEnds a u start finish) (ha : a.Valid)
    (hu : u ∈ a.transitions) (hlabel : IteratedLabel u e) :
    e.language * (e.language∗ * a.languageFrom u.target) ≤ loopLanguage a u e finish start := by
  rcases h.start_cases with hnew | ⟨hs, -, -⟩
  · rw [loopLanguage, if_neg (h.start_ne_finish hnew), if_neg hnew]
  · rw [hs]
    exact (body_le_languageFrom hu hlabel).trans (h.le_loopLanguage (ha.source_mem hu))

theorem LoopEnds.loopLanguage_start_le (h : LoopEnds a u start finish) (ha : a.Valid)
    (hu : u ∈ a.transitions) (hlabel : IteratedLabel u e) :
    loopLanguage a u e finish start ≤ loopLanguage a u e finish finish := by
  by_cases hsf : start = finish
  · rw [hsf]
  rw [loopLanguage_finish]
  rcases h.start_cases with hnew | ⟨hs, hacc, honly⟩
  · rw [loopLanguage, if_neg hsf, if_neg hnew, ← mul_assoc]
    exact mul_le_mul_left mul_kstar_le_kstar _
  · rw [loopLanguage_of_ne (hs ▸ ha.source_mem hu) hsf, hs]
    refine languageFrom_le_of_step (fun h => ?_) fun t ht hts => ?_
    · rw [hacc] at h
      nomatch h
    · rw [honly t ht hts]
      exact mul_le_mul_left hlabel.language_le _

theorem LoopEnds.loopLanguage_target_le (h : LoopEnds a u start finish) {t : Transition}
    (ha : a.Valid) (ht : t ∈ a.transitions) (hne : t ≠ u) :
    loopLanguage a u e finish t.target ≤ a.languageFrom t.target := by
  have hmem := ha.target_mem t ht
  refine (loopLanguage_of_ne hmem fun htf => ?_).le
  rcases h.finish_cases with hnew | ⟨hf, -, honly⟩
  · exact hnew (htf ▸ hmem)
  · exact hne (honly t ht (htf.trans hf))

theorem LoopEnds.loopLanguage_initial_le (h : LoopEnds a u start finish) (ha : a.Valid) :
    loopLanguage a u e finish a.start ≤ a.languageFrom a.start := by
  refine (loopLanguage_of_ne ha.start_mem fun hsf => ?_).le
  rcases h.finish_cases with hnew | ⟨hf, hne, -⟩
  · exact hnew (hsf ▸ ha.start_mem)
  · exact hne (hf ▸ hsf.symm)

/-- The words of the target can be read at the source past a star. -/
theorem LoopEnds.loopLanguage_past_le (h : LoopEnds a u start finish) (ha : a.Valid)
    (hu : u ∈ a.transitions) (hlabel : IteratedLabel u e)
    (hstar : u.label.operator = .star) :
    loopLanguage a u e finish u.target ≤ loopLanguage a u e finish u.source := by
  have hlang : u.label.language = e.language∗ := by
    rcases hlabel with hl | hl
    · rw [hl, Expr.language_star]
    · rw [hl] at hstar
      nomatch hstar
  have htarget : loopLanguage a u e finish u.target ≤ e.language∗ * a.languageFrom u.target := by
    by_cases hf : u.target = finish
    · rw [loopLanguage, if_pos hf]
    · rw [loopLanguage_of_ne (ha.target_mem u hu) hf]
      exact le_kstar_mul _ _
  calc loopLanguage a u e finish u.target
      ≤ u.label.language * a.languageFrom u.target := hlang ▸ htarget
    _ ≤ a.languageFrom u.source := label_mul_languageFrom_le hu
    _ ≤ loopLanguage a u e finish u.source := h.le_loopLanguage (ha.source_mem hu)

/-! ## Loops with a state of their own -/

theorem mem_isolatedLoop {x : StateId × StateId × Expr}
    (h : x ∈ isolatedLoop a u start finish) :
    (start ≠ u.source ∧ x = (u.source, start, .epsilon)) ∨
      (finish ≠ u.target ∧ x = (finish, u.target, .epsilon)) ∨
        x = (finish, start, .epsilon) ∨
          (u.label.operator = .star ∧ x = (u.source, u.target, .epsilon)) ∨
            ∃ e ∈ u.label.operands, x = (start, finish, e) := by
  simp only [isolatedLoop, List.mem_append, mem_distinct, List.mem_map, List.mem_singleton] at h
  rcases h with (((h | h) | h) | h) | ⟨e, he, rfl⟩
  · split at h
    · nomatch h
    · next hne => exact .inl ⟨hne, List.mem_singleton.1 h⟩
  · split at h
    · nomatch h
    · next hne => exact .inr (.inl ⟨hne, List.mem_singleton.1 h⟩)
  · exact .inr (.inr (.inl h))
  · split at h
    · next hstar => exact .inr (.inr (.inr (.inl ⟨hstar, mem_skip h⟩)))
    · nomatch h
  · exact .inr (.inr (.inr (.inr ⟨e, he, rfl⟩)))

theorem exists_map_isolatedLoop (a : Automaton) (u : Transition) (start finish : StateId) :
    ∃ k, (isolatedLoop a u start finish).map (fun x => x.2.2) =
      List.replicate k .epsilon ++ u.label.operands := by
  have hhead : ∀ x ∈ distinct
      ((if start = u.source then [] else [(u.source, start, .epsilon)]) ++
        (if finish = u.target then [] else [(finish, u.target, .epsilon)]) ++
          [(finish, start, Expr.epsilon)] ++
            if u.label.operator = .star then skip a u.source u.target else []),
      x.2.2 = .epsilon := by
    intro x hx
    simp only [List.mem_append, mem_distinct, List.mem_singleton] at hx
    rcases hx with ((hx | hx) | hx) | hx
    · split at hx
      · nomatch hx
      · rw [List.mem_singleton.1 hx]
    · split at hx
      · nomatch hx
      · rw [List.mem_singleton.1 hx]
    · rw [hx]
    · split at hx
      · rw [mem_skip hx]
      · nomatch hx
  obtain ⟨k, hk⟩ := exists_map_epsilon hhead
  refine ⟨k, ?_⟩
  rw [isolatedLoop, List.map_append, hk, List.map_map]
  exact congrArg _ (List.map_id _)

theorem isolatedLoop_closed (h : LoopEnds a u start finish) (ha : a.Valid)
    (hu : u ∈ a.transitions) (hlabel : IteratedLabel u e)
    {x : StateId × StateId × Expr} (hx : x ∈ isolatedLoop a u start finish) :
    x.2.2.language * loopLanguage a u e finish x.2.1 ≤ loopLanguage a u e finish x.1 := by
  rcases mem_isolatedLoop hx with ⟨hne, rfl⟩ | ⟨hne, rfl⟩ | rfl | ⟨hstar, rfl⟩ | ⟨d, hd, rfl⟩
  · rw [Expr.language_epsilon, one_mul]
    have hnew := h.start_cases.resolve_right fun hold => hne hold.1
    rw [loopLanguage, if_neg (h.start_ne_finish hnew), if_neg hnew]
    exact (body_le_languageFrom hu hlabel).trans (h.le_loopLanguage (ha.source_mem hu))
  · rw [Expr.language_epsilon, one_mul, loopLanguage_finish,
      loopLanguage_of_ne (ha.target_mem u hu) hne.symm]
    exact le_kstar_mul _ _
  · rw [Expr.language_epsilon, one_mul]
    exact h.loopLanguage_start_le ha hu hlabel
  · rw [Expr.language_epsilon, one_mul]
    exact h.loopLanguage_past_le ha hu hlabel hstar
  · rw [hlabel.operands_eq] at hd
    rw [List.mem_singleton.1 hd, loopLanguage_finish]
    exact h.body_le_loopLanguage ha hu hlabel

theorem isolatedLoop_label_le (ha : a.Valid) (hlabel : IteratedLabel u e)
    (hb : a.Rewired b (· = u) (isolatedLoop a u start finish)) :
    u.label.language * b.languageFrom u.target ≤ b.languageFrom u.source := by
  have hmem : ∀ x, x ∈ (if start = u.source then [] else [(u.source, start, .epsilon)]) ∨
      x ∈ (if finish = u.target then [] else [(finish, u.target, .epsilon)]) ∨
        x = (finish, start, .epsilon) ∨
          (u.label.operator = .star ∧ x ∈ skip a u.source u.target) ∨ x = (start, finish, e) →
            x ∈ isolatedLoop a u start finish := by
    intro x hx
    rw [isolatedLoop, List.mem_append, mem_distinct, hlabel.operands_eq]
    rcases hx with hx | hx | rfl | ⟨hstar, hx⟩ | rfl
    · simp [hx]
    · simp [hx]
    · simp
    · simp [hstar, hx]
    · simp
  have hentry : b.languageFrom start ≤ b.languageFrom u.source := by
    by_cases hs : start = u.source
    · rw [hs]
    · refine hb.epsilon_languageFrom_le (hmem _ (.inl ?_))
      rw [if_neg hs]
      exact List.mem_singleton.2 rfl
  have hexit : b.languageFrom u.target ≤ b.languageFrom finish := by
    by_cases hf : finish = u.target
    · rw [hf]
    · refine hb.epsilon_languageFrom_le (hmem _ (.inr (.inl ?_)))
      rw [if_neg hf]
      exact List.mem_singleton.2 rfl
  have hback : b.languageFrom start ≤ b.languageFrom finish :=
    hb.epsilon_languageFrom_le (hmem _ (by simp))
  have hbody : e.language * b.languageFrom finish ≤ b.languageFrom start :=
    hb.arc_mul_languageFrom_le (hmem _ (by simp))
  refine hlabel.mul_le ?_ fun hstar => ?_
  · calc e.language * (e.language∗ * b.languageFrom u.target)
        ≤ e.language * b.languageFrom finish :=
          mul_le_mul_right (kstar_mul_le hexit (hbody.trans hback)) _
      _ ≤ b.languageFrom start := hbody
      _ ≤ b.languageFrom u.source := hentry
  · exact Rewired.skip_languageFrom_le ha hb hlabel.isSymbol_eq fun x hx =>
      hmem x (.inr (.inr (.inr (.inl ⟨hstar, hx⟩))))

theorem known_isolatedLoop (ha : a.Valid) (hu : u ∈ a.transitions) {states : Nat}
    (hstart : Known a states start) (hfinish : Known a states finish)
    {x : StateId × StateId × Expr} (hx : x ∈ isolatedLoop a u start finish) :
    Known a states x.1 ∧ Known a states x.2.1 := by
  have hsource : Known a states u.source := .inl (ha.source_mem hu)
  have htarget : Known a states u.target := .inl (ha.target_mem u hu)
  rcases mem_isolatedLoop hx with ⟨-, rfl⟩ | ⟨-, rfl⟩ | rfl | ⟨-, rfl⟩ | ⟨d, -, rfl⟩
  · exact ⟨hsource, hstart⟩
  · exact ⟨hfinish, htarget⟩
  · exact ⟨hfinish, hstart⟩
  · exact ⟨hsource, htarget⟩
  · exact ⟨hstart, hfinish⟩

theorem exists_isolatedLoop (ha : a.Valid) (hu : u ∈ a.transitions)
    (hw : ∀ t ∈ a.transitions, t.label.WellFormed) (hlabel : IteratedLabel u e)
    (hends : LoopEnds a u start finish) {states : Nat} (hstart : Known a states start)
    (hfinish : Known a states finish) (purpose : Purpose) :
    ∃ b, (replace a purpose u states (isolatedLoop a u start finish)).Performs a b ∧
      Expanded a b := by
  obtain ⟨k, hk⟩ := exists_map_isolatedLoop a u start finish
  obtain ⟨b, hperforms, hb⟩ := exists_replaced ha hu purpose
    fun x hx => known_isolatedLoop ha hu hstart hfinish hx
  refine ⟨b, hperforms, hb.expanded ha hu hw hlabel.isSymbol_eq (.of_eq hk) ?_⟩
  exact hb.language_eq ha (isolatedLoop_label_le ha hlabel hb.rewired)
    (fun s hs => hends.le_loopLanguage hs)
    (fun t ht hne => hends.loopLanguage_target_le ha ht hne)
    (hends.loopLanguage_initial_le ha)
    fun x hx => isolatedLoop_closed hends ha hu hlabel hx

/-! ## Loops without a state of their own -/

theorem sharedLoop_eq (hlabel : IteratedLabel u e) :
    sharedLoop a u =
      if u.label.operator = .star then
        skip a u.source u.target ++ [(u.target, u.source, e)]
      else [(u.source, u.target, e), (u.target, u.source, .epsilon)] := by
  rw [sharedLoop, hlabel.operands_eq]
  rfl

theorem exists_map_sharedLoop (a : Automaton) (u : Transition) :
    ∃ k, ((sharedLoop a u).map fun x => x.2.2).Perm
      (List.replicate k .epsilon ++ u.label.operands) := by
  unfold sharedLoop
  split
  · obtain ⟨k, hk⟩ := exists_map_epsilon fun x (hx : x ∈ skip a u.source u.target) => by
      rw [mem_skip hx]
    refine ⟨k, ?_⟩
    rw [List.map_append, hk, List.map_map]
    exact .of_eq (congrArg _ (List.map_id _))
  · refine ⟨1, ?_⟩
    rw [List.map_append, List.map_map]
    exact (List.perm_append_comm).trans (.of_eq (congrArg _ (List.map_id _)))

theorem sharedLoop_closed (h : LoopEnds a u u.source u.target) (ha : a.Valid)
    (hu : u ∈ a.transitions) (hlabel : IteratedLabel u e)
    {x : StateId × StateId × Expr} (hx : x ∈ sharedLoop a u) :
    x.2.2.language * loopLanguage a u e u.target x.2.1 ≤ loopLanguage a u e u.target x.1 := by
  have hback := h.loopLanguage_start_le ha hu hlabel
  rw [sharedLoop_eq hlabel] at hx
  split at hx
  · next hstar =>
      rcases List.mem_append.1 hx with hx | hx
      · rw [mem_skip hx, Expr.language_epsilon, one_mul]
        exact h.loopLanguage_past_le ha hu hlabel hstar
      · rw [List.mem_singleton.1 hx]
        rw [loopLanguage_finish] at hback ⊢
        calc e.language * loopLanguage a u e u.target u.source
            ≤ e.language * (e.language∗ * a.languageFrom u.target) := mul_le_mul_right hback _
          _ = e.language * e.language∗ * a.languageFrom u.target := (mul_assoc _ _ _).symm
          _ ≤ e.language∗ * a.languageFrom u.target := mul_le_mul_left mul_kstar_le_kstar _
  · rcases List.mem_cons.1 hx with rfl | hx
    · rw [loopLanguage_finish]
      exact h.body_le_loopLanguage ha hu hlabel
    · rw [List.mem_singleton.1 hx, Expr.language_epsilon, one_mul]
      exact hback

theorem sharedLoop_label_le (ha : a.Valid) (hlabel : IteratedLabel u e)
    (hb : a.Rewired b (· = u) (sharedLoop a u)) :
    u.label.language * b.languageFrom u.target ≤ b.languageFrom u.source := by
  rw [sharedLoop_eq hlabel] at hb
  by_cases hstar : u.label.operator = .star
  · rw [if_pos hstar] at hb
    have hpast : b.languageFrom u.target ≤ b.languageFrom u.source :=
      Rewired.skip_languageFrom_le ha hb hlabel.isSymbol_eq
        fun x hx => List.mem_append_left _ hx
    have hbody : e.language * b.languageFrom u.source ≤ b.languageFrom u.target :=
      hb.arc_mul_languageFrom_le (List.mem_append_right _ (List.mem_singleton.2 rfl))
    refine hlabel.mul_le ?_ fun _ => hpast
    calc e.language * (e.language∗ * b.languageFrom u.target)
        ≤ e.language * b.languageFrom u.source :=
          mul_le_mul_right (kstar_mul_le hpast (hbody.trans hpast)) _
      _ ≤ b.languageFrom u.target := hbody
      _ ≤ b.languageFrom u.source := hpast
  · rw [if_neg hstar] at hb
    have hbody : e.language * b.languageFrom u.target ≤ b.languageFrom u.source :=
      hb.arc_mul_languageFrom_le (by simp)
    have hback : b.languageFrom u.source ≤ b.languageFrom u.target :=
      hb.epsilon_languageFrom_le (by simp)
    refine hlabel.mul_le ?_ fun h => absurd h hstar
    calc e.language * (e.language∗ * b.languageFrom u.target)
        ≤ e.language * b.languageFrom u.target :=
          mul_le_mul_right (kstar_mul_le_self (hbody.trans hback)) _
      _ ≤ b.languageFrom u.source := hbody

theorem known_sharedLoop (ha : a.Valid) (hu : u ∈ a.transitions) (hlabel : IteratedLabel u e)
    {x : StateId × StateId × Expr} (hx : x ∈ sharedLoop a u) : Known a 0 x.1 ∧ Known a 0 x.2.1 := by
  have hsource : Known a 0 u.source := .inl (ha.source_mem hu)
  have htarget : Known a 0 u.target := .inl (ha.target_mem u hu)
  rw [sharedLoop_eq hlabel] at hx
  split at hx
  · rcases List.mem_append.1 hx with hx | hx
    · rw [mem_skip hx]
      exact ⟨hsource, htarget⟩
    · rw [List.mem_singleton.1 hx]
      exact ⟨htarget, hsource⟩
  · rcases List.mem_cons.1 hx with rfl | hx
    · exact ⟨hsource, htarget⟩
    · rw [List.mem_singleton.1 hx]
      exact ⟨htarget, hsource⟩

theorem exists_sharedLoop (ha : a.Valid) (hu : u ∈ a.transitions)
    (hw : ∀ t ∈ a.transitions, t.label.WellFormed) (hlabel : IteratedLabel u e)
    (hends : LoopEnds a u u.source u.target) (purpose : Purpose) :
    ∃ b, (replace a purpose u 0 (sharedLoop a u)).Performs a b ∧ Expanded a b := by
  obtain ⟨k, hk⟩ := exists_map_sharedLoop a u
  obtain ⟨b, hperforms, hb⟩ := exists_replaced ha hu purpose
    fun x hx => known_sharedLoop ha hu hlabel hx
  refine ⟨b, hperforms, hb.expanded ha hu hw hlabel.isSymbol_eq hk ?_⟩
  exact hb.language_eq ha (sharedLoop_label_le ha hlabel hb.rewired)
    (fun s hs => hends.le_loopLanguage hs)
    (fun t ht hne => hends.loopLanguage_target_le ha ht hne)
    (hends.loopLanguage_initial_le ha)
    fun x hx => sharedLoop_closed hends ha hu hlabel hx

/-! ## Isolation -/

theorem requiredIsolation_eq (ha : a.Valid) (hu : u ∈ a.transitions) :
    a.requiredIsolation u = .ok
      ⟨(a.out u.source).any (fun t => t.id ≠ u.id) || a.accepting u.source,
        (a.into u.target).any (fun t => t.id ≠ u.id) || a.isStart u.target⟩ := by
  have hsource := ha.source_mem hu
  have htarget := ha.target_mem u hu
  rw [requiredIsolation, ha.outgoing_eq hsource, ha.isAccepting_eq hsource,
    ha.incoming_eq htarget]
  rfl

def loopStart (isolation : Isolation) (a : Automaton) (u : Transition) : StateId :=
  if isolation.start then (a.freshState 0).id else u.source

def loopFinish (isolation : Isolation) (a : Automaton) (u : Transition) : StateId :=
  if isolation.finish then (a.freshState isolation.start.toNat).id else u.target

/-- An isolation that covers the required one isolates both ends of the loop. -/
theorem loopEnds_of_covers (ha : a.Valid) (hu : u ∈ a.transitions)
    {isolation required : Isolation} (hrequired : a.requiredIsolation u = .ok required)
    (hcovers : isolation.covers required = true) :
    LoopEnds a u (loopStart isolation a u) (loopFinish isolation a u) := by
  rw [requiredIsolation_eq ha hu] at hrequired
  obtain rfl := Except.ok.inj hrequired
  obtain ⟨hstart, hfinish⟩ := Isolation.covers_iff.1 hcovers
  have hid : ∀ t ∈ a.transitions, ¬ t.id ≠ u.id → t = u := fun t ht hne =>
    ha.eq_of_id_eq t ht u hu (not_not.1 hne)
  refine ⟨?_, ?_, fun hnew => ?_⟩
  · by_cases h : isolation.start = true
    · rw [loopStart, if_pos h]
      exact .inl (ha.freshState_notMem 0)
    · rw [loopStart, if_neg h]
      have hneither := mt hstart h
      rw [Bool.or_eq_true, not_or, List.any_eq_true] at hneither
      obtain ⟨hany, hacc⟩ := hneither
      refine .inr ⟨rfl, Bool.eq_false_iff.2 hacc, fun t ht hts => hid t ht fun hne => hany ?_⟩
      exact ⟨t, ha.mem_out.2 ⟨ht, hts⟩, decide_eq_true hne⟩
  · by_cases h : isolation.finish = true
    · rw [loopFinish, if_pos h]
      exact .inl (ha.freshState_notMem _)
    · rw [loopFinish, if_neg h]
      have hneither := mt hfinish h
      rw [Bool.or_eq_true, not_or, List.any_eq_true] at hneither
      obtain ⟨hany, hisStart⟩ := hneither
      refine .inr ⟨rfl, fun heq => hisStart (beq_iff_eq.2 heq), fun t ht htt => hid t ht fun hne =>
        hany ?_⟩
      exact ⟨t, mem_into.2 ⟨ht, htt⟩, decide_eq_true hne⟩
  · by_cases h : isolation.start = true
    · intro heq
      rw [loopStart, if_pos h] at hnew heq
      rw [loopFinish] at heq
      split at heq
      · rw [h] at heq
        simp [freshState] at heq
      · exact hnew (heq ▸ ha.target_mem u hu)
    · rw [loopStart, if_neg h] at hnew
      exact absurd (ha.source_mem hu) hnew

theorem known_loopEnds (isolation : Isolation) (ha : a.Valid) (hu : u ∈ a.transitions) :
    Known a (isolation.start.toNat + isolation.finish.toNat) (loopStart isolation a u) ∧
      Known a (isolation.start.toNat + isolation.finish.toNat) (loopFinish isolation a u) := by
  refine ⟨?_, ?_⟩
  · rw [loopStart]
    split
    · next h => exact .inr ⟨0, by rw [h]; exact Nat.add_pos_left Nat.one_pos _, rfl⟩
    · exact .inl (ha.source_mem hu)
  · rw [loopFinish]
    split
    · next h => exact .inr ⟨isolation.start.toNat, by simp [h], rfl⟩
    · exact .inl (ha.target_mem u hu)

theorem iteration_eq (ha : a.Valid) (hu : u ∈ a.transitions) (hlabel : IteratedLabel u e)
    {required : Isolation} (hrequired : a.requiredIsolation u = .ok required)
    (isolation : Isolation) :
    iteration isolation u.id a =
      if isolation.covers required then
        .ok (if isolation = .none then
            replace a (.expandIteration u.id isolation) u 0 (sharedLoop a u)
          else
            replace a (.expandIteration u.id isolation) u
              (isolation.start.toNat + isolation.finish.toNat)
              (isolatedLoop a u (loopStart isolation a u) (loopFinish isolation a u)))
      else .error (.weakIsolation isolation required) := by
  rw [iteration, labelled_eq ha hu hlabel.operator_mem]
  show (do
    let required ← a.requiredIsolation u
    if isolation.covers required then _ else _) = _
  rw [hrequired]
  show (if isolation.covers required then _ else _) = _
  split
  · split <;> rfl
  · rfl

/-- Expanding a star or a plus with enough isolation keeps the language. -/
theorem exists_iteration (ha : a.Valid) (hu : u ∈ a.transitions)
    (hw : ∀ t ∈ a.transitions, t.label.WellFormed) (hlabel : IteratedLabel u e)
    {isolation required : Isolation} (hrequired : a.requiredIsolation u = .ok required)
    (hcovers : isolation.covers required = true) :
    ∃ p b, iteration isolation u.id a = .ok p ∧ p.Performs a b ∧ Expanded a b := by
  have hplan := (iteration_eq ha hu hlabel hrequired isolation).trans (if_pos hcovers)
  have hends := loopEnds_of_covers ha hu hrequired hcovers
  by_cases hnone : isolation = .none
  · rw [if_pos hnone] at hplan
    obtain ⟨b, hperforms, hb⟩ := exists_sharedLoop ha hu hw hlabel (by rwa [hnone] at hends)
      (.expandIteration u.id isolation)
    exact ⟨_, b, hplan, hperforms, hb⟩
  · rw [if_neg hnone] at hplan
    obtain ⟨hstart, hfinish⟩ := known_loopEnds isolation ha hu
    obtain ⟨b, hperforms, hb⟩ := exists_isolatedLoop ha hu hw hlabel hends hstart hfinish
      (.expandIteration u.id isolation)
    exact ⟨_, b, hplan, hperforms, hb⟩

/-! ## Any isolation -/

open Rewriting

/-- Expanding a star or a plus of an automaton into a loop keeps the language with every
isolation that covers the required one, whatever the ends of the transition are and whatever
joins them besides. With every other isolation it is refused and nothing is changed. -/
theorem language_iteration (ha : a.Reachable) (hu : u ∈ a.transitions)
    (hlabel : u.label = .star e ∨ u.label = .plus e) :
    ∃ required, a.requiredIsolation u = .ok required ∧ ∀ isolation,
      (isolation.covers required = true →
        ∃ b, (carryOut (iteration isolation u.id)).runOn a none = (.ok (), ⟨b, none⟩) ∧
          b.language = a.language) ∧
      (isolation.covers required = false →
        (carryOut (iteration isolation u.id)).runOn a none =
          (.error (.weakIsolation isolation required), ⟨a, none⟩)) := by
  obtain ⟨required, hrequired⟩ : ∃ required, a.requiredIsolation u = .ok required :=
    ⟨_, requiredIsolation_eq ha.valid hu⟩
  refine ⟨required, hrequired, fun isolation => ⟨fun hcovers => ?_, fun hcovers => ?_⟩⟩
  · obtain ⟨p, b, hplan, hperforms, hb⟩ :=
      exists_iteration ha.valid hu ha.wellFormed hlabel hrequired hcovers
    exact ⟨b, runOn_carryOut hplan hperforms, hb.language_eq⟩
  · have hplan := iteration_eq ha.valid hu hlabel hrequired isolation
    rw [if_neg (Bool.eq_false_iff.1 hcovers)] at hplan
    exact runOn_carryOut_error hplan none

def starLoop : Automaton :=
  ((Automaton.new 0).withTransition ⟨0, 0⟩ ⟨0, 0⟩ (.star (.sym 'a'))).withTransition
    ⟨0, 0⟩ ⟨0, 0⟩ .epsilon

/-- The case of a star from the start state to itself, beside an `ε` transition: both ends of
the loop have to be isolated. -/
theorem language_iteration_starLoop :
    starLoop.Reachable ∧ ⟨⟨0, 0⟩, ⟨0, 0⟩, ⟨0, 0⟩, .star (.sym 'a')⟩ ∈ starLoop.transitions ∧
      starLoop.joinedByEpsilon ⟨0, 0⟩ ⟨0, 0⟩ = true ∧
        (∃ b, (carryOut (iteration .full ⟨0, 0⟩)).runOn starLoop none = (.ok (), ⟨b, none⟩) ∧
          b.language = starLoop.language) ∧
        ∀ start finish, (start && finish) = false →
          (carryOut (iteration ⟨start, finish⟩ ⟨0, 0⟩)).runOn starLoop none =
            (.error (.weakIsolation ⟨start, finish⟩ .full), ⟨starLoop, none⟩) := by
  have hreachable : starLoop.Reachable :=
    ((reachable_new 0).withTransition _ _ (.star (.sym 'a')) trivial).withTransition
      _ _ .epsilon trivial
  have hmem : ⟨⟨0, 0⟩, ⟨0, 0⟩, ⟨0, 0⟩, .star (.sym 'a')⟩ ∈ starLoop.transitions := by decide
  obtain ⟨required, hrequired, hiteration⟩ := language_iteration hreachable hmem (.inl rfl)
  obtain rfl : Isolation.full = required := Except.ok.inj hrequired
  refine ⟨hreachable, hmem, by decide, (hiteration .full).1 (by decide), fun start finish h => ?_⟩
  exact (hiteration ⟨start, finish⟩).2 (by simpa [Isolation.covers, Isolation.full] using h)

end Expansion

end RegularForms
