import RegularForms.Proofs.Expansion.Replace

/-!
# Choices, options and sequences

The expansion of a choice or an option leaves every state its language. In the chain that
a sequence becomes, the state after some of the operands has the words of the operands
that are left, before those of the end of the chain.
-/

namespace RegularForms

namespace Expansion

open Automaton

variable {a : Automaton} {u : Transition}

/-- The rule for transitions that run beside the old one. -/
theorem exists_expanded_parallel (ha : a.Valid) (hu : u ∈ a.transitions)
    (hw : ∀ t ∈ a.transitions, t.label.WellFormed) (hsym : u.label.isSymbol = false)
    (purpose : Purpose) {arcs : List (StateId × StateId × Expr)} {k : Nat}
    (hlabels : (arcs.map fun x => x.2.2).Perm (List.replicate k .epsilon ++ u.label.operands))
    (hends : ∀ x ∈ arcs, x.1 = u.source ∧ x.2.1 = u.target)
    (hle : ∀ x ∈ arcs, x.2.2.language ≤ u.label.language)
    (hge : ∀ b, a.Rewired b (· = u) arcs →
      u.label.language * b.languageFrom u.target ≤ b.languageFrom u.source) :
    ∃ b, (replace a purpose u 0 arcs).Performs a b ∧ Expanded a b := by
  have hsource := ha.source_mem hu
  have htarget := ha.target_mem u hu
  have hknown : ∀ x ∈ arcs, Known a 0 x.1 ∧ Known a 0 x.2.1 := fun x hx =>
    ⟨.inl ((hends x hx).1 ▸ hsource), .inl ((hends x hx).2 ▸ htarget)⟩
  obtain ⟨b, hperforms, hb⟩ := exists_replaced ha hu purpose hknown
  refine ⟨b, hperforms, hb.expanded ha hu hw hsym hlabels ?_⟩
  refine hb.language_eq (M := a.languageFrom) ha (hge b hb.rewired) (fun s _ => le_rfl)
    (fun t _ _ => le_rfl) le_rfl fun x hx => ?_
  rw [(hends x hx).1, (hends x hx).2]
  exact (mul_le_mul_left (hle x hx) _).trans (label_mul_languageFrom_le hu)

theorem choice_eq (ha : a.Valid) (hu : u ∈ a.transitions) {es : List Expr}
    (hlabel : u.label = .alt es) :
    choice u.id a = .ok (replace a (.expandChoice u.id) u 0
      (u.label.operands.map fun e => (u.source, u.target, e))) := by
  rw [choice, labelled_eq ha hu (by simp [hlabel, Expr.operator])]
  rfl

theorem exists_choice (ha : a.Valid) (hu : u ∈ a.transitions)
    (hw : ∀ t ∈ a.transitions, t.label.WellFormed) {es : List Expr}
    (hlabel : u.label = .alt es) :
    ∃ p b, choice u.id a = .ok p ∧ p.Performs a b ∧ Expanded a b := by
  have hops : u.label.operands = es := by rw [hlabel]; rfl
  suffices h : ∃ b, (replace a (.expandChoice u.id) u 0
      (u.label.operands.map fun e => (u.source, u.target, e))).Performs a b ∧ Expanded a b by
    obtain ⟨b, hperforms, hb⟩ := h
    exact ⟨_, b, choice_eq ha hu hlabel, hperforms, hb⟩
  refine exists_expanded_parallel ha hu hw (by rw [hlabel]; rfl) _ (k := 0)
    (by simp [Function.comp_def]) (by simp) (fun x hx => ?_) fun b hb => ?_
  · obtain ⟨e, he, rfl⟩ := List.mem_map.1 hx
    rw [hlabel, Expr.language_alt]
    exact Expr.language_le_total (hops ▸ he)
  · rw [hlabel, Expr.language_alt]
    refine Expr.total_mul_le fun e he => hb.arc_mul_languageFrom_le (List.mem_map.2 ⟨e, ?_, rfl⟩)
    exact hops.symm ▸ he

theorem mem_skip {s r : StateId} {x : StateId × StateId × Expr} (h : x ∈ skip a s r) :
    x = (s, r, .epsilon) := by
  unfold skip at h
  split at h
  · nomatch h
  · exact List.mem_singleton.1 h

theorem exists_map_epsilon {xs : List (StateId × StateId × Expr)}
    (h : ∀ x ∈ xs, x.2.2 = .epsilon) :
    ∃ k, xs.map (fun x => x.2.2) = List.replicate k .epsilon := by
  refine ⟨_, List.eq_replicate_of_mem fun e he => ?_⟩
  obtain ⟨x, hx, rfl⟩ := List.mem_map.1 he
  exact h x hx

/-- Passing from one state to another is possible after a skip is added, unless it was
possible by the very transition that has gone. -/
theorem Rewired.skip_languageFrom_le {b : Automaton} (ha : a.Valid)
    {arcs : List (StateId × StateId × Expr)} (hb : a.Rewired b (· = u) arcs)
    (hsym : u.label.isSymbol = false) {s r : StateId} (hskip : ∀ x ∈ skip a s r, x ∈ arcs) :
    b.languageFrom r ≤ b.languageFrom s := by
  by_cases h : a.joinedByEpsilon s r = true
  · obtain ⟨t, ht, hcond⟩ := List.any_eq_true.1 h
    rw [Bool.and_eq_true, beq_iff_eq] at hcond
    obtain ⟨htr, heps⟩ := hcond
    obtain ⟨htmem, hts⟩ := ha.mem_out.1 ht
    have hne : t ≠ u := by
      rintro rfl
      rw [Transition.isEpsilon, Expr.isEpsilon_iff] at heps
      rw [heps] at hsym
      nomatch hsym
    have hle := languageFrom_le_of_isEpsilon ((hb.mem_transitions t).2 (.inl ⟨htmem, hne⟩)) heps
    rwa [htr, hts] at hle
  · refine hb.epsilon_languageFrom_le (hskip _ ?_)
    rw [skip, if_neg h]
    exact List.mem_singleton.2 rfl

theorem option_eq (ha : a.Valid) (hu : u ∈ a.transitions) {e : Expr}
    (hlabel : u.label = .opt e) :
    option u.id a = .ok (replace a (.expandOption u.id) u 0
      (skip a u.source u.target ++ u.label.operands.map fun e => (u.source, u.target, e))) := by
  rw [option, labelled_eq ha hu (by simp [hlabel, Expr.operator])]
  rfl

theorem exists_option (ha : a.Valid) (hu : u ∈ a.transitions)
    (hw : ∀ t ∈ a.transitions, t.label.WellFormed) {e : Expr}
    (hlabel : u.label = .opt e) :
    ∃ p b, option u.id a = .ok p ∧ p.Performs a b ∧ Expanded a b := by
  have hsym : u.label.isSymbol = false := by rw [hlabel]; rfl
  have hops : u.label.operands = [e] := by rw [hlabel]; rfl
  obtain ⟨k, hk⟩ := exists_map_epsilon fun x (hx : x ∈ skip a u.source u.target) => by
    rw [mem_skip hx]
  suffices h : ∃ b, (replace a (.expandOption u.id) u 0 (skip a u.source u.target ++
      u.label.operands.map fun e => (u.source, u.target, e))).Performs a b ∧ Expanded a b by
    obtain ⟨b, hperforms, hb⟩ := h
    exact ⟨_, b, option_eq ha hu hlabel, hperforms, hb⟩
  refine exists_expanded_parallel ha hu hw hsym _ (k := k)
    (by rw [List.map_append, hk, List.map_map]; simp [Function.comp_def])
    (fun x hx => ?_) (fun x hx => ?_) fun b hb => ?_
  · rcases List.mem_append.1 hx with hx | hx
    · rw [mem_skip hx]
      exact ⟨rfl, rfl⟩
    · obtain ⟨e, -, rfl⟩ := List.mem_map.1 hx
      exact ⟨rfl, rfl⟩
  · rw [hlabel, Expr.language_opt]
    rcases List.mem_append.1 hx with hx | hx
    · rw [mem_skip hx]
      exact le_add_of_nonneg_right bot_le
    · rw [hops] at hx
      rw [List.mem_singleton.1 hx]
      exact le_add_of_nonneg_left bot_le
  · rw [hlabel, Expr.language_opt, add_mul, one_mul]
    refine add_le ?_ ?_
    · exact Rewired.skip_languageFrom_le ha hb hsym fun x hx => List.mem_append_left _ hx
    · refine hb.arc_mul_languageFrom_le (List.mem_append_right _ ?_)
      rw [hops]
      exact List.mem_singleton.2 rfl

/-! ## Sequences -/

theorem mem_chain {points : List StateId} {es : List Expr} {x : StateId × StateId × Expr}
    (h : x ∈ chain points es) :
    ∃ i, points[i]? = some x.1 ∧ points[i + 1]? = some x.2.1 ∧ es[i]? = some x.2.2 := by
  obtain ⟨i, hi⟩ := List.mem_iff_getElem?.1 h
  obtain ⟨hfirst, hrest⟩ := List.getElem?_zip_eq_some.1 hi
  obtain ⟨hsecond, hlabel⟩ := List.getElem?_zip_eq_some.1 hrest
  rw [List.getElem?_tail] at hsecond
  exact ⟨i, hfirst, hsecond, hlabel⟩

theorem map_chain {points : List StateId} {es : List Expr} (h : es.length < points.length) :
    (chain points es).map (fun x => x.2.2) = es := by
  have htail : es.length ≤ points.tail.length := by
    rw [List.length_tail]
    omega
  have hrest : (points.tail.zip es).length ≤ points.length := by
    rw [List.length_zip, Nat.min_eq_right htail]
    exact h.le
  have hsplit : (chain points es).map (fun x => x.2.2) =
      ((points.zip (points.tail.zip es)).map Prod.snd).map Prod.snd := by
    rw [List.map_map]
    rfl
  rw [hsplit, List.map_snd_zip hrest, List.map_snd_zip htail]

/-- The first point of a chain has what the labels put before the words of the last. -/
theorem product_mul_le_of_chain {L : StateId → Language Char} {es : List Expr} {p q : StateId}
    {ps : List StateId} (hlen : ps.length = es.length) (hlast : (p :: ps).getLast? = some q)
    (h : ∀ x ∈ chain (p :: ps) es, x.2.2.language * L x.2.1 ≤ L x.1) :
    Expr.product es * L q ≤ L p := by
  induction es generalizing p ps with
  | nil =>
      obtain rfl := List.length_eq_zero_iff.1 hlen
      obtain rfl : p = q := by simpa using hlast
      rw [Expr.product_nil, one_mul]
  | cons e es ih =>
      cases ps with
      | nil => nomatch hlen
      | cons r rs =>
          have hrest : Expr.product es * L q ≤ L r := by
            refine ih (Nat.succ.inj hlen) (by simpa using hlast) fun x hx => ?_
            exact h x (List.mem_cons_of_mem _ hx)
          have hfirst : e.language * L r ≤ L p := h (p, r, e) List.mem_cons_self
          calc Expr.product (e :: es) * L q
              = e.language * (Expr.product es * L q) := by rw [Expr.product_cons, mul_assoc]
            _ ≤ e.language * L r := mul_le_mul_right hrest _
            _ ≤ L p := hfirst

def points (a : Automaton) (u : Transition) (n : Nat) : List StateId :=
  u.source :: (List.range n).map (fun i => (a.freshState i).id) ++ [u.target]

theorem length_points (a : Automaton) (u : Transition) (n : Nat) :
    (points a u n).length = n + 2 := by
  simp [points]

theorem cases_of_points {n i : Nat} {q : StateId} (h : (points a u n)[i]? = some q) :
    (i = 0 ∧ q = u.source) ∨ (∃ j < n, i = j + 1 ∧ q = (a.freshState j).id) ∨
      (i = n + 1 ∧ q = u.target) := by
  cases i with
  | zero => exact .inl ⟨rfl, by simpa [points] using h.symm⟩
  | succ j =>
      rw [points, List.cons_append, List.getElem?_cons_succ] at h
      by_cases hj : j < n
      · rw [List.getElem?_append_left (by simpa using hj), List.getElem?_map,
          List.getElem?_range hj] at h
        exact .inr (.inl ⟨j, hj, rfl, (Option.some.inj h).symm⟩)
      · rw [List.getElem?_append_right (by simpa using hj), List.length_map, List.length_range] at h
        obtain ⟨hlt, hq⟩ := List.getElem?_eq_some_iff.1 h
        have hjn : j = n := by
          rw [List.length_singleton] at hlt
          omega
        subst hjn
        exact .inr (.inr ⟨rfl, by simpa using hq.symm⟩)

/-- What can be read from the points of a chain: what the labels that are left put before
the words of the last point. -/
noncomputable def chainLanguage (a : Automaton) (u : Transition) (es : List Expr)
    (q : StateId) : Language Char :=
  if q.index < a.nextState then a.languageFrom q
  else Expr.product (es.drop (q.index - a.nextState + 1)) * a.languageFrom u.target

theorem chainLanguage_of_mem (ha : a.Valid) (u : Transition) (es : List Expr) {q : StateId}
    (hq : q ∈ a.stateIds) : chainLanguage a u es q = a.languageFrom q :=
  if_pos (ha.state_issued q hq).2

theorem chainLanguage_freshState (es : List Expr) (i : Nat) :
    chainLanguage a u es (a.freshState i).id =
      Expr.product (es.drop (i + 1)) * a.languageFrom u.target := by
  have hindex : (a.freshState i).id.index = a.nextState + i := rfl
  rw [chainLanguage, if_neg (by rw [hindex]; omega), hindex, Nat.add_sub_cancel_left]

theorem chainLanguage_points (ha : a.Valid) (hu : u ∈ a.transitions) {es : List Expr}
    (hlabel : u.label = .seq es) (hpos : 0 < es.length) {i : Nat} {q : StateId}
    (h : (points a u (es.length - 1))[i]? = some q) :
    Expr.product (es.drop i) * a.languageFrom u.target ≤ chainLanguage a u es q ∧
      (0 < i → chainLanguage a u es q ≤ Expr.product (es.drop i) * a.languageFrom u.target) := by
  rcases cases_of_points h with ⟨rfl, rfl⟩ | ⟨j, -, rfl, rfl⟩ | ⟨rfl, rfl⟩
  · rw [chainLanguage_of_mem ha u es (ha.source_mem hu), List.drop_zero, ← Expr.language_seq,
      ← hlabel]
    exact ⟨label_mul_languageFrom_le hu, fun hlt => absurd hlt (Nat.lt_irrefl 0)⟩
  · rw [chainLanguage_freshState]
    exact ⟨le_rfl, fun _ => le_rfl⟩
  · rw [chainLanguage_of_mem ha u es (ha.target_mem u hu), Nat.sub_add_cancel hpos,
      List.drop_length, Expr.product_nil, one_mul]
    exact ⟨le_rfl, fun _ => le_rfl⟩

/-- A chain runs through states of the graph and states that are handed out for it. -/
theorem known_of_mem_chain (ha : a.Valid) (hu : u ∈ a.transitions) {n : Nat} {es : List Expr}
    {x : StateId × StateId × Expr} (hx : x ∈ chain (points a u n) es) :
    Known a n x.1 ∧ Known a n x.2.1 := by
  have hpoint : ∀ (i : Nat) (q : StateId), (points a u n)[i]? = some q → Known a n q := by
    intro i q hq
    rcases cases_of_points hq with ⟨-, rfl⟩ | ⟨j, hj, -, rfl⟩ | ⟨-, rfl⟩
    · exact .inl (ha.source_mem hu)
    · exact .inr ⟨j, hj, rfl⟩
    · exact .inl (ha.target_mem u hu)
  obtain ⟨i, hfirst, hsecond, -⟩ := mem_chain hx
  exact ⟨hpoint i _ hfirst, hpoint (i + 1) _ hsecond⟩

/-- Each arc of a chain puts its label before the words of its target. -/
theorem mul_chainLanguage_le (ha : a.Valid) (hu : u ∈ a.transitions) {es : List Expr}
    (hlabel : u.label = .seq es) (hpos : 0 < es.length) {x : StateId × StateId × Expr}
    (hx : x ∈ chain (points a u (es.length - 1)) es) :
    x.2.2.language * chainLanguage a u es x.2.1 ≤ chainLanguage a u es x.1 := by
  obtain ⟨i, hfirst, hsecond, he⟩ := mem_chain hx
  obtain ⟨hi, he⟩ := List.getElem?_eq_some_iff.1 he
  have hsource := (chainLanguage_points ha hu hlabel hpos hfirst).1
  have htarget := (chainLanguage_points ha hu hlabel hpos hsecond).2 (Nat.succ_pos i)
  calc x.2.2.language * chainLanguage a u es x.2.1
      ≤ x.2.2.language * (Expr.product (es.drop (i + 1)) * a.languageFrom u.target) :=
        mul_le_mul_right htarget _
    _ = Expr.product (es.drop i) * a.languageFrom u.target := by
        rw [List.drop_eq_getElem_cons hi, Expr.product_cons, he, mul_assoc]
    _ ≤ chainLanguage a u es x.1 := hsource

theorem sequence_eq (ha : a.Valid) (hu : u ∈ a.transitions) {es : List Expr}
    (hlabel : u.label = .seq es) :
    sequence u.id a = .ok (replace a (.expandSequence u.id) u (es.length - 1)
      (chain (points a u (es.length - 1)) es)) := by
  have hops : u.label.operands = es := by rw [hlabel]; rfl
  rw [sequence, labelled_eq ha hu (by simp [hlabel, Expr.operator]), ← hops]
  rfl

theorem exists_sequence (ha : a.Valid) (hu : u ∈ a.transitions)
    (hw : ∀ t ∈ a.transitions, t.label.WellFormed) {es : List Expr}
    (hlabel : u.label = .seq es) :
    ∃ p b, sequence u.id a = .ok p ∧ p.Performs a b ∧ Expanded a b := by
  have hops : u.label.operands = es := by rw [hlabel]; rfl
  have hpos : 0 < es.length := by
    have hlen := (Expr.wellFormed_seq.1 (hlabel ▸ hw u hu)).1
    omega
  have hlen : (points a u (es.length - 1)).length = es.length + 1 := by
    rw [length_points]
    omega
  obtain ⟨b, hperforms, hb⟩ := exists_replaced ha hu (.expandSequence u.id)
    fun x hx => known_of_mem_chain ha hu hx
  refine ⟨_, b, sequence_eq ha hu hlabel, hperforms,
    hb.expanded ha hu hw (k := 0) (by rw [hlabel]; rfl) ?_ ?_⟩
  · rw [map_chain (hlen ▸ Nat.lt_succ_self _), hops]
    rfl
  refine hb.language_eq (M := chainLanguage a u es) ha ?_ (fun s hs => ?_) (fun t ht _ => ?_)
    ?_ fun x hx => mul_chainLanguage_le ha hu hlabel hpos hx
  · rw [hlabel, Expr.language_seq]
    have hlast : (points a u (es.length - 1)).getLast? = some u.target := by
      rw [points, List.getLast?_append]
      rfl
    exact product_mul_le_of_chain (L := b.languageFrom) (Nat.succ_inj.1 hlen) hlast
      fun x hx => hb.rewired.arc_mul_languageFrom_le hx
  · exact (chainLanguage_of_mem ha u es hs).ge
  · exact (chainLanguage_of_mem ha u es (ha.target_mem t ht)).le
  · exact (chainLanguage_of_mem ha u es ha.start_mem).le

end Expansion

end RegularForms
