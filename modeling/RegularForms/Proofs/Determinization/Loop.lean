import Mathlib.Data.Finset.Powerset
import Mathlib.Data.Finset.Prod
import RegularForms.Determinization.Complete
import RegularForms.Proofs.Automaton.Reach
import RegularForms.Proofs.Determinization.Subset

/-!
# Treating ambiguous symbols one after the other

A symbol is ambiguous at a state that has several transitions on it. A symbol that has
been treated at a state is never ambiguous there again, and there are no more states than
those to begin with and the sets of them. So the number of looks that are allowed is never
used up, and in the end no symbol is ambiguous at a state that is reached.
-/

namespace RegularForms

namespace Determinization

open Automaton Rewriting

variable {a b d : Automaton} {table : SubsetTable} {s q : StateId} {c : Char}
  {set : StateSet}

/-! ## Ambiguous symbols -/

def Unambiguous (b : Automaton) (s : StateId) (c : Char) : Prop :=
  ∀ t ∈ b.transitions, ∀ u ∈ b.transitions,
    t.source = s → u.source = s → t.label = .sym c → u.label = .sym c → t = u

theorem length_onSymbol_le_one_iff (hb : b.Valid) :
    (onSymbol b s c).length ≤ 1 ↔ Unambiguous b s c := by
  rw [← List.toFinset_card_of_nodup (nodup_onSymbol hb), Finset.card_le_one]
  simp only [List.mem_toFinset, mem_onSymbol hb]
  constructor
  · intro h t ht u hu hts hus htc huc
    exact h t ⟨ht, hts, htc⟩ u ⟨hu, hus, huc⟩
  · rintro h t ⟨ht, hts, htc⟩ u ⟨hu, hus, huc⟩
    exact h t ht u hu hts hus htc huc

theorem mem_ambiguousSymbols {ts : List Transition} : c ∈ ambiguousSymbols ts ↔
    c ≠ epsilonSymbol ∧ 1 < (ts.filter fun t => t.label.symbol? == some c).length := by
  have hcount : (ts.filterMap fun t => if t.isEpsilon then none else t.label.symbol?).count c =
      if c = epsilonSymbol then 0
      else (ts.filter fun t => t.label.symbol? == some c).length := by
    rw [List.count_filterMap, ← List.countP_eq_length_filter]
    split
    · next hc =>
        rw [List.countP_eq_zero]
        intro t _ hsome
        by_cases heps : t.isEpsilon = true
        · rw [if_pos heps] at hsome
          nomatch hsome
        · rw [if_neg heps, beq_iff_eq, Expr.symbol?_eq_some_iff, hc] at hsome
          exact heps (by rw [Transition.isEpsilon, hsome]; rfl)
    · next hc =>
        refine List.countP_congr fun t _ => ?_
        by_cases heps : t.isEpsilon = true
        · rw [if_pos heps, beq_iff_eq, beq_iff_eq, Expr.symbol?_eq_some_iff]
          refine iff_of_false nofun fun hlabel => hc ?_
          rw [Transition.isEpsilon, hlabel] at heps
          exact beq_iff_eq.1 heps
        · rw [if_neg heps]
  rw [ambiguousSymbols, List.mem_mergeSort, List.mem_filter, mem_distinct, decide_eq_true_eq,
    ← List.count_pos_iff, hcount]
  by_cases hc : c = epsilonSymbol
  · simp [hc]
  · rw [if_neg hc, and_iff_right hc]
    exact and_iff_right_of_imp (Nat.lt_trans Nat.zero_lt_one)

theorem mem_ambiguousSymbols_out (hb : b.Valid) :
    c ∈ ambiguousSymbols (b.out s) ↔ c ≠ epsilonSymbol ∧ ¬ Unambiguous b s c := by
  rw [mem_ambiguousSymbols, ← length_onSymbol_le_one_iff hb, Nat.not_le]
  rfl

theorem of_ambiguity?_eq_some (hb : b.Valid) (h : ambiguity? b = some (s, c)) :
    s ∈ b.stateIds ∧ ¬ Unambiguous b s c := by
  obtain ⟨q, hq, hmap⟩ := List.exists_of_findSome?_eq_some h
  obtain ⟨e, hhead, heq⟩ := Option.map_eq_some_iff.1 hmap
  obtain ⟨rfl, rfl⟩ := Prod.mk.inj heq
  refine ⟨LeadsTo.target_mem hb hb.start_mem (hb.mem_reachableStates.1 hq), ?_⟩
  exact ((mem_ambiguousSymbols_out hb).1 (List.mem_of_head? hhead)).2

theorem of_ambiguity?_eq_none (hb : b.Valid) (h : ambiguity? b = none)
    (hs : b.LeadsTo (fun _ => true) b.start s) (hc : c ≠ epsilonSymbol) : Unambiguous b s c := by
  have hmap := List.findSome?_eq_none_iff.1 h s (hb.mem_reachableStates.2 hs)
  have hnil := List.head?_eq_none_iff.1 (Option.map_eq_none_iff.1 hmap)
  by_contra hamb
  have hmem := (mem_ambiguousSymbols_out hb).2 ⟨hc, hamb⟩
  rw [hnil] at hmem
  nomatch hmem

/-! ## What a round does -/

theorem eq_of_mem_freshTransitions {x : StateId × StateId × Expr}
    {xs : List (StateId × StateId × Expr)} {t u : Transition}
    (ht : t ∈ b.freshTransitions (x :: xs)) (hu : u ∈ b.freshTransitions (x :: xs))
    (htx : t.arc ∉ xs) (hux : u.arc ∉ xs) : t = u := by
  have key : ∀ {t}, t ∈ b.freshTransitions (x :: xs) → t.arc ∉ xs →
      t = b.freshTransition 0 x.1 x.2.1 x.2.2 := by
    intro t ht htx
    obtain ⟨i, y, hi, rfl⟩ := mem_freshTransitions.1 ht
    cases i with
    | zero =>
        obtain rfl := Option.some.inj hi
        rfl
    | succ i =>
        have hi : xs[i]? = some y := hi
        exact absurd (List.mem_of_getElem? hi) htx
  rw [key ht htx, key hu hux]

variable {target : StateId} {copies : List (StateId × StateId × Expr)}

/-- The transitions that leave a state that was there. -/
theorem Split.cases_of_source_mem (h : Split b s c target set copies d) {t : Transition}
    (ht : t ∈ d.transitions) (hts : t.source ∈ b.stateIds) :
    (t ∈ b.transitions ∧ ¬ (t.source = s ∧ t.label = .sym c)) ∨
      (t.source = s ∧ t.label = .sym c) ∧ t.arc ∉ copies ∧
        t ∈ b.freshTransitions ((s, target, .sym c) :: copies) := by
  rcases (h.rewired.mem_transitions t).1 ht with hold | hfresh
  · exact .inl hold
  · have hcopy : t.arc ∉ copies := by
      intro hcopy
      obtain ⟨hnew, hsource, -⟩ := (h.mem_copies _).1 hcopy
      have hsource : t.source = target := hsource
      exact hnew (hsource ▸ hts)
    have hlink := (List.mem_cons.1 (arc_mem_of_mem_freshTransitions hfresh)).resolve_right hcopy
    exact .inr ⟨⟨congrArg Prod.fst hlink, congrArg (fun x => x.2.2) hlink⟩, hcopy, hfresh⟩

/-- The symbol that has been treated is not ambiguous, and no other one has become so at a
state that was there. -/
theorem Split.unambiguous (h : Split b s c target set copies d) (hq : q ∈ b.stateIds) {c' : Char}
    (hold : (q, c') = (s, c) ∨ Unambiguous b q c') : Unambiguous d q c' := by
  intro t ht u hu htq huq htc huc
  have ht := h.cases_of_source_mem ht (htq ▸ hq)
  have hu := h.cases_of_source_mem hu (huq ▸ hq)
  rw [htq, htc] at ht
  rw [huq, huc] at hu
  by_cases hsame : q = s ∧ Expr.sym c' = .sym c
  · obtain ⟨-, htcopy, htf⟩ := ht.resolve_left fun h => h.2 hsame
    obtain ⟨-, hucopy, huf⟩ := hu.resolve_left fun h => h.2 hsame
    exact eq_of_mem_freshTransitions htf huf htcopy hucopy
  · have hne : (q, c') ≠ (s, c) := by
      intro heq
      obtain ⟨rfl, rfl⟩ := Prod.mk.inj heq
      exact hsame ⟨rfl, rfl⟩
    exact hold.resolve_left hne t (ht.resolve_right fun h => hsame h.1).1 u
      (hu.resolve_right fun h => hsame h.1).1 htq huq htc huc

/-- New transitions have labels that there were. -/
theorem Split.exists_label (h : Split b s c target set copies d)
    (hc : ∃ t ∈ b.transitions, t.label = .sym c) {t : Transition} (ht : t ∈ d.transitions) :
    ∃ u ∈ b.transitions, u.label = t.label := by
  refine h.rewired.forall_label (R := fun e => ∃ u ∈ b.transitions, u.label = e)
    (fun t ht => ⟨t, ht, rfl⟩) (fun x hx => ?_) t ht
  rcases List.mem_cons.1 hx with rfl | hx
  · exact hc
  · obtain ⟨-, -, q, -, u, hu, -, hlabel, -⟩ := (h.mem_copies x).1 hx
    exact ⟨u, hu, hlabel⟩

/-! ## The number of states -/

/-- There are no more states than those to begin with and the sets that may be stood for. -/
theorem Lifted.length_stateIds_le_add_card (ha : a.Valid) (h : Lifted a table b)
    {sets : Finset (Finset StateId)} (hsets : ∀ x ∈ table.bindings, x.set.toFinset ∈ sets) :
    b.stateIds.length ≤ a.stateIds.length + sets.card := by
  have hbound : ∀ q ∈ b.stateIds.toFinset \ a.stateIds.toFinset,
      ∃ x ∈ table.bindings, x.state.id = q ∧ table.members q = x.set := by
    intro q hq
    obtain ⟨hqb, hqa⟩ := Finset.mem_sdiff.1 hq
    rcases h.mem_cases q (List.mem_toFinset.1 hqb) with hmem | ⟨x, hx, rfl⟩
    · exact absurd (List.mem_toFinset.2 hmem) hqa
    · exact ⟨x, hx, rfl, h.sound.members_of_bound hx⟩
  have hcard : (b.stateIds.toFinset \ a.stateIds.toFinset).card ≤ sets.card := by
    refine Finset.card_le_card_of_injOn (fun q => (table.members q).toFinset)
      (fun q hq => ?_) fun q hq q' hq' heq => ?_
    · obtain ⟨x, hx, -, hmembers⟩ := hbound q hq
      show (table.members q).toFinset ∈ sets
      rw [hmembers]
      exact hsets x hx
    · obtain ⟨x, hx, rfl, hmembers⟩ := hbound q hq
      obtain ⟨y, hy, rfl, hmembers'⟩ := hbound q' hq'
      have heq : x.set.toFinset = y.set.toFinset := by
        rw [← hmembers, ← hmembers']
        exact heq
      rw [h.sound.eq_of_mem_set_iff hx hy fun p => by
        rw [← List.mem_toFinset, heq, List.mem_toFinset]]
  have hsub : a.stateIds.toFinset ⊆ b.stateIds.toFinset := fun q hq =>
    List.mem_toFinset.2 (h.subset q (List.mem_toFinset.1 hq))
  have hsum := Finset.card_sdiff_add_card_eq_card hsub
  rw [List.toFinset_card_of_nodup ha.nodup_stateIds,
    List.toFinset_card_of_nodup h.valid.nodup_stateIds] at hsum
  rw [← hsum, Nat.add_comm]
  exact Nat.add_le_add_left hcard _

theorem Lifted.set_mem_powerset (h : Lifted a table b) {x : Binding} (hx : x ∈ table.bindings) :
    x.set.toFinset ∈ a.stateIds.toFinset.powerset :=
  Finset.mem_powerset.2 fun p hp =>
    List.mem_toFinset.2 (h.sound.set_subset x hx p (List.mem_toFinset.1 hp))

theorem Lifted.length_stateIds_le (ha : a.Valid) (h : Lifted a table b) :
    b.stateIds.length ≤ a.stateIds.length + 2 ^ a.stateIds.length := by
  have hle := h.length_stateIds_le_add_card ha fun x hx => h.set_mem_powerset hx
  rwa [Finset.card_powerset, List.toFinset_card_of_nodup ha.nodup_stateIds] at hle

/-! ## The rounds -/

/-- Some symbols have been treated at some states. -/
structure Treated (a : Automaton) (table : SubsetTable) (done : Finset (StateId × Char))
    (b : Automaton) : Prop where
  lifted : Lifted a table b
  exists_label : ∀ t ∈ b.transitions, ∃ u ∈ a.transitions, u.label = t.label
  mem : ∀ x ∈ done, x.1 ∈ b.stateIds ∧ x.2 ∈ symbols a
  unambiguous : ∀ x ∈ done, Unambiguous b x.1 x.2

theorem mem_symbols : c ∈ symbols a ↔ ∃ t ∈ a.transitions, t.label = .sym c := by
  rw [symbols, mem_distinct, List.mem_filterMap]
  exact exists_congr fun t => and_congr_right fun _ => Expr.symbol?_eq_some_iff

variable {done : Finset (StateId × Char)}

theorem Treated.card_le_mul (h : Treated a table done b) :
    done.card ≤ b.stateIds.length * (symbols a).length := by
  have hsub : done ⊆ b.stateIds.toFinset ×ˢ (symbols a).toFinset := fun x hx =>
    Finset.mem_product.2
      ⟨List.mem_toFinset.2 (h.mem x hx).1, List.mem_toFinset.2 (h.mem x hx).2⟩
  calc done.card ≤ (b.stateIds.toFinset ×ˢ (symbols a).toFinset).card := Finset.card_le_card hsub
    _ = b.stateIds.toFinset.card * (symbols a).toFinset.card := Finset.card_product _ _
    _ ≤ b.stateIds.length * (symbols a).length :=
      Nat.mul_le_mul (List.toFinset_card_le _) (List.toFinset_card_le _)

theorem Treated.card_le (ha : a.Valid) (h : Treated a table done b) :
    done.card ≤ (a.stateIds.length + 2 ^ a.stateIds.length) * (symbols a).length :=
  h.card_le_mul.trans (Nat.mul_le_mul_right _ (h.lifted.length_stateIds_le ha))

theorem Treated.insert (h : Treated a table done b) (hs : s ∈ b.stateIds)
    (hamb : ¬ Unambiguous b s c) {table' : SubsetTable} (hlifted : Lifted a table' d)
    (hd : Split b s c target set copies d) :
    (s, c) ∉ done ∧ Treated a table' (insert (s, c) done) d := by
  have hc : ∃ t ∈ b.transitions, t.label = .sym c := by
    by_contra hno
    exact hamb fun t ht _ _ _ _ htc _ => absurd ⟨t, ht, htc⟩ hno
  have hlabel := fun t ht => hd.exists_label hc (t := t) ht
  refine ⟨fun hmem => hamb (h.unambiguous _ hmem), hlifted, fun t ht => ?_, fun x hx => ?_,
    fun x hx => ?_⟩
  · obtain ⟨u, hu, hul⟩ := hlabel t ht
    obtain ⟨v, hv, hvl⟩ := h.exists_label u hu
    exact ⟨v, hv, hvl.trans hul⟩
  · rcases Finset.mem_insert.1 hx with rfl | hx
    · obtain ⟨t, ht, htc⟩ := hc
      obtain ⟨u, hu, hul⟩ := h.exists_label t ht
      exact ⟨(hd.mem_stateIds s).2 (.inl hs), mem_symbols.2 ⟨u, hu, hul.trans htc⟩⟩
    · exact ⟨(hd.mem_stateIds _).2 (.inl (h.mem x hx).1), (h.mem x hx).2⟩
  · rcases Finset.mem_insert.1 hx with rfl | hx
    · exact hd.unambiguous hs (.inl rfl)
    · exact hd.unambiguous (h.mem x hx).1 (.inr (h.unambiguous x hx))

theorem treated_empty (ha : a.Valid) : Treated a .empty ∅ a :=
  ⟨lifted_empty ha, fun t ht => ⟨t, ht, rfl⟩, fun x hx => (Finset.notMem_empty x hx).elim,
    fun x hx => (Finset.notMem_empty x hx).elim⟩

/-- Nothing is done where no symbol is ambiguous. -/
theorem runOn_determinizeFirst_none {history : Option History} (looks : Nat)
    (hfound : ambiguity? b = none) :
    (determinizeFirst looks table).runOn b history = (.ok (), ⟨b, history⟩) := by
  cases looks with
  | zero => rfl
  | succ looks =>
      rw [determinizeFirst, runOn_graph, hfound]
      rfl

/-- What is left when no symbol is ambiguous at a state that is reached. -/
structure Settled (a b : Automaton) : Prop where
  valid : b.Valid
  start_eq : b.start = a.start
  language_eq : b.language = a.language
  exists_label : ∀ t ∈ b.transitions, ∃ u ∈ a.transitions, u.label = t.label
  ambiguity?_eq : ambiguity? b = none

/-- Looking more often than there are pairs of a state and a symbol leaves no ambiguous
symbol. -/
theorem achieves_determinizeFirst {l : Language Char} (ha : a.Valid) (hl : a.language = l)
    {looks : Nat} (h : Treated a table done b)
    (hlooks : (a.stateIds.length + 2 ^ a.stateIds.length) * (symbols a).length <
      looks + done.card) :
    Achieves (fun b => b.language = l) (determinizeFirst looks table) b fun _ => Settled a := by
  induction looks generalizing table done b with
  | zero =>
      rw [Nat.zero_add] at hlooks
      exact absurd (h.card_le ha) (Nat.not_le.2 hlooks)
  | succ looks ih =>
      have hb := h.lifted.valid
      refine Achieves.graph ?_
      match hamb : ambiguity? b with
      | none =>
          exact achieves_pure
            ⟨hb, h.lifted.start_eq, h.lifted.language_eq ha, h.exists_label, hamb⟩
      | some (s, c) =>
          obtain ⟨hs, hno⟩ := of_ambiguity?_eq_some hb hamb
          obtain ⟨p, table', d, target, copies, heq, hperforms, hlifted, hd, -⟩ :=
            h.lifted.exists_determinize hs c
          obtain ⟨hnew, htreated⟩ := h.insert hs hno hlifted hd
          refine Achieves.ask heq (Achieves.bind (achieves_enact language_reserve_eq hperforms
            ((hlifted.language_eq ha).trans hl) (ih htreated ?_)))
          rw [Finset.card_insert_of_notMem hnew]
          exact hlooks.trans_eq (Nat.add_right_comm looks 1 done.card)

/-- The last pass ends with no symbol ambiguous at a state that is reached. -/
theorem achieves_determinizeStates {l : Language Char} (ha : a.Valid) (hl : a.language = l) :
    Achieves (fun b => b.language = l) determinizeStates a fun _ => Settled a := by
  have hlen : a.nodes.length = a.stateIds.length := (List.length_map _).symm
  refine Achieves.graph (achieves_determinizeFirst ha hl (treated_empty ha) ?_)
  rw [hlen, Finset.card_empty]
  exact Nat.mul_lt_mul_of_pos_left (Nat.lt_succ_self _)
    (Nat.add_pos_right _ (Nat.two_pow_pos _))

end Determinization

end RegularForms
