import RegularForms.Proofs.Automaton.Query
import RegularForms.Proofs.Automaton.Reach

/-!
# Searching state by state

`reachFrom` proceeds in layers and looks states up without a refusal. The search here takes
the states one by one, in the order in which they were first seen, and the look-up of a state
may be refused. In a valid graph every state that is seen is there, so that nothing is refused,
and the search finds the same states.
-/

namespace RegularForms

/-- The states that a search has seen, and those of them that it has not treated yet. -/
structure Frontier where
  seen : StateSet
  waiting : List StateId

namespace Frontier

variable {f : Frontier} {s r : StateId} {ss : List StateId}

def see (f : Frontier) (s : StateId) : Frontier :=
  if s ∈ f.seen then f else ⟨f.seen.insert s, f.waiting ++ [s]⟩

def seeAll (f : Frontier) (ss : List StateId) : Frontier := ss.foldl see f

theorem mem_seen_see : r ∈ (f.see s).seen ↔ r = s ∨ r ∈ f.seen := by
  unfold see
  split
  · next hs => exact ⟨.inr, fun h => h.elim (· ▸ hs) id⟩
  · exact StateSet.mem_insert

theorem mem_seen_seeAll : r ∈ (f.seeAll ss).seen ↔ r ∈ ss ∨ r ∈ f.seen := by
  induction ss generalizing f with
  | nil => simp [seeAll]
  | cons s ss ih =>
      refine (ih (f := f.see s)).trans ?_
      rw [mem_seen_see, List.mem_cons, or_left_comm, or_assoc]

/-- What is seen for the first time waits. -/
theorem cases_of_mem_seen_see (h : r ∈ (f.see s).seen) :
    r ∈ f.seen ∨ r ∈ (f.see s).waiting := by
  unfold see at h ⊢
  split
  · next hs => rw [if_pos hs] at h; exact .inl h
  · next hs =>
      rw [if_neg hs] at h
      rcases StateSet.mem_insert.1 h with rfl | h
      · exact .inr (List.mem_append_right _ (List.mem_singleton.2 rfl))
      · exact .inl h

/-- Nothing stops waiting because others are seen. -/
theorem mem_waiting_see (h : r ∈ f.waiting) : r ∈ (f.see s).waiting := by
  unfold see
  split
  · exact h
  · exact List.mem_append_left _ h

theorem mem_waiting_seeAll (h : r ∈ f.waiting) : r ∈ (f.seeAll ss).waiting :=
  List.foldlRecOn (motive := fun g => r ∈ g.waiting) ss see h fun _ h _ _ => mem_waiting_see h

theorem cases_of_mem_seen_seeAll (h : r ∈ (f.seeAll ss).seen) :
    r ∈ f.seen ∨ r ∈ (f.seeAll ss).waiting := by
  induction ss generalizing f with
  | nil => exact .inl h
  | cons s ss ih =>
      rcases ih (f := f.see s) h with h | h
      · have hall : r ∈ (f.see s).waiting → r ∈ ((f.see s).seeAll ss).waiting := mem_waiting_seeAll
        exact (cases_of_mem_seen_see h).imp_right hall
      · exact .inr h

theorem waiting_subset_see (h : ∀ r ∈ f.waiting, r ∈ f.seen) :
    ∀ r ∈ (f.see s).waiting, r ∈ (f.see s).seen := by
  intro r hr
  refine mem_seen_see.2 ?_
  unfold see at hr
  split at hr
  · exact .inr (h r hr)
  · rcases List.mem_append.1 hr with hr | hr
    · exact .inr (h r hr)
    · exact .inl (List.mem_singleton.1 hr)

theorem ascending_see (h : Ident.Ascending id f.seen) :
    Ident.Ascending id (f.see s).seen := by
  unfold see
  split
  · exact h
  · exact StateSet.ascending_insert h s

def unseen (f : Frontier) (ss : List StateId) : Nat := (ss.toFinset \ f.seen.toFinset).card

/-- A state that is seen either makes no difference or waits and is no longer unseen. -/
theorem unseen_see_add (hs : s ∈ ss) :
    (f.see s).unseen ss + (f.see s).waiting.length = f.unseen ss + f.waiting.length := by
  by_cases hseen : s ∈ f.seen
  · rw [see, if_pos hseen]
  · have hinsert : (f.seen.insert s).toFinset = insert s f.seen.toFinset := by
      ext r
      rw [List.mem_toFinset, StateSet.mem_insert, Finset.mem_insert, List.mem_toFinset]
    have hmem : s ∈ ss.toFinset \ f.seen.toFinset :=
      Finset.mem_sdiff.2 ⟨List.mem_toFinset.2 hs, fun h => hseen (List.mem_toFinset.1 h)⟩
    have hcard := Finset.card_erase_add_one hmem
    rw [see, if_neg hseen, unseen, unseen, hinsert, Finset.sdiff_insert, List.length_append,
      List.length_singleton]
    omega

theorem unseen_seeAll_add {ts : List StateId} (hts : ∀ s ∈ ts, s ∈ ss) :
    (f.seeAll ts).unseen ss + (f.seeAll ts).waiting.length =
      f.unseen ss + f.waiting.length := by
  induction ts generalizing f with
  | nil => rfl
  | cons s ts ih =>
      obtain ⟨hs, hts⟩ := List.forall_mem_cons.1 hts
      exact (ih hts).trans (unseen_see_add hs)

end Frontier

namespace Automaton

variable {a : Automaton} {follow : Transition → Bool} {s r : StateId}

def chosenTargets (follow : Transition → Bool) (ts : List Transition) : List StateId :=
  (ts.filter follow).map Transition.target

/-- Treats the states that wait, first come, first served: what their transitions lead to is
seen. -/
def searchOn (a : Automaton) (follow : Transition → Bool) : Frontier → Except Error StateSet
  | ⟨seen, []⟩ => .ok seen
  | ⟨seen, s :: waiting⟩ =>
    match _hts : a.outgoing s with
    | .error err => .error err
    | .ok ts => a.searchOn follow (Frontier.seeAll ⟨seen, waiting⟩ (chosenTargets follow ts))
termination_by f => f.unseen (a.transitions.map Transition.target) + f.waiting.length
decreasing_by
  have htargets : ∀ r ∈ chosenTargets follow ts, r ∈ a.transitions.map Transition.target := by
    intro r hr
    obtain ⟨t, ht, rfl⟩ := List.mem_map.1 hr
    exact List.mem_map_of_mem (mem_transitions_of_outgoing_eq _hts (List.mem_of_mem_filter ht))
  rw [Frontier.unseen_seeAll_add htargets]
  exact Nat.lt_succ_self _

def search (a : Automaton) (follow : Transition → Bool) (s : StateId) :
    Except Error StateSet := do
  let _ ← a.node s
  a.searchOn follow ⟨[s], [s]⟩

/-- What holds of a search for the states that `s` leads to: only such states have been seen,
and the transitions of those that need not wait any more have been followed. -/
structure Searching (a : Automaton) (follow : Transition → Bool) (s : StateId)
    (f : Frontier) : Prop where
  ascending : Ident.Ascending id f.seen
  begun : s ∈ f.seen
  waiting_subset : ∀ r ∈ f.waiting, r ∈ f.seen
  leadsTo : ∀ r ∈ f.seen, a.LeadsTo follow s r
  closed : ∀ q ∈ f.seen, q ∉ f.waiting → ∀ r, a.StepsTo follow q r → r ∈ f.seen

/-- A search begins with one state. -/
theorem searching_singleton : Searching a follow s ⟨[s], [s]⟩ where
  ascending := List.pairwise_singleton _ s
  begun := List.mem_singleton.2 rfl
  waiting_subset _ hr := hr
  leadsTo r hr := by
    obtain rfl := List.mem_singleton.1 hr
    exact .refl
  closed q hq hwait := absurd hq hwait

/-- The next state takes its turn. -/
theorem Searching.seeAll {seen : StateSet} {q : StateId} {waiting ss : List StateId}
    (h : Searching a follow s ⟨seen, q :: waiting⟩)
    (hss : ∀ r, r ∈ ss ↔ a.StepsTo follow q r) :
    Searching a follow s (Frontier.seeAll ⟨seen, waiting⟩ ss) where
  ascending := List.foldlRecOn (motive := fun g : Frontier => Ident.Ascending id g.seen) ss
    Frontier.see h.ascending fun _ hg _ _ => Frontier.ascending_see hg
  begun := Frontier.mem_seen_seeAll.2 (.inr h.begun)
  waiting_subset := List.foldlRecOn (motive := fun g : Frontier => ∀ r ∈ g.waiting, r ∈ g.seen)
    ss Frontier.see (fun r hr => h.waiting_subset r (List.mem_cons_of_mem q hr))
    fun _ hg _ _ => Frontier.waiting_subset_see hg
  leadsTo r hr := by
    have hq := h.leadsTo q (h.waiting_subset q List.mem_cons_self)
    rcases Frontier.mem_seen_seeAll.1 hr with hr | hr
    · exact hq.tail ((hss r).1 hr)
    · exact h.leadsTo r hr
  closed p hp hwait r hstep := by
    refine Frontier.mem_seen_seeAll.2 ?_
    have hseen : p ∈ seen := (Frontier.cases_of_mem_seen_seeAll hp).resolve_right hwait
    by_cases hpq : p = q
    · exact .inl ((hss r).2 (hpq ▸ hstep))
    · have hwait' : p ∉ q :: waiting := fun hmem =>
        hwait (Frontier.mem_waiting_seeAll ((List.mem_cons.1 hmem).resolve_left hpq))
      exact .inr (h.closed p hseen hwait' r hstep)

theorem Valid.mem_chosenTargets (ha : a.Valid) :
    r ∈ chosenTargets follow (a.out s) ↔ a.StepsTo follow s r := by
  unfold chosenTargets StepsTo
  simp only [List.mem_map, List.mem_filter, ha.mem_out]
  exact exists_congr fun t => by tauto

/-- The search is not refused, and in the end no state waits. -/
theorem Searching.exists_searchOn_eq (ha : a.Valid) (hs : s ∈ a.stateIds) {f : Frontier}
    (h : Searching a follow s f) :
    ∃ found, a.searchOn follow f = .ok found ∧ Searching a follow s ⟨found, []⟩ := by
  induction f using searchOn.induct a follow with
  | case1 seen => exact ⟨seen, by rw [searchOn], h⟩
  | case2 seen q waiting err herr =>
      have hq := h.leadsTo q (h.waiting_subset q List.mem_cons_self)
      nomatch (ha.outgoing_eq (hq.target_mem ha hs)).symm.trans herr
  | case3 seen q waiting ts hts ih =>
      have hq := h.leadsTo q (h.waiting_subset q List.mem_cons_self)
      obtain rfl := Except.ok.inj ((ha.outgoing_eq (hq.target_mem ha hs)).symm.trans hts)
      obtain ⟨found, hfound, hdone⟩ := ih (h.seeAll fun r => ha.mem_chosenTargets)
      refine ⟨found, ?_, hdone⟩
      rw [searchOn]
      split
      · next err herr => nomatch herr.symm.trans hts
      · next ts hts' =>
          obtain rfl := Except.ok.inj (hts'.symm.trans hts)
          exact hfound

/-- When no state waits, just the states that are led to have been seen. -/
theorem Searching.mem_iff {found : StateSet} (h : Searching a follow s ⟨found, []⟩) :
    r ∈ found ↔ a.LeadsTo follow s r := by
  refine ⟨h.leadsTo r, fun hlead => ?_⟩
  induction hlead with
  | refl => exact h.begun
  | tail _ hstep ih => exact h.closed _ ih List.not_mem_nil _ hstep

/-- State by state the same is found as layer by layer. -/
theorem Valid.search_eq (ha : a.Valid) (hs : s ∈ a.stateIds) :
    a.search follow s = .ok (a.reachFrom follow [s]) := by
  obtain ⟨n, hnode, -⟩ := ha.exists_node_eq hs
  have hbegun : Searching a follow s ⟨[s], [s]⟩ := searching_singleton
  obtain ⟨found, hfound, hdone⟩ := hbegun.exists_searchOn_eq ha hs
  have heq : found = a.reachFrom follow [s] := by
    refine StateSet.eq_of_mem_iff hdone.ascending
      (ascending_reachLayers _ (List.pairwise_singleton _ s)) fun r => ?_
    rw [hdone.mem_iff, ha.mem_reachFrom]
    simp
  rw [search, hnode, ← heq]
  exact hfound

end Automaton

end RegularForms
