import RegularForms.Proofs.Automaton.Accept
import RegularForms.Proofs.Automaton.Ledger
import RegularForms.Proofs.Automaton.Query

/-!
# Accepting by walks

A walk takes transitions one after another, and spells the labels it comes by, without `ε`.
Where every label is a single symbol the words of the paths are the spellings of the walks,
so a word is accepted exactly when a walk from the start state to an accepting state spells
it. Since `ε` is never spelled, no word with that character is.

`accepts` looks states up without a refusal. `acceptsByLookUp` does the same reading by the
look-ups that may be refused, and stops when no state is left; in a valid graph every state
it comes by is there, and so the two agree.
-/

namespace RegularForms

namespace Automaton

variable {a : Automaton} {s r : StateId}

/-! ## Walks -/

inductive Walk (a : Automaton) : StateId → List Transition → StateId → Prop
  | nil (s : StateId) : Walk a s [] s
  | cons {t : Transition} {ts : List Transition} {r : StateId} (ht : t ∈ a.transitions)
      (h : Walk a t.target ts r) : Walk a t.source (t :: ts) r

theorem Walk.append {ts us : List Transition} {q : StateId} (h : a.Walk s ts r)
    (h' : a.Walk r us q) : a.Walk s (ts ++ us) q := by
  induction h with
  | nil s => exact h'
  | cons ht _ ih => exact .cons ht (ih h')

theorem Walk.mem_transitions {ts : List Transition} (h : a.Walk s ts r) {t : Transition}
    (ht : t ∈ ts) : t ∈ a.transitions := by
  induction h with
  | nil s => nomatch ht
  | cons hu _ ih =>
      rcases List.mem_cons.1 ht with rfl | ht
      · exact hu
      · exact ih ht

/-- A walk of chosen transitions leads from its first state to its last. -/
theorem Walk.leadsTo {follow : Transition → Bool} {ts : List Transition} (h : a.Walk s ts r)
    (hts : ∀ t ∈ ts, follow t = true) : a.LeadsTo follow s r := by
  induction h with
  | nil s => exact .refl
  | cons ht _ ih =>
      obtain ⟨hfollow, hts⟩ := List.forall_mem_cons.1 hts
      exact .head ⟨_, ht, hfollow, rfl, rfl⟩ (ih hts)

theorem LeadsTo.exists_walk {follow : Transition → Bool} (h : a.LeadsTo follow s r) :
    ∃ ts, a.Walk s ts r ∧ ∀ t ∈ ts, follow t = true := by
  induction h using Relation.ReflTransGen.head_induction_on with
  | refl => exact ⟨[], .nil r, List.forall_mem_nil _⟩
  | head hstep _ ih =>
      obtain ⟨t, ht, hfollow, rfl, rfl⟩ := hstep
      obtain ⟨ts, hwalk, hts⟩ := ih
      exact ⟨t :: ts, .cons ht hwalk, List.forall_mem_cons.2 ⟨hfollow, hts⟩⟩

theorem leadsTo_iff_exists_walk {follow : Transition → Bool} :
    a.LeadsTo follow s r ↔ ∃ ts, a.Walk s ts r ∧ ∀ t ∈ ts, follow t = true :=
  ⟨LeadsTo.exists_walk, fun ⟨_, hwalk, hts⟩ => hwalk.leadsTo hts⟩

/-- A walk passes the sources of its transitions. -/
theorem Walk.exists_split {ts : List Transition} (h : a.Walk s ts r) {t : Transition}
    (ht : t ∈ ts) : ∃ us vs, ts = us ++ vs ∧ a.Walk s us t.source ∧ a.Walk t.source vs r := by
  induction h with
  | nil s => nomatch ht
  | @cons u ts r hu hwalk ih =>
      rcases List.mem_cons.1 ht with rfl | ht
      · exact ⟨[], t :: ts, rfl, .nil _, .cons hu hwalk⟩
      · obtain ⟨us, vs, rfl, hus, hvs⟩ := ih ht
        exact ⟨u :: us, vs, rfl, .cons hu hus, hvs⟩

/-- The labels of transitions in order, without `ε`. -/
def spelling (ts : List Transition) : List Char :=
  (ts.filter fun t => !t.isEpsilon).filterMap fun t => t.label.symbol?

theorem spelling_cons_of_isEpsilon {t : Transition} (h : t.isEpsilon = true)
    (ts : List Transition) : spelling (t :: ts) = spelling ts := by
  rw [spelling, List.filter_cons, if_neg (by simp [h])]
  rfl

theorem spelling_cons_of_readsSymbol {t : Transition} {c : Char} (h : readsSymbol c t = true)
    (ts : List Transition) : spelling (t :: ts) = c :: spelling ts := by
  obtain ⟨hlabel, heps⟩ := (Bool.and_eq_true _ _).mp h
  have hsymbol : t.label.symbol? = some c := beq_iff_eq.1 hlabel
  rw [spelling, List.filter_cons, if_pos heps, List.filterMap_cons, hsymbol]
  rfl

/-- The symbol `ε` is never spelled. -/
theorem epsilonSymbol_notMem_spelling (ts : List Transition) :
    epsilonSymbol ∉ spelling ts := by
  intro hmem
  obtain ⟨t, ht, hlabel⟩ := List.mem_filterMap.1 hmem
  have heps : t.isEpsilon = true := by
    rw [Transition.isEpsilon, Expr.symbol?_eq_some_iff.1 hlabel]
    rfl
  simpa [heps] using (List.mem_filter.1 ht).2

theorem Walk.path (hlit : a.Literal) {ts : List Transition} (h : a.Walk s ts r) :
    a.Path s (spelling ts) r := by
  induction h with
  | nil s => exact .nil s
  | @cons t ts r ht _ ih =>
      rcases isEpsilon_or_readsSymbol (hlit t ht) with heps | ⟨c, hread⟩
      · rw [spelling_cons_of_isEpsilon heps]
        refine .cons (u := []) ht ?_ ih
        rw [Expr.language_of_isEpsilon heps]
        rfl
      · rw [spelling_cons_of_readsSymbol hread]
        exact .cons (u := [c]) ht (mem_language_of_readsSymbol hread) ih

theorem Path.exists_walk (hlit : a.Literal) {w : List Char} (h : a.Path s w r) :
    ∃ ts, a.Walk s ts r ∧ spelling ts = w := by
  induction h with
  | nil s => exact ⟨[], .nil s, rfl⟩
  | @cons t u v r ht hu _ ih =>
      obtain ⟨ts, hwalk, hspell⟩ := ih
      refine ⟨t :: ts, .cons ht hwalk, ?_⟩
      rcases cases_of_mem_language (hlit t ht) hu with ⟨rfl, heps⟩ | ⟨c, rfl, hread⟩
      · rw [spelling_cons_of_isEpsilon heps, hspell, List.nil_append]
      · rw [spelling_cons_of_readsSymbol hread, hspell, List.singleton_append]

/-- The words of the language are what is spelled on the way to an accepting state. -/
theorem Literal.mem_language_iff (hlit : a.Literal) {w : List Char} :
    w ∈ a.language ↔
      ∃ ts r, a.Walk a.start ts r ∧ a.accepting r = true ∧ spelling ts = w := by
  constructor
  · rintro ⟨r, hpath, hr⟩
    obtain ⟨ts, hwalk, hspell⟩ := hpath.exists_walk hlit
    exact ⟨ts, r, hwalk, hr, hspell⟩
  · rintro ⟨ts, r, hwalk, hr, rfl⟩
    exact ⟨r, hwalk.path hlit, hr⟩

/-! ## Compound labels -/

theorem literal_iff : a.Literal ↔ ∀ t ∈ a.transitions, ∃ c, t.label = .sym c :=
  forall₂_congr fun _ _ => Expr.isSymbol_iff

/-- A word is refused for the sake of a label that is not a single symbol. -/
theorem of_accepts_eq_error {word : String} {err : Error} (h : a.accepts word = .error err) :
    ∃ t ∈ a.transitions, err = .compoundLabel t.id ∧ ¬ ∃ c, t.label = .sym c := by
  unfold accepts at h
  split at h
  · next t hfind =>
      have hlabel := List.find?_some hfind
      rw [Bool.not_eq_true', Bool.eq_false_iff, ne_eq, Expr.isSymbol_iff] at hlabel
      exact ⟨t, List.mem_of_find?_eq_some hfind, (Except.error.inj h).symm, hlabel⟩
  · nomatch h

/-- Such a label has every word refused. -/
theorem accepts_eq_error_iff (word : String) :
    (∃ t, a.accepts word = .error (.compoundLabel t)) ↔
      ∃ t ∈ a.transitions, ¬ ∃ c, t.label = .sym c := by
  constructor
  · rintro ⟨_, herr⟩
    obtain ⟨t, ht, -, hlabel⟩ := of_accepts_eq_error herr
    exact ⟨t, ht, hlabel⟩
  · rintro ⟨t, ht, hlabel⟩
    unfold accepts
    split
    · next u _ => exact ⟨u.id, rfl⟩
    · next hnone =>
        have hsym := List.find?_eq_none.1 hnone t ht
        rw [Bool.not_eq_true, Bool.not_eq_false', Expr.isSymbol_iff] at hsym
        exact absurd hsym hlabel

/-- What is accepted is spelled by a walk, and no label is compound. -/
theorem Valid.accepts_eq_true_iff_walk (ha : a.Valid)
    (hlit : ∀ t ∈ a.transitions, ∃ c, t.label = .sym c) (word : String) :
    a.accepts word = .ok true ↔
      ∃ ts r, a.Walk a.start ts r ∧ a.accepting r = true ∧ spelling ts = word.toList := by
  rw [ha.accepts_eq_true_iff (literal_iff.2 hlit), (literal_iff.2 hlit).mem_language_iff]

theorem Valid.accepts_ne_true_of_epsilonSymbol (ha : a.Valid) {word : String}
    (hword : epsilonSymbol ∈ word.toList) : a.accepts word ≠ .ok true := by
  intro htrue
  have hlit : ∀ t ∈ a.transitions, ∃ c, t.label = .sym c := by
    intro t ht
    by_contra hlabel
    obtain ⟨u, herr⟩ := (accepts_eq_error_iff word).2 ⟨t, ht, hlabel⟩
    nomatch htrue.symm.trans herr
  obtain ⟨ts, r, -, -, hspell⟩ := (ha.accepts_eq_true_iff_walk hlit word).1 htrue
  exact epsilonSymbol_notMem_spelling ts (hspell ▸ hword)

/-! ## Looking states up -/

def joinClosure (a : Automaton) (set : StateSet) (t : Transition) : Except Error StateSet :=
  return set.union (← a.epsilonClosure t.target)

def joinReading (a : Automaton) (c : Char) (set : StateSet) (s : StateId) :
    Except Error StateSet := do
  ((← a.outgoing s).filter (readsSymbol c)).foldlM a.joinClosure set

/-- Reads a word on from some states, symbol by symbol, until no state is left. -/
def readOn (a : Automaton) : List Char → StateSet → Except Error StateSet
  | [], current => return current
  | c :: w, current => do
    let next ← current.foldlM (a.joinReading c) []
    if next.isEmpty then return [] else a.readOn w next

/-- Whether some reading of a word ends in an accepting state, where the look-up of a state
may be refused. -/
def acceptsByLookUp (a : Automaton) (word : String) : Except Error Bool := do
  match a.transitions.find? fun t => !t.label.isSymbol with
  | some t => throw (.compoundLabel t.id)
  | none => (← a.readOn word.toList (← a.epsilonClosure a.start)).anyM a.isAccepting

/-- A look-up is not refused, and what it finds is a set with some more states. -/
def Adds (x : Except Error StateSet) (set : StateSet) (more : StateId → Prop) : Prop :=
  ∃ next, x = .ok next ∧ Ident.Ascending id next ∧ ∀ r, r ∈ next ↔ r ∈ set ∨ more r

/-- Each member of a list adds some states. -/
theorem adds_foldlM {α : Type} {f : StateSet → α → Except Error StateSet}
    {more : α → StateId → Prop} {xs : List α}
    (h : ∀ x ∈ xs, ∀ set, Ident.Ascending id set → Adds (f set x) set (more x))
    {set : StateSet} (hset : Ident.Ascending id set) :
    Adds (xs.foldlM f set) set fun r => ∃ x ∈ xs, more x r := by
  induction xs generalizing set with
  | nil => exact ⟨set, rfl, hset, fun r => by simp⟩
  | cons x xs ih =>
      obtain ⟨hx, hxs⟩ := List.forall_mem_cons.1 h
      obtain ⟨mid, hmid, hascending, hmem⟩ := hx set hset
      obtain ⟨next, hnext, hdone, hmem'⟩ := ih hxs hascending
      refine ⟨next, ?_, hdone, fun r => ?_⟩
      · rw [List.foldlM_cons, hmid]
        exact hnext
      · simp only [hmem', hmem, or_assoc, List.exists_mem_cons_iff]

theorem Valid.adds_joinClosure (ha : a.Valid) {t : Transition} (ht : t.target ∈ a.stateIds)
    {set : StateSet} (hset : Ident.Ascending id set) :
    Adds (a.joinClosure set t) set (a.LeadsTo Transition.isEpsilon t.target) := by
  refine ⟨set.union (a.closure [t.target]), ?_, StateSet.ascending_union hset _, fun r => ?_⟩
  · rw [joinClosure, ha.epsilonClosure_eq ht]
    rfl
  · rw [StateSet.mem_union, ha.mem_closure]
    simp

theorem Valid.adds_joinReading (ha : a.Valid) (c : Char) (hs : s ∈ a.stateIds)
    {set : StateSet} (hset : Ident.Ascending id set) :
    Adds (a.joinReading c set s) set fun r => ∃ t ∈ (a.out s).filter (readsSymbol c),
      a.LeadsTo Transition.isEpsilon t.target r := by
  have htarget : ∀ t ∈ (a.out s).filter (readsSymbol c), t.target ∈ a.stateIds := fun t ht =>
    ha.target_mem t (ha.mem_out.1 (List.mem_of_mem_filter ht)).1
  have hjoin := adds_foldlM (f := a.joinClosure)
    (fun t ht set hset => ha.adds_joinClosure (htarget t ht) hset) hset
  rwa [joinReading, ha.outgoing_eq hs]

/-- Looking up what a symbol leads to finds the states that it leads to. -/
theorem Valid.foldlM_joinReading (ha : a.Valid) (c : Char) {current : StateSet}
    (hcurrent : ∀ s ∈ current, s ∈ a.stateIds) :
    current.foldlM (a.joinReading c) [] = .ok (a.readSymbol current c) := by
  obtain ⟨next, hnext, hascending, hmem⟩ := adds_foldlM
    (fun s hs set hset => ha.adds_joinReading c (hcurrent s hs) hset) List.Pairwise.nil
  -- Both sets are ascending, so it is enough to compare their members.
  have heq : next = a.readSymbol current c := by
    refine StateSet.eq_of_mem_iff hascending (ascending_reachLayers _ (StateSet.ascending_ofList _))
      fun r => ?_
    rw [hmem, ha.mem_readSymbol]
    simp only [List.not_mem_nil, false_or, List.mem_filter, ha.mem_out]
    refine exists_congr fun s => and_congr_right fun _ => exists_congr fun t => ?_
    tauto
  rw [hnext, heq]

theorem Valid.stateIds_of_mem_readSymbol (ha : a.Valid) {current : StateSet} {c : Char}
    (h : r ∈ a.readSymbol current c) : r ∈ a.stateIds := by
  obtain ⟨s, -, t, ht, -, -, hlead⟩ := ha.mem_readSymbol.1 h
  exact hlead.target_mem ha (ha.target_mem t ht)

theorem Valid.readSymbol_nil (ha : a.Valid) (c : Char) : a.readSymbol [] c = [] := by
  refine List.eq_nil_iff_forall_not_mem.2 fun r hr => ?_
  obtain ⟨s, hs, -⟩ := ha.mem_readSymbol.1 hr
  nomatch hs

theorem Valid.foldl_readSymbol_nil (ha : a.Valid) (w : List Char) :
    w.foldl a.readSymbol [] = [] := by
  induction w with
  | nil => rfl
  | cons c w ih => rw [List.foldl_cons, ha.readSymbol_nil, ih]

/-- Where no state is left, none would be found by reading on. -/
theorem Valid.readOn_eq (ha : a.Valid) (w : List Char) {current : StateSet}
    (hcurrent : ∀ s ∈ current, s ∈ a.stateIds) :
    a.readOn w current = .ok (w.foldl a.readSymbol current) := by
  induction w generalizing current with
  | nil => rfl
  | cons c w ih =>
      rw [readOn, ha.foldlM_joinReading c hcurrent, List.foldl_cons]
      -- Stopping early makes no difference: nothing is read from no state.
      cases hnext : a.readSymbol current c with
      | nil => rw [ha.foldl_readSymbol_nil]; rfl
      | cons q qs =>
          have hmem : ∀ s ∈ q :: qs, s ∈ a.stateIds := fun s hs =>
            ha.stateIds_of_mem_readSymbol (hnext ▸ hs)
          exact ih hmem

theorem Valid.anyM_isAccepting (ha : a.Valid) {current : StateSet}
    (hcurrent : ∀ s ∈ current, s ∈ a.stateIds) :
    current.anyM a.isAccepting = .ok (current.any a.accepting) := by
  induction current with
  | nil => rfl
  | cons s ss ih =>
      obtain ⟨hs, hss⟩ := List.forall_mem_cons.1 hcurrent
      rw [List.anyM, ha.isAccepting_eq hs, List.any_cons]
      cases a.accepting s with
      | true => rfl
      | false => exact ih hss

/-- No state is looked up in vain. -/
theorem Valid.acceptsByLookUp_eq (ha : a.Valid) (word : String) :
    a.acceptsByLookUp word = a.accepts word := by
  have hstart : ∀ s ∈ a.closure [a.start], s ∈ a.stateIds := by
    intro s hs
    obtain ⟨r, hr, hlead⟩ := ha.mem_closure.1 hs
    exact hlead.target_mem ha (List.mem_singleton.1 hr ▸ ha.start_mem)
  have hread : ∀ s ∈ a.readWord word.toList, s ∈ a.stateIds :=
    List.foldlRecOn (motive := fun current => ∀ s ∈ current, s ∈ a.stateIds) _ _ hstart
      fun _ _ c _ _ hs => ha.stateIds_of_mem_readSymbol (c := c) hs
  unfold acceptsByLookUp accepts
  cases a.transitions.find? fun t => !t.label.isSymbol with
  | some t => rfl
  | none =>
      have hon := ha.readOn_eq word.toList hstart
      have hany := ha.anyM_isAccepting hread
      calc (do (← a.readOn word.toList (← a.epsilonClosure a.start)).anyM a.isAccepting)
          = (do (← a.readOn word.toList (a.closure [a.start])).anyM a.isAccepting) := by
            rw [ha.epsilonClosure_eq ha.start_mem]; rfl
        _ = (a.readWord word.toList).anyM a.isAccepting := by rw [hon]; rfl
        _ = .ok ((a.readWord word.toList).any a.accepting) := hany

end Automaton

namespace Ledger

open Automaton

variable {l : Ledger}

/-- In a graph that is reached a word is refused exactly when some label, wherever it is, is
not a single symbol, and never for anything else than such a label. Otherwise it is accepted
exactly when the transitions of some walk from the start state to an accepting state spell it;
a word with the symbol `ε` is not. Looking the states up with a refusal makes no difference. -/
theorem Reachable.accepts_iff (h : l.Reachable) (word : String) :
    ((∃ t, l.graph.accepts word = .error (.compoundLabel t)) ↔
        ∃ t ∈ l.graph.transitions, ¬ ∃ c, t.label = .sym c) ∧
      (∀ err, l.graph.accepts word = .error err →
        ∃ t ∈ l.graph.transitions, err = .compoundLabel t.id ∧ ¬ ∃ c, t.label = .sym c) ∧
      ((∀ t ∈ l.graph.transitions, ∃ c, t.label = .sym c) →
        (∃ r, l.graph.accepts word = .ok r) ∧
          (l.graph.accepts word = .ok true ↔ ∃ ts r, l.graph.Walk l.graph.start ts r ∧
            l.graph.accepting r = true ∧ spelling ts = word.toList)) ∧
      (epsilonSymbol ∈ word.toList → l.graph.accepts word ≠ .ok true) ∧
      l.graph.acceptsByLookUp word = l.graph.accepts word := by
  have hvalid := h.valid
  exact ⟨accepts_eq_error_iff word, fun _ => of_accepts_eq_error,
    fun hlit => ⟨(literal_iff.2 hlit).exists_accepts_eq word,
      hvalid.accepts_eq_true_iff_walk hlit word⟩,
    hvalid.accepts_ne_true_of_epsilonSymbol, hvalid.acceptsByLookUp_eq word⟩

/-- Where `a` leads from the accepting state of an `ε` cycle back into it, `aa` is accepted and
`aε` is not. With the label `b*` at a state apart from the cycle `aa` is refused. -/
theorem Reachable.accepts_iff_cycle :
    epsilonCycle.Reachable ∧ epsilonCycle.graph.accepts "aa" = .ok true ∧
      epsilonCycle.graph.accepts "aε" ≠ .ok true ∧
      ((epsilonCycle.withState false).withTransition ⟨0, 2⟩ ⟨0, 2⟩ (.star (.sym 'b'))).Reachable ∧
        ∃ t, ((epsilonCycle.withState false).withTransition ⟨0, 2⟩ ⟨0, 2⟩
          (.star (.sym 'b'))).graph.accepts "aa" = .error (.compoundLabel t) := by
  have h := reachable_epsilonCycle
  have hmore := (h.withState false).withTransition ⟨0, 2⟩ ⟨0, 2⟩ (.star (.sym 'b'))
  have henter : epsilonCycle.graph.Walk ⟨0, 0⟩ [_] ⟨0, 1⟩ :=
    .cons (t := ⟨⟨0, 0⟩, ⟨0, 0⟩, ⟨0, 1⟩, .epsilon⟩) (by decide) (.nil _)
  have hread : epsilonCycle.graph.Walk ⟨0, 1⟩ [_] ⟨0, 0⟩ :=
    .cons (t := ⟨⟨0, 2⟩, ⟨0, 1⟩, ⟨0, 0⟩, .sym 'a'⟩) (by decide) (.nil _)
  have hwalk := henter.append (hread.append (henter.append (hread.append henter)))
  have hlit : ∀ t ∈ epsilonCycle.graph.transitions, ∃ c, t.label = .sym c :=
    literal_iff.1 (show ∀ t ∈ epsilonCycle.graph.transitions, t.label.isSymbol = true by decide)
  refine ⟨h, ?_, (h.accepts_iff "aε").2.2.2.1 (by decide), hmore, (hmore.accepts_iff "aa").1.2 ?_⟩
  · exact ((h.accepts_iff "aa").2.2.1 hlit).2.2 ⟨_, _, hwalk, rfl, by decide⟩
  · exact ⟨⟨⟨0, 3⟩, ⟨0, 2⟩, ⟨0, 2⟩, .star (.sym 'b')⟩, by decide, fun ⟨c, hc⟩ => nomatch hc⟩

end Ledger

end RegularForms
