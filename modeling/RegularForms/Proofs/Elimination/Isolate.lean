import RegularForms.Elimination.Isolate
import RegularForms.Proofs.Plan

/-!
# Isolating the start and the final state

After the accepting states have been isolated there is a single one, which is not the
start state and which nothing leaves. After the start state has been isolated nothing
leads into it. Neither changes the language: a word that ended in an accepting state ends
in the new one, and one that began at the start state begins at its twin.
-/

namespace RegularForms

namespace Automaton

variable {a b : Automaton}

def Worded (a : Automaton) : Prop := ∀ t ∈ a.transitions, ∃ w, w ∈ t.label.language

/-- What no step of the elimination changes. -/
structure Keeps (a b : Automaton) : Prop where
  valid : b.Valid
  start_eq : b.start = a.start
  language_eq : b.language = a.language
  worded : a.Worded → b.Worded

theorem Valid.keeps (ha : a.Valid) : Keeps a a := ⟨ha, rfl, rfl, id⟩

theorem Keeps.trans {c : Automaton} (h : Keeps a b) (h' : Keeps b c) : Keeps a c :=
  ⟨h'.valid, h'.start_eq.trans h.start_eq, h'.language_eq.trans h.language_eq,
    fun hw => h'.worded (h.worded hw)⟩

/-- There is one accepting state; it is not the start state, and nothing leaves it. -/
structure Final (a : Automaton) (final : StateId) : Prop where
  accepting_iff : ∀ s, a.accepting s = true ↔ s = final
  ne_start : final ≠ a.start
  source_ne : ∀ t ∈ a.transitions, t.source ≠ final

theorem Valid.mem_finals (ha : a.Valid) {s : StateId} :
    s ∈ (a.states.filter State.accepting).map State.id ↔ a.accepting s = true := by
  rw [ha.accepting_iff, List.mem_map]
  constructor
  · rintro ⟨r, hr, rfl⟩
    obtain ⟨hr, hacc⟩ := List.mem_filter.1 hr
    obtain ⟨n, hn, rfl⟩ := List.mem_map.1 hr
    exact ⟨n, hn, rfl, hacc⟩
  · rintro ⟨n, hn, rfl, hacc⟩
    exact ⟨n.state, List.mem_filter.2 ⟨List.mem_map_of_mem hn, hacc⟩, rfl⟩

theorem Valid.nodup_finals (ha : a.Valid) :
    ((a.states.filter State.accepting).map State.id).Nodup := by
  have hsub : ((a.states.filter State.accepting).map State.id).Sublist (a.states.map State.id) :=
    List.filter_sublist.map State.id
  refine hsub.nodup ?_
  rw [states, List.map_map]
  exact ha.nodup_stateIds

theorem epsilon_worded : ∃ w, w ∈ Expr.epsilon.language :=
  ⟨[], rfl⟩

end Automaton

namespace Elimination

open Automaton

variable {a : Automaton}

def Initial (a : Automaton) : Prop := ∀ t ∈ a.transitions, t.target ≠ a.start

def joinFinals (a : Automaton) (finals : List StateId) : Plan :=
  let joins := a.freshTransitions (finals.map fun f => (f, (a.freshState 0).id, .epsilon))
  ⟨.batch .isolateFinal
      ([.addState (a.freshState 0), .setAccepting (a.freshState 0).id true] ++
        (finals.zip joins).flatMap fun p => [.setAccepting p.1 false, .addTransition p.2]),
    a.reserve 1 joins.length⟩

def finalArcs (a : Automaton) (finals : List StateId) : List (StateId × StateId × Expr) :=
  finals.map fun f => (f, (a.freshState 0).id, .epsilon)

theorem mem_finalArcs {finals : List StateId} {x : StateId × StateId × Expr} :
    x ∈ finalArcs a finals ↔ ∃ f ∈ finals, x = (f, (a.freshState 0).id, .epsilon) := by
  rw [finalArcs, List.mem_map]
  exact exists_congr fun f => and_congr_right fun _ => eq_comm

structure Gathered (a : Automaton) (finals : List StateId) (b : Automaton) : Prop where
  valid : b.Valid
  rewired : a.Rewired b (fun _ => False) (finalArcs a finals)
  accepting_iff : ∀ s, b.accepting s = true ↔ s = (a.freshState 0).id

theorem exists_gathered (ha : a.Valid) {finals : List StateId}
    (hfinals : ∀ s, s ∈ finals ↔ a.accepting s = true) :
    ∃ b, (joinFinals a finals).Performs a b ∧ Gathered a finals b := by
  have hlen : (a.freshTransitions (finalArcs a finals)).length = finals.length := by
    rw [length_freshTransitions, finalArcs, List.length_map]
  have hfst : (finals.zip (a.freshTransitions (finalArcs a finals))).map Prod.fst = finals :=
    List.map_fst_zip hlen.ge
  have hsnd : (finals.zip (a.freshTransitions (finalArcs a finals))).map Prod.snd =
      a.freshTransitions (finalArcs a finals) := List.map_snd_zip hlen.le
  have hmem : ∀ f ∈ finals, f ∈ a.stateIds := fun f hf =>
    ha.mem_stateIds_of_accepting ((hfinals f).1 hf)
  have hfits : (joinFinals a finals).edit.Fits (joinFinals a finals).graph.outline := by
    show Edit.FitsAll ([_, _] ++ _) _
    rw [Edit.fitsAll_append]
    refine ⟨⟨⟨ha.freshState_notMem 0, rfl, Nat.lt_succ_self _⟩, .inl rfl, trivial⟩, ?_⟩
    refine Edit.fitsAll_switch (hsnd.symm ▸ nodup_freshTransitions _) fun p hp => ⟨?_, ?_⟩
    · have hp : p.1 ∈ finals := hfst ▸ List.mem_map_of_mem hp
      exact .inr (hmem _ hp)
    · refine ha.fits_freshTransition rfl (add_length_freshTransitions _) (fun t ht => ht)
        (fun x hx => ?_) (hsnd ▸ List.mem_map_of_mem hp)
      obtain ⟨f, hf, rfl⟩ := mem_finalArcs.1 hx
      exact ⟨.inr (hmem f hf), .inl rfl⟩
  obtain ⟨b, hperforms, hb, hbo⟩ := ha.exists_performs rfl hfits
  have hbo : b.outline = Edit.effectAll ([_, _] ++ (finals.zip
      (a.freshTransitions (finalArcs a finals))).flatMap _) _ := hbo
  rw [Edit.effectAll_append, Edit.effectAll_switch, hfst, hsnd] at hbo
  refine ⟨b, hperforms, hb, ⟨start_of_outline hbo, fun t => ?_⟩, fun s => ?_⟩
  · rw [mem_transitions_of_outline hbo]
    exact or_congr_left (and_iff_left not_false).symm
  · rw [accepting_of_outline hbo]
    show (s = (a.freshState 0).id ∨ a.accepting s = true ∨
      s = (a.freshState 0).id ∧ false = true) ∧ s ∉ finals ↔ s = (a.freshState 0).id
    rw [hfinals]
    constructor
    · rintro ⟨rfl | hacc | ⟨-, hno⟩, hnot⟩
      · rfl
      · exact absurd hacc hnot
      · nomatch hno
    · rintro rfl
      exact ⟨.inl rfl, fun hacc => ha.freshState_notMem 0 (ha.mem_stateIds_of_accepting hacc)⟩

/-- The new state has the empty word, and all other states keep their languages. -/
theorem Gathered.language_eq (ha : a.Valid) {b : Automaton} {finals : List StateId}
    (hfinals : ∀ s, s ∈ finals ↔ a.accepting s = true) (h : Gathered a finals b) :
    b.language = a.language := by
  have hle := h.rewired.languageFrom_le
    (M := fun s => if s = (a.freshState 0).id then 1 else a.languageFrom s) (fun s hs => ?_)
    (fun t ht _ => ?_) (fun x hx => ?_) a.start
  · rw [if_neg (ha.ne_freshState ha.start_mem 0)] at hle
    rw [language, language, h.rewired.start_eq]
    refine le_antisymm hle (Automaton.languageFrom_le (fun s hs => ?_) (fun t ht => ?_) a.start)
    · have hjoin := h.rewired.epsilon_languageFrom_le
        (mem_finalArcs.2 ⟨s, (hfinals s).2 hs, rfl⟩)
      exact (one_le_languageFrom ((h.accepting_iff _).2 rfl)).trans hjoin
    · exact h.rewired.stay_mul_languageFrom_le ht not_false
  · rw [(h.accepting_iff s).1 hs, if_pos rfl]
  · rw [if_neg (ha.ne_freshState (ha.target_mem t ht) 0),
      if_neg (ha.ne_freshState (ha.source_mem ht) 0)]
    exact label_mul_languageFrom_le ht
  · obtain ⟨f, hf, rfl⟩ := mem_finalArcs.1 hx
    have hacc := (hfinals f).1 hf
    rw [if_pos rfl, if_neg (ha.ne_freshState (ha.mem_stateIds_of_accepting hacc) 0),
      Expr.language_epsilon, one_mul]
    exact one_le_languageFrom hacc

theorem Gathered.final (ha : a.Valid) {b : Automaton} {finals : List StateId}
    (hfinals : ∀ s, s ∈ finals ↔ a.accepting s = true) (h : Gathered a finals b) :
    Final b (a.freshState 0).id := by
  refine ⟨h.accepting_iff, ?_, fun t ht => ?_⟩
  · rw [h.rewired.start_eq]
    exact (ha.ne_freshState ha.start_mem 0).symm
  · rcases (h.rewired.mem_transitions t).1 ht with ⟨ht, -⟩ | ht
    · exact ha.ne_freshState (ha.source_mem ht) 0
    · obtain ⟨f, hf, harc⟩ := mem_finalArcs.1 (arc_mem_of_mem_freshTransitions ht)
      have hsource : t.source = f := congrArg Prod.fst harc
      rw [hsource]
      exact ha.ne_freshState (ha.mem_stateIds_of_accepting ((hfinals f).1 hf)) 0

/-- A start state that nothing leads into stays so. -/
theorem Gathered.initial (ha : a.Valid) {b : Automaton} {finals : List StateId}
    (h : Gathered a finals b) (hinitial : Initial a) : Initial b := by
  intro t ht
  rw [h.rewired.start_eq]
  rcases (h.rewired.mem_transitions t).1 ht with ⟨ht, -⟩ | ht
  · exact hinitial t ht
  · obtain ⟨f, -, harc⟩ := mem_finalArcs.1 (arc_mem_of_mem_freshTransitions ht)
    have htarget : t.target = (a.freshState 0).id := congrArg (fun x => x.2.1) harc
    rw [htarget]
    exact (ha.ne_freshState ha.start_mem 0).symm

/-- Joining all accepting states to a new one isolates that one. -/
theorem exists_joinFinals (ha : a.Valid) {finals : List StateId}
    (hfinals : ∀ s, s ∈ finals ↔ a.accepting s = true) :
    ∃ b, (joinFinals a finals).Performs a b ∧ Keeps a b ∧ Final b (a.freshState 0).id := by
  obtain ⟨b, hperforms, hb⟩ := exists_gathered ha hfinals
  refine ⟨b, hperforms, ⟨hb.valid, hb.rewired.start_eq, hb.language_eq ha hfinals, fun hw => ?_⟩,
    hb.final ha hfinals⟩
  refine hb.rewired.forall_label (R := fun e => ∃ w, w ∈ e.language) hw fun x hx => ?_
  obtain ⟨f, -, rfl⟩ := mem_finalArcs.1 hx
  exact epsilon_worded

/-- Either a state is isolated already, or there is a plan that isolates one. -/
theorem isolateFinal?_cases (ha : a.Valid) (hacc : ∃ s, a.accepting s = true) :
    (isolateFinal? a = none ∧ ∃ final, Final a final) ∨
      ∃ p b, isolateFinal? a = some p ∧ p.Performs a b ∧ Keeps a b ∧ ∃ final, Final b final := by
  have hmem : ∀ s, s ∈ (a.states.filter State.accepting).map State.id ↔
      a.accepting s = true := fun s => ha.mem_finals
  unfold isolateFinal?
  generalize (a.states.filter State.accepting).map State.id = finals at hmem
  obtain ⟨b, hperforms, hkeeps, hfinal⟩ := exists_joinFinals ha hmem
  have hsome : some (joinFinals a finals) = some (joinFinals a finals) ∧
      (joinFinals a finals).Performs a b ∧ Keeps a b ∧ ∃ final, Final b final :=
    ⟨rfl, hperforms, hkeeps, _, hfinal⟩
  match finals, hmem with
  | [], hmem =>
      obtain ⟨s, hs⟩ := hacc
      nomatch (hmem s).2 hs
  | [f], hmem =>
      dsimp only
      split
      · exact .inr ⟨_, b, hsome⟩
      · next hneeded =>
          rw [Bool.or_eq_true, not_or, Bool.not_eq_true', Bool.not_eq_false] at hneeded
          refine .inl ⟨rfl, f, fun s => ?_, fun h => hneeded.2 (beq_iff_eq.2 h), fun t ht hts => ?_⟩
          · rw [← hmem, List.mem_singleton]
          · have hout := ha.mem_out.2 ⟨ht, hts⟩
            rw [List.isEmpty_iff.1 hneeded.1] at hout
            nomatch hout
  | f :: g :: fs, hmem => exact .inr ⟨_, b, hsome⟩

/-- The plan, if there is one, joins the accepting states to a new one. -/
theorem exists_finals_of_isolateFinal? (ha : a.Valid) {p : Plan} (h : isolateFinal? a = some p) :
    ∃ finals, (∀ s, s ∈ finals ↔ a.accepting s = true) ∧ p = joinFinals a finals := by
  refine ⟨(a.states.filter State.accepting).map State.id, fun s => ha.mem_finals, ?_⟩
  unfold isolateFinal? at h
  exact (Option.some.inj (Option.ite_none_right_eq_some.1 h).2).symm

/-- Nothing is to be done when every accepting state is isolated already. -/
theorem isolateFinal?_eq_none_iff (ha : a.Valid) :
    isolateFinal? a = none ↔ ∀ s, a.accepting s = true → Final a s := by
  constructor
  · intro hnone s hs
    rcases isolateFinal?_cases ha ⟨s, hs⟩ with ⟨-, final, hfinal⟩ | ⟨p, -, hsome, -⟩
    · exact (hfinal.accepting_iff s).1 hs ▸ hfinal
    · rw [hnone] at hsome
      nomatch hsome
  · intro hall
    have hmem : ∀ s, s ∈ (a.states.filter State.accepting).map State.id ↔
        a.accepting s = true := fun s => ha.mem_finals
    have hnodup := ha.nodup_finals
    unfold isolateFinal?
    generalize (a.states.filter State.accepting).map State.id = finals at hmem hnodup
    match finals, hmem, hnodup with
    | [], _, _ => rfl
    | [f], hmem, _ =>
        have hf := hall f ((hmem f).1 List.mem_cons_self)
        have hout : (a.out f).isEmpty = true := by
          rw [List.isEmpty_iff, List.eq_nil_iff_forall_not_mem]
          intro t ht
          obtain ⟨ht, hts⟩ := ha.mem_out.1 ht
          exact hf.source_ne t ht hts
        have hstart : a.isStart f = false := beq_eq_false_iff_ne.2 hf.ne_start
        refine if_neg ?_
        show ¬ (!(a.out f).isEmpty || a.isStart f) = true
        rw [hout, hstart]
        decide
    | f :: g :: fs, hmem, hnodup =>
        have hf := hall f ((hmem f).1 List.mem_cons_self)
        have hg : g ∈ f :: g :: fs := List.mem_cons_of_mem f List.mem_cons_self
        have hgf : g = f := (hf.accepting_iff g).1 ((hmem g).1 hg)
        exact absurd (hgf ▸ List.mem_cons_self) (List.nodup_cons.1 hnodup).1

/-! ## The start state -/

/-- The state in place of one end of a transition, when the start state has a twin. -/
def moveEnd (a : Automaton) (twin s : StateId) : StateId := if s = a.start then twin else s

theorem moveEnd_start (a : Automaton) (twin : StateId) : moveEnd a twin a.start = twin :=
  if_pos rfl

theorem moveEnd_of_ne {twin s : StateId} (h : s ≠ a.start) : moveEnd a twin s = s :=
  if_neg h

theorem moveEnd_eq_iff (ha : a.Valid) {s r : StateId} (hr : r ∈ a.stateIds) :
    moveEnd a (a.freshState 0).id s = r ↔ s = r ∧ r ≠ a.start := by
  by_cases hs : s = a.start
  · rw [hs, moveEnd_start]
    exact iff_of_false (ha.ne_freshState hr 0).symm fun h => h.2 h.1.symm
  · rw [moveEnd_of_ne hs]
    exact ⟨fun h => ⟨h, h ▸ hs⟩, And.left⟩

theorem mem_moved (ha : a.Valid) {t : Transition} :
    t ∈ (a.out a.start).filter (fun t => !t.isLoop) ++ a.into a.start ↔
      t ∈ a.transitions ∧ (t.source = a.start ∨ t.target = a.start) := by
  rw [List.mem_append, List.mem_filter, ha.mem_out, mem_into, Transition.isLoop,
    Bool.not_eq_true', beq_eq_false_iff_ne]
  constructor
  · rintro (⟨⟨ht, hs⟩, -⟩ | ⟨ht, hs⟩)
    · exact ⟨ht, .inl hs⟩
    · exact ⟨ht, .inr hs⟩
  · rintro ⟨ht, hs⟩
    by_cases htarget : t.target = a.start
    · exact .inr ⟨ht, htarget⟩
    · have hsource := hs.resolve_right htarget
      exact .inl ⟨⟨ht, hsource⟩, fun h => htarget (h ▸ hsource)⟩

theorem nodup_moved (ha : a.Valid) :
    ((a.out a.start).filter (fun t => !t.isLoop) ++ a.into a.start).Nodup := by
  refine List.Nodup.append ((ha.nodup_out a.start).filter _)
    (ha.nodup_transitions.filter _) fun t ht hti => ?_
  obtain ⟨ht, hloop⟩ := List.mem_filter.1 ht
  rw [Transition.isLoop, (ha.mem_out.1 ht).2, (mem_into.1 hti).2] at hloop
  simp at hloop

def twinArcs (a : Automaton) (moved : List Transition) : List (StateId × StateId × Expr) :=
  (a.start, (a.freshState 0).id, .epsilon) ::
    moved.map fun t => (moveEnd a (a.freshState 0).id t.source,
      moveEnd a (a.freshState 0).id t.target, t.label)

theorem mem_twinArcs {moved : List Transition} {x : StateId × StateId × Expr} :
    x ∈ twinArcs a moved ↔ x = (a.start, (a.freshState 0).id, .epsilon) ∨ ∃ t ∈ moved,
      x = (moveEnd a (a.freshState 0).id t.source, moveEnd a (a.freshState 0).id t.target,
        t.label) := by
  rw [twinArcs, List.mem_cons, List.mem_map]
  exact or_congr_right (exists_congr fun t => and_congr_right fun _ => eq_comm)

def twinStart (a : Automaton) (moved : List Transition) : Plan :=
  let accept :=
    if a.accepting a.start then [Edit.setAccepting (a.freshState 0).id true] else []
  let fresh := a.freshTransitions (twinArcs a moved)
  ⟨.batch .isolateInitial
      (moved.map .removeTransition ++ [.addState (a.freshState 0)] ++ accept ++
        fresh.map .addTransition),
    a.reserve 1 fresh.length⟩

structure Twinned (a : Automaton) (moved : List Transition) (b : Automaton) : Prop where
  valid : b.Valid
  mem_moved : ∀ t, t ∈ moved ↔ t ∈ a.transitions ∧ (t.source = a.start ∨ t.target = a.start)
  rewired : a.Rewired b (fun t => t.source = a.start ∨ t.target = a.start) (twinArcs a moved)
  accepting_iff : ∀ s, b.accepting s = true ↔
    a.accepting s = true ∨ s = (a.freshState 0).id ∧ a.accepting a.start = true

theorem exists_twinStart (ha : a.Valid) {moved : List Transition} (hnodup : moved.Nodup)
    (hmoved : ∀ t, t ∈ moved ↔ t ∈ a.transitions ∧ (t.source = a.start ∨ t.target = a.start)) :
    ∃ b, (twinStart a moved).Performs a b ∧ Twinned a moved b := by
  have hends : ∀ s ∈ a.stateIds, moveEnd a (a.freshState 0).id s = (a.freshState 0).id ∨
      moveEnd a (a.freshState 0).id s ∈ a.stateIds := by
    intro s hs
    by_cases hstart : s = a.start
    · exact .inl (by rw [hstart, moveEnd_start])
    · exact .inr (by rwa [moveEnd_of_ne hstart])
  have hfits : (twinStart a moved).edit.Fits (twinStart a moved).graph.outline := by
    show Edit.FitsAll (((_ ++ [_]) ++ _) ++ _) _
    simp only [Edit.fitsAll_append, Edit.effectAll_append, Edit.effectAll_accept,
      Edit.effectAll_removeTransition]
    refine ⟨⟨⟨Edit.fitsAll_removeTransition hnodup fun t ht => ((hmoved t).1 ht).1,
      ⟨ha.freshState_notMem 0, rfl, Nat.lt_succ_self _⟩, trivial⟩,
      Edit.fitsAll_accept (.inl rfl)⟩, ?_⟩
    refine ha.fitsAll_freshTransitions rfl (add_length_freshTransitions _) (fun t ht => ht.1)
      fun x hx => ?_
    rcases mem_twinArcs.1 hx with rfl | ⟨t, ht, rfl⟩
    · exact ⟨.inr ha.start_mem, .inl rfl⟩
    · have hmem := ((hmoved t).1 ht).1
      exact ⟨hends _ (ha.source_mem hmem), hends _ (ha.target_mem t hmem)⟩
  obtain ⟨b, hperforms, hb, hbo⟩ := ha.exists_performs rfl hfits
  have hbo : b.outline = Edit.effectAll (((_ ++ [_]) ++ _) ++ _) _ := hbo
  simp only [Edit.effectAll_append, Edit.effectAll_accept, Edit.effectAll_removeTransition,
    Edit.effectAll_addTransition] at hbo
  refine ⟨b, hperforms, hb, hmoved, .of_outline hbo rfl (fun _ => Iff.rfl) hmoved, fun s => ?_⟩
  rw [accepting_of_outline hbo]
  show (a.accepting s = true ∨ s = (a.freshState 0).id ∧ false = true) ∨ _ ↔ _
  rw [or_iff_left (a := a.accepting s = true) fun h => nomatch h.2]

namespace Twinned

variable {b : Automaton} {moved : List Transition}

/-- The twin has the words of the start state, and all other states keep theirs. -/
theorem languageFrom_le (h : Twinned a moved b) (ha : a.Valid) :
    b.languageFrom a.start ≤ a.languageFrom a.start := by
  have hle := h.rewired.languageFrom_le
    (M := fun s => if s = (a.freshState 0).id then a.languageFrom a.start else a.languageFrom s)
    (fun s hs => ?_) (fun t ht _ => ?_) (fun x hx => ?_) a.start
  · rwa [if_neg (ha.ne_freshState ha.start_mem 0)] at hle
  · rcases (h.accepting_iff s).1 hs with hacc | ⟨rfl, hacc⟩
    · rw [if_neg (ha.ne_freshState (ha.mem_stateIds_of_accepting hacc) 0)]
      exact one_le_languageFrom hacc
    · rw [if_pos rfl]
      exact one_le_languageFrom hacc
  · rw [if_neg (ha.ne_freshState (ha.target_mem t ht) 0),
      if_neg (ha.ne_freshState (ha.source_mem ht) 0)]
    exact label_mul_languageFrom_le ht
  · have hmove : ∀ s ∈ a.stateIds,
        (if moveEnd a (a.freshState 0).id s = (a.freshState 0).id then a.languageFrom a.start
          else a.languageFrom (moveEnd a (a.freshState 0).id s)) = a.languageFrom s := by
      intro s hs
      by_cases hstart : s = a.start
      · rw [hstart, moveEnd_start, if_pos rfl]
      · rw [moveEnd_of_ne hstart, if_neg (ha.ne_freshState hs 0)]
    rcases mem_twinArcs.1 hx with rfl | ⟨t, ht, rfl⟩
    · rw [if_pos rfl, if_neg (ha.ne_freshState ha.start_mem 0), Expr.language_epsilon, one_mul]
    · have hmem := ((h.mem_moved t).1 ht).1
      rw [hmove _ (ha.target_mem t hmem), hmove _ (ha.source_mem hmem)]
      exact label_mul_languageFrom_le hmem

theorem le_languageFrom (h : Twinned a moved b) :
    a.languageFrom a.start ≤ b.languageFrom a.start := by
  have hle := Automaton.languageFrom_le (a := a)
    (M := fun s => b.languageFrom (moveEnd a (a.freshState 0).id s)) (fun s hs => ?_)
    (fun t ht => ?_) a.start
  · rw [moveEnd_start] at hle
    exact hle.trans (h.rewired.epsilon_languageFrom_le (mem_twinArcs.2 (.inl rfl)))
  · by_cases hstart : s = a.start
    · rw [hstart, moveEnd_start]
      exact one_le_languageFrom ((h.accepting_iff _).2 (.inr ⟨rfl, hstart ▸ hs⟩))
    · rw [moveEnd_of_ne hstart]
      exact one_le_languageFrom ((h.accepting_iff s).2 (.inl hs))
  · by_cases hends : t.source = a.start ∨ t.target = a.start
    · have hmoved := (h.mem_moved t).2 ⟨ht, hends⟩
      exact h.rewired.arc_mul_languageFrom_le (mem_twinArcs.2 (.inr ⟨t, hmoved, rfl⟩))
    · obtain ⟨hsource, htarget⟩ := not_or.1 hends
      rw [moveEnd_of_ne hsource, moveEnd_of_ne htarget]
      exact h.rewired.stay_mul_languageFrom_le ht hends

theorem keeps (h : Twinned a moved b) (ha : a.Valid) : Keeps a b where
  valid := h.valid
  start_eq := h.rewired.start_eq
  language_eq := by
    rw [language, language, h.rewired.start_eq]
    exact le_antisymm (h.languageFrom_le ha) h.le_languageFrom
  worded hw := by
    refine h.rewired.forall_label (R := fun e => ∃ w, w ∈ e.language) hw fun x hx => ?_
    rcases mem_twinArcs.1 hx with rfl | ⟨t, ht, rfl⟩
    · exact epsilon_worded
    · exact hw t ((h.mem_moved t).1 ht).1

theorem initial (h : Twinned a moved b) (ha : a.Valid) : Initial b := by
  intro t ht hts
  rw [h.rewired.start_eq] at hts
  rcases (h.rewired.mem_transitions t).1 ht with ⟨-, hgone⟩ | ht
  · exact hgone (.inr hts)
  have htarget : t.arc.2.1 = a.start := hts
  rcases mem_twinArcs.1 (arc_mem_of_mem_freshTransitions ht) with harc | ⟨u, hu, harc⟩
  · rw [harc] at htarget
    exact ha.ne_freshState ha.start_mem 0 htarget.symm
  · rw [harc] at htarget
    exact ((moveEnd_eq_iff ha ha.start_mem).1 htarget).2 rfl

/-- An isolated accepting state stays isolated. -/
theorem final (h : Twinned a moved b) (ha : a.Valid) {final : StateId} (hfinal : Final a final) :
    Final b final := by
  have hmem := ha.mem_stateIds_of_accepting ((hfinal.accepting_iff final).2 rfl)
  have hstart : ¬ a.accepting a.start = true := fun hacc =>
    hfinal.ne_start ((hfinal.accepting_iff _).1 hacc).symm
  refine ⟨fun s => ?_, h.rewired.start_eq ▸ hfinal.ne_start, fun t ht hts => ?_⟩
  · rw [h.accepting_iff, or_iff_left fun h => hstart h.2, hfinal.accepting_iff]
  · rcases (h.rewired.mem_transitions t).1 ht with ⟨ht, -⟩ | ht
    · exact hfinal.source_ne t ht hts
    have hsource : t.arc.1 = final := hts
    rcases mem_twinArcs.1 (arc_mem_of_mem_freshTransitions ht) with harc | ⟨u, hu, harc⟩
    · rw [harc] at hsource
      exact hfinal.ne_start hsource.symm
    · rw [harc] at hsource
      exact hfinal.source_ne u ((h.mem_moved u).1 hu).1 ((moveEnd_eq_iff ha hmem).1 hsource).1

end Twinned

theorem isolateInitial?_eq_none_iff : isolateInitial? a = none ↔ Initial a := by
  rw [isolateInitial?]
  constructor
  · intro hnone t ht hts
    split at hnone
    · next hempty =>
        have hinto := mem_into.2 ⟨ht, hts⟩
        rw [List.isEmpty_iff.1 hempty] at hinto
        nomatch hinto
    · nomatch hnone
  · intro hinitial
    refine if_pos ?_
    rw [List.isEmpty_iff, List.eq_nil_iff_forall_not_mem]
    intro t ht
    obtain ⟨ht, hts⟩ := mem_into.1 ht
    exact hinitial t ht hts

/-- The plan, if there is one, moves the transitions of the start state to its twin. -/
theorem exists_moved_of_isolateInitial? (ha : a.Valid) {p : Plan}
    (h : isolateInitial? a = some p) :
    ∃ moved : List Transition, moved.Nodup ∧
      (∀ t, t ∈ moved ↔ t ∈ a.transitions ∧ (t.source = a.start ∨ t.target = a.start)) ∧
        p = twinStart a moved := by
  refine ⟨_, nodup_moved ha, fun t => mem_moved ha, ?_⟩
  rw [isolateInitial?] at h
  split at h
  · nomatch h
  · exact (Option.some.inj h).symm

/-- Either nothing leads into the start state, or there is a plan for that. An isolated
accepting state stays isolated. -/
theorem isolateInitial?_cases (ha : a.Valid) :
    (isolateInitial? a = none ∧ Initial a) ∨
      ∃ p b, isolateInitial? a = some p ∧ p.Performs a b ∧ Keeps a b ∧ Initial b ∧
        ∀ final, Final a final → Final b final := by
  by_cases hinitial : Initial a
  · exact .inl ⟨isolateInitial?_eq_none_iff.2 hinitial, hinitial⟩
  have hempty : ¬ (a.into a.start).isEmpty = true := fun hempty =>
    hinitial (isolateInitial?_eq_none_iff.1 (if_pos hempty))
  obtain ⟨b, hperforms, hb⟩ := exists_twinStart ha (nodup_moved ha) fun t => mem_moved ha
  exact .inr ⟨_, b, if_neg hempty, hperforms, hb.keeps ha, hb.initial ha,
    fun final hfinal => hb.final ha hfinal⟩

end Elimination

end RegularForms
