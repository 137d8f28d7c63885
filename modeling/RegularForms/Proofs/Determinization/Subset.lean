import RegularForms.Proofs.Automaton.Arc
import RegularForms.Proofs.Automaton.Query
import RegularForms.Proofs.Determinization.Table

/-!
# States that stand for sets

While transitions on one symbol are replaced by one into a state that stands for a set, a
state has just the arcs of the states that it counts as: an arc into a state that counts
as `r`, among others, is there exactly if one of them had an arc into `r` to begin with,
and it is accepting exactly if one of them was. So its language is the union of theirs.
Nothing of this depends on what the labels are, or on which transitions are replaced when.
-/

namespace RegularForms

namespace Determinization

open Automaton

variable {a b d : Automaton} {table : SubsetTable} {s p q r : StateId} {e : Expr} {c : Char}
  {set : StateSet}

/-! ## The plan -/

def onSymbol (b : Automaton) (s : StateId) (c : Char) : List Transition :=
  (b.out s).filter fun t => t.label.symbol? == some c

theorem mem_onSymbol (hb : b.Valid) {t : Transition} :
    t ∈ onSymbol b s c ↔ t ∈ b.transitions ∧ t.source = s ∧ t.label = .sym c := by
  rw [onSymbol, List.mem_filter, hb.mem_out, beq_iff_eq, Expr.symbol?_eq_some_iff, and_assoc]

theorem nodup_onSymbol (hb : b.Valid) : (onSymbol b s c).Nodup :=
  (hb.nodup_out s).filter _

def targets (b : Automaton) (s : StateId) (c : Char) : StateSet :=
  StateSet.ofList ((onSymbol b s c).map Transition.target)

theorem mem_targets (hb : b.Valid) : q ∈ targets b s c ↔ b.HasArc s (.sym c) q := by
  rw [targets, StateSet.mem_ofList, List.mem_map]
  refine exists_congr fun t => ?_
  rw [mem_onSymbol hb, and_assoc, and_assoc]

def targetSet (table : SubsetTable) (b : Automaton) (s : StateId) (c : Char) : StateSet :=
  table.expand (targets b s c)

theorem mem_targetSet (hb : b.Valid) :
    p ∈ targetSet table b s c ↔ ∃ q, b.HasArc s (.sym c) q ∧ p ∈ table.members q := by
  rw [targetSet, SubsetTable.mem_expand]
  exact exists_congr fun q => and_congr_left fun _ => mem_targets hb

def targetArcs (b : Automaton) (s : StateId) (c : Char) (target : StateId) :
    List (StateId × StateId × Expr) :=
  (Transition.onePerArc Transition.orderByTarget (fun _ => false)
    ((targets b s c).flatMap b.out)).map fun t => (target, t.target, t.label)

theorem mem_targetArcs (hb : b.Valid) {x : StateId × StateId × Expr} {target : StateId} :
    x ∈ targetArcs b s c target ↔
      x.1 = target ∧ ∃ q, b.HasArc s (.sym c) q ∧ b.HasArc q x.2.2 x.2.1 := by
  have hmem : ∀ t, t ∈ (targets b s c).flatMap b.out ↔
      t ∈ b.transitions ∧ b.HasArc s (.sym c) t.source := by
    intro t
    simp only [List.mem_flatMap, hb.mem_out, mem_targets hb]
    constructor
    · rintro ⟨q, hq, ht, rfl⟩
      exact ⟨ht, hq⟩
    · exact fun ⟨ht, hq⟩ => ⟨t.source, hq, ht, rfl⟩
  rw [targetArcs, List.mem_map]
  constructor
  · rintro ⟨t, ht, rfl⟩
    obtain ⟨ht, harc⟩ := (hmem t).1 (Transition.mem_of_mem_onePerArc ht)
    exact ⟨rfl, t.source, harc, hasArc_of_mem ht⟩
  · rintro ⟨hx, q, harc, t, ht, rfl, hlabel, htarget⟩
    obtain ⟨u, hu, hut, hul⟩ :=
      Transition.exists_onePerArc_orderByTarget (fun _ => false) ((hmem t).2 ⟨ht, harc⟩)
    refine ⟨u, hu, ?_⟩
    rw [hut, hul, hlabel, htarget, ← hx]

def relink (b : Automaton) (s : StateId) (c : Char) (target : StateId) (created : Nat) : Plan :=
  let fresh := b.freshTransitions [(s, target, .sym c)]
  ⟨.batch (.determinize s c)
      ((onSymbol b s c).map .removeTransition ++ fresh.map .addTransition),
    b.reserve created fresh.length⟩

def extend (b : Automaton) (s : StateId) (c : Char) (target : State) (created : Nat)
    (set : StateSet) : Plan :=
  let fresh := b.freshTransitions ((s, target.id, .sym c) :: targetArcs b s c target.id)
  ⟨.batch (.determinize s c)
      ((onSymbol b s c).map .removeTransition ++ [.addState target] ++
        (if set.any fun t => b.hasState t && b.accepting t then
          [Edit.setAccepting target.id true] else []) ++ fresh.map .addTransition),
    b.reserve created fresh.length⟩

theorem determinize_eq_of_outgoing_eq (hout : b.outgoing s = .ok (b.out s)) {target : State}
    {created : Nat} {table' : SubsetTable}
    (h : table.assign (targetSet table b s c) b = (target, created, table')) :
    determinize table s c b = .ok
      (if b.hasState target.id then relink b s c target.id created
        else extend b s c target created (targetSet table b s c), table') := by
  have hfor : table.stateFor? (table.expand (StateSet.ofList (((b.out s).filter fun t =>
      t.label.symbol? == some c).map Transition.target))) =
        table.stateFor? (targetSet table b s c) := rfl
  unfold SubsetTable.assign at h
  simp only [determinize, hout, bind, Except.bind, hfor]
  cases hstate : table.stateFor? (targetSet table b s c) <;>
  · rw [hstate] at h
    obtain ⟨rfl, rfl, rfl⟩ := h
    dsimp only
    split <;> rfl

theorem determinize_eq (hb : b.Valid) (hs : s ∈ b.stateIds) {target : State} {created : Nat}
    {table' : SubsetTable}
    (h : table.assign (targetSet table b s c) b = (target, created, table')) :
    determinize table s c b = .ok
      (if b.hasState target.id then relink b s c target.id created
        else extend b s c target created (targetSet table b s c), table') :=
  determinize_eq_of_outgoing_eq (hb.outgoing_eq hs) h

theorem exists_assign_of_determinize (hb : b.Valid) (hs : s ∈ b.stateIds) {p : Plan}
    {table' : SubsetTable} (h : determinize table s c b = .ok (p, table')) :
    ∃ target created, table.assign (targetSet table b s c) b = (target, created, table') ∧
      p = if b.hasState target.id then relink b s c target.id created
        else extend b s c target created (targetSet table b s c) := by
  obtain ⟨⟨target, created, table''⟩, hassign⟩ :
      ∃ x, table.assign (targetSet table b s c) b = x := ⟨_, rfl⟩
  obtain ⟨rfl, rfl⟩ := Prod.mk.inj (Except.ok.inj (h.symm.trans (determinize_eq hb hs hassign)))
  exact ⟨target, created, hassign, rfl⟩

/-! ## What the plan does -/

/-- The transitions on a symbol that leave a state have been replaced by one into another
state, which has come along with some arcs if the graph did not have it. -/
structure Split (b : Automaton) (s : StateId) (c : Char) (target : StateId) (set : StateSet)
    (copies : List (StateId × StateId × Expr)) (d : Automaton) : Prop where
  valid : d.Valid
  owner_eq : d.owner = b.owner
  rewired : b.Rewired d (fun t => t.source = s ∧ t.label = .sym c)
    ((s, target, .sym c) :: copies)
  mem_copies : ∀ x, x ∈ copies ↔ target ∉ b.stateIds ∧ x.1 = target ∧
    ∃ q, b.HasArc s (.sym c) q ∧ b.HasArc q x.2.2 x.2.1
  mem_stateIds : ∀ q, q ∈ d.stateIds ↔ q ∈ b.stateIds ∨ q = target
  accepting_iff : ∀ q, d.accepting q = true ↔ b.accepting q = true ∨
    (q = target ∧ target ∉ b.stateIds) ∧ ∃ p ∈ set, b.accepting p = true

/-- A state of the graph can take over the transitions. -/
theorem fits_relink (hb : b.Valid) (hs : s ∈ b.stateIds) {target : StateId}
    (htarget : target ∈ b.stateIds) (created : Nat) :
    (relink b s c target created).edit.Fits (relink b s c target created).graph.outline := by
  show Edit.FitsAll (_ ++ _) _
  rw [Edit.fitsAll_append, Edit.effectAll_removeTransition]
  refine ⟨Edit.fitsAll_removeTransition (nodup_onSymbol hb)
    fun t ht => ((mem_onSymbol hb).1 ht).1,
    hb.fitsAll_freshTransitions rfl rfl (fun t ht => ht.1) fun x hx => ?_⟩
  rw [List.mem_singleton.1 hx]
  exact ⟨hs, htarget⟩

theorem exists_relink (hb : b.Valid) (hs : s ∈ b.stateIds) {target : StateId}
    (htarget : target ∈ b.stateIds) (created : Nat) :
    ∃ d, (relink b s c target created).Performs b d ∧ d.nextState = b.nextState + created ∧
      Split b s c target set [] d := by
  have hfits : (relink b s c target created).edit.Fits
      (relink b s c target created).graph.outline := fits_relink hb hs htarget created
  obtain ⟨d, hperforms, hd, hdo⟩ := hb.exists_performs rfl hfits
  have hdo : d.outline = Edit.effectAll (_ ++ _) _ := hdo
  rw [Edit.effectAll_append, Edit.effectAll_removeTransition, Edit.effectAll_addTransition] at hdo
  refine ⟨d, hperforms, congrArg Outline.nextState hdo, hd, congrArg Outline.owner hdo,
    .of_outline hdo rfl (fun _ => Iff.rfl) fun _ => mem_onSymbol hb,
    fun x => ?_, fun q => ?_, fun q => ?_⟩
  · exact iff_of_false List.not_mem_nil fun h => h.1 htarget
  · rw [mem_stateIds_of_outline hdo]
    exact (or_iff_left_of_imp fun h => h ▸ htarget).symm
  · rw [accepting_of_outline hdo]
    exact (or_iff_left fun h => h.1.2 htarget).symm

/-- A state that was handed out, but is not in the graph, can be added to take over the
transitions. -/
theorem fits_extend (hb : b.Valid) (hs : s ∈ b.stateIds) {target : State} {created : Nat}
    (hnew : target.id ∉ b.stateIds)
    (hissued : target.id.owner = b.owner ∧ target.id.index < b.nextState + created) :
    (extend b s c target created set).edit.Fits
      (extend b s c target created set).graph.outline := by
  show Edit.FitsAll (((_ ++ [_]) ++ _) ++ _) _
  simp only [Edit.fitsAll_append, Edit.effectAll_append, Edit.effectAll_removeTransition,
    Edit.effectAll_accept]
  refine ⟨⟨⟨?_, ⟨hnew, hissued⟩, trivial⟩, Edit.fitsAll_accept (.inl rfl)⟩, ?_⟩
  · exact Edit.fitsAll_removeTransition (nodup_onSymbol hb) fun t ht => ((mem_onSymbol hb).1 ht).1
  · refine hb.fitsAll_freshTransitions rfl (add_length_freshTransitions _) (fun t ht => ht.1)
      fun x hx => ?_
    rcases List.mem_cons.1 hx with rfl | hx
    · exact ⟨.inr hs, .inl rfl⟩
    · obtain ⟨hsource, q, -, harc⟩ := (mem_targetArcs hb).1 hx
      exact ⟨.inl hsource, .inr (hb.mem_of_hasArc harc).2⟩

theorem exists_extend (hb : b.Valid) (hs : s ∈ b.stateIds) {target : State} {created : Nat}
    (hnew : target.id ∉ b.stateIds) (hplain : target.accepting = false)
    (hissued : target.id.owner = b.owner ∧ target.id.index < b.nextState + created) :
    ∃ d, (extend b s c target created set).Performs b d ∧ d.nextState = b.nextState + created ∧
      Split b s c target.id set (targetArcs b s c target.id) d := by
  have hfits : (extend b s c target created set).edit.Fits
      (extend b s c target created set).graph.outline := fits_extend hb hs hnew hissued
  obtain ⟨d, hperforms, hd, hdo⟩ := hb.exists_performs rfl hfits
  have hdo : d.outline = Edit.effectAll (((_ ++ [_]) ++ _) ++ _) _ := hdo
  simp only [Edit.effectAll_append, Edit.effectAll_removeTransition, Edit.effectAll_accept,
    Edit.effectAll_addTransition] at hdo
  refine ⟨d, hperforms, congrArg Outline.nextState hdo, hd, congrArg Outline.owner hdo,
    .of_outline hdo rfl (fun _ => Iff.rfl) fun _ => mem_onSymbol hb,
    fun x => ?_, fun q => ?_, fun q => ?_⟩
  · exact (mem_targetArcs hb).trans (and_iff_right hnew).symm
  · rw [mem_stateIds_of_outline hdo]
    exact or_comm
  · rw [accepting_of_outline hdo]
    show (b.accepting q = true ∨ q = target.id ∧ target.accepting = true) ∨
      q = target.id ∧ set.any _ = true ↔ _
    rw [hplain, List.any_eq_true, and_iff_left hnew, or_assoc]
    refine or_congr_right ((or_iff_right fun h => nomatch h.2).trans (and_congr_right fun _ => ?_))
    refine exists_congr fun p => and_congr_right fun _ => ?_
    rw [Bool.and_eq_true, hb.hasState_iff]
    exact and_iff_right_of_imp hb.mem_stateIds_of_accepting

/-- The arcs of the states that were there. -/
theorem Split.hasArc_iff {target : StateId} {copies : List (StateId × StateId × Expr)}
    (h : Split b s c target set copies d) (hq : q ∈ b.stateIds) :
    d.HasArc q e r ↔ (b.HasArc q e r ∧ ¬ (q = s ∧ e = .sym c)) ∨
      (q = s ∧ e = .sym c) ∧ r = target := by
  rw [h.rewired.hasArc_iff]
  constructor
  · rintro (⟨t, ht, hstay, rfl, rfl, rfl⟩ | harc)
    · exact .inl ⟨hasArc_of_mem ht, hstay⟩
    · rcases List.mem_cons.1 harc with heq | hx
      · obtain ⟨rfl, rfl, rfl⟩ : q = s ∧ r = target ∧ e = .sym c := by simpa using heq
        exact .inr ⟨⟨rfl, rfl⟩, rfl⟩
      · obtain ⟨hnew, hqt, -⟩ := (h.mem_copies _).1 hx
        exact absurd (hqt ▸ hq) hnew
  · rintro (⟨⟨t, ht, rfl, rfl, rfl⟩, hstay⟩ | ⟨⟨rfl, rfl⟩, rfl⟩)
    · exact .inl ⟨t, ht, hstay, rfl, rfl, rfl⟩
    · exact .inr List.mem_cons_self

/-- The arcs of a state that has come along. -/
theorem Split.hasArc_target_iff {target : StateId} {copies : List (StateId × StateId × Expr)}
    (hb : b.Valid) (hs : s ∈ b.stateIds) (h : Split b s c target set copies d)
    (hnew : target ∉ b.stateIds) :
    d.HasArc target e r ↔ ∃ q, b.HasArc s (.sym c) q ∧ b.HasArc q e r := by
  rw [h.rewired.hasArc_iff]
  constructor
  · rintro (⟨t, ht, -, hts, -⟩ | harc)
    · exact absurd (hts ▸ hb.source_mem ht) hnew
    · rcases List.mem_cons.1 harc with heq | hx
      · have hts : target = s := congrArg Prod.fst heq
        exact absurd (hts ▸ hs) hnew
      · exact ((h.mem_copies _).1 hx).2.2
  · exact fun harc => .inr (List.mem_cons_of_mem _ ((h.mem_copies _).2 ⟨hnew, rfl, harc⟩))

/-! ## The graph as a whole -/

/-- The states of `b` have the arcs of the states of `a` that they count as. -/
structure Lifted (a : Automaton) (table : SubsetTable) (b : Automaton) : Prop where
  valid : b.Valid
  sound : table.Sound a b
  start_eq : b.start = a.start
  subset : ∀ s ∈ a.stateIds, s ∈ b.stateIds
  mem_cases : ∀ s ∈ b.stateIds, s ∈ a.stateIds ∨ ∃ x ∈ table.bindings, x.state.id = s
  accepting_iff : ∀ s ∈ b.stateIds,
    (b.accepting s = true ↔ ∃ p ∈ table.members s, a.accepting p = true)
  hasArc_iff : ∀ s ∈ b.stateIds, ∀ e r,
    (∃ q, b.HasArc s e q ∧ r ∈ table.members q) ↔ ∃ p ∈ table.members s, a.HasArc p e r

theorem lifted_empty (ha : a.Valid) : Lifted a .empty a where
  valid := ha
  sound := SubsetTable.sound_empty
  start_eq := rfl
  subset _ hs := hs
  mem_cases _ hs := .inl hs
  accepting_iff s _ := by
    show a.accepting s = true ↔ ∃ p ∈ [s], a.accepting p = true
    simp
  hasArc_iff s _ e r := by
    show (∃ q, a.HasArc s e q ∧ r ∈ [q]) ↔ ∃ p ∈ [s], a.HasArc p e r
    simp

theorem Lifted.mem_of_members (h : Lifted a table b) (hs : s ∈ b.stateIds)
    (hp : p ∈ table.members s) : p ∈ a.stateIds := by
  rcases h.mem_cases s hs with hsa | ⟨x, hx, rfl⟩
  · rw [h.sound.members_of_mem hsa] at hp
    rwa [List.mem_singleton.1 hp]
  · rw [h.sound.members_of_bound hx] at hp
    exact h.sound.set_subset x hx p hp

/-- The language of a state is the union of the languages of the states it counts as. -/
theorem Lifted.mem_languageFrom (h : Lifted a table b) (hs : s ∈ b.stateIds) {w : List Char} :
    w ∈ b.languageFrom s ↔ ∃ p ∈ table.members s, w ∈ a.languageFrom p := by
  constructor
  · intro hw
    refine languageFrom_le (M := fun q =>
      {w | q ∈ b.stateIds → ∃ p ∈ table.members q, w ∈ a.languageFrom p})
      (fun q hq w hw hmem => ?_) (fun t ht w hw hmem => ?_) s hw hs
    · obtain ⟨p, hp, hacc⟩ := (h.accepting_iff q hmem).1 hq
      exact ⟨p, hp, one_le_languageFrom hacc hw⟩
    · obtain ⟨u, hu, v, hv, rfl⟩ := Language.mem_mul.1 hw
      obtain ⟨r, hr, hv⟩ := hv (h.valid.target_mem t ht)
      obtain ⟨p, hp, harc⟩ := (h.hasArc_iff _ hmem t.label r).1 ⟨t.target, hasArc_of_mem ht, hr⟩
      exact ⟨p, hp, harc.mul_languageFrom_le (Language.append_mem_mul hu hv)⟩
  · rintro ⟨p, hp, hw⟩
    refine languageFrom_le_of_matches (R := fun p q => q ∈ b.stateIds ∧ p ∈ table.members q)
      ?_ ?_ ⟨hs, hp⟩ hw
    · rintro p q ⟨hq, hpq⟩ hacc
      exact (h.accepting_iff q hq).2 ⟨p, hpq, hacc⟩
    · rintro p q e r ⟨hq, hpq⟩ harc
      obtain ⟨q', harc', hr⟩ := (h.hasArc_iff q hq e r).2 ⟨p, hpq, harc⟩
      exact ⟨q', ⟨(h.valid.mem_of_hasArc harc').2, hr⟩, harc'⟩

theorem Lifted.language_eq (ha : a.Valid) (h : Lifted a table b) : b.language = a.language := by
  ext w
  rw [language, h.mem_languageFrom h.valid.start_mem, h.start_eq,
    h.sound.members_of_mem ha.start_mem]
  simp [language]

/-! ## A split keeps the graph lifted -/

section Split

variable {table' : SubsetTable} {target : StateId} {copies : List (StateId × StateId × Expr)}

/-- A state of the graph counts as before when the bindings stay. -/
theorem Lifted.members_eq (h : Lifted a table b) (htable : table'.Sound a d)
    (hkept : ∀ x ∈ table.bindings, x ∈ table'.bindings) (hq : q ∈ b.stateIds) :
    table'.members q = table.members q := by
  rcases h.mem_cases q hq with hqa | ⟨x, hx, rfl⟩
  · rw [h.sound.members_of_mem hqa, htable.members_of_mem hqa]
  · rw [h.sound.members_of_bound hx, htable.members_of_bound (hkept x hx)]

theorem Lifted.exists_hasArc_iff_of_mem (h : Lifted a table b)
    (htarget : table'.members target = targetSet table b s c)
    (hmembers : ∀ q ∈ b.stateIds, table'.members q = table.members q)
    (hd : Split b s c target set copies d) (hq : q ∈ b.stateIds) :
    (∃ q', d.HasArc q e q' ∧ r ∈ table'.members q') ↔
      ∃ p ∈ table'.members q, a.HasArc p e r := by
  have hb := h.valid
  rw [hmembers q hq, ← h.hasArc_iff q hq e r]
  constructor
  · rintro ⟨q', harc, hr⟩
    rcases (hd.hasArc_iff hq).1 harc with ⟨harc, -⟩ | ⟨⟨rfl, rfl⟩, rfl⟩
    · exact ⟨q', harc, hmembers q' (hb.mem_of_hasArc harc).2 ▸ hr⟩
    · rw [htarget] at hr
      exact (mem_targetSet hb).1 hr
  · rintro ⟨q', harc, hr⟩
    by_cases hgone : q = s ∧ e = .sym c
    · refine ⟨target, (hd.hasArc_iff hq).2 (.inr ⟨hgone, rfl⟩), ?_⟩
      rw [htarget]
      exact (mem_targetSet hb).2 ⟨q', hgone.1 ▸ hgone.2 ▸ harc, hr⟩
    · refine ⟨q', (hd.hasArc_iff hq).2 (.inl ⟨harc, hgone⟩), ?_⟩
      rwa [hmembers q' (hb.mem_of_hasArc harc).2]

theorem Lifted.exists_hasArc_iff_of_notMem (h : Lifted a table b) (hs : s ∈ b.stateIds)
    (htarget : table'.members target = targetSet table b s c)
    (hmembers : ∀ q ∈ b.stateIds, table'.members q = table.members q)
    (hd : Split b s c target set copies d) (hnew : target ∉ b.stateIds) :
    (∃ q', d.HasArc target e q' ∧ r ∈ table'.members q') ↔
      ∃ p ∈ table'.members target, a.HasArc p e r := by
  have hb := h.valid
  rw [htarget]
  constructor
  · rintro ⟨q', harc, hr⟩
    obtain ⟨q, hsq, harc⟩ := (hd.hasArc_target_iff hb hs hnew).1 harc
    obtain ⟨hq, hq'⟩ := hb.mem_of_hasArc harc
    rw [hmembers q' hq'] at hr
    obtain ⟨p, hp, harc⟩ := (h.hasArc_iff q hq e r).1 ⟨q', harc, hr⟩
    exact ⟨p, (mem_targetSet hb).2 ⟨q, hsq, hp⟩, harc⟩
  · rintro ⟨p, hp, harc⟩
    obtain ⟨q, hsq, hpq⟩ := (mem_targetSet hb).1 hp
    obtain ⟨q', harc, hr⟩ := (h.hasArc_iff q (hb.mem_of_hasArc hsq).2 e r).2 ⟨p, hpq, harc⟩
    refine ⟨q', (hd.hasArc_target_iff hb hs hnew).2 ⟨q, hsq, harc⟩, ?_⟩
    rwa [hmembers q' (hb.mem_of_hasArc harc).2]

/-- A state that comes along accepts if one of the members of its set does. -/
theorem Lifted.accepting_iff_of_notMem (h : Lifted a table b)
    (hd : Split b s c target (targetSet table b s c) copies d) (hnew : target ∉ b.stateIds) :
    d.accepting target = true ↔ ∃ p ∈ targetSet table b s c, a.accepting p = true := by
  have hno : ¬ b.accepting target = true := fun hacc =>
    hnew (h.valid.mem_stateIds_of_accepting hacc)
  rw [hd.accepting_iff, or_iff_right hno, and_iff_right ⟨rfl, hnew⟩]
  refine exists_congr fun p => and_congr_right fun hp => ?_
  obtain ⟨q, harc, hpq⟩ := (mem_targetSet h.valid).1 hp
  have hpa := h.mem_of_members (h.valid.mem_of_hasArc harc).2 hpq
  rw [h.accepting_iff p (h.subset p hpa), h.sound.members_of_mem hpa]
  simp

end Split

/-- Splitting a state into a state that stands for the set of its targets. -/
theorem Lifted.split (h : Lifted a table b) (hs : s ∈ b.stateIds) {table' : SubsetTable}
    {target : State} {copies : List (StateId × StateId × Expr)}
    (htable : table'.Sound a d) (hbound : ⟨target, targetSet table b s c⟩ ∈ table'.bindings)
    (hkept : ∀ x ∈ table.bindings, x ∈ table'.bindings)
    (hd : Split b s c target.id (targetSet table b s c) copies d) : Lifted a table' d := by
  have htarget : table'.members target.id = targetSet table b s c :=
    htable.members_of_bound hbound
  have hmembers : ∀ q ∈ b.stateIds, table'.members q = table.members q :=
    fun q hq => h.members_eq htable hkept hq
  refine ⟨hd.valid, htable, hd.rewired.start_eq.trans h.start_eq,
    fun q hq => (hd.mem_stateIds q).2 (.inl (h.subset q hq)), fun q hq => ?_, fun q hq => ?_,
    fun q hq e r => ?_⟩
  · rcases (hd.mem_stateIds q).1 hq with hq | rfl
    · exact (h.mem_cases q hq).imp_right fun ⟨x, hx, hxq⟩ => ⟨x, hkept x hx, hxq⟩
    · exact .inr ⟨_, hbound, rfl⟩
  · by_cases hqb : q ∈ b.stateIds
    · rw [hd.accepting_iff, hmembers q hqb, ← h.accepting_iff q hqb]
      exact or_iff_left fun hnew => hnew.1.2 (hnew.1.1 ▸ hqb)
    · obtain rfl : q = target.id := ((hd.mem_stateIds q).1 hq).resolve_left hqb
      rw [htarget]
      exact h.accepting_iff_of_notMem hd hqb
  · by_cases hqb : q ∈ b.stateIds
    · exact h.exists_hasArc_iff_of_mem htarget hmembers hd hqb
    · obtain rfl : q = target.id := ((hd.mem_stateIds q).1 hq).resolve_left hqb
      exact h.exists_hasArc_iff_of_notMem hs htarget hmembers hd hqb

/-- Replacing the transitions on a symbol that leave a state succeeds, and states have the
arcs of the states that they count as again. The states that were bound before stay so. -/
theorem Lifted.exists_determinize (h : Lifted a table b) (hs : s ∈ b.stateIds) (c : Char) :
    ∃ p table' d target copies, determinize table s c b = .ok (p, table') ∧ p.Performs b d ∧
      Lifted a table' d ∧ Split b s c target (targetSet table b s c) copies d ∧
        d.nextState = p.graph.nextState ∧ ∀ x ∈ table.bindings, x ∈ table'.bindings := by
  have hset : ∀ p ∈ targetSet table b s c, p ∈ a.stateIds := by
    intro p hp
    obtain ⟨q, harc, hpq⟩ := (mem_targetSet h.valid).1 hp
    exact h.mem_of_members (h.valid.mem_of_hasArc harc).2 hpq
  obtain ⟨target, created, table', hassign, htable, hbound, hkept⟩ :=
    h.sound.exists_assign h.valid h.subset hset (StateSet.ascending_ofList _) 0
  have heq := determinize_eq h.valid hs hassign
  have hsound : ∀ {d : Automaton} {copies}, d.nextState = b.nextState + created →
      Split b s c target.id (targetSet table b s c) copies d → Lifted a table' d :=
    fun hnext hd => h.split hs (htable.congr hd.owner_eq hnext) hbound hkept hd
  by_cases htarget : target.id ∈ b.stateIds
  · rw [if_pos (h.valid.hasState_iff.2 htarget)] at heq
    obtain ⟨d, hperforms, hnext, hd⟩ := exists_relink h.valid hs htarget created
    exact ⟨_, table', d, _, _, heq, hperforms, hsound hnext hd, hd, hnext, hkept⟩
  · rw [if_neg fun hhas => htarget (h.valid.hasState_iff.1 hhas)] at heq
    obtain ⟨d, hperforms, hnext, hd⟩ := exists_extend h.valid hs htarget
      (htable.plain _ hbound) (htable.issued _ hbound)
    exact ⟨_, table', d, _, _, heq, hperforms, hsound hnext hd, hd, hnext, hkept⟩

end Determinization

end RegularForms
