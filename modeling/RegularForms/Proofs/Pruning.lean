import RegularForms.Rewriting
import RegularForms.Proofs.Automaton.Query
import RegularForms.Proofs.Automaton.Reach
import RegularForms.Proofs.Plan

/-!
# Pruning leaves what is reached

Detaching a state restricts the graph to the other states. As long as all states that the
start state reaches are among those that stay, the language stays too. Pruning detaches
the other states one after the other, so it ends with the restriction to the states that
are reached.
-/

namespace RegularForms

namespace Automaton

variable {a b : Automaton} {kept : Set StateId}

def Reaches (a : Automaton) (s : StateId) : Prop := a.LeadsTo (fun _ => true) a.start s

theorem Reaches.step {t : Transition} (ht : t ∈ a.transitions) (h : a.Reaches t.source) :
    a.Reaches t.target :=
  Relation.ReflTransGen.tail h ⟨t, ht, rfl, rfl, rfl⟩

theorem Valid.mem_unreachableStates (ha : a.Valid) {s : StateId} :
    s ∈ a.unreachableStates ↔ s ∈ a.stateIds ∧ ¬ a.Reaches s := by
  rw [unreachableStates, List.mem_filter, decide_eq_true_eq, ha.mem_reachableStates, Reaches]

/-- A graph is what is left of another one between some of its states. -/
structure Restricted (a : Automaton) (kept : Set StateId) (b : Automaton) : Prop where
  valid : b.Valid
  owner_eq : b.owner = a.owner
  start_eq : b.start = a.start
  nextState_eq : b.nextState = a.nextState
  nextTransition_eq : b.nextTransition = a.nextTransition
  mem_stateIds : ∀ s, s ∈ b.stateIds ↔ s ∈ a.stateIds ∧ s ∈ kept
  mem_transitions : ∀ t, t ∈ b.transitions ↔
    t ∈ a.transitions ∧ t.source ∈ kept ∧ t.target ∈ kept
  accepting_iff : ∀ s, b.accepting s = true ↔ a.accepting s = true ∧ s ∈ kept

theorem Restricted.languageFrom_le (h : Restricted a kept b) (s : StateId) :
    b.languageFrom s ≤ a.languageFrom s := by
  refine Automaton.languageFrom_le (fun r hr => ?_) (fun t ht => ?_) s
  · exact one_le_languageFrom ((h.accepting_iff r).1 hr).1
  · exact label_mul_languageFrom_le ((h.mem_transitions t).1 ht).1

/-- A restriction that keeps all states that are reached keeps the language. -/
theorem Restricted.language_eq (h : Restricted a kept b) (hkept : ∀ s, a.Reaches s → s ∈ kept) :
    b.language = a.language := by
  classical
  -- from a state that is not reached anything might be read
  have hle := Automaton.languageFrom_le (a := a)
    (M := fun s => if a.Reaches s then b.languageFrom s else ⊤) (fun s hs => ?_)
    (fun t ht => ?_) a.start
  · rw [if_pos (show a.Reaches a.start from .refl)] at hle
    refine le_antisymm ?_ ?_
    · exact (h.languageFrom_le b.start).trans (le_of_eq (by rw [h.start_eq]; rfl))
    · exact hle.trans (le_of_eq (by rw [← h.start_eq]; rfl))
  · split
    · next hreach => exact one_le_languageFrom ((h.accepting_iff s).2 ⟨hs, hkept s hreach⟩)
    · exact le_top
  · by_cases hreach : a.Reaches t.source
    · have htarget := hreach.step ht
      rw [if_pos hreach, if_pos htarget]
      exact label_mul_languageFrom_le
        ((h.mem_transitions t).2 ⟨ht, hkept _ hreach, hkept _ htarget⟩)
    · rw [if_neg hreach]
      exact le_top

/-- In the restriction to the states that are reached, all states are reached. -/
theorem Restricted.reaches (h : Restricted a {s | a.Reaches s} b) (s : StateId)
    (hs : s ∈ b.stateIds) : b.Reaches s := by
  have hreach : a.Reaches s := ((h.mem_stateIds s).1 hs).2
  clear hs
  induction hreach with
  | refl =>
      rw [← h.start_eq]
      exact .refl
  | tail hlead hstep ih =>
      obtain ⟨t, ht, -, rfl, rfl⟩ := hstep
      exact ih.step ((h.mem_transitions t).2 ⟨ht, hlead, Reaches.step ht hlead⟩)

end Automaton

namespace Pruning

open Automaton Rewriting

variable {a b : Automaton} {kept : Set StateId}

def othersInto (a : Automaton) (s : StateId) : List Transition :=
  (a.into s).filter fun t => t.source ≠ s

theorem mem_othersInto {s : StateId} {t : Transition} :
    t ∈ othersInto a s ↔ t ∈ a.transitions ∧ t.target = s ∧ t.source ≠ s := by
  rw [othersInto, List.mem_filter, mem_into, decide_eq_true_eq, and_assoc]

theorem nodup_othersInto (ha : a.Valid) (s : StateId) : (othersInto a s).Nodup :=
  (ha.nodup_transitions.filter _).filter _

def detaching (a : Automaton) (s : StateId) : Plan :=
  ⟨.batch (.detachState s) ((othersInto a s).map .removeTransition ++ [.removeState s]), a⟩

theorem detach_eq (ha : a.Valid) {s : StateId} (hs : s ∈ a.stateIds) :
    detach s a = .ok (detaching a s) := by
  rw [detach, ha.incoming_eq hs]
  rfl

/-- Detaching a state restricts the graph to the other states. -/
theorem exists_detached (hb : Restricted a kept b) {s : StateId} (hs : s ∈ b.stateIds)
    (hstart : s ≠ b.start) :
    ∃ c, (detaching b s).Performs b c ∧ Restricted a (kept \ {s}) c := by
  have hfits : (detaching b s).edit.Fits (detaching b s).graph.outline := by
    show Edit.FitsAll (_ ++ _) _
    rw [Edit.fitsAll_append, Edit.effectAll_removeTransition]
    refine ⟨Edit.fitsAll_removeTransition (nodup_othersInto hb.valid s)
      fun t ht => (mem_othersInto.1 ht).1, ⟨hs, hstart, fun t ht hts => ?_⟩, trivial⟩
    exact not_not.1 fun hne => ht.2 (mem_othersInto.2 ⟨ht.1, hts, hne⟩)
  obtain ⟨c, hperforms, hc, hco⟩ := hb.valid.exists_performs (m := 0) (n := 0) rfl hfits
  have hco : c.outline = Edit.effectAll (_ ++ _) b.outline := hco
  rw [Edit.effectAll_append, Edit.effectAll_removeTransition, Edit.effectAll_cons,
    Edit.effectAll_nil] at hco
  refine ⟨c, hperforms, hc, (congrArg Outline.owner hco).trans hb.owner_eq,
    (start_of_outline hco).trans hb.start_eq,
    (congrArg Outline.nextState hco).trans hb.nextState_eq,
    (congrArg Outline.nextTransition hco).trans hb.nextTransition_eq, fun r => ?_, fun t => ?_,
    fun r => ?_⟩
  · rw [mem_stateIds_of_outline hco]
    exact (and_congr_left fun _ => hb.mem_stateIds r).trans and_assoc
  · rw [mem_transitions_of_outline hco]
    show (t ∈ b.transitions ∧ t ∉ othersInto b s) ∧ ¬ t.source = s ↔
      t ∈ a.transitions ∧ (t.source ∈ kept ∧ ¬ t.source = s) ∧ t.target ∈ kept ∧ ¬ t.target = s
    rw [mem_othersInto, hb.mem_transitions]
    constructor
    · rintro ⟨⟨⟨ht, hsource, htarget⟩, hno⟩, hts⟩
      exact ⟨ht, ⟨hsource, hts⟩, htarget, fun htt => hno ⟨⟨ht, hsource, htarget⟩, htt, hts⟩⟩
    · rintro ⟨ht, ⟨hsource, hts⟩, htarget, htt⟩
      exact ⟨⟨⟨ht, hsource, htarget⟩, fun hno => htt hno.2.1⟩, hts⟩
  · rw [accepting_of_outline hco]
    exact (and_congr_left fun _ => hb.accepting_iff r).trans and_assoc

/-- Of the states that are not reached, only some are left. -/
structure Pruned (a : Automaton) (left : List StateId) (b : Automaton) : Prop where
  nodup : left.Nodup
  of_mem : ∀ s ∈ left, s ∈ a.stateIds ∧ ¬ a.Reaches s
  restricted : Restricted a {s | a.Reaches s ∨ s ∈ left} b

theorem pruned_unreachableStates (ha : a.Valid) : Pruned a a.unreachableStates a := by
  have hall : ∀ s ∈ a.stateIds, a.Reaches s ∨ s ∈ a.unreachableStates := by
    intro s hs
    by_cases hr : a.Reaches s
    · exact .inl hr
    · exact .inr (ha.mem_unreachableStates.2 ⟨hs, hr⟩)
  refine ⟨ha.nodup_stateIds.filter _, fun s hs => ha.mem_unreachableStates.1 hs,
    ha, rfl, rfl, rfl, rfl, fun s => ?_, fun t => ?_, fun s => ?_⟩
  · exact ⟨fun hs => ⟨hs, hall s hs⟩, And.left⟩
  · exact ⟨fun ht => ⟨ht, hall _ (ha.source_mem ht), hall _ (ha.target_mem t ht)⟩, And.left⟩
  · exact ⟨fun hs => ⟨hs, hall s (ha.mem_stateIds_of_accepting hs)⟩, And.left⟩

/-- The next of the states that are left can be detached. -/
theorem Pruned.exists_detach {s : StateId} {left : List StateId} (h : Pruned a (s :: left) b) :
    s ∈ b.stateIds ∧ ∃ p c, detach s b = .ok p ∧ p.Performs b c ∧ Pruned a left c := by
  obtain ⟨hs, hnodup⟩ := List.nodup_cons.1 h.nodup
  obtain ⟨⟨hmem, hreach⟩, hleft⟩ := List.forall_mem_cons.1 h.of_mem
  have hsb : s ∈ b.stateIds := (h.restricted.mem_stateIds s).2 ⟨hmem, .inr List.mem_cons_self⟩
  have hstart : s ≠ b.start := by
    rintro rfl
    rw [h.restricted.start_eq] at hreach
    exact hreach .refl
  obtain ⟨c, hperforms, hc⟩ := exists_detached h.restricted hsb hstart
  have hkept : {r | a.Reaches r ∨ r ∈ s :: left} \ {s} = {r | a.Reaches r ∨ r ∈ left} := by
    ext r
    show (a.Reaches r ∨ r ∈ s :: left) ∧ ¬ r = s ↔ a.Reaches r ∨ r ∈ left
    rw [List.mem_cons]
    constructor
    · rintro ⟨hr | hr | hr, hne⟩
      · exact .inl hr
      · exact absurd hr hne
      · exact .inr hr
    · rintro (hr | hr)
      · exact ⟨.inl hr, fun h => hreach (h ▸ hr)⟩
      · exact ⟨.inr (.inr hr), fun h => hs (h ▸ hr)⟩
  exact ⟨hsb, _, c, detach_eq h.restricted.valid hsb, hperforms, hnodup, hleft, hkept ▸ hc⟩

/-- Pruning restricts the graph to the states that are reached. -/
theorem achieves_prune {P : Automaton → Prop} (hreserve : ∀ b m n, P b → P (b.reserve m n))
    (ha : a.Valid)
    (hP : ∀ b kept, Restricted a kept b → (∀ s, a.Reaches s → s ∈ kept) → P b) :
    Achieves P prune a fun _ b => Restricted a {s | a.Reaches s} b := by
  refine Achieves.graph ((achieves_forM (I := fun left b => Pruned a left b)
    (fun s left b hb => ?_) (pruned_unreachableStates ha)).mono fun _ b hb => ?_)
  · obtain ⟨hs, p, c, hplan, hperforms, hc⟩ := hb.exists_detach
    refine Achieves.graph ?_
    rw [if_pos (hb.restricted.valid.hasState_iff.2 hs)]
    exact achieves_carryOut hreserve hplan hperforms
      (hP c _ hc.restricted fun r hr => .inl hr) hc
  · simpa using hb.restricted

end Pruning

end RegularForms
