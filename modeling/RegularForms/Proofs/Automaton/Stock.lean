import RegularForms.Edit.Apply
import RegularForms.Expr.WellFormed
import RegularForms.Proofs.Automaton.Language
import RegularForms.Proofs.Automaton.Refusal

/-!
# What is at hand

An operation on an automaton may bring along states and transitions that have been handed out
before, possibly by another automaton. They are in a `Stock`. An automaton is `Accounted` for when
it is valid and its transitions are among some that have been issued, with identifiers that do not
repeat. It stays so under every change of the graph that brings along what is in its stock, and
under every edit that is applied or reverted, be it refused half-way, as long as the backup holds
such states and transitions, too.

New automata, those made from an expression and copies are accounted for to begin with.
-/

namespace RegularForms

structure Stock where
  states : Set StateId
  transitions : Set Transition

structure Stock.Within (stock stock' : Stock) : Prop where
  states : stock.states ⊆ stock'.states
  transitions : stock.transitions ⊆ stock'.transitions

theorem Stock.Within.refl (stock : Stock) : stock.Within stock := ⟨subset_rfl, subset_rfl⟩

theorem Stock.Within.trans {s t u : Stock} (h : s.Within t) (h' : t.Within u) : s.Within u :=
  ⟨h.states.trans h'.states, h.transitions.trans h'.transitions⟩

mutual
/-- An edit is about states and transitions that are at hand. -/
def Edit.From (stock : Stock) : Edit → Prop
  | .addState s => s.id ∈ stock.states
  | .addTransition t | .removeTransition t => t ∈ stock.transitions
  | .removeState _ | .setAccepting _ _ => True
  | .batch _ edits => Edit.AllFrom stock edits
def Edit.AllFrom (stock : Stock) : List Edit → Prop
  | [] => True
  | e :: es => Edit.From stock e ∧ Edit.AllFrom stock es
end

theorem Edit.allFrom_iff {stock : Stock} {es : List Edit} :
    Edit.AllFrom stock es ↔ ∀ e ∈ es, e.From stock := by
  induction es with
  | nil => exact (iff_true_right (List.forall_mem_nil _)).2 trivial
  | cons e es ih => exact (and_congr_right fun _ => ih).trans List.forall_mem_cons.symm

mutual
def Backup.From (stock : Stock) : Backup → Prop
  | .nothing | .flag _ => True
  | .node n => n.id ∈ stock.states ∧ ∀ t ∈ n.out, t ∈ stock.transitions
  | .batch backups => Backup.AllFrom stock backups
def Backup.AllFrom (stock : Stock) : List Backup → Prop
  | [] => True
  | b :: bs => Backup.From stock b ∧ Backup.AllFrom stock bs
end

theorem Backup.allFrom_iff {stock : Stock} {bs : List Backup} :
    Backup.AllFrom stock bs ↔ ∀ b ∈ bs, b.From stock := by
  induction bs with
  | nil => exact (iff_true_right (List.forall_mem_nil _)).2 trivial
  | cons b bs ih => exact (and_congr_right fun _ => ih).trans List.forall_mem_cons.symm

namespace Automaton

/-- What is at hand for an automaton that has issued some transitions: those transitions,
the states with indexes that have been used, and everything of other automata. -/
def stock (a : Automaton) (issued : Set Transition) : Stock where
  states := {s | s.owner = a.owner → s.index < a.nextState}
  transitions := {t | t.id.owner = a.owner → t ∈ issued}

/-- What is at hand for an automaton tells its stamp. -/
theorem owner_eq_of_stock_eq {a b : Automaton} {issued : Set Transition}
    (h : a.stock issued = b.stock issued) : a.owner = b.owner := by
  by_contra hne
  have hmem : (⟨a.owner, a.nextState⟩ : StateId) ∈ (b.stock issued).states :=
    fun heq => absurd heq hne
  rw [← h] at hmem
  exact Nat.lt_irrefl _ (hmem rfl)

/-! ## What holds of them -/

variable {a b : Automaton} {issued : Set Transition}

/-- A valid automaton whose transitions are among some that have been issued, with
identifiers that do not repeat. -/
structure Accounted (issued : Set Transition) (a : Automaton) : Prop where
  valid : a.Valid
  mem_issued : ∀ t ∈ a.transitions, t ∈ issued
  issued_bound : ∀ t ∈ issued, t.id.owner = a.owner ∧ t.id.index < a.nextTransition
  eq_of_id_eq : ∀ t ∈ issued, ∀ u ∈ issued, t.id = u.id → t = u

/-- An automaton is accounted for after a change of its graph that keeps it valid and
adds issued transitions only. -/
theorem Accounted.of_graph (h : Accounted issued a) (hvalid : b.Valid)
    (hmem : ∀ t ∈ b.transitions, t ∈ issued) (howner : b.owner = a.owner)
    (hnext : b.nextTransition = a.nextTransition) : Accounted issued b where
  valid := hvalid
  mem_issued := hmem
  issued_bound t ht := by
    rw [howner, hnext]
    exact h.issued_bound t ht
  eq_of_id_eq := h.eq_of_id_eq

/-- A transition that the source does not have yet is nowhere in the graph. -/
theorem Accounted.id_ne (h : Accounted issued a) {t : Transition} (ht : t ∈ issued)
    {n : Node} (hnode : a.node? t.source = some n) (hout : ∀ u ∈ n.out, u.id ≠ t.id) :
    ∀ u ∈ a.transitions, u.id ≠ t.id := by
  intro u hu hid
  obtain rfl := h.eq_of_id_eq u (h.mem_issued u hu) t ht hid
  obtain ⟨hn, hns⟩ := node?_eq_some hnode
  refine hout u ?_ rfl
  rw [← h.valid.out_eq hn]
  exact h.valid.mem_out.2 ⟨hu, hns.symm⟩

def Stocked (issued : Set Transition) (stock : Stock) (a : Automaton) : Prop :=
  Accounted issued a ∧ a.stock issued = stock

variable {stock : Stock}

theorem Stocked.owner_eq (ha : Stocked issued stock a) (hb : Stocked issued stock b) :
    a.owner = b.owner :=
  owner_eq_of_stock_eq (ha.2.trans hb.2.symm)

/-- The states of an automaton are at hand. -/
theorem Stocked.state_mem (h : Stocked issued stock a) {s : StateId} (hs : s ∈ a.stateIds) :
    s ∈ stock.states := by
  obtain ⟨hacc, rfl⟩ := h
  exact fun _ => (hacc.valid.state_issued s hs).2

/-- The transitions of an automaton are at hand. -/
theorem Stocked.transition_mem (h : Stocked issued stock a) {t : Transition}
    (ht : t ∈ a.transitions) : t ∈ stock.transitions := by
  obtain ⟨hacc, rfl⟩ := h
  exact fun _ => hacc.mem_issued t ht

theorem Stocked.addState (h : Stocked issued stock a) {s : State} {out : List Transition}
    (hs : s.id ∈ stock.states) (hout : ∀ t ∈ out, t ∈ stock.transitions)
    (hok : a.addState s out = .ok b) : Stocked issued stock b := by
  obtain ⟨hacc, rfl⟩ := h
  obtain ⟨howner, hnew, hrefusal, hasc, rfl⟩ := of_addState hok
  have hissued : ∀ t ∈ Ident.sort Transition.id out,
      t.source = s.id ∧ (t.target = s.id ∨ t.target ∈ a.stateIds) ∧ t ∈ issued := by
    intro t ht
    have ht := Ident.mem_sort.1 ht
    obtain ⟨hid, hsource, htarget⟩ := of_refusal?_eq_none (hrefusal t ht)
    exact ⟨hsource, htarget, hout t ht hid⟩
  have hvalid : (a.insertNode ⟨s, Ident.sort Transition.id out⟩).Valid := by
    refine hacc.valid.insertNode hnew ⟨howner, hs howner⟩ hasc (fun t ht => (hissued t ht).1)
      (fun t ht => (hissued t ht).2.1) (fun t ht => hacc.issued_bound t (hissued t ht).2.2)
      fun t ht u hu hid => hnew ?_
    have heq := hacc.eq_of_id_eq t (hissued t ht).2.2 u (hacc.mem_issued u hu) hid
    rw [← (hissued t ht).1, heq]
    exact hacc.valid.source_mem hu
  refine ⟨hacc.of_graph hvalid (fun t ht => ?_) rfl rfl, rfl⟩
  rcases mem_transitions_insertNode.1 ht with ht | ht
  · exact (hissued t ht).2.2
  · exact hacc.mem_issued t ht

theorem Stocked.removeState (h : Stocked issued stock a) {s : StateId} {n : Node}
    (hok : a.removeState s = .ok (n, b)) :
    Stocked issued stock b ∧ n.id ∈ stock.states ∧ ∀ t ∈ n.out, t ∈ stock.transitions := by
  obtain ⟨hstart, hnode, hinto, rfl⟩ := of_removeState hok
  obtain ⟨hn, rfl⟩ := node?_eq_some hnode
  refine ⟨?_, h.state_mem (mem_stateIds.2 ⟨n, hn, rfl⟩),
    fun t ht => h.transition_mem (mem_transitions.2 ⟨n, hn, ht⟩)⟩
  obtain ⟨hacc, rfl⟩ := h
  refine ⟨hacc.of_graph (hacc.valid.eraseNode hstart hinto) (fun t ht => ?_) rfl rfl, rfl⟩
  exact hacc.mem_issued t (hacc.valid.mem_transitions_eraseNode.1 ht).1

theorem Stocked.addTransition (h : Stocked issued stock a) {t : Transition}
    (ht : t ∈ stock.transitions) (hok : a.addTransition t = .ok b) :
    Stocked issued stock b := by
  obtain ⟨hacc, rfl⟩ := h
  obtain ⟨howner, htarget, ⟨n, hnode, hout⟩, rfl⟩ := of_addTransition hok
  have hmem : t ∈ issued := ht howner
  have hnew := hacc.id_ne hmem hnode hout
  refine ⟨hacc.of_graph (hacc.valid.link htarget (hacc.issued_bound t hmem) hnew)
    (fun u hu => ?_) rfl rfl, rfl⟩
  rcases eq_or_mem_of_mem_link hu with rfl | hu
  · exact hmem
  · exact hacc.mem_issued u hu

theorem Stocked.removeTransition (h : Stocked issued stock a) {s : StateId}
    {t : TransitionId} {u : Transition} (hok : a.removeTransition s t = .ok (u, b)) :
    Stocked issued stock b := by
  obtain ⟨hacc, rfl⟩ := h
  obtain ⟨-, -, rfl⟩ := of_removeTransition hok
  refine ⟨hacc.of_graph (hacc.valid.unlink s t) (fun v hv => ?_) rfl rfl, rfl⟩
  exact hacc.mem_issued v (mem_transitions_of_mem_unlink hv)

theorem Stocked.setAccepting (h : Stocked issued stock a) {s : StateId}
    {accepting previous : Bool} (hok : a.setAccepting s accepting = .ok (previous, b)) :
    Stocked issued stock b := by
  obtain ⟨hacc, rfl⟩ := h
  obtain ⟨-, rfl⟩ := of_setAccepting hok
  refine ⟨hacc.of_graph (hacc.valid.mark s accepting) (fun v hv => ?_) rfl rfl, rfl⟩
  exact hacc.mem_issued v (mem_transitions_of_mem_mark hv)

end Automaton

/-! ## Edits -/

/-- A property that is kept when a graph is changed, as long as what is added is at hand. What
is removed along with a state is at hand again. -/
structure Stock.Sustains (stock : Stock) (P : Automaton → Prop) : Prop where
  addState : ∀ {a b s out}, P a → s.id ∈ stock.states → (∀ t ∈ out, t ∈ stock.transitions) →
    a.addState s out = .ok b → P b
  removeState : ∀ {a b s n}, P a → a.removeState s = .ok (n, b) →
    P b ∧ n.id ∈ stock.states ∧ ∀ t ∈ n.out, t ∈ stock.transitions
  addTransition : ∀ {a b t}, P a → t ∈ stock.transitions → a.addTransition t = .ok b → P b
  removeTransition : ∀ {a b s t u}, P a → a.removeTransition s t = .ok (u, b) → P b
  setAccepting : ∀ {a b s accepting previous}, P a →
    a.setAccepting s accepting = .ok (previous, b) → P b

/-- Being accounted for with a given stock is such a property. -/
theorem Automaton.sustains_stocked (issued : Set Transition) (stock : Stock) :
    stock.Sustains (Stocked issued stock) where
  addState h hs hout hok := h.addState hs hout hok
  removeState h hok := h.removeState hok
  addTransition h ht hok := h.addTransition ht hok
  removeTransition h hok := h.removeTransition hok
  setAccepting h hok := h.setAccepting hok

namespace Edit

open Automaton

variable {stock : Stock} {P : Automaton → Prop} {a : Automaton}

/-- An outcome with a graph that has a property and a backup of what is at hand. -/
def Sound (stock : Stock) (P : Automaton → Prop) (r : Outcome) : Prop :=
  P r.graph ∧ r.backup.From stock

def SoundAll (stock : Stock) (P : Automaton → Prop) (r : BatchOutcome) : Prop :=
  P r.graph ∧ Backup.AllFrom stock r.backups

theorem from_parts {backup : Backup} (h : backup.From stock) :
    Backup.AllFrom stock backup.parts := by
  cases backup with
  | batch backups => exact h
  | _ => trivial

theorem from_headD {backups : List Backup} (h : Backup.AllFrom stock backups) :
    (backups.headD .nothing).From stock := by
  cases backups with
  | nil => trivial
  | cons b bs => exact h.1

theorem from_tail {backups : List Backup} (h : Backup.AllFrom stock backups) :
    Backup.AllFrom stock backups.tail := by
  cases backups with
  | nil => trivial
  | cons b bs => exact h.2

theorem sound_ofChange {backup : Backup} {change : Except Error Automaton} (ha : P a)
    (hbackup : backup.From stock) (hchange : ∀ b, change = .ok b → P b) :
    Sound stock P (.ofChange backup a change) := by
  cases change with
  | ok b => exact ⟨hchange b rfl, hbackup⟩
  | error err => exact ⟨ha, hbackup⟩

theorem ok_of_map_snd {α β : Type} {r : Except Error (α × β)} {y : β}
    (h : r.map Prod.snd = .ok y) : ∃ x, r = .ok (x, y) := by
  cases r with
  | ok p => exact ⟨p.1, congrArg Except.ok (Prod.ext rfl (Except.ok.inj h))⟩
  | error err => nomatch h

/-- Applying or reverting an edit, whether or not it is refused, leaves an automaton with the
property. -/
def Careful (stock : Stock) (P : Automaton → Prop) (e : Edit) : Prop :=
  ∀ a backup, P a → e.From stock → backup.From stock →
    Sound stock P (e.apply backup a) ∧ Sound stock P (e.revert backup a)

theorem Careful.applyAll {es : List Edit} (hes : ∀ e ∈ es, Careful stock P e)
    {backups : List Backup} (ha : P a) (hfrom : AllFrom stock es)
    (hbackups : Backup.AllFrom stock backups) :
    SoundAll stock P (applyAll es backups a) := by
  induction es generalizing a backups with
  | nil => exact ⟨ha, trivial⟩
  | cons e es ih =>
      have hfirst := (hes e (by simp) a _ ha hfrom.1 (from_headD hbackups)).1
      have hrest := ih (fun d hd => hes d (by simp [hd])) hfirst.1 hfrom.2 (from_tail hbackups)
      rw [Edit.applyAll]
      split
      · exact ⟨hfirst.1, hfirst.2, from_tail hbackups⟩
      · dsimp only
        split
        · exact ⟨hrest.1, hfirst.2, hrest.2⟩
        · have hback := (hes e (by simp) _ _ hrest.1 hfrom.1 hfirst.2).2
          exact ⟨hback.1, hback.2, hrest.2⟩

theorem Careful.reapplyAll {es : List Edit} (hes : ∀ e ∈ es, Careful stock P e)
    {backups : List Backup} (ha : P a) (hfrom : AllFrom stock es)
    (hbackups : Backup.AllFrom stock backups) :
    SoundAll stock P (reapplyAll es backups a) := by
  induction es generalizing a backups with
  | nil => exact ⟨ha, trivial⟩
  | cons e es ih =>
      have hfirst := (hes e (by simp) a _ ha hfrom.1 (from_headD hbackups)).1
      have hrest := ih (fun d hd => hes d (by simp [hd])) hfirst.1 hfrom.2 (from_tail hbackups)
      exact ⟨hrest.1, hfirst.2, hrest.2⟩

theorem Careful.revertAll {es : List Edit} (hes : ∀ e ∈ es, Careful stock P e)
    {backups : List Backup} (ha : P a) (hfrom : AllFrom stock es)
    (hbackups : Backup.AllFrom stock backups) :
    SoundAll stock P (revertAll es backups a) := by
  induction es generalizing a backups with
  | nil => exact ⟨ha, trivial⟩
  | cons e es ih =>
      have hes' : ∀ d ∈ es, Careful stock P d := fun d hd => hes d (by simp [hd])
      have hrest := ih hes' ha hfrom.2 (from_tail hbackups)
      have hfirst := (hes e (by simp) _ _ hrest.1 hfrom.1 (from_headD hbackups)).2
      rw [Edit.revertAll]
      split
      · exact ⟨hrest.1, from_headD hbackups, hrest.2⟩
      · dsimp only
        split
        · exact ⟨hfirst.1, hfirst.2, hrest.2⟩
        · have hagain := Careful.reapplyAll hes' hfirst.1 hfrom.2 hrest.2
          exact ⟨hagain.1, hfirst.2, hagain.2⟩

theorem careful_of_sustains (hP : stock.Sustains P) (e : Edit) : Careful stock P e := by
  induction e using Edit.ind with
  | addState s =>
      intro a backup ha hfrom hbackup
      refine ⟨sound_ofChange ha hbackup fun b => hP.addState ha hfrom (List.forall_mem_nil _),
        sound_ofChange ha hbackup fun b hb => ?_⟩
      obtain ⟨n, hok⟩ := ok_of_map_snd hb
      exact (hP.removeState ha hok).1
  | removeState s =>
      intro a backup ha hfrom hbackup
      refine ⟨?_, ?_⟩
      · rw [apply]
        split
        · next n changed hok =>
            obtain ⟨hchanged, hnode⟩ := hP.removeState ha hok
            exact ⟨hchanged, hnode⟩
        · exact ⟨ha, hbackup⟩
      · cases backup with
        | node n =>
            rw [revert]
            exact sound_ofChange ha trivial fun b hb => hP.addState ha hbackup.1 hbackup.2 hb
        | _ => exact ⟨ha, hbackup⟩
  | addTransition t =>
      intro a backup ha hfrom hbackup
      refine ⟨sound_ofChange ha hbackup fun b hb => hP.addTransition ha hfrom hb,
        sound_ofChange ha hbackup fun b hb => ?_⟩
      obtain ⟨u, hok⟩ := ok_of_map_snd hb
      exact hP.removeTransition ha hok
  | removeTransition t =>
      intro a backup ha hfrom hbackup
      refine ⟨sound_ofChange ha hbackup fun b hb => ?_,
        sound_ofChange ha hbackup fun b hb => hP.addTransition ha hfrom hb⟩
      obtain ⟨u, hok⟩ := ok_of_map_snd hb
      exact hP.removeTransition ha hok
  | setAccepting s accepting =>
      intro a backup ha hfrom hbackup
      refine ⟨?_, ?_⟩
      · rw [apply]
        split
        · next previous changed hok => exact ⟨hP.setAccepting ha hok, trivial⟩
        · exact ⟨ha, hbackup⟩
      · cases backup with
        | flag previous =>
            rw [revert]
            refine sound_ofChange ha trivial fun b hb => ?_
            obtain ⟨before, hok⟩ := ok_of_map_snd hb
            exact hP.setAccepting ha hok
        | _ => exact ⟨ha, hbackup⟩
  | batch purpose edits ih =>
      intro a backup ha hfrom hbackup
      have happly := Careful.applyAll ih ha hfrom (from_parts hbackup)
      have hrevert := Careful.revertAll ih ha hfrom (from_parts hbackup)
      exact ⟨⟨happly.1, happly.2⟩, hrevert.1, hrevert.2⟩

theorem careful (issued : Set Transition) (stock : Stock) (e : Edit) :
    Careful stock (Stocked issued stock) e :=
  careful_of_sustains (sustains_stocked issued stock) e

end Edit

/-! ## Well-formed labels -/

def Stock.wellLabelled : Stock := ⟨Set.univ, {t | t.label.WellFormed}⟩

namespace Automaton

variable {a b : Automaton}

def WellLabelled (a : Automaton) : Prop := ∀ t ∈ a.transitions, t.label.WellFormed

instance (a : Automaton) : Decidable a.WellLabelled :=
  inferInstanceAs (Decidable (∀ t ∈ a.transitions, _))

theorem sustains_wellLabelled : Stock.wellLabelled.Sustains WellLabelled where
  addState ha _ hout hok := by
    obtain ⟨-, -, -, -, rfl⟩ := of_addState hok
    intro t ht
    rcases mem_transitions_insertNode.1 ht with ht | ht
    · exact hout t (Ident.mem_sort.1 ht)
    · exact ha t ht
  removeState ha hok := by
    obtain ⟨-, hnode, -, rfl⟩ := of_removeState hok
    refine ⟨fun t ht => ?_, trivial, fun t ht => ha t ?_⟩
    · obtain ⟨n, hn, ht⟩ := mem_transitions.1 ht
      exact ha t (mem_transitions.2 ⟨n, (mem_nodes_eraseNode.1 hn).1, ht⟩)
    · exact mem_transitions.2 ⟨_, (node?_eq_some hnode).1, ht⟩
  addTransition ha ht hok := by
    obtain ⟨-, -, -, rfl⟩ := of_addTransition hok
    intro u hu
    rcases eq_or_mem_of_mem_link hu with rfl | hu
    · exact ht
    · exact ha u hu
  removeTransition ha hok := by
    obtain ⟨-, -, rfl⟩ := of_removeTransition hok
    exact fun u hu => ha u (mem_transitions_of_mem_unlink hu)
  setAccepting ha hok := by
    obtain ⟨-, rfl⟩ := of_setAccepting hok
    exact fun u hu => ha u (mem_transitions_of_mem_mark hu)

end Automaton

/-! ## Whole automata -/

namespace Ident

variable {kind : Kind} {i j : Ident kind}

theorem withOwner_before (h : i.owner = j.owner) (hij : i.before j = true) (owner : Nat) :
    (i.withOwner owner).before (j.withOwner owner) = true := by
  rw [before_iff] at hij ⊢
  rcases hij with hlt | ⟨-, hlt⟩
  · exact absurd h (Nat.ne_of_lt hlt)
  · exact .inr ⟨rfl, hlt⟩

theorem eq_of_withOwner_eq {owner : Nat} (h : i.owner = j.owner)
    (heq : i.withOwner owner = j.withOwner owner) : i = j := by
  obtain ⟨iowner, iindex⟩ := i
  obtain ⟨jowner, jindex⟩ := j
  have hindex : iindex = jindex := congrArg Ident.index heq
  have howner : iowner = jowner := h
  rw [hindex, howner]

end Ident

namespace Automaton

variable {a : Automaton} {issued : Set Transition}

theorem stateIds_copy (a : Automaton) (owner : Nat) :
    (a.copy owner).stateIds = a.stateIds.map (·.withOwner owner) := by
  rw [stateIds, stateIds, copy, List.map_map, List.map_map]
  rfl

theorem transitions_copy (a : Automaton) (owner : Nat) :
    (a.copy owner).transitions = a.transitions.map (·.withOwner owner) := by
  rw [transitions, transitions, copy, List.map_flatMap, List.flatMap_map]
  rfl

/-- A copy of a valid automaton is valid. -/
theorem Valid.copy (ha : a.Valid) (owner : Nat) : (a.copy owner).Valid where
  start_mem := by
    rw [stateIds_copy]
    exact List.mem_map_of_mem ha.start_mem
  ascending := by
    refine List.pairwise_map.2 (ha.ascending.imp_of_mem fun {m n} hm hn hmn => ?_)
    refine Ident.withOwner_before ?_ hmn owner
    rw [(ha.state_issued _ (mem_stateIds.2 ⟨m, hm, rfl⟩)).1,
      (ha.state_issued _ (mem_stateIds.2 ⟨n, hn, rfl⟩)).1]
  out_ascending n hn := by
    obtain ⟨m, hm, rfl⟩ := List.mem_map.1 hn
    refine List.pairwise_map.2 ((ha.out_ascending m hm).imp_of_mem fun {t u} ht hu htu => ?_)
    refine Ident.withOwner_before ?_ htu owner
    rw [(ha.transition_issued t (mem_transitions.2 ⟨m, hm, ht⟩)).1,
      (ha.transition_issued u (mem_transitions.2 ⟨m, hm, hu⟩)).1]
  source_eq n hn t ht := by
    obtain ⟨m, hm, rfl⟩ := List.mem_map.1 hn
    obtain ⟨u, hu, rfl⟩ := List.mem_map.1 ht
    exact congrArg (Ident.withOwner · owner) (ha.source_eq m hm u hu)
  target_mem t ht := by
    rw [transitions_copy] at ht
    obtain ⟨u, hu, rfl⟩ := List.mem_map.1 ht
    rw [stateIds_copy]
    exact List.mem_map_of_mem (ha.target_mem u hu)
  state_issued s hs := by
    rw [stateIds_copy] at hs
    obtain ⟨r, hr, rfl⟩ := List.mem_map.1 hs
    exact ⟨rfl, (ha.state_issued r hr).2⟩
  transition_issued t ht := by
    rw [transitions_copy] at ht
    obtain ⟨u, hu, rfl⟩ := List.mem_map.1 ht
    exact ⟨rfl, (ha.transition_issued u hu).2⟩
  eq_of_id_eq t ht u hu hid := by
    rw [transitions_copy] at ht hu
    obtain ⟨v, hv, rfl⟩ := List.mem_map.1 ht
    obtain ⟨w, hw, rfl⟩ := List.mem_map.1 hu
    have howner : v.id.owner = w.id.owner := by
      rw [(ha.transition_issued v hv).1, (ha.transition_issued w hw).1]
    rw [ha.eq_of_id_eq v hv w hw (Ident.eq_of_withOwner_eq howner hid)]

/-- A valid automaton is accounted for when just its own transitions have been issued. -/
theorem Valid.accounted (ha : a.Valid) : Accounted {t | t ∈ a.transitions} a :=
  ⟨ha, fun _ ht => ht, ha.transition_issued, ha.eq_of_id_eq⟩

theorem valid_new (owner : Nat) : (new owner).Valid where
  start_mem := List.mem_singleton.2 rfl
  ascending := List.pairwise_singleton _ _
  out_ascending n hn := by
    rw [List.mem_singleton.1 hn]
    exact List.Pairwise.nil
  source_eq n hn t ht := by
    rw [List.mem_singleton.1 hn] at ht
    nomatch ht
  target_mem _ ht := nomatch ht
  state_issued s hs := by
    rw [List.mem_singleton.1 hs]
    exact ⟨rfl, Nat.zero_lt_one⟩
  transition_issued _ ht := nomatch ht
  eq_of_id_eq _ ht := nomatch ht

theorem valid_clear (a : Automaton) : a.clear.Valid where
  start_mem := List.mem_singleton.2 rfl
  ascending := List.pairwise_singleton _ _
  out_ascending n hn := by
    rw [List.mem_singleton.1 hn]
    exact List.Pairwise.nil
  source_eq n hn t ht := by
    rw [List.mem_singleton.1 hn] at ht
    nomatch ht
  target_mem _ ht := nomatch ht
  state_issued s hs := by
    rw [List.mem_singleton.1 hs]
    exact ⟨rfl, Nat.lt_succ_self _⟩
  transition_issued _ ht := nomatch ht
  eq_of_id_eq _ ht := nomatch ht

theorem transitions_ofExpr (owner : Nat) (e : Expr) :
    (ofExpr owner e).transitions = [⟨⟨owner, 0⟩, ⟨owner, 0⟩, ⟨owner, 1⟩, e⟩] := rfl

theorem valid_ofExpr (owner : Nat) (e : Expr) : (ofExpr owner e).Valid where
  start_mem := List.mem_cons_self
  ascending := by simp [Ident.Ascending, ofExpr, Ident.before]
  out_ascending n hn := by
    rcases List.mem_cons.1 hn with rfl | hn
    · exact List.pairwise_singleton _ _
    · rw [List.mem_singleton.1 hn]
      exact List.Pairwise.nil
  source_eq n hn t ht := by
    rcases List.mem_cons.1 hn with rfl | hn
    · rw [List.mem_singleton.1 ht]
    · rw [List.mem_singleton.1 hn] at ht
      cases ht
  target_mem t ht := by
    rw [List.mem_singleton.1 ht]
    exact List.mem_cons_of_mem _ List.mem_cons_self
  state_issued s hs := by
    rcases List.mem_cons.1 hs with rfl | hs
    · exact ⟨rfl, Nat.zero_lt_two⟩
    · rw [List.mem_singleton.1 hs]
      exact ⟨rfl, Nat.one_lt_two⟩
  transition_issued t ht := by
    rw [List.mem_singleton.1 ht]
    exact ⟨rfl, Nat.zero_lt_one⟩
  eq_of_id_eq t ht u hu _ := by
    rw [List.mem_singleton.1 ht, List.mem_singleton.1 hu]

/-- Starting over drops all transitions, which have been issued all the same. -/
theorem Accounted.clear (h : Accounted issued a) : Accounted issued a.clear :=
  ⟨valid_clear a, List.forall_mem_nil _, h.issued_bound, h.eq_of_id_eq⟩

/-- Handing out a state changes nothing for the transitions. -/
theorem Accounted.createState (h : Accounted issued a) : Accounted issued (a.reserve 1 0) :=
  ⟨h.valid.reserve 1 0, h.mem_issued, h.issued_bound, h.eq_of_id_eq⟩

/-- Handing out a transition adds it to those that have been issued. -/
theorem Accounted.createTransition (h : Accounted issued a) (source target : StateId)
    (label : Expr) :
    Accounted (insert (a.freshTransition 0 source target label) issued) (a.reserve 0 1) := by
  have hfresh : ∀ t ∈ issued, t.id ≠ (a.freshTransition 0 source target label).id := by
    intro t ht hid
    have hlt := (h.issued_bound t ht).2
    rw [hid] at hlt
    exact Nat.lt_irrefl _ hlt
  refine ⟨h.valid.reserve 0 1, fun t ht => .inr (h.mem_issued t ht), ?_, ?_⟩
  · rintro t (rfl | ht)
    · exact ⟨rfl, Nat.lt_succ_self _⟩
    · exact ⟨(h.issued_bound t ht).1, Nat.lt_succ_of_lt (h.issued_bound t ht).2⟩
  · rintro t (rfl | ht) u (rfl | hu) hid
    · rfl
    · exact absurd hid.symm (hfresh u hu)
    · exact absurd hid (hfresh t ht)
    · exact h.eq_of_id_eq t ht u hu hid

theorem accepting_ofExpr (owner : Nat) (e : Expr) {s : StateId} :
    (ofExpr owner e).accepting s = true ↔ s = ⟨owner, 1⟩ := by
  rw [(valid_ofExpr owner e).accepting_iff]
  constructor
  · rintro ⟨n, hn, rfl, hacc⟩
    rcases List.mem_cons.1 hn with rfl | hn
    · nomatch hacc
    · rw [List.mem_singleton.1 hn]
  · rintro rfl
    exact ⟨_, List.mem_cons_of_mem _ List.mem_cons_self, rfl, rfl⟩

/-- An automaton made from an expression has its language. -/
theorem language_ofExpr (owner : Nat) (e : Expr) : (ofExpr owner e).language = e.language := by
  have hmem : (⟨⟨owner, 0⟩, ⟨owner, 0⟩, ⟨owner, 1⟩, e⟩ : Transition) ∈
      (ofExpr owner e).transitions := List.mem_cons_self
  refine le_antisymm (languageFrom_le_of_step (fun hs => ?_) fun t ht _ => ?_) ?_
  · have hzero := congrArg Ident.index ((accepting_ofExpr owner e).1 hs)
    nomatch hzero
  · have hend : (ofExpr owner e).languageFrom ⟨owner, 1⟩ ≤ 1 := by
      refine languageFrom_le_of_step (fun _ => le_rfl) fun u hu hus => ?_
      rw [List.mem_singleton.1 hu] at hus
      nomatch congrArg Ident.index hus
    rw [List.mem_singleton.1 ht]
    exact (mul_le_mul_right hend _).trans (mul_one _).le
  · calc e.language = e.language * 1 := (mul_one _).symm
      _ ≤ e.language * (ofExpr owner e).languageFrom ⟨owner, 1⟩ :=
          mul_le_mul_right (one_le_languageFrom ((accepting_ofExpr owner e).2 rfl)) _
      _ ≤ (ofExpr owner e).languageFrom ⟨owner, 0⟩ := label_mul_languageFrom_le hmem

end Automaton

end RegularForms
