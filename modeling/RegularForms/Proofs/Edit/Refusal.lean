import RegularForms.Proofs.Automaton.Stock
import RegularForms.Proofs.Edit.Effect

/-!
# Edits are made or refused

An edit about states and transitions that are at hand, however deep its batches are nested,
is either refused and leaves the graph alone, or it joins the graph to another one. In a
batch, the members before the one that is refused have joined graphs, so they can be taken
back.
-/

namespace RegularForms

namespace Edit

open Automaton

variable {issued : Set Transition} {stock : Stock} {a b : Automaton}

/-- An edit is refused, whatever it remembers, and leaves the graph alone. -/
def Refused (e : Edit) (a : Automaton) : Prop :=
  ∀ backup, ∃ left err, e.apply backup a = ⟨left, a, some err⟩

def RefusedAll (es : List Edit) (a : Automaton) : Prop :=
  ∀ backups, ∃ left err, applyAll es backups a = ⟨left, a, some err⟩

theorem Refused.apply_ne {e : Edit} (h : e.Refused a) (backup left : Backup) (b : Automaton) :
    e.apply backup a ≠ ⟨left, b, none⟩ := by
  obtain ⟨used, err, happly⟩ := h backup
  rw [happly]
  exact fun heq => nomatch (Outcome.mk.inj heq).2.2

/-- The automaton after an edit about what is at hand is accounted for. -/
theorem Joins.stocked {e : Edit} (hjoins : e.Joins a b) (h : Stocked issued stock a)
    (he : e.From stock) : Stocked issued stock b := by
  obtain ⟨left, happly, -⟩ := hjoins.apply_eq .nothing
  have hsound := (careful issued stock e a .nothing h he trivial).1.1
  rwa [happly] at hsound

/-! ## Simple edits -/

theorem fits_or_refused_addState (h : Stocked issued stock a) {s : State}
    (he : (addState s).From stock) : (addState s).Fits a.outline ∨ (addState s).Refused a := by
  obtain ⟨-, rfl⟩ := h
  cases hok : a.addState s [] with
  | ok b =>
      obtain ⟨howner, hnew, -⟩ := of_addState hok
      exact .inl ⟨hnew, howner, he howner⟩
  | error err =>
      refine .inr fun backup => ⟨backup, err, ?_⟩
      rw [apply, hok]
      rfl

theorem fits_or_refused_removeState (s : StateId) (a : Automaton) :
    (removeState s).Fits a.outline ∨ (removeState s).Refused a := by
  cases hok : a.removeState s with
  | ok r =>
      obtain ⟨hstart, hnode, hinto, -⟩ := of_removeState hok
      obtain ⟨hn, hns⟩ := node?_eq_some hnode
      exact .inl ⟨mem_stateIds.2 ⟨_, hn, hns⟩, hstart, hinto⟩
  | error err =>
      refine .inr fun backup => ⟨backup, err, ?_⟩
      rw [apply, hok]

theorem fits_or_refused_addTransition (h : Stocked issued stock a) {t : Transition}
    (he : (addTransition t).From stock) :
    (addTransition t).Fits a.outline ∨ (addTransition t).Refused a := by
  obtain ⟨hacc, rfl⟩ := h
  cases hok : a.addTransition t with
  | ok b =>
      obtain ⟨howner, htarget, ⟨n, hnode, hout⟩, -⟩ := of_addTransition hok
      obtain ⟨hn, hns⟩ := node?_eq_some hnode
      have hmem : t ∈ issued := he howner
      exact .inl ⟨mem_stateIds.2 ⟨n, hn, hns⟩, htarget, hacc.issued_bound t hmem,
        hacc.id_ne hmem hnode hout⟩
  | error err =>
      refine .inr fun backup => ⟨backup, err, ?_⟩
      rw [apply, hok]
      rfl

/-- The transition that is found is the one that was meant, since both have been issued. -/
theorem fits_or_refused_removeTransition (h : Stocked issued stock a) {t : Transition}
    (he : (removeTransition t).From stock) :
    (removeTransition t).Fits a.outline ∨ (removeTransition t).Refused a := by
  obtain ⟨hacc, rfl⟩ := h
  cases hok : a.removeTransition t.source t.id with
  | ok r =>
      obtain ⟨hu, hid, -⟩ := of_removeTransition hok
      have hmem := (hacc.valid.mem_out.1 hu).1
      have hissued := hacc.mem_issued _ hmem
      have howner : t.id.owner = a.owner := hid ▸ (hacc.issued_bound _ hissued).1
      obtain rfl := hacc.eq_of_id_eq _ hissued t (he howner) hid
      exact .inl hmem
  | error err =>
      refine .inr fun backup => ⟨backup, err, ?_⟩
      rw [apply, hok]
      rfl

theorem fits_or_refused_setAccepting (s : StateId) (accepting : Bool) (a : Automaton) :
    (setAccepting s accepting).Fits a.outline ∨ (setAccepting s accepting).Refused a := by
  cases hok : a.setAccepting s accepting with
  | ok r => exact .inl (of_setAccepting hok).1
  | error err =>
      refine .inr fun backup => ⟨backup, err, ?_⟩
      rw [apply, hok]

/-! ## All edits -/

theorem Refused.cons {e : Edit} {es : List Edit} (h : e.Refused a) : RefusedAll (e :: es) a := by
  intro backups
  obtain ⟨left, err, happly⟩ := h (backups.headD .nothing)
  refine ⟨left :: backups.tail, err, ?_⟩
  simp only [applyAll, happly]

/-- When an edit has been made and a later one is refused, the first is taken back. -/
theorem RefusedAll.cons {e : Edit} {es : List Edit} (hjoins : e.Joins a b)
    (h : RefusedAll es b) : RefusedAll (e :: es) a := by
  intro backups
  obtain ⟨left, happly, hretracts⟩ := hjoins.apply_eq (backups.headD .nothing)
  obtain ⟨lefts, err, hrest⟩ := h backups.tail
  obtain ⟨used, hrevert⟩ := hretracts.revert_eq
  refine ⟨used :: lefts, err, ?_⟩
  simp only [applyAll, happly, hrest, hrevert]

theorem RefusedAll.batch {es : List Edit} (h : RefusedAll es a) (purpose : Purpose) :
    (Edit.batch purpose es).Refused a := by
  intro backup
  obtain ⟨lefts, err, happlies⟩ := h backup.parts
  exact ⟨.batch lefts, err, by simp only [apply, happlies]⟩

/-- Made on a graph that is accounted for, an edit leads to another one and back again, or it
is refused. -/
def Settled (issued : Set Transition) (stock : Stock) (e : Edit) : Prop :=
  ∀ a, Stocked issued stock a → e.From stock →
    (∃ b, e.Joins a b ∧ Stocked issued stock b) ∨ e.Refused a

theorem settled_of_fits_or_refused {e : Edit}
    (h : ∀ a, Stocked issued stock a → e.From stock → e.Fits a.outline ∨ e.Refused a) :
    Settled issued stock e := by
  intro a ha he
  refine (h a ha he).imp_left fun hfits => ?_
  obtain ⟨b, hjoins, -⟩ := hfits.exists_joins e ha.1.valid
  exact ⟨b, hjoins, hjoins.stocked ha he⟩

/-- Of edits made in turn the first that is refused decides: those before it have been made,
so they are taken back. -/
theorem Settled.joinsAll_or_refusedAll {es : List Edit}
    (hes : ∀ e ∈ es, Settled issued stock e) (h : Stocked issued stock a)
    (hfrom : AllFrom stock es) :
    (∃ b, JoinsAll es a b) ∨ RefusedAll es a := by
  induction es generalizing a with
  | nil => exact .inl ⟨a, joinsAll_nil a⟩
  | cons e es ih =>
      rcases hes e (by simp) a h hfrom.1 with ⟨b, hjoins, hb⟩ | hrefused
      · rcases ih (fun d hd => hes d (by simp [hd])) hb hfrom.2 with ⟨c, hrest⟩ | hrest
        · exact .inl ⟨c, .cons hjoins hrest⟩
        · exact .inr (.cons hjoins hrest)
      · exact .inr hrefused.cons

/-- An edit about what is at hand is made, and can be taken back, or it is refused. -/
theorem settled (issued : Set Transition) (stock : Stock) (e : Edit) :
    Settled issued stock e := by
  induction e using Edit.ind with
  | addState s =>
      exact settled_of_fits_or_refused fun _ ha he => fits_or_refused_addState ha he
  | removeState s =>
      exact settled_of_fits_or_refused fun a _ _ => fits_or_refused_removeState s a
  | addTransition t =>
      exact settled_of_fits_or_refused fun _ ha he => fits_or_refused_addTransition ha he
  | removeTransition t =>
      exact settled_of_fits_or_refused fun _ ha he => fits_or_refused_removeTransition ha he
  | setAccepting s accepting =>
      exact settled_of_fits_or_refused fun a _ _ => fits_or_refused_setAccepting s accepting a
  | batch purpose edits ih =>
      intro a ha he
      rcases Settled.joinsAll_or_refusedAll ih ha he with ⟨b, hjoins⟩ | hrefused
      · have hjoins := Joins.batch hjoins purpose
        exact .inl ⟨b, hjoins, hjoins.stocked ha he⟩
      · exact .inr (hrefused.batch purpose)

end Edit

end RegularForms
