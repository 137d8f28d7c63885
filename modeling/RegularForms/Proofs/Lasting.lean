import RegularForms.Proofs.Supply.Call

/-!
# Properties that last

Nothing is done to an automaton that is not made of changes of its graph, of handing out and
of dropping everything. So a property that these keep is never lost, whatever calls are made
with whatever identifiers, and also when one is refused half-way. The stamp of an automaton is
such a property.
-/

namespace RegularForms

open Automaton

variable {P : Automaton → Prop} {a : Automaton}

/-- A property that is kept when something is handed out, when everything is dropped and when
the graph is changed. -/
structure Lasting (P : Automaton → Prop) : Prop where
  reserve : ∀ a m n, P a → P (a.reserve m n)
  clear : ∀ a, P a → P a.clear
  addState : ∀ {a b s out}, P a → a.addState s out = .ok b → P b
  removeState : ∀ {a b s n}, P a → a.removeState s = .ok (n, b) → P b
  addTransition : ∀ {a b t}, P a → a.addTransition t = .ok b → P b
  removeTransition : ∀ {a b s t u}, P a → a.removeTransition s t = .ok (u, b) → P b
  setAccepting : ∀ {a b s accepting previous}, P a →
    a.setAccepting s accepting = .ok (previous, b) → P b

/-- An automaton keeps its stamp. -/
theorem lasting_owner (k : Nat) : Lasting fun a => a.owner = k where
  reserve _ _ _ ha := ha
  clear _ ha := ha
  addState ha h := by
    obtain ⟨-, -, -, -, rfl⟩ := of_addState h
    exact ha
  removeState ha h := by
    obtain ⟨-, -, -, rfl⟩ := of_removeState h
    exact ha
  addTransition ha h := by
    obtain ⟨-, -, -, rfl⟩ := of_addTransition h
    exact ha
  removeTransition ha h := by
    obtain ⟨-, -, rfl⟩ := of_removeTransition h
    exact ha
  setAccepting ha h := by
    obtain ⟨-, rfl⟩ := of_setAccepting h
    exact ha

/-! ## Everything is at hand -/

def Stock.all : Stock := ⟨Set.univ, Set.univ⟩

theorem Edit.from_all (e : Edit) : e.From .all := by
  induction e using Edit.ind with
  | batch purpose edits ih => exact Edit.from_batch.2 ih
  | _ => trivial

theorem Backup.from_all (backup : Backup) : backup.From .all := by
  induction backup using Backup.ind with
  | node n => exact ⟨trivial, fun _ _ => trivial⟩
  | batch backups ih => exact Backup.allFrom_iff.2 ih
  | _ => trivial

theorem Step.from_all (s : Step) : s.From .all := ⟨s.edit.from_all, s.backup.from_all⟩

theorem History.from_all (h : History) : h.From .all :=
  ⟨fun s _ => s.from_all, fun s _ => s.from_all⟩

theorem Operation.brings_all (o : Operation) : o.Brings .all := by
  cases o with
  | createTransition => exact fun _ => trivial
  | addState => exact ⟨trivial, fun _ _ => trivial⟩
  | apply e backup => exact ⟨e.from_all, backup.from_all⟩
  | revert e backup => exact ⟨e.from_all, backup.from_all⟩
  | _ => trivial

theorem Call.from_all (call : Call) : call.From .all := by
  cases call with
  | ask => trivial
  | operate o => exact o.brings_all
  | build b =>
      cases b with
      | single e => exact e.from_all
      | compose purpose steps => exact fun s _ => s.from_all
      | _ => trivial
  | move h m =>
      refine ⟨h.from_all, ?_⟩
      cases m with
      | record s => exact s.from_all
      | _ => trivial
  | convert => exact fun h _ => h.from_all

namespace Lasting

/-- When everything is at hand there is nothing more that calls need. -/
theorem supplies (hP : Lasting P) : Stock.all.Supplies P where
  addState ha _ _ hok := hP.addState ha hok
  removeState ha hok := ⟨hP.removeState ha hok, trivial, fun _ _ => trivial⟩
  addTransition ha _ hok := hP.addTransition ha hok
  removeTransition ha hok := hP.removeTransition ha hok
  setAccepting ha hok := hP.setAccepting ha hok
  reserve := hP.reserve
  clear := hP.clear
  transition_mem _ _ := trivial
  drafted {_ p} _ _ := p.edit.from_all

/-- No sequence of calls loses a property that lasts. -/
theorem run (hP : Lasting P) (calls : List Call) (ha : P a) : P (Call.run calls a).2 :=
  (hP.supplies.run calls (fun call _ => call.from_all) ha).1

end Lasting

end RegularForms
