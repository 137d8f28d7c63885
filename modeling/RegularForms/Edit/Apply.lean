import RegularForms.Automaton.Change
import RegularForms.Edit.Basic

/-!
# Applying and reverting edits

Applying an edit changes the graph and yields what is needed to take the change back,
its `Backup`: the node that was removed, the flag that was overwritten, or the backups
of the members of a batch. Reverting uses the backup up.

A batch is applied from first to last and reverted from last to first. When a member
is refused, the members already done are taken back again, last first, and the reason
of the refusal is returned; so a refused batch leaves the graph as it was, provided
that what has been done can be taken back. Reverting does the same with the roles
exchanged.
-/

namespace RegularForms

/-- What an edit has to remember in order to be reverted. -/
inductive Backup where
  /-- The edit has not been applied, or needs to remember nothing. -/
  | nothing
  /-- The state that was removed and the transitions that left it. -/
  | node (n : Node)
  /-- Whether the state was accepting before. -/
  | flag (accepting : Bool)
  /-- What the members of a batch remember. -/
  | batch (backups : List Backup)

def Backup.parts : Backup → List Backup
  | batch backups => backups
  | _ => []

structure Outcome where
  backup : Backup
  graph : Automaton
  /-- Why the edit was refused, if it was. -/
  refusal : Option Error

structure BatchOutcome where
  backups : List Backup
  graph : Automaton
  /-- Why one of the edits was refused, if one was. -/
  refusal : Option Error

/-- The outcome of a change that leaves behind the given backup in any case. -/
def Outcome.ofChange (backup : Backup) (a : Automaton) : Except Error Automaton → Outcome
  | .ok changed => ⟨backup, changed, none⟩
  | .error err => ⟨backup, a, some err⟩

namespace Edit

mutual
def apply : Edit → Backup → Automaton → Outcome
  | addState s, backup, a => .ofChange backup a (a.addState s [])
  | removeState s, backup, a =>
    match a.removeState s with
    | .ok (n, changed) => ⟨.node n, changed, none⟩
    | .error err => ⟨backup, a, some err⟩
  | addTransition t, backup, a => .ofChange backup a (a.addTransition t)
  | removeTransition t, backup, a =>
    .ofChange backup a ((a.removeTransition t.source t.id).map Prod.snd)
  | setAccepting s accepting, backup, a =>
    match a.setAccepting s accepting with
    | .ok (previous, changed) => ⟨.flag previous, changed, none⟩
    | .error err => ⟨backup, a, some err⟩
  | batch _ edits, backup, a =>
    let r := applyAll edits backup.parts a
    ⟨.batch r.backups, r.graph, r.refusal⟩
def applyAll : List Edit → List Backup → Automaton → BatchOutcome
  | [], _, a => ⟨[], a, none⟩
  | e :: es, backups, a =>
    let first := apply e (backups.headD .nothing) a
    match first.refusal with
    | some err => ⟨first.backup :: backups.tail, first.graph, some err⟩
    | none =>
      let rest := applyAll es backups.tail first.graph
      match rest.refusal with
      | none => ⟨first.backup :: rest.backups, rest.graph, none⟩
      | some err =>
        let back := revert e first.backup rest.graph
        ⟨back.backup :: rest.backups, back.graph, some err⟩
/-- Reverts an edit. Where nothing is remembered there is nothing to do. -/
def revert : Edit → Backup → Automaton → Outcome
  | addState s, backup, a =>
    .ofChange backup a ((a.removeState s.id).map Prod.snd)
  | removeState _, .node n, a => .ofChange .nothing a (a.addState n.state n.out)
  | removeState _, backup, a => ⟨backup, a, none⟩
  | addTransition t, backup, a =>
    .ofChange backup a ((a.removeTransition t.source t.id).map Prod.snd)
  | removeTransition t, backup, a => .ofChange backup a (a.addTransition t)
  | setAccepting s _, .flag previous, a =>
    .ofChange .nothing a ((a.setAccepting s previous).map Prod.snd)
  | setAccepting _ _, backup, a => ⟨backup, a, none⟩
  | batch _ edits, backup, a =>
    let r := revertAll edits backup.parts a
    ⟨.batch r.backups, r.graph, r.refusal⟩
def revertAll : List Edit → List Backup → Automaton → BatchOutcome
  | [], _, a => ⟨[], a, none⟩
  | e :: es, backups, a =>
    let rest := revertAll es backups.tail a
    match rest.refusal with
    | some err => ⟨backups.headD .nothing :: rest.backups, rest.graph, some err⟩
    | none =>
      let first := revert e (backups.headD .nothing) rest.graph
      match first.refusal with
      | none => ⟨first.backup :: rest.backups, first.graph, none⟩
      | some err =>
        let again := reapplyAll es rest.backups first.graph
        ⟨first.backup :: again.backups, again.graph, some err⟩
/-- Applies edits from first to last, passing over those that are refused. -/
def reapplyAll : List Edit → List Backup → Automaton → BatchOutcome
  | [], _, a => ⟨[], a, none⟩
  | e :: es, backups, a =>
    let first := apply e (backups.headD .nothing) a
    let rest := reapplyAll es backups.tail first.graph
    ⟨first.backup :: rest.backups, rest.graph, none⟩
end

end Edit

end RegularForms
