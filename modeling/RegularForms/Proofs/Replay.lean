import RegularForms.Proofs.Automaton.Ledger
import RegularForms.Proofs.Edit.Counters
import RegularForms.Proofs.Edit.Refusal
import RegularForms.Proofs.History

/-!
# A history tells how its graph has come about

`Visits` describes work on a graph by way of a history: steps are recorded, the cursor is
moved, and in between states and transitions are handed out. Whatever is refused on the way
changes nothing. At each moment the graph is the one that the steps before the cursor lead
to when they are applied to the graph of the beginning, and no movement of the cursor within
the history is refused.

The invariant is that the history is sound, through graphs which the edits recorded before
them lead to from the beginning. Edits do not look at the counters, so it does not matter
that states and transitions are handed out while the edits are recorded and not while they
are made again.
-/

namespace RegularForms

namespace Automaton

/-- Two automata have the same graph; they may have handed out different things. -/
structure SameGraph (a b : Automaton) : Prop where
  owner_eq : a.owner = b.owner
  start_eq : a.start = b.start
  nodes_eq : a.nodes = b.nodes

theorem sameGraph_recount (a : Automaton) (i j : Nat) : (a.recount i j).SameGraph a :=
  ⟨rfl, rfl, rfl⟩

theorem SameGraph.symm {a b : Automaton} (h : a.SameGraph b) : b.SameGraph a :=
  ⟨h.owner_eq.symm, h.start_eq.symm, h.nodes_eq.symm⟩

theorem SameGraph.trans {a b c : Automaton} (h : a.SameGraph b) (h' : b.SameGraph c) :
    a.SameGraph c :=
  ⟨h.owner_eq.trans h'.owner_eq, h.start_eq.trans h'.start_eq, h.nodes_eq.trans h'.nodes_eq⟩

end Automaton

namespace History

open Automaton

def replay : List Step → Automaton → Except Error Automaton
  | [], a => .ok a
  | s :: ss, a =>
    let r := s.apply a
    match r.refusal with
    | some err => .error err
    | none => replay ss r.graph

theorem replay_append_singleton {ss : List Step} {s : Step} {a b c : Automaton} {left : Backup}
    (h : replay ss a = .ok b) (hs : s.apply b = ⟨left, c, none⟩) :
    replay (ss ++ [s]) a = .ok c := by
  induction ss generalizing a with
  | nil =>
      obtain rfl := Except.ok.inj h
      simp only [List.nil_append, replay, hs]
  | cons t ts ih =>
      rw [replay] at h
      rw [List.cons_append, replay]
      cases hr : (t.apply a).refusal with
      | some err =>
          simp only [hr] at h
          nomatch h
      | none =>
          simp only [hr] at h ⊢
          exact ih h

/-- One gets from an automaton and a history without steps to an automaton and a history of it.
What is recorded is about states and transitions that are at hand, and may be refused; so may a
movement. -/
inductive Visits (l₀ : Ledger) : Ledger → History → Prop
  | start {h : History} (hempty : h.steps = []) : Visits l₀ l₀ h
  | createState {l : Ledger} {h : History} (hv : Visits l₀ l h) :
      Visits l₀ (l.perform .createState) h
  | createTransition {l : Ledger} {h : History} (hv : Visits l₀ l h) (source target : StateId)
      (label : Expr) : Visits l₀ (l.perform (.createTransition source target label)) h
  | record {l : Ledger} {h : History} (hv : Visits l₀ l h) {s : Step}
      (hs : s.edit.From l.stock) :
      Visits l₀ { l with graph := (h.record s l.graph).graph } (h.record s l.graph).history
  | back {l : Ledger} {h : History} (hv : Visits l₀ l h) :
      Visits l₀ { l with graph := (h.back l.graph).graph } (h.back l.graph).history
  | forward {l : Ledger} {h : History} (hv : Visits l₀ l h) :
      Visits l₀ { l with graph := (h.forward l.graph).graph } (h.forward l.graph).history
  | seek {l : Ledger} {h : History} (hv : Visits l₀ l h) (position : Nat) :
      Visits l₀ { l with graph := (h.seek position l.graph).graph }
        (h.seek position l.graph).history
  | setClobber {l : Ledger} {h : History} (hv : Visits l₀ l h) (clobber : Bool) :
      Visits l₀ l (h.setClobber clobber)

/-- A graph is the one that some edits, latest first, lead to from the graph of the beginning,
whatever they remember, but for the counters, which have given values. -/
structure Retold (a₀ : Automaton) (issued : Set Transition) (i j : Nat) (es : List Edit)
    (a : Automaton) : Prop where
  accounted : Accounted issued a
  owner_eq : a.owner = a₀.owner
  replays : ∀ ss : List Step, ss.map Step.edit = es.reverse →
    ∃ b, replay ss a₀ = .ok b ∧ a = b.recount i j

variable {l₀ l : Ledger} {a₀ a b : Automaton} {issued : Set Transition} {i j : Nat}
  {es : List Edit}

theorem Retold.nextTransition_eq (h : Retold a₀ issued i j es a) : a.nextTransition = j := by
  obtain ⟨b, -, rfl⟩ := h.replays (es.reverse.map .ofEdit) (List.map_map.trans (List.map_id _))
  rfl

theorem Retold.sameGraph (h : Retold a₀ issued i j es a) {ss : List Step}
    (hss : ss.map Step.edit = es.reverse) : ∃ b, replay ss a₀ = .ok b ∧ a.SameGraph b := by
  obtain ⟨b, hreplay, rfl⟩ := h.replays ss hss
  exact ⟨b, hreplay, sameGraph_recount b i j⟩

theorem retold_nil (h : Accounted issued a) :
    Retold a issued a.nextState a.nextTransition [] a where
  accounted := h
  owner_eq := rfl
  replays ss hss := by
    obtain rfl := List.map_eq_nil_iff.1 hss
    exact ⟨a, rfl, rfl⟩

theorem Retold.replays_reserve (h : Retold a₀ issued i j es a) (m n : Nat) (ss : List Step)
    (hss : ss.map Step.edit = es.reverse) :
    ∃ b, replay ss a₀ = .ok b ∧ a.reserve m n = b.recount (i + m) (j + n) := by
  obtain ⟨b, hreplay, rfl⟩ := h.replays ss hss
  exact ⟨b, hreplay, rfl⟩

theorem Retold.createState (h : Retold a₀ issued i j es a) :
    Retold a₀ issued (i + 1) j es (a.reserve 1 0) where
  accounted := h.accounted.createState
  owner_eq := h.owner_eq
  replays := h.replays_reserve 1 0

/-- What is handed out next is the same at each graph of a history. -/
theorem Retold.freshTransition_eq (h : Retold a₀ issued i j es a) (source target : StateId)
    (label : Expr) :
    a.freshTransition 0 source target label = ⟨⟨a₀.owner, j⟩, source, target, label⟩ := by
  rw [freshTransition, h.owner_eq, h.nextTransition_eq, Nat.add_zero]

theorem Retold.createTransition (h : Retold a₀ issued i j es a) (source target : StateId)
    (label : Expr) :
    Retold a₀ (insert ⟨⟨a₀.owner, j⟩, source, target, label⟩ issued) i (j + 1) es
      (a.reserve 0 1) where
  accounted :=
    h.freshTransition_eq source target label ▸
      h.accounted.createTransition source target label
  owner_eq := h.owner_eq
  replays := h.replays_reserve 0 1

/-- An edit that joins a graph to another one can also be made at the end of the replay. -/
theorem Retold.cons (h : Retold a₀ issued i j es a) {e : Edit} (he : e.From (a.stock issued))
    (hjoins : e.Joins a b) : Retold a₀ issued i j (e :: es) b where
  accounted := (hjoins.stocked ⟨h.accounted, rfl⟩ he).1
  owner_eq := (owner_eq_of_stock_eq (hjoins.stocked ⟨h.accounted, rfl⟩ he).2).trans h.owner_eq
  replays ss hss := by
    rw [List.reverse_cons] at hss
    obtain ⟨ts, ss, rfl, hts, hs⟩ := List.map_eq_append_iff.1 hss
    obtain ⟨s, rfl, rfl⟩ := List.map_eq_singleton_iff.1 hs
    obtain ⟨c, hreplay, rfl⟩ := h.replays ts hts
    obtain ⟨left, happly, -⟩ := hjoins.apply_eq s.backup
    -- The replay has handed out nothing, but the edit does the same with its counters.
    rw [(Edit.oblivious s.edit s.backup c i j).1] at happly
    rcases hc : s.apply c with ⟨used, c', refusal⟩
    have hr : Outcome.recount ⟨used, c', refusal⟩ i j = ⟨left, b, none⟩ := hc ▸ happly
    obtain ⟨rfl, rfl, rfl⟩ := Outcome.mk.inj hr
    exact ⟨c', replay_append_singleton hreplay hc, rfl⟩

/-- The history of a graph that is visited is sound, through graphs that are told of again. -/
theorem Visits.sound {h : History} (h₀ : l₀.Reachable) (hv : Visits l₀ l h) :
    ∃ i j, h.Sound (Retold l₀.graph l.transitions i j) l.graph := by
  induction hv with
  | start hempty => exact ⟨_, _, sound_of_steps_eq_nil hempty (retold_nil h₀.kept.accounted)⟩
  | createState _ ih =>
      obtain ⟨i, j, hs⟩ := ih
      exact ⟨i + 1, j, hs.reserve fun _ _ hr => hr.createState⟩
  | createTransition _ source target label ih =>
      obtain ⟨i, j, hs⟩ := ih
      refine ⟨i, j + 1, ?_⟩
      show History.Sound (Retold _ (insert _ _) _ _) _ _
      rw [hs.holds.freshTransition_eq]
      exact hs.reserve fun _ _ hr => hr.createTransition source target label
  | @record l h _ s he ih =>
      obtain ⟨i, j, hs⟩ := ih
      refine ⟨i, j, ?_⟩
      have hr := hs.holds
      rcases Edit.settled _ _ s.edit l.graph ⟨hr.accounted, rfl⟩ he with ⟨b, hjoins, -⟩ | hrefused
      · exact hs.record hjoins (hr.cons he hjoins)
      · obtain ⟨left, err, happly⟩ := hrefused s.backup
        obtain ⟨hhistory, hgraph⟩ := record_of_refused (h := h) (s := s) happly
        rwa [hhistory, hgraph]
  | back _ ih =>
      obtain ⟨i, j, hs⟩ := ih
      exact ⟨i, j, hs.back.2.1⟩
  | forward _ ih =>
      obtain ⟨i, j, hs⟩ := ih
      exact ⟨i, j, hs.forward.2.1⟩
  | @seek l h _ position ih =>
      obtain ⟨i, j, hs⟩ := ih
      refine ⟨i, j, ?_⟩
      by_cases hle : position ≤ h.length
      · exact (hs.seek hle).2.1
      · have hout : h.seek position l.graph = ⟨h, l.graph, some (.outOfRange position h.length)⟩ :=
          if_pos (Nat.lt_of_not_le hle)
        rwa [hout]
  | setClobber _ clobber ih => exact ih

/-- Wherever the cursor is sought, there is the graph that the edits up to there lead to. -/
theorem Sound.seek_retold {h : History} (hs : h.Sound (Retold a₀ issued i j) a) {position : Nat}
    (hle : position ≤ h.length) {ss : List Step}
    (hss : ss.map Step.edit = h.edits.take position) :
    ∃ b, replay ss a₀ = .ok b ∧ (h.seek position a).graph.SameGraph b := by
  obtain ⟨-, hsound, hedits, hcursor⟩ := hs.seek hle
  refine hsound.holds.sameGraph ?_
  rw [← take_cursor_edits, hcursor, hedits, hss]

/-- Work by way of a history, begun with a graph that has come about by operations, is
faithful to the history: the graph is the one that the steps before the cursor lead to from
the beginning. Neither movement by one step is refused, nor any movement to a position
within the history, which leads to the graph of that position. So the position 0 is the
beginning, and the first edits of a history determine the graph, whatever else has been
done. -/
theorem replay_of_visits {h : History} (h₀ : l₀.Reachable) (hv : Visits l₀ l h) :
    h.cursor ≤ h.length ∧
      (∃ b, replay (h.steps.take h.cursor) l₀.graph = .ok b ∧ l.graph.SameGraph b) ∧
      (h.back l.graph).refusal = none ∧ (h.forward l.graph).refusal = none ∧
      (∀ position ≤ h.length,
        (h.seek position l.graph).refusal = none ∧
          (h.seek position l.graph).history.edits = h.edits ∧
          (h.seek position l.graph).history.cursor = position ∧
            ∃ b, replay (h.steps.take position) l₀.graph = .ok b ∧
              (h.seek position l.graph).graph.SameGraph b) ∧
      (h.seek 0 l.graph).graph.SameGraph l₀.graph ∧
      ∀ (l' : Ledger) (h' : History), Visits l₀ l' h' → ∀ position ≤ h.length,
        h'.edits.take position = h.edits.take position →
          (h.seek position l.graph).graph.SameGraph (h'.seek position l'.graph).graph := by
  obtain ⟨i, j, hs⟩ := hv.sound h₀
  refine ⟨h.cursor_le_length, hs.holds.sameGraph (List.map_take.trans h.take_cursor_edits),
    hs.back.1, hs.forward.1, fun position hle => ?_, ?_,
    fun l' h' hv' position hle htake => ?_⟩
  · obtain ⟨hrefusal, -, hedits, hcursor⟩ := hs.seek hle
    exact ⟨hrefusal, hedits, hcursor, hs.seek_retold hle List.map_take⟩
  · have hnone : ([] : List Step).map Step.edit = h.edits.take 0 := rfl
    obtain ⟨b, hreplay, hgraph⟩ := hs.seek_retold (Nat.zero_le _) hnone
    obtain rfl := Except.ok.inj hreplay
    exact hgraph
  · obtain ⟨i', j', hs'⟩ := hv'.sound h₀
    have hle' : position ≤ h'.length := by
      have hlength := congrArg List.length htake
      rw [List.length_take, List.length_take, length_edits, length_edits,
        Nat.min_eq_left hle] at hlength
      exact hlength ▸ Nat.min_le_right _ _
    -- Both graphs come from one replay, since a replay of either history makes the same edits.
    obtain ⟨b, hreplay, hgraph⟩ := hs.seek_retold hle List.map_take
    obtain ⟨c, hreplay', hgraph'⟩ := hs'.seek_retold hle' (List.map_take.trans htake.symm)
    obtain rfl := Except.ok.inj (hreplay.symm.trans hreplay')
    exact hgraph.trans hgraph'.symm

/-- A batch is recorded, then a transition, and then the cursor goes back by one. -/
theorem replay_of_visits_batch :
    (Ledger.ofGraph (.new 0)).Reachable ∧
      ∃ l h, Visits (.ofGraph (.new 0)) l h ∧ h.length = 2 ∧ h.cursor = 1 ∧
        l.graph.states = [⟨⟨0, 0⟩, false⟩, ⟨⟨0, 1⟩, true⟩] ∧ l.graph.transitions = [] ∧
        (h.seek 2 l.graph).refusal = none ∧ (h.seek 0 l.graph).graph.SameGraph (.new 0) := by
  have hv : Visits (.ofGraph (.new 0)) (.ofGraph (.new 0)) (.new false) := .start rfl
  have hv := hv.createState.record (s := .ofEdit (.batch .isolateFinal
    [.addState ⟨⟨0, 1⟩, false⟩, .setAccepting ⟨0, 1⟩ true])) ⟨fun _ => by decide, trivial, trivial⟩
  have hv := (hv.createTransition ⟨0, 0⟩ ⟨0, 1⟩ (.sym 'a')).record
    (s := .ofEdit (.addTransition ⟨⟨0, 0⟩, ⟨0, 0⟩, ⟨0, 1⟩, .sym 'a'⟩)) fun _ => .inl rfl
  have hv := hv.back
  have h₀ := Ledger.Reachable.new 0
  obtain ⟨-, -, -, -, hseek, hbegin, -⟩ := replay_of_visits h₀ hv
  exact ⟨h₀, _, _, hv, rfl, rfl, rfl, rfl, (hseek 2 (by decide)).1, hbegin⟩

end History

end RegularForms
