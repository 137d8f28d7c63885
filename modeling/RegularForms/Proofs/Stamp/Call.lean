import RegularForms.Proofs.Automaton.Ledger
import RegularForms.Proofs.Stamp.Conversion

/-!
# Calls with exchanged stamps

A `Call` is anything that can be asked of an automaton or done to it, along with the
identifiers, commands, tables and histories that are passed; its `Answer` is what it hands
back, and why it was refused if it was. Whoever works on an automaton passes on what earlier
calls have handed back. So when each call with exchanged stamps has the same answer and leaves
the same graph, with exchanged stamps, the same goes for every sequence of calls.
-/

namespace RegularForms

open Stamped Automaton

variable {f : Nat → Nat} {σ : Nat ↪o Nat}

/-! ## Answers -/

inductive Value where
  | flag (b : Bool)
  | number (n : Nat)
  | text (s : String)
  | symbols (cs : List Char)
  | isolation (i : Isolation)
  | expression (e : Expr)
  | stateIds (ss : List StateId)
  | transitionIds (ts : List TransitionId)
  | states (ss : List State)
  | transitions (ts : List Transition)
  | sets (sets : List StateSet)
  | step (s : Step)
  | history (h : History)
  | closures (table : ClosureTable)
  | subsets (table : SubsetTable)

def Value.exchange (f : Nat → Nat) : Value → Value
  | stateIds ss => stateIds (restamp f ss)
  | transitionIds ts => transitionIds (restamp f ts)
  | states ss => states (restamp f ss)
  | transitions ts => transitions (restamp f ts)
  | sets ss => sets (restamp f ss)
  | step s => step (restamp f s)
  | history h => history (restamp f h)
  | closures table => closures (restamp f table)
  | subsets table => subsets (restamp f table)
  | value => value

instance : Stamped Value where
  restamp := Value.exchange
  restamp_id value := by cases value <;> simp only [Value.exchange, restamp_id]
  restamp_restamp f g value := by cases value <;> simp only [Value.exchange, restamp_restamp]

def Value.isPlain : Value → Bool
  | flag _ | number _ | text _ | symbols _ | isolation _ | expression _ => true
  | _ => false

structure Answer where
  values : List Value
  /-- Why the call was refused, or stopped, if it was. -/
  refusal : Option Error

instance : Stamped Answer where
  restamp f r := ⟨restamp f r.values, restamp f r.refusal⟩
  restamp_id r := by rw [restamp_id, restamp_id]
  restamp_restamp f g r := by rw [restamp_restamp, restamp_restamp]

/-- What an answer says in words, flags, texts and expressions: the values without identifiers
and the message of the refusal. -/
def Answer.shown (r : Answer) : List Value × Option String :=
  (r.values.filter Value.isPlain, r.refusal.map Error.message)

/-- Stamps are not shown. -/
@[simp] theorem Answer.shown_restamp (r : Answer) : (restamp f r).shown = r.shown := by
  have hvalues : (r.values.map (restamp f)).filter Value.isPlain =
      r.values.filter Value.isPlain := by
    induction r.values with
    | nil => rfl
    | cons value values ih =>
        rw [List.map_cons, List.filter_cons, List.filter_cons, ih]
        cases value <;> rfl
  have hrefusal : (r.refusal.map (restamp f)).map Error.message = r.refusal.map Error.message := by
    rw [Option.map_map]
    exact congrArg (Option.map · r.refusal) (funext Error.message_restamp)
  exact congrArg₂ Prod.mk hvalues hrefusal

/-- The answer and the graph after something that hands back values along with another graph,
or is refused and leaves the graph as it is. -/
def Answer.settle (a : Automaton) : Except Error (List Value × Automaton) → Answer × Automaton
  | .ok (values, b) => (⟨values, none⟩, b)
  | .error err => (⟨[], some err⟩, a)

theorem Answer.settle_restamp (a : Automaton) (r : Except Error (List Value × Automaton)) :
    settle (restamp f a) (restamp f r) = restamp f (settle a r) := by
  cases r <;> rfl

/-! ## Questions -/

inductive Query where
  | start
  | state (s : StateId)
  | transition (t : TransitionId)
  | stateAt (index : Nat)
  | states
  | transitions
  | outgoing (s : StateId)
  | incoming (s : StateId)
  | hasState (s : StateId)
  | isAccepting (s : StateId)
  | isStart (s : StateId)
  | hasAccepting
  | hasEpsilon
  /-- What is reached along the transitions that are followed. -/
  | reachable (followed : List TransitionId) (s : StateId)
  | epsilonClosure (s : StateId)
  | unreachable
  | accepts (word : String)
  | print
  | describe (e : Edit)
  | requiredIsolation (t : Transition)
  | compound
  | singleLoop (s : StateId)
  | hasParallel (source target : StateId)
  | ambiguousSymbols (s : StateId)
  | hasAmbiguity
  | takeDown
  | closureOf (table : ClosureTable) (s : StateId)
  | classOf (table : ClosureTable) (s : StateId)
  | areEquivalent (table : ClosureTable) (s t : StateId)
  | hasOthers (table : ClosureTable) (s : StateId)
  | hasEquivalent (table : ClosureTable)
  | retainClosures (table : ClosureTable)
  | stateFor (table : SubsetTable) (set : StateSet)
  | setOf (table : SubsetTable) (s : StateId)
  | expand (table : SubsetTable) (ss : List StateId)
  | bind (table : SubsetTable) (s : State) (set : StateSet)
  | unbind (table : SubsetTable) (s : StateId)
  | retainSubsets (table : SubsetTable)
  | size (table : SubsetTable)

namespace Query

def answer (a : Automaton) : Query → Except Error Value
  | start => .ok (.stateIds [a.start])
  | state s => (a.state s).map fun s => .states [s]
  | transition t => (a.transition t).map fun t => .transitions [t]
  | stateAt index => .ok (.stateIds (a.stateAt? index).toList)
  | states => .ok (.states a.states)
  | transitions => .ok (.transitions a.transitions)
  | outgoing s => (a.outgoing s).map .transitions
  | incoming s => (a.incoming s).map .transitions
  | hasState s => .ok (.flag (a.hasState s))
  | isAccepting s => (a.isAccepting s).map .flag
  | isStart s => .ok (.flag (a.isStart s))
  | hasAccepting => .ok (.flag a.hasAccepting)
  | hasEpsilon => .ok (.flag a.hasEpsilon)
  | reachable followed s => (a.reachable (fun t => t.id ∈ followed) s).map .stateIds
  | epsilonClosure s => (a.epsilonClosure s).map .stateIds
  | unreachable => .ok (.stateIds a.unreachableStates)
  | accepts word => (a.accepts word).map .flag
  | print => .ok (.text a.print)
  | describe e => .ok (.text e.describe)
  | requiredIsolation t => (a.requiredIsolation t).map .isolation
  | compound => .ok (.transitionIds a.compoundTransitions)
  | singleLoop s => (Elimination.singleLoop? a s).map fun t => .transitionIds t.toList
  | hasParallel source target => (Elimination.hasParallel a source target).map .flag
  | ambiguousSymbols s =>
    (a.outgoing s).map fun ts => .symbols (Determinization.ambiguousSymbols ts)
  | hasAmbiguity => .ok (.flag (Determinization.hasAmbiguity a))
  | takeDown => .ok (.closures (.ofGraph a))
  | closureOf table s => .ok (.sets (table.closure? s).toList)
  | classOf table s => .ok (.sets (table.class? s).toList)
  | areEquivalent table s t => .ok (.flag (table.equivalent s t))
  | hasOthers table s => .ok (.flag (table.hasOthers a s))
  | hasEquivalent table => .ok (.flag (table.hasEquivalent a))
  | retainClosures table => .ok (.closures (table.retain a))
  | stateFor table set => .ok (.states (table.stateFor? set).toList)
  | setOf table s => .ok (.sets (table.setOf? s).toList)
  | expand table ss => .ok (.stateIds (table.expand ss))
  | bind table s set => .ok (.subsets (table.bind s set))
  | unbind table s => .ok (.subsets (table.unbind s))
  | retainSubsets table => .ok (.subsets (table.retain a))
  | size table => .ok (.number table.size)

def exchange (f : Nat → Nat) : Query → Query
  | state s => state (restamp f s)
  | transition t => transition (restamp f t)
  | outgoing s => outgoing (restamp f s)
  | incoming s => incoming (restamp f s)
  | hasState s => hasState (restamp f s)
  | isAccepting s => isAccepting (restamp f s)
  | isStart s => isStart (restamp f s)
  | reachable followed s => reachable (restamp f followed) (restamp f s)
  | epsilonClosure s => epsilonClosure (restamp f s)
  | describe e => describe (restamp f e)
  | requiredIsolation t => requiredIsolation (restamp f t)
  | singleLoop s => singleLoop (restamp f s)
  | hasParallel source target => hasParallel (restamp f source) (restamp f target)
  | ambiguousSymbols s => ambiguousSymbols (restamp f s)
  | closureOf table s => closureOf (restamp f table) (restamp f s)
  | classOf table s => classOf (restamp f table) (restamp f s)
  | areEquivalent table s t => areEquivalent (restamp f table) (restamp f s) (restamp f t)
  | hasOthers table s => hasOthers (restamp f table) (restamp f s)
  | hasEquivalent table => hasEquivalent (restamp f table)
  | retainClosures table => retainClosures (restamp f table)
  | stateFor table set => stateFor (restamp f table) (restamp f set)
  | setOf table s => setOf (restamp f table) (restamp f s)
  | expand table ss => expand (restamp f table) (restamp f ss)
  | bind table s set => bind (restamp f table) (restamp f s) (restamp f set)
  | unbind table s => unbind (restamp f table) (restamp f s)
  | retainSubsets table => retainSubsets (restamp f table)
  | size table => size (restamp f table)
  | q => q

instance : Stamped Query where
  restamp := exchange
  restamp_id q := by cases q <;> simp only [exchange, restamp_id]
  restamp_restamp f g q := by cases q <;> simp only [exchange, restamp_restamp]

theorem toList_restamp {α : Type} [Stamped α] (x : Option α) :
    (x.map (restamp f)).toList = x.toList.map (restamp f) := by
  cases x <;> rfl

/-- The answer to a question that is never refused. -/
theorem ok_of_eq {α : Type} [Stamped α] {x x' : α} {g g' : α → Value}
    (hx : x' = restamp f x) (hg : ∀ x, g' (restamp f x) = restamp f (g x)) :
    (Except.ok (g' x') : Except Error Value) = restamp f (.ok (g x)) := by
  rw [hx, hg, restamp_ok]

theorem answer_restamp (q : Query) (a : Automaton) :
    (restamp σ q).answer (restamp σ a) = restamp σ (q.answer a) := by
  cases q with
  | start => rfl
  | state s => exact map_restamp (a.state_restamp s) fun _ => rfl
  | transition t => exact map_restamp (a.transition_restamp t) fun _ => rfl
  | stateAt index =>
      refine ok_of_eq ?_ fun _ => rfl
      rw [stateAt?_restamp]
      exact toList_restamp _
  | states => exact ok_of_eq a.states_restamp fun _ => rfl
  | transitions => exact ok_of_eq a.transitions_restamp fun _ => rfl
  | outgoing s => exact map_restamp (a.outgoing_restamp s) fun _ => rfl
  | incoming s => exact map_restamp (a.incoming_restamp s) fun _ => rfl
  | hasState s => exact ok_of_eq (a.hasState_restamp s) fun _ => rfl
  | isAccepting s => exact map_restamp (a.isAccepting_restamp s) fun _ => rfl
  | isStart s => exact ok_of_eq (a.isStart_restamp s) fun _ => rfl
  | hasAccepting => exact ok_of_eq a.hasAccepting_restamp fun _ => rfl
  | hasEpsilon => exact ok_of_eq a.hasEpsilon_restamp fun _ => rfl
  | reachable followed s =>
      refine map_restamp (reachable_restamp a (fun t => ?_) s) fun _ => rfl
      simp only [Transition.id_restamp, restamp_list, mem_map_restamp]
  | epsilonClosure s => exact map_restamp (a.epsilonClosure_restamp s) fun _ => rfl
  | unreachable => exact ok_of_eq a.unreachableStates_restamp fun _ => rfl
  | accepts word => exact map_restamp (a.accepts_restamp word) fun _ => rfl
  | print => exact ok_of_eq a.print_restamp fun _ => rfl
  | describe e => exact ok_of_eq e.describe_restamp fun _ => rfl
  | requiredIsolation t => exact map_restamp (a.requiredIsolation_restamp t) fun _ => rfl
  | compound => exact ok_of_eq a.compoundTransitions_restamp fun _ => rfl
  | singleLoop s =>
      exact map_restamp (Elimination.singleLoop?_restamp a s) fun t =>
        congrArg Value.transitionIds (toList_restamp t)
  | hasParallel source target =>
      exact map_restamp (Elimination.hasParallel_restamp a source target) fun _ => rfl
  | ambiguousSymbols s =>
      exact map_restamp (a.outgoing_restamp s) fun ts =>
        congrArg Value.symbols (Determinization.ambiguousSymbols_restamp ts)
  | hasAmbiguity => exact ok_of_eq (Determinization.hasAmbiguity_restamp a) fun _ => rfl
  | takeDown => exact ok_of_eq (ClosureTable.ofGraph_restamp a) fun _ => rfl
  | closureOf table s =>
      refine ok_of_eq ?_ fun _ => rfl
      rw [table.closure?_restamp]
      exact toList_restamp _
  | classOf table s =>
      refine ok_of_eq ?_ fun _ => rfl
      rw [table.class?_restamp]
      exact toList_restamp _
  | areEquivalent table s t => exact ok_of_eq (table.equivalent_restamp s t) fun _ => rfl
  | hasOthers table s => exact ok_of_eq (table.hasOthers_restamp a s) fun _ => rfl
  | hasEquivalent table => exact ok_of_eq (table.hasEquivalent_restamp a) fun _ => rfl
  | retainClosures table => exact ok_of_eq (table.retain_restamp a) fun _ => rfl
  | stateFor table set =>
      refine ok_of_eq ?_ fun _ => rfl
      rw [restamp_list, table.stateFor?_restamp]
      exact toList_restamp _
  | setOf table s =>
      refine ok_of_eq ?_ fun _ => rfl
      rw [table.setOf?_restamp]
      exact toList_restamp _
  | expand table ss => exact ok_of_eq (table.expand_restamp ss) fun _ => rfl
  | bind table s set => exact ok_of_eq (table.bind_restamp s set) fun _ => rfl
  | unbind table s => exact ok_of_eq (table.unbind_restamp s) fun _ => rfl
  | retainSubsets table => exact ok_of_eq (table.retain_restamp a) fun _ => rfl
  | size table => exact ok_of_eq table.size_restamp fun _ => rfl

end Query

/-! ## Operations -/

namespace Operation

def outcome (a : Automaton) : Operation → Answer × Automaton
  | createState => (⟨[.states [a.freshState 0]], none⟩, a.reserve 1 0)
  | createTransition source target label =>
    (⟨[.transitions [a.freshTransition 0 source target label]], none⟩, a.reserve 0 1)
  | clear => (⟨[], none⟩, a.clear)
  | addState s out => Answer.settle a ((a.addState s out).map fun b => ([], b))
  | removeState s =>
    Answer.settle a
      ((a.removeState s).map fun r => ([.states [r.1.state], .transitions r.1.out], r.2))
  | addTransition t => Answer.settle a ((a.addTransition t).map fun b => ([], b))
  | removeTransition s t =>
    Answer.settle a ((a.removeTransition s t).map fun r => ([.transitions [r.1]], r.2))
  | setAccepting s accepting =>
    Answer.settle a ((a.setAccepting s accepting).map fun r => ([.flag r.1], r.2))
  | apply e backup =>
    let r := e.apply backup a
    (⟨[.step ⟨e, r.backup⟩], r.refusal⟩, r.graph)
  | revert e backup =>
    let r := e.revert backup a
    (⟨[.step ⟨e, r.backup⟩], r.refusal⟩, r.graph)

/-- The graph that is left is the one on the ledger. -/
theorem graph_perform (l : Ledger) (o : Operation) :
    (l.perform o).graph = (o.outcome l.graph).2 := by
  cases o with
  | addState s out => simp only [Ledger.perform, outcome]; cases l.graph.addState s out <;> rfl
  | removeState s => simp only [Ledger.perform, outcome]; cases l.graph.removeState s <;> rfl
  | addTransition t => simp only [Ledger.perform, outcome]; cases l.graph.addTransition t <;> rfl
  | removeTransition s t =>
      simp only [Ledger.perform, outcome]; cases l.graph.removeTransition s t <;> rfl
  | setAccepting s accepting =>
      simp only [Ledger.perform, outcome]; cases l.graph.setAccepting s accepting <;> rfl
  | _ => rfl

def exchange (f : Nat → Nat) : Operation → Operation
  | createTransition source target label =>
    createTransition (restamp f source) (restamp f target) label
  | addState s out => addState (restamp f s) (restamp f out)
  | removeState s => removeState (restamp f s)
  | addTransition t => addTransition (restamp f t)
  | removeTransition s t => removeTransition (restamp f s) (restamp f t)
  | setAccepting s accepting => setAccepting (restamp f s) accepting
  | apply e backup => apply (restamp f e) (restamp f backup)
  | revert e backup => revert (restamp f e) (restamp f backup)
  | o => o

instance : Stamped Operation where
  restamp := exchange
  restamp_id o := by cases o <;> simp only [exchange, restamp_id]
  restamp_restamp f g o := by cases o <;> simp only [exchange, restamp_restamp]

/-- A change of the graph that may be refused. -/
theorem settle_of_eq {α : Type} [Stamped α] {a : Automaton} {r r' : Except Error α}
    {g g' : α → List Value × Automaton} (hr : r' = restamp f r)
    (hg : ∀ x, g' (restamp f x) = restamp f (g x)) :
    Answer.settle (restamp f a) (r'.map g') = restamp f (Answer.settle a (r.map g)) := by
  rw [map_restamp hr hg, Answer.settle_restamp]

theorem outcome_restamp (o : Operation) (a : Automaton) :
    (restamp σ o).outcome (restamp σ a) = restamp σ (o.outcome a) := by
  cases o with
  | createState => rfl
  | createTransition source target label => rfl
  | clear => rfl
  | addState s out => exact settle_of_eq (a.addState_restamp s out) fun _ => rfl
  | removeState s => exact settle_of_eq (a.removeState_restamp s) fun _ => rfl
  | addTransition t => exact settle_of_eq (a.addTransition_restamp t) fun _ => rfl
  | removeTransition s t => exact settle_of_eq (a.removeTransition_restamp s t) fun _ => rfl
  | setAccepting s accepting =>
      exact settle_of_eq (a.setAccepting_restamp s accepting) fun _ => rfl
  | apply e backup =>
      have happly := e.apply_restamp (σ := σ) backup a
      exact congrArg (fun r : Outcome =>
        ((⟨[.step ⟨restamp σ e, r.backup⟩], r.refusal⟩ : Answer), r.graph)) happly
  | revert e backup =>
      have hrevert := e.revert_restamp (σ := σ) backup a
      exact congrArg (fun r : Outcome =>
        ((⟨[.step ⟨restamp σ e, r.backup⟩], r.refusal⟩ : Answer), r.graph)) hrevert

end Operation

/-! ## Commands -/

def Plan.handOver (p : Plan) : List Value × Automaton :=
  ([.step (.ofEdit p.edit)], p.graph)

def Plan.handOver? (a : Automaton) : Option Plan → List Value × Automaton
  | some p => p.handOver
  | none => ([], a)

theorem Plan.handOver?_restamp (a : Automaton) (p : Option Plan) :
    handOver? (restamp f a) (restamp f p) = restamp f (handOver? a p) := by
  cases p <;> rfl

inductive Builder where
  | single (e : Edit)
  | compose (purpose : Purpose) (steps : List Step)
  | detach (s : StateId)
  | choice (t : TransitionId)
  | sequence (t : TransitionId)
  | option (t : TransitionId)
  | iteration (isolation : Isolation) (t : TransitionId)
  | expand (t : TransitionId)
  | removeEpsilon (s : StateId)
  | mergeEquivalent (table : ClosureTable) (s : StateId)
  | determinize (table : SubsetTable) (s : StateId) (symbol : Char)
  | isolateFinal
  | isolateInitial
  | foldLoop (t : TransitionId)
  | joinParallel (source target : StateId)
  | bypass (s : StateId)

namespace Builder

def build (a : Automaton) : Builder → Except Error (List Value × Automaton)
  | single e => .ok ([.step (.ofEdit e)], a)
  | compose purpose steps => .ok ([.step (.batch purpose steps)], a)
  | detach s => (Pruning.detach s a).map Plan.handOver
  | choice t => (Expansion.choice t a).map Plan.handOver
  | sequence t => (Expansion.sequence t a).map Plan.handOver
  | option t => (Expansion.option t a).map Plan.handOver
  | iteration isolation t => (Expansion.iteration isolation t a).map Plan.handOver
  | expand t => (Expansion.plan? t a).map (Plan.handOver? a)
  | removeEpsilon s => (Determinization.removeEpsilon s a).map Plan.handOver
  | mergeEquivalent table s => (Determinization.mergeEquivalent table s a).map Plan.handOver
  | determinize table s symbol =>
    (Determinization.determinize table s symbol a).map fun r =>
      ([.step (.ofEdit r.1.edit), .subsets r.2], r.1.graph)
  | isolateFinal => .ok (Plan.handOver? a (Elimination.isolateFinal? a))
  | isolateInitial => .ok (Plan.handOver? a (Elimination.isolateInitial? a))
  | foldLoop t => (Elimination.foldLoop t a).map Plan.handOver
  | joinParallel source target => (Elimination.joinParallel source target a).map Plan.handOver
  | bypass s => (Elimination.bypass s a).map Plan.handOver

def exchange (f : Nat → Nat) : Builder → Builder
  | single e => single (restamp f e)
  | compose purpose steps => compose (restamp f purpose) (restamp f steps)
  | detach s => detach (restamp f s)
  | choice t => choice (restamp f t)
  | sequence t => sequence (restamp f t)
  | option t => option (restamp f t)
  | iteration isolation t => iteration isolation (restamp f t)
  | expand t => expand (restamp f t)
  | removeEpsilon s => removeEpsilon (restamp f s)
  | mergeEquivalent table s => mergeEquivalent (restamp f table) (restamp f s)
  | determinize table s symbol => determinize (restamp f table) (restamp f s) symbol
  | foldLoop t => foldLoop (restamp f t)
  | joinParallel source target => joinParallel (restamp f source) (restamp f target)
  | bypass s => bypass (restamp f s)
  | b => b

instance : Stamped Builder where
  restamp := exchange
  restamp_id b := by cases b <;> simp only [exchange, restamp_id]
  restamp_restamp f g b := by cases b <;> simp only [exchange, restamp_restamp]

theorem build_restamp (b : Builder) (a : Automaton) :
    (restamp σ b).build (restamp σ a) = restamp σ (b.build a) := by
  cases b with
  | single e => rfl
  | compose purpose steps =>
      show Except.ok ([Value.step (.batch (restamp σ purpose) (steps.map (restamp σ)))],
        restamp σ a) = _
      rw [Step.batch_restamp]
      rfl
  | detach s => exact map_restamp (Pruning.detach_restamp s a) fun _ => rfl
  | choice t => exact map_restamp (Expansion.choice_restamp a t) fun _ => rfl
  | sequence t => exact map_restamp (Expansion.sequence_restamp a t) fun _ => rfl
  | option t => exact map_restamp (Expansion.option_restamp a t) fun _ => rfl
  | iteration isolation t =>
      exact map_restamp (Expansion.iteration_restamp a isolation t) fun _ => rfl
  | expand t => exact map_restamp (Expansion.plan?_restamp a t) (Plan.handOver?_restamp a)
  | removeEpsilon s => exact map_restamp (Determinization.removeEpsilon_restamp a s) fun _ => rfl
  | mergeEquivalent table s =>
      exact map_restamp (Determinization.mergeEquivalent_restamp a s table) fun _ => rfl
  | determinize table s symbol =>
      exact map_restamp (Determinization.determinize_restamp a s table symbol) fun _ => rfl
  | isolateFinal =>
      show Except.ok (Plan.handOver? (restamp σ a) (Elimination.isolateFinal? (restamp σ a))) = _
      rw [Elimination.isolateFinal?_restamp]
      exact congrArg Except.ok (Plan.handOver?_restamp a _)
  | isolateInitial =>
      show Except.ok (Plan.handOver? (restamp σ a) (Elimination.isolateInitial? (restamp σ a))) = _
      rw [Elimination.isolateInitial?_restamp]
      exact congrArg Except.ok (Plan.handOver?_restamp a _)
  | foldLoop t => exact map_restamp (Elimination.foldLoop_restamp a t) fun _ => rfl
  | joinParallel source target =>
      exact map_restamp (Elimination.joinParallel_restamp a source target) fun _ => rfl
  | bypass s => exact map_restamp (Elimination.bypass_restamp a s) fun _ => rfl

end Builder

/-! ## Histories -/

inductive Movement where
  | record (s : Step)
  | back
  | forward
  | seek (position : Nat)
  | clear
  | setClobber (clobber : Bool)

namespace Movement

def move (h : History) (a : Automaton) : Movement → Moved
  | record s => h.record s a
  | back => h.back a
  | forward => h.forward a
  | seek position => h.seek position a
  | clear => ⟨h.clear, a, none⟩
  | setClobber clobber => ⟨h.setClobber clobber, a, none⟩

def exchange (f : Nat → Nat) : Movement → Movement
  | record s => record (restamp f s)
  | m => m

instance : Stamped Movement where
  restamp := exchange
  restamp_id m := by cases m <;> simp only [exchange, restamp_id]
  restamp_restamp f g m := by cases m <;> simp only [exchange, restamp_restamp]

theorem move_restamp (m : Movement) (h : History) (a : Automaton) :
    (restamp σ m).move (restamp σ h) (restamp σ a) = restamp σ (m.move h a) := by
  cases m with
  | record s => exact h.record_restamp a s
  | back => exact h.back_restamp a
  | forward => exact h.forward_restamp a
  | seek position => exact h.seek_restamp a position
  | clear => rfl
  | setClobber clobber => rfl

end Movement

/-! ## Conversions -/

inductive Driver where
  | expandAll
  | determinizeAll
  | eliminateAll
  | prune

instance : Plain Driver := .trivial Driver

namespace Driver

open Rewriting

def conversion : Driver → Rewriting (Option Expr)
  | expandAll => do
    Expansion.expandAll
    return none
  | determinizeAll => do
    Determinization.determinizeAll
    return none
  | eliminateAll => Elimination.eliminateAll
  | prune => do
    Pruning.prune
    return none

theorem follows_conversion (d : Driver) : Follows σ d.conversion d.conversion := by
  have hnone : Follows σ (pure none : Rewriting (Option Expr)) (pure none) := follows_pure none
  cases d with
  | expandAll => exact Expansion.follows_expandAll.bind fun _ => hnone
  | determinizeAll => exact Determinization.follows_determinizeAll.bind fun _ => hnone
  | eliminateAll => exact Elimination.follows_eliminateAll
  | prune => exact Pruning.follows_prune.bind fun _ => hnone

end Driver

/-! ## Calls -/

/-- Anything that can be asked of an automaton or done to it. -/
inductive Call where
  | ask (q : Query)
  | operate (o : Operation)
  | build (b : Builder)
  | move (h : History) (m : Movement)
  /-- A conversion, recorded in a history if there is one. -/
  | convert (d : Driver) (history : Option History)

namespace Call

def report : Except Error (Option Expr) × Session → Answer × Automaton
  | (.ok e, s) => (⟨e.toList.map .expression ++ s.history.toList.map .history, none⟩, s.graph)
  | (.error err, s) => (⟨s.history.toList.map .history, some err⟩, s.graph)

def perform (a : Automaton) : Call → Answer × Automaton
  | ask q => Answer.settle a ((q.answer a).map fun value => ([value], a))
  | operate o => o.outcome a
  | build b => Answer.settle a (b.build a)
  | move h m =>
    let r := m.move h a
    (⟨[.history r.history], r.refusal⟩, r.graph)
  | convert d history => report (d.conversion.runOn a history)

def run : List Call → Automaton → List Answer × Automaton
  | [], a => ([], a)
  | call :: calls, a =>
    let (answer, b) := call.perform a
    let (answers, c) := run calls b
    (answer :: answers, c)

def exchange (f : Nat → Nat) : Call → Call
  | ask q => ask (restamp f q)
  | operate o => operate (restamp f o)
  | build b => build (restamp f b)
  | move h m => move (restamp f h) (restamp f m)
  | convert d history => convert d (restamp f history)

instance : Stamped Call where
  restamp := exchange
  restamp_id call := by cases call <;> simp only [exchange, restamp_id]
  restamp_restamp f g call := by cases call <;> simp only [exchange, restamp_restamp]

theorem report_restamp (r : Except Error (Option Expr) × Session) :
    report (restamp f r) = restamp f (report r) := by
  obtain ⟨_ | _ | e, a, _ | h⟩ := r <;> rfl

/-- A call with exchanged stamps has the same answer with exchanged stamps, and leaves the same
graph with exchanged stamps. -/
theorem perform_restamp (call : Call) (a : Automaton) :
    (restamp σ call).perform (restamp σ a) = restamp σ (call.perform a) := by
  cases call with
  | ask q => exact Operation.settle_of_eq (q.answer_restamp a) fun _ => rfl
  | operate o => exact o.outcome_restamp a
  | build b =>
      have hbuild := congrArg (Answer.settle (restamp σ a)) (b.build_restamp (σ := σ) a)
      exact hbuild.trans (Answer.settle_restamp ..)
  | move h m =>
      exact congrArg (fun r : Moved =>
        ((⟨[.history r.history], r.refusal⟩ : Answer), r.graph)) (m.move_restamp h a)
  | convert d history =>
      exact (congrArg report (d.follows_conversion a history)).trans (report_restamp _)

/-- The same for every sequence of calls. -/
theorem run_restamp (calls : List Call) (a : Automaton) :
    run (restamp σ calls) (restamp σ a) = restamp σ (run calls a) := by
  induction calls generalizing a with
  | nil => rfl
  | cons call calls ih =>
      have hperform := call.perform_restamp (σ := σ) a
      have hrest := ih (call.perform a).2
      show (((restamp σ call).perform (restamp σ a)).1 ::
          (run (restamp σ calls) ((restamp σ call).perform (restamp σ a)).2).1,
        (run (restamp σ calls) ((restamp σ call).perform (restamp σ a)).2).2) = _
      rw [hperform, snd_restamp, hrest]
      rfl

end Call

end RegularForms
