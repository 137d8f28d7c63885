import RegularForms.Proofs.Supply.Conversion

/-!
# What calls need and leave

Nothing is done to an automaton that is not made of changes of its graph, of handing out and of
dropping everything. So calls that bring along nothing but what is in the stock keep a property
that the stock supplies, also when one is refused half-way, and what they hand back is in the stock
and may be brought along again.
-/

namespace RegularForms

open Automaton Rewriting

variable {α : Type} {stock : Stock} {P : Automaton → Prop} {a : Automaton} {p : Plan}

/-- A value holds what is at hand. An expression is a label at hand that is simplified. -/
def Value.From (stock : Stock) : Value → Prop
  | transitions ts => ∀ t ∈ ts, t ∈ stock.transitions
  | step s => s.From stock
  | history h => h.From stock
  | expression e => ∃ t ∈ stock.transitions, e = t.label.simplify
  | _ => True

def Operation.Brings (stock : Stock) : Operation → Prop
  | createTransition source target label => ∀ id, ⟨id, source, target, label⟩ ∈ stock.transitions
  | o => o.From stock

def Builder.From (stock : Stock) : Builder → Prop
  | single e => e.From stock
  | compose _ steps => ∀ s ∈ steps, s.From stock
  | _ => True

def Movement.From (stock : Stock) : Movement → Prop
  | record s => s.From stock
  | _ => True

def Call.From (stock : Stock) : Call → Prop
  | ask _ => True
  | operate o => o.Brings stock
  | build b => b.From stock
  | move h m => h.From stock ∧ m.From stock
  | convert _ history => ∀ h ∈ history, h.From stock

structure Answered (stock : Stock) (P : Automaton → Prop) (r : Answer × Automaton) : Prop where
  graph : P r.2
  values : ∀ value ∈ r.1.values, value.From stock

theorem answered_settle (ha : P a) {r : Except Error α} {g : α → List Value × Automaton}
    (hr : Yields r fun x => P (g x).2 ∧ ∀ value ∈ (g x).1, value.From stock) :
    Answered stock P (Answer.settle a (r.map g)) := by
  cases r with
  | ok x => exact ⟨(hr x rfl).1, (hr x rfl).2⟩
  | error err => exact ⟨ha, List.forall_mem_nil _⟩

namespace Stock.Supplies

variable (hP : stock.Supplies P)

include hP

/-- What is asked for is in the graph. -/
theorem answer (q : Query) (ha : P a) : Yields (q.answer a) (Value.From stock) := by
  cases q with
  | transition t =>
      refine Yields.map fun u hu => List.forall_mem_singleton.2 ?_
      exact hP.transition_mem ha (mem_transitions_of_transition_eq hu).1
  | transitions => exact yields_pure fun t ht => hP.transition_mem ha ht
  | outgoing s =>
      exact Yields.map fun ts hts t ht =>
        hP.transition_mem ha (mem_transitions_of_outgoing_eq hts ht)
  | incoming s =>
      exact Yields.map fun ts hts t ht =>
        hP.transition_mem ha (mem_transitions_of_incoming_eq hts ht)
  | state | isAccepting | reachable | epsilonClosure | accepts | requiredIsolation | singleLoop
  | hasParallel | ambiguousSymbols => exact Yields.map fun _ _ => trivial
  | _ => exact yields_pure trivial

theorem outcome (o : Operation) (ho : o.Brings stock) (ha : P a) :
    Answered stock P (o.outcome a) := by
  cases o with
  | createState => exact ⟨hP.reserve a 1 0 ha, List.forall_mem_singleton.2 trivial⟩
  | createTransition =>
      exact ⟨hP.reserve a 0 1 ha, List.forall_mem_singleton.2 (List.forall_mem_singleton.2 (ho _))⟩
  | clear => exact ⟨hP.clear a ha, List.forall_mem_nil _⟩
  | addState =>
      exact answered_settle ha fun b hb => ⟨hP.addState ha ho.1 ho.2 hb, List.forall_mem_nil _⟩
  | removeState =>
      refine answered_settle ha fun r hr => ?_
      obtain ⟨hb, -, hout⟩ := hP.removeState ha hr
      exact ⟨hb, List.forall_mem_cons.2 ⟨trivial, List.forall_mem_singleton.2 hout⟩⟩
  | addTransition =>
      exact answered_settle ha fun b hb => ⟨hP.addTransition ha ho hb, List.forall_mem_nil _⟩
  | removeTransition =>
      refine answered_settle ha fun r hr => ⟨hP.removeTransition ha hr, ?_⟩
      have hmem := mem_transitions_of_mem_out (of_removeTransition hr).1
      exact List.forall_mem_singleton.2 (List.forall_mem_singleton.2 (hP.transition_mem ha hmem))
  | setAccepting =>
      exact answered_settle ha fun r hr =>
        ⟨hP.setAccepting ha hr, List.forall_mem_singleton.2 trivial⟩
  | apply e backup =>
      obtain ⟨hgraph, hstep⟩ := hP.apply (s := ⟨e, backup⟩) ho ha
      exact ⟨hgraph, List.forall_mem_singleton.2 hstep⟩
  | revert e backup =>
      obtain ⟨hgraph, hstep⟩ := hP.revert (s := ⟨e, backup⟩) ho ha
      exact ⟨hgraph, List.forall_mem_singleton.2 hstep⟩

theorem handOver (ha : P a) (hp : Drafted a p) :
    P p.handOver.2 ∧ ∀ value ∈ p.handOver.1, value.From stock := by
  obtain ⟨m, n, hgraph⟩ := hp.planFor.graph
  have hplan : P p.graph := hgraph ▸ hP.reserve a m n ha
  have hstep : (Step.ofEdit p.edit).From stock := ⟨hP.drafted ha hp, trivial⟩
  exact ⟨hplan, List.forall_mem_singleton.2 hstep⟩

theorem handOver? (ha : P a) {o : Option Plan} (ho : ∀ p ∈ o, Drafted a p) :
    P (Plan.handOver? a o).2 ∧ ∀ value ∈ (Plan.handOver? a o).1, value.From stock := by
  cases o with
  | none => exact ⟨ha, List.forall_mem_nil _⟩
  | some p => exact hP.handOver ha (ho p rfl)

theorem build (b : Builder) (hb : b.From stock) (ha : P a) :
    Answered stock P (Answer.settle a (b.build a)) := by
  have hplan : ∀ {r : Except Error Plan}, Yields r (Drafted a) →
      Answered stock P (Answer.settle a (r.map Plan.handOver)) := fun hr =>
    answered_settle ha fun p hp => hP.handOver ha (hr p hp)
  have hplan? : ∀ {r : Except Error (Option Plan)}, (Yields r fun o => ∀ p ∈ o, Drafted a p) →
      Answered stock P (Answer.settle a (r.map (Plan.handOver? a))) := fun hr =>
    answered_settle ha fun o ho => hP.handOver? ha (hr o ho)
  cases b with
  | single e => exact ⟨ha, List.forall_mem_singleton.2 ⟨hb, trivial⟩⟩
  | compose purpose steps => exact ⟨ha, List.forall_mem_singleton.2 (Step.from_batch hb)⟩
  | detach => exact hplan fun _ => .detach
  | choice => exact hplan fun _ => .choice
  | sequence => exact hplan fun _ => .sequence
  | option => exact hplan fun _ => .option
  | iteration => exact hplan fun _ => .iteration
  | expand => exact hplan? drafted_plan?
  | removeEpsilon => exact hplan fun _ => .removeEpsilon
  | mergeEquivalent => exact hplan fun _ => .mergeEquivalent
  | determinize =>
      refine answered_settle ha fun r hr => ?_
      obtain ⟨hgraph, hvalues⟩ := hP.handOver ha (.determinize hr)
      exact ⟨hgraph, List.forall_mem_cons.2
        ⟨List.forall_mem_singleton.1 hvalues, List.forall_mem_singleton.2 trivial⟩⟩
  | isolateFinal => exact hplan? (yields_pure fun _ => .isolateFinal)
  | isolateInitial => exact hplan? (yields_pure fun _ => .isolateInitial)
  | foldLoop => exact hplan fun _ => .foldLoop
  | joinParallel => exact hplan fun _ => .joinParallel
  | bypass => exact hplan fun _ => .bypass

theorem move (m : Movement) {h : History} (hm : m.From stock) (hh : h.From stock) (ha : P a) :
    (m.move h a).Keeps stock P h := by
  cases m with
  | record s => exact hP.record hm ha
  | back => exact hP.back hh ha
  | forward => exact hP.forward hh ha
  | seek position => exact hP.seek position hh ha
  | clear => exact ⟨ha, fun _ => ⟨List.forall_mem_nil _, List.forall_mem_nil _⟩⟩
  | setClobber clobber => exact ⟨ha, fun hh => ⟨hh.done, hh.undone⟩⟩

/-- A call that brings along what is at hand hands back such things. -/
theorem perform (call : Call) (hcall : call.From stock) (ha : P a) :
    Answered stock P (call.perform a) := by
  cases call with
  | ask q =>
      exact answered_settle ha fun value hvalue =>
        ⟨ha, List.forall_mem_singleton.2 (hP.answer q ha value hvalue)⟩
  | operate o => exact hP.outcome o hcall ha
  | build b => exact hP.build b hcall ha
  | move h m =>
      obtain ⟨hgraph, hhistory⟩ := hP.move m hcall.2 hcall.1 ha
      exact ⟨hgraph, List.forall_mem_singleton.2 (hhistory hcall.1)⟩
  | convert d history =>
      have hkept := hP.conversion d a history ha
      have hhistory : ∀ value ∈ (d.conversion.runOn a history).2.history.toList.map
          Value.history, value.From stock :=
        List.forall_mem_map.2 fun h hh => hkept.history hcall h (Option.mem_toList.1 hh)
      obtain ⟨⟨r, s⟩, hrun⟩ : ∃ out, d.conversion.runOn a history = out := ⟨_, rfl⟩
      rw [hrun] at hkept hhistory
      show Answered stock P (Call.report (d.conversion.runOn a history))
      rw [hrun]
      cases r with
      | ok o =>
          refine ⟨hkept.graph, List.forall_mem_append.2 ⟨List.forall_mem_map.2 ?_, hhistory⟩⟩
          intro e he
          obtain ⟨t, ht, heq⟩ := d.returns_conversion a history o s hrun e (Option.mem_toList.1 he)
          exact ⟨t, hP.transition_mem hkept.graph ht, heq⟩
      | error err => exact ⟨hkept.graph, hhistory⟩

/-- So does a sequence of calls. -/
theorem run (calls : List Call) (hcalls : ∀ call ∈ calls, call.From stock) (ha : P a) :
    P (Call.run calls a).2 ∧ ∀ r ∈ (Call.run calls a).1, ∀ value ∈ r.values, value.From stock := by
  induction calls generalizing a with
  | nil => exact ⟨ha, List.forall_mem_nil _⟩
  | cons call calls ih =>
      obtain ⟨hcall, hcalls⟩ := List.forall_mem_cons.1 hcalls
      have hfirst := hP.perform call hcall ha
      obtain ⟨hgraph, hvalues⟩ := ih hcalls hfirst.graph
      exact ⟨hgraph, List.forall_mem_cons.2 ⟨hfirst.values, hvalues⟩⟩

end Stock.Supplies

end RegularForms
