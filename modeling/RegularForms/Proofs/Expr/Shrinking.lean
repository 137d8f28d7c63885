import Mathlib.Logic.Function.Iterate
import RegularForms.Proofs.Expr.Normal
import RegularForms.Proofs.Expr.Symbols

/-!
# Simplification shrinks

Every rule of simplification takes something away. `Shrinks es ds` says of two lists of
expressions that they are the same or that the second one has fewer nodes than the first,
and no symbol besides those of the first. In this sense a list shrinks to its parts, to the
operands of what is in it, and to what its neighbours merge into. So whatever a node is
rebuilt from, the node shrinks.

The star of an expression is the one node that is built in several rounds, each of which
hands an expression to the next. `starStep` is one round and `starWithin n` up to `n` of them.
The expressions handed on become smaller, so no more rounds are needed than there are nodes.
-/

namespace RegularForms

namespace Expr

variable {d e : Expr} {ds es fs : List Expr}

/-! ## Shrinking lists -/

structure Less (es ds : List Expr) : Prop where
  sizeList_lt : sizeList ds < sizeList es
  symbols_subset : ds.flatMap symbols ⊆ es.flatMap symbols

/-- The same expressions, or fewer nodes and no symbols besides those there were. -/
def Shrinks (es ds : List Expr) : Prop := ds = es ∨ Less es ds

namespace Shrinks

theorem refl (es : List Expr) : Shrinks es es := .inl rfl

theorem sizeList_le (h : Shrinks es ds) : sizeList ds ≤ sizeList es := by
  rcases h with rfl | h
  · exact Nat.le_refl _
  · exact Nat.le_of_lt h.sizeList_lt

theorem symbols_subset (h : Shrinks es ds) : ds.flatMap symbols ⊆ es.flatMap symbols := by
  rcases h with rfl | h
  · exact List.Subset.refl _
  · exact h.symbols_subset

end Shrinks

theorem Less.trans_shrinks (h : Less es ds) (h' : Shrinks ds fs) : Less es fs :=
  ⟨Nat.lt_of_le_of_lt h'.sizeList_le h.sizeList_lt,
    List.Subset.trans h'.symbols_subset h.symbols_subset⟩

theorem flatMap_symbols_append_subset {es' ds' : List Expr}
    (h : ds.flatMap symbols ⊆ es.flatMap symbols)
    (h' : ds'.flatMap symbols ⊆ es'.flatMap symbols) :
    (ds ++ ds').flatMap symbols ⊆ (es ++ es').flatMap symbols := by
  rw [List.flatMap_append, List.flatMap_append]
  exact List.append_subset.2
    ⟨List.subset_append_of_subset_left _ h, List.subset_append_of_subset_right _ h'⟩

theorem Less.append_shrinks {es' ds' : List Expr} (h : Less es ds) (h' : Shrinks es' ds') :
    Less (es ++ es') (ds ++ ds') := by
  have hlt := h.sizeList_lt
  have hle := h'.sizeList_le
  refine ⟨?_, flatMap_symbols_append_subset h.symbols_subset h'.symbols_subset⟩
  rw [sizeList_append, sizeList_append]
  omega

namespace Shrinks

theorem trans (h : Shrinks es ds) (h' : Shrinks ds fs) : Shrinks es fs := by
  rcases h with rfl | h
  · exact h'
  · exact .inr (h.trans_shrinks h')

theorem append_left (fs : List Expr) (h : Shrinks es ds) : Shrinks (fs ++ es) (fs ++ ds) := by
  rcases h with rfl | h
  · exact refl _
  · refine .inr ⟨?_, flatMap_symbols_append_subset (List.Subset.refl _) h.symbols_subset⟩
    rw [sizeList_append, sizeList_append]
    exact Nat.add_lt_add_left h.sizeList_lt _

theorem append {es' ds' : List Expr} (h : Shrinks es ds) (h' : Shrinks es' ds') :
    Shrinks (es ++ es') (ds ++ ds') := by
  rcases h with rfl | h
  · exact h'.append_left _
  · exact .inr (h.append_shrinks h')

/-- Expressions each of which shrinks to some expressions shrink to all of these. -/
theorem flatMap {f : Expr → List Expr} (h : ∀ e ∈ es, Shrinks [e] (f e)) :
    Shrinks es (es.flatMap f) := by
  induction es with
  | nil => exact refl _
  | cons e es ih =>
      obtain ⟨he, hes⟩ := List.forall_mem_cons.1 h
      exact he.append (ih hes)

theorem map {f : Expr → Expr} (h : ∀ e ∈ es, Shrinks [e] [f e]) : Shrinks es (es.map f) := by
  rw [List.map_eq_flatMap]
  exact flatMap h

theorem of_sublist (h : ds.Sublist es) : Shrinks es ds := by
  induction h with
  | slnil => exact refl _
  | cons e _ ih =>
      have hdrop : Shrinks [e] [] := .inr ⟨size_pos e, List.nil_subset _⟩
      exact hdrop.append ih
  | cons_cons e _ ih => exact ih.append_left [e]

end Shrinks

/-! ## Shrinking nodes -/

theorem less_of (i : Iteration) (e : Expr) : Less [i.of e] [e] := by
  constructor
  · cases i <;> exact Nat.lt_succ_self _
  · simp

theorem less_node (op : Connective) (es : List Expr) : Less [op.node es] es := by
  constructor
  · simp
  · simp

/-- Two iterations are more than one. -/
theorem less_of_of (i j k : Iteration) (e : Expr) : Less [i.of (j.of e)] [k.of e] := by
  constructor
  · cases i <;> cases j <;> cases k <;> exact Nat.lt_succ_self _
  · simp

/-- A node over less is less, also when it becomes a node of the other kind. -/
theorem Less.node (h : Less es ds) (op op' : Connective) : Less [op.node es] [op'.node ds] := by
  constructor
  · simpa using h.sizeList_lt
  · simpa using h.symbols_subset

namespace Shrinks

theorem iteration (i : Iteration) (h : Shrinks [e] [d]) : Shrinks [i.of e] [i.of d] := by
  rcases h with heq | h
  · exact .inl (congrArg (fun c => [i.of c]) (List.cons.inj heq).1)
  · refine .inr ⟨?_, by simpa using h.symbols_subset⟩
    cases i <;> exact Nat.succ_lt_succ h.sizeList_lt

theorem node (h : Shrinks es ds) (op : Connective) : Shrinks [op.node es] [op.node ds] := by
  rcases h with rfl | h
  · exact refl _
  · exact .inr (h.node op op)

end Shrinks

theorem shrinks_parts (op : Connective) (e : Expr) : Shrinks [e] (parts op e) := by
  by_cases h : e.operator = op.operator
  · have hless := less_node op (parts op e)
    rw [node_parts op h] at hless
    exact .inr hless
  · exact parts_of_ne op h ▸ .refl _

theorem shrinks_flatMap_parts (op : Connective) (es : List Expr) :
    Shrinks es (es.flatMap (parts op)) :=
  .flatMap fun e _ => shrinks_parts op e

theorem shrinks_join (op : Connective) (es : List Expr) : Shrinks [op.node es] [join op es] := by
  have hflat := shrinks_flatMap_parts op es
  rcases join_eq op es with ⟨e, he, heq⟩ | ⟨-, heq⟩
  · rw [heq, ← he]
    exact .inr ((less_node op es).trans_shrinks hflat)
  · rw [heq]
    exact hflat.node op

/-- A choice shrinks when it is made over the alternatives that its operands offer. -/
theorem shrinks_choiceOf_flat (es : List Expr) :
    Shrinks [alt (es.flatMap (parts .choice))] [choiceOf es] :=
  ((Shrinks.of_sublist (distinct_sublist _)).node .choice).trans (shrinks_join .choice _)

theorem shrinks_choiceOf (es : List Expr) : Shrinks [alt es] [choiceOf es] :=
  ((shrinks_flatMap_parts .choice es).node .choice).trans (shrinks_choiceOf_flat es)

/-- Expressions of which none is left without the empty word are all the empty word. -/
theorem shrinks_epsilon_of_filter_eq_nil (hne : es ≠ [])
    (h : es.filter (fun e => !e.isEpsilon) = []) : Shrinks es [epsilon] := by
  obtain ⟨e, he⟩ := List.exists_mem_of_ne_nil es hne
  have hε : e = epsilon := isEpsilon_iff.1 (by simpa using List.filter_eq_nil_iff.1 h e he)
  exact .of_sublist (List.singleton_sublist.2 (hε ▸ he))

/-! ## Stars -/

theorem shrinks_bare (e : Expr) : Shrinks [e] [e.bare] := by
  induction e using ind with
  | star e ih => exact .trans (.inr (less_of .star e)) ih
  | plus e ih => exact .trans (.inr (less_of .plus e)) ih
  | opt e ih => exact .trans (.inr (less_of .option e)) ih
  | _ => exact .refl _

theorem shrinks_starOperands (es : List Expr) : Shrinks es (starOperands es) :=
  .trans (.of_sublist List.filter_sublist) (.map fun e _ => shrinks_bare e)

theorem starOperands_cons (e : Expr) (es : List Expr) :
    starOperands (e :: es) = starOperands [e] ++ starOperands es := by
  cases he : e.isEpsilon <;> simp [starOperands, he]

/-- When an operand that may be empty, and is no sequence, is taken apart into alternatives,
something of it is left out. -/
theorem less_flat_starOperands_singleton (hnull : e.nullable = true)
    (hseq : e.operator ≠ .sequence) : Less [e] ((starOperands [e]).flatMap (parts .choice)) := by
  have hiteration : ∀ (i : Iteration) (c : Expr), (i.of c).isEpsilon = false →
      (i.of c).bare = c.bare → Less [i.of c] ((starOperands [i.of c]).flatMap (parts .choice)) := by
    intro i c hsome hbare
    have hoperands : starOperands [i.of c] = [c.bare] := by simp [starOperands, hsome, hbare]
    rw [hoperands, List.flatMap_singleton]
    exact (less_of i c).trans_shrinks ((shrinks_bare c).trans (shrinks_parts .choice _))
  cases e with
  | sym c =>
      have heps : (sym c).isEpsilon = true := hnull
      have hnone : starOperands [sym c] = [] := by simp [starOperands, heps]
      rw [hnone]
      exact ⟨size_pos _, List.nil_subset _⟩
  | star c => exact hiteration .star c rfl rfl
  | plus c => exact hiteration .plus c rfl rfl
  | opt c => exact hiteration .option c rfl rfl
  | seq es => exact absurd rfl hseq
  | alt es =>
      have hoperands : starOperands [alt es] = [alt es] := rfl
      rw [hoperands, List.flatMap_singleton]
      exact less_node .choice es

/-- A sequence of operands that may all be empty is more than the choice of what they add to a
star, although both have a node at the top. -/
theorem less_choiceOf_starOperands_of_nullable (hne : es ≠ []) (hnull : es.all nullable = true)
    (hseq : ∀ e ∈ es, e.operator ≠ .sequence) : Less [seq es] [choiceOf (starOperands es)] := by
  have hflat : Less es ((starOperands es).flatMap (parts .choice)) := by
    cases es with
    | nil => exact absurd rfl hne
    | cons e es =>
        have htail : Shrinks es ((starOperands es).flatMap (parts .choice)) :=
          (shrinks_starOperands es).trans (shrinks_flatMap_parts .choice _)
        rw [starOperands_cons, List.flatMap_append]
        exact (less_flat_starOperands_singleton (List.all_eq_true.1 hnull e List.mem_cons_self)
          (hseq e List.mem_cons_self)).append_shrinks htail
  exact (hflat.node .sequence .choice).trans_shrinks (shrinks_choiceOf_flat _)

/-- A choice with an empty word or an iteration in it is more than the choice of what its
operands add to a star. -/
theorem less_choiceOf_starOperands_of_any
    (h : es.any fun e => e.iterated?.isSome || e.isEpsilon) :
    Less [alt es] [choiceOf (starOperands es)] := by
  have hoperands : Less es (starOperands es) :=
    ⟨sizeList_starOperands_lt h, (shrinks_starOperands es).symbols_subset⟩
  exact (hoperands.node .choice .choice).trans_shrinks (shrinks_choiceOf _)

/-- The star of the choice between operands is the empty word if there are none, and else the
star of an expression. -/
def starOfChoice : List Expr → Expr ⊕ Expr
  | [] => .inl epsilon
  | es => .inr (choiceOf es)

/-- One round of building the star of an expression: on the left the star, on the right an
expression of which the star has to be built instead. -/
def starStep : Expr → Expr ⊕ Expr
  | sym c => .inl (if c = epsilonSymbol then sym c else star (sym c))
  | star e | plus e | opt e => .inr e
  | seq es => if es.all nullable then starOfChoice (starOperands es) else .inl (star (seq es))
  | alt es =>
    if es.any fun e => e.iterated?.isSome || e.isEpsilon then starOfChoice (starOperands es)
    else .inl (star (alt es))

/-- The star of an expression, if it is built in at most the given number of rounds. -/
def starWithin : Nat → Expr → Option Expr
  | 0, _ => none
  | n + 1, e =>
    match starStep e with
    | .inl d => some d
    | .inr d => starWithin n d

theorem starOfChoice_eq (es : List Expr) :
    starOfChoice es = if es = [] then .inl epsilon else .inr (choiceOf es) := by
  cases es <;> rfl

/-- A star is built round by round. -/
theorem starOf_eq_of_starStep (e : Expr) :
    starOf e = match starStep e with
      | .inl d => d
      | .inr d => starOf d := by
  cases e with
  | sym c => rw [starOf, starStep]
  | star e | plus e | opt e => rw [starOf, starStep]
  | seq es =>
      rw [starOf, starStep, starOfChoice_eq]
      split <;> [split; skip] <;> rfl
  | alt es =>
      rw [starOf, starStep, starOfChoice_eq]
      split <;> [split; skip] <;> rfl

/-- What a round hands on is smaller than what it was given. -/
theorem less_of_starStep (he : e.WellFormed) (h : starStep e = .inr d) :
    d.WellFormed ∧ Less [e] [d] := by
  have hchoice : ∀ {es : List Expr}, (∀ e ∈ es, e.WellFormed) →
      starOfChoice (starOperands es) = .inr d → d.WellFormed ∧ d = choiceOf (starOperands es) := by
    intro es hes hd
    rw [starOfChoice_eq] at hd
    split at hd
    · cases hd
    · next hne =>
        obtain rfl := Sum.inr.inj hd
        exact ⟨wellFormed_choiceOf hne (hereditary_wellFormed.starOperands hes), rfl⟩
  cases e with
  | sym c => cases h
  | star c => exact Sum.inr.inj h ▸ ⟨he, less_of .star c⟩
  | plus c => exact Sum.inr.inj h ▸ ⟨he, less_of .plus c⟩
  | opt c => exact Sum.inr.inj h ▸ ⟨he, less_of .option c⟩
  | seq es =>
      obtain ⟨hlength, hseq, hes⟩ := wellFormed_seq.1 he
      rw [starStep] at h
      split at h
      · next hnull =>
          obtain ⟨hd, rfl⟩ := hchoice hes h
          have hne : es ≠ [] := List.ne_nil_of_length_pos (by omega)
          exact ⟨hd, less_choiceOf_starOperands_of_nullable hne hnull hseq⟩
      · cases h
  | alt es =>
      obtain ⟨-, -, hes⟩ := wellFormed_alt.1 he
      rw [starStep] at h
      split at h
      · next hany =>
          obtain ⟨hd, rfl⟩ := hchoice hes h
          exact ⟨hd, less_choiceOf_starOperands_of_any hany⟩
      · cases h

/-- The star that a round ends with is less than the plain one, or is the plain one. -/
theorem shrinks_of_starStep (he : e.WellFormed) (h : starStep e = .inl d) :
    Shrinks [star e] [d] := by
  have hempty : ∀ {es : List Expr}, es ≠ [] → starOfChoice (starOperands es) = .inl d →
      Shrinks es [d] := by
    intro es hne hd
    rw [starOfChoice_eq] at hd
    split at hd
    · next hnone =>
        obtain rfl := Sum.inl.inj hd
        exact shrinks_epsilon_of_filter_eq_nil hne (List.map_eq_nil_iff.1 hnone)
    · cases hd
  cases e with
  | sym c =>
      obtain rfl := Sum.inl.inj h
      split
      · exact .inr (less_of .star _)
      · exact .refl _
  | seq es =>
      obtain ⟨hlength, -, -⟩ := wellFormed_seq.1 he
      rw [starStep] at h
      split at h
      · have hes := hempty (List.ne_nil_of_length_pos (by omega)) h
        exact .trans (.inr (less_of .star _)) (.trans (.inr (less_node .sequence es)) hes)
      · exact Sum.inl.inj h ▸ .refl _
  | alt es =>
      rw [starStep] at h
      split at h
      · have hes := hempty (ne_nil_of_wellFormed_node .choice he) h
        exact .trans (.inr (less_of .star _)) (.trans (.inr (less_node .choice es)) hes)
      · exact Sum.inl.inj h ▸ .refl _
  | _ => cases h

/-- As many rounds as an expression has nodes suffice to build its star. -/
theorem starWithin_eq {n : Nat} (he : e.WellFormed) (hn : e.size ≤ n) :
    starWithin n e = some (starOf e) := by
  induction n generalizing e with
  | zero => exact absurd (size_pos e) (Nat.not_lt.2 hn)
  | succ n ih =>
      rw [starWithin, starOf_eq_of_starStep]
      cases h : starStep e with
      | inl d => rfl
      | inr d =>
          obtain ⟨hd, hless⟩ := less_of_starStep he h
          have hlt : d.size < e.size := hless.sizeList_lt
          exact ih hd (by omega)

example : starWithin 2 (seq [star (.sym 'a'), star (star (.sym 'b'))]) =
    some (star (alt [.sym 'a', .sym 'b'])) := by
  decide

theorem shrinks_starWithin {n : Nat} (he : e.WellFormed) (h : starWithin n e = some d) :
    Shrinks [star e] [d] := by
  induction n generalizing e with
  | zero => cases h
  | succ n ih =>
      rw [starWithin] at h
      cases hstep : starStep e with
      | inl c =>
          rw [hstep] at h
          exact Option.some.inj h ▸ shrinks_of_starStep he hstep
      | inr c =>
          rw [hstep] at h
          obtain ⟨hc, hless⟩ := less_of_starStep he hstep
          have hnext : Shrinks [e] [c] := .inr hless
          exact (hnext.iteration .star).trans (ih hc h)

theorem shrinks_starOf (he : e.WellFormed) : Shrinks [star e] [starOf e] :=
  shrinks_starWithin he (starWithin_eq he (Nat.le_refl _))

/-! ## Other nodes -/

theorem shrinks_plusOf (he : e.WellFormed) : Shrinks [plus e] [plusOf e] := by
  cases e with
  | sym c =>
      rw [plusOf]
      split
      · exact .inr (less_of .plus _)
      · exact .refl _
  | star d => exact .trans (.inr (less_of_of .plus .star .star d)) (shrinks_starOf he)
  | plus d => exact .inr (less_of .plus _)
  | opt d => exact .trans (.inr (less_of_of .plus .option .star d)) (shrinks_starOf he)
  | seq es => exact .refl _
  | alt es => exact .refl _

theorem shrinks_optOf (he : e.WellFormed) : Shrinks [opt e] [optOf e] := by
  unfold optOf
  split
  · exact .inr (less_of .option e)
  · split
    · next d _ => exact .trans (.inr (less_of_of .option .plus .star d)) (shrinks_starOf he)
    · exact .refl _

theorem less_of_merge? {x y z : Expr} (h : merge? x y = some z) : Less [x, y] [z] := by
  have hx := size_pos x
  have hy := size_pos y
  constructor
  · rcases merge?_eq_some h with rfl | rfl | ⟨rfl, rfl⟩ | ⟨rfl, rfl⟩ <;>
      simp only [sizeList_cons, sizeList_nil, size] <;> omega
  · have hstar : ∀ c : Expr, (star c).symbols = c.symbols := symbols_of .star
    have hplus : ∀ c : Expr, (plus c).symbols = c.symbols := symbols_of .plus
    rcases merge?_eq_some h with rfl | rfl | ⟨rfl, rfl⟩ | ⟨rfl, rfl⟩ <;> simp [hstar, hplus]

theorem shrinks_mergeOnto (before : List Expr) (e : Expr) :
    Shrinks (before.reverse ++ [e]) (mergeOnto before e).reverse := by
  induction before generalizing e with
  | nil => exact .refl _
  | cons last before ih =>
      rw [mergeOnto]
      split
      · next merged hm =>
          have hpair : Shrinks (before.reverse ++ [last, e]) (before.reverse ++ [merged]) :=
            .append_left _ (.inr (less_of_merge? hm))
          rw [List.reverse_cons, List.append_assoc, List.singleton_append]
          exact hpair.trans (ih merged)
      · rw [← List.reverse_cons]
        exact .refl _

theorem shrinks_foldl_mergeOnto (before es : List Expr) :
    Shrinks (before.reverse ++ es) (es.foldl mergeOnto before).reverse := by
  induction es generalizing before with
  | nil =>
      rw [List.append_nil]
      exact .refl _
  | cons e es ih =>
      have hnext := (shrinks_mergeOnto before e).append (.refl es)
      rw [List.append_assoc, List.singleton_append] at hnext
      exact hnext.trans (ih _)

theorem shrinks_mergeBoth (es : List Expr) : Shrinks es (mergeBoth es) := by
  rw [mergeBoth_eq_reverse]
  exact shrinks_foldl_mergeOnto [] es

theorem shrinks_sequenceOf (hne : es ≠ []) (h : ∀ e ∈ es, e.WellFormed) :
    Shrinks [seq es] [sequenceOf es] := by
  have hflat := shrinks_flatMap_parts .sequence es
  unfold sequenceOf
  split
  · next hnone =>
      have hsome : es.flatMap (parts .sequence) ≠ [] := by
        obtain ⟨e, he⟩ := List.exists_mem_of_ne_nil es hne
        exact fun hnil => (h e he).parts_ne_nil .sequence (List.flatMap_eq_nil_iff.1 hnil e he)
      have hone := shrinks_epsilon_of_filter_eq_nil hsome hnone
      exact .trans (.inr (less_node .sequence es)) (hflat.trans hone)
  · have hsome := hflat.trans (.of_sublist (List.filter_sublist (p := fun e => !e.isEpsilon)))
    exact ((hsome.trans (shrinks_mergeBoth _)).node .sequence).trans (shrinks_join .sequence _)

/-! ## Whole expressions -/

/-- Simplifying the top levels of a well-formed expression leaves it as it is, or less. -/
theorem shrinks_simplifyTo (he : e.WellFormed) (n : Nat) : Shrinks [e] [simplifyTo n e] := by
  induction n generalizing e with
  | zero =>
      rw [simplifyTo_zero]
      exact .refl _
  | succ n ih =>
      have hoperand : ∀ {d : Expr}, d ∈ e.operands →
          (simplifyTo n d).WellFormed ∧ Shrinks [d] [simplifyTo n d] := fun hd =>
        ⟨(he.of_mem_operands hd).simplifyTo n, ih (he.of_mem_operands hd)⟩
      cases e with
      | sym c =>
          rw [simplifyTo_sym]
          exact .refl _
      | star e =>
          obtain ⟨hd, hshrinks⟩ := hoperand List.mem_cons_self
          exact (hshrinks.iteration .star).trans (shrinks_starOf hd)
      | plus e =>
          obtain ⟨hd, hshrinks⟩ := hoperand List.mem_cons_self
          exact (hshrinks.iteration .plus).trans (shrinks_plusOf hd)
      | opt e =>
          obtain ⟨hd, hshrinks⟩ := hoperand List.mem_cons_self
          exact (hshrinks.iteration .option).trans (shrinks_optOf hd)
      | seq es =>
          have hes : Shrinks es (es.map (simplifyTo n)) := .map fun d hd => (hoperand hd).2
          have hne : es.map (simplifyTo n) ≠ [] := by
            simpa using ne_nil_of_wellFormed_node .sequence he
          rw [simplifyTo_succ_seq]
          exact (hes.node .sequence).trans
            (shrinks_sequenceOf hne (List.forall_mem_map.2 fun d hd => (hoperand hd).1))
      | alt es =>
          have hes : Shrinks es (es.map (simplifyTo n)) := .map fun d hd => (hoperand hd).2
          rw [simplifyTo_succ_alt]
          exact (hes.node .choice).trans (shrinks_choiceOf _)

theorem simplifyTo_eq_or_less (he : e.WellFormed) (n : Nat) :
    simplifyTo n e = e ∨ Less [e] [simplifyTo n e] :=
  (shrinks_simplifyTo he n).imp_left fun heq => (List.cons.inj heq).1

/-- Repeating the simplification comes to an end before there are no nodes left to lose. -/
theorem exists_iterate_simplifyTo_eq (he : e.WellFormed) (n : Nat) :
    ∃ k < e.size, simplifyTo n ((simplifyTo n)^[k] e) = (simplifyTo n)^[k] e := by
  induction hsize : e.size using Nat.strong_induction_on generalizing e with
  | _ m ih =>
      subst hsize
      rcases simplifyTo_eq_or_less he n with heq | hless
      · exact ⟨0, size_pos e, heq⟩
      · have hlt : (simplifyTo n e).size < e.size := hless.sizeList_lt
        obtain ⟨k, hk, hfixed⟩ := ih _ hlt (he.simplifyTo n) rfl
        exact ⟨k + 1, by omega, hfixed⟩

/-- Simplifying the top levels of a well-formed expression either leaves it as it is or lessens
its nodes, and adds no symbol. Hence the rounds in which a star is built come to an end, after
at most as many as there are nodes below it; and when the simplification is repeated, fewer
times than there are nodes, it no longer changes anything. -/
theorem simplifyTo_shrinks (he : e.WellFormed) (n : Nat) :
    (simplifyTo n e = e ∨ (simplifyTo n e).size < e.size) ∧
      (simplifyTo n e).symbols ⊆ e.symbols ∧
      starWithin e.size e = some (starOf e) ∧
      ∃ k < e.size, simplifyTo n ((simplifyTo n)^[k] e) = (simplifyTo n)^[k] e := by
  have hsymbols := (shrinks_simplifyTo he n).symbols_subset
  rw [List.flatMap_singleton, List.flatMap_singleton] at hsymbols
  exact ⟨(simplifyTo_eq_or_less he n).imp_right Less.sizeList_lt, hsymbols,
    starWithin_eq he (Nat.le_refl _), exists_iterate_simplifyTo_eq he n⟩

/-- The case of `(a*b**)*` at depth one, which becomes `(a|b)*` although what is below its outer
star is not simplified before. -/
theorem simplifyTo_shrinks_one :
    (star (seq [star (.sym 'a'), star (star (.sym 'b'))])).WellFormed ∧
      (simplifyTo 1 (star (seq [star (.sym 'a'), star (star (.sym 'b'))]))).size < 7 ∧
      starWithin 7 (star (seq [star (.sym 'a'), star (star (.sym 'b'))])) =
        some (starOf (star (seq [star (.sym 'a'), star (star (.sym 'b'))]))) := by
  have heq : simplifyTo 1 (star (seq [star (.sym 'a'), star (star (.sym 'b'))])) =
      star (alt [.sym 'a', .sym 'b']) := by
    cbv
  have hwf : (star (seq [star (.sym 'a'), star (star (.sym 'b'))])).WellFormed := by decide
  obtain ⟨hsize, -, hrounds, -⟩ := simplifyTo_shrinks hwf 1
  exact ⟨hwf, hsize.resolve_left (heq ▸ by decide), hrounds⟩

end Expr

end RegularForms
