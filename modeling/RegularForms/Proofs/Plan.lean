import RegularForms.Proofs.Automaton.Language
import RegularForms.Proofs.Edit.Batch
import RegularForms.Proofs.Rewriting

/-!
# What a plan leads to

A plan whose edit fits what has been handed out for it leads to a valid automaton with a
known outline. For most plans the outcome is that some transitions go and others come
along given arcs; `Rewired` says so, and what this means for the languages of the states
is said here once for all of them.
-/

namespace RegularForms

namespace Automaton

variable {a b : Automaton} {o : Outline}

theorem start_of_outline (h : b.outline = o) : b.start = o.start := h ▸ rfl

theorem mem_stateIds_of_outline (h : b.outline = o) {s : StateId} :
    s ∈ b.stateIds ↔ s ∈ o.states := by
  rw [← h, mem_outline_states]

theorem mem_transitions_of_outline (h : b.outline = o) {t : Transition} :
    t ∈ b.transitions ↔ t ∈ o.transitions := by
  rw [← h, mem_outline_transitions]

theorem accepting_of_outline (h : b.outline = o) {s : StateId} :
    b.accepting s = true ↔ s ∈ o.finals := by
  rw [← h, mem_outline_finals]

/-- A plan that fits leads somewhere. -/
theorem Valid.exists_performs (ha : a.Valid) {p : Plan} {m n : Nat}
    (hgraph : p.graph = a.reserve m n) (hfits : p.edit.Fits p.graph.outline) :
    ∃ b : Automaton, p.Performs a b ∧ b.Valid ∧ b.outline = p.edit.effect p.graph.outline := by
  have hvalid : p.graph.Valid := hgraph ▸ ha.reserve m n
  obtain ⟨b, hjoins, hb, hbo⟩ := Edit.Fits.exists_joins p.edit hvalid hfits
  exact ⟨b, ⟨⟨m, n, hgraph⟩, hjoins⟩, hb, hbo⟩

/-- Some transitions have gone and others have come along given arcs. -/
structure Rewired (a b : Automaton) (gone : Transition → Prop)
    (arcs : List (StateId × StateId × Expr)) : Prop where
  start_eq : b.start = a.start
  mem_transitions : ∀ t, t ∈ b.transitions ↔
    (t ∈ a.transitions ∧ ¬ gone t) ∨ t ∈ a.freshTransitions arcs

namespace Rewired

variable {gone : Transition → Prop} {arcs : List (StateId × StateId × Expr)}

/-- The graph has been rewired when a list of transitions is replaced by new ones. -/
theorem of_outline {ts : List Transition} (h : b.outline = o) (hstart : o.start = a.start)
    (ho : ∀ t, t ∈ o.transitions ↔ (t ∈ a.transitions ∧ t ∉ ts) ∨ t ∈ a.freshTransitions arcs)
    (hts : ∀ t, t ∈ ts ↔ t ∈ a.transitions ∧ gone t) : Rewired a b gone arcs where
  start_eq := (start_of_outline h).trans hstart
  mem_transitions t := by
    rw [mem_transitions_of_outline h, ho, hts, not_and]
    exact or_congr_left (and_congr_right fun ht => ⟨fun h => h ht, fun h _ => h⟩)

/-- A family of languages that is closed under the transitions that stay and under the
arcs contains the languages of the states. -/
theorem languageFrom_le (h : Rewired a b gone arcs) {M : StateId → Language Char}
    (hnil : ∀ s, b.accepting s = true → 1 ≤ M s)
    (hstay : ∀ t ∈ a.transitions, ¬ gone t → t.label.language * M t.target ≤ M t.source)
    (harcs : ∀ x ∈ arcs, x.2.2.language * M x.2.1 ≤ M x.1) (s : StateId) :
    b.languageFrom s ≤ M s := by
  refine Automaton.languageFrom_le hnil (fun t ht => ?_) s
  rcases (h.mem_transitions t).1 ht with ⟨ht, hgone⟩ | ht
  · exact hstay t ht hgone
  · exact harcs t.arc (arc_mem_of_mem_freshTransitions ht)

theorem stay_mul_languageFrom_le (h : Rewired a b gone arcs) {t : Transition}
    (ht : t ∈ a.transitions) (hgone : ¬ gone t) :
    t.label.language * b.languageFrom t.target ≤ b.languageFrom t.source :=
  label_mul_languageFrom_le ((h.mem_transitions t).2 (.inl ⟨ht, hgone⟩))

theorem arc_mul_languageFrom_le (h : Rewired a b gone arcs) {s r : StateId} {e : Expr}
    (hx : (s, r, e) ∈ arcs) : e.language * b.languageFrom r ≤ b.languageFrom s := by
  obtain ⟨t, ht, harc⟩ := exists_mem_freshTransitions (a := a) hx
  obtain ⟨rfl, rfl, rfl⟩ : t.source = s ∧ t.target = r ∧ t.label = e := by
    simpa [Transition.arc] using harc
  exact label_mul_languageFrom_le ((h.mem_transitions t).2 (.inr ht))

theorem epsilon_languageFrom_le (h : Rewired a b gone arcs) {s r : StateId}
    (hx : (s, r, .epsilon) ∈ arcs) : b.languageFrom r ≤ b.languageFrom s := by
  have hle := h.arc_mul_languageFrom_le hx
  rwa [Expr.language_epsilon, one_mul] at hle

/-- The arcs of a property that all labels have and all arcs have. -/
theorem forall_label (h : Rewired a b gone arcs) {R : Expr → Prop}
    (ha : ∀ t ∈ a.transitions, R t.label) (harcs : ∀ x ∈ arcs, R x.2.2) :
    ∀ t ∈ b.transitions, R t.label := by
  intro t ht
  rcases (h.mem_transitions t).1 ht with ⟨ht, -⟩ | ht
  · exact ha t ht
  · exact harcs t.arc (arc_mem_of_mem_freshTransitions ht)

/-- The transitions of the graph, in some order, are those that stay and the new ones. -/
theorem perm_transitions [DecidablePred gone] (h : Rewired a b gone arcs) (ha : a.Valid)
    (hb : b.Valid) :
    b.transitions.Perm
      ((a.transitions.filter fun t => ¬ gone t) ++ a.freshTransitions arcs) := by
  have hold : (a.transitions.filter fun t => ¬ gone t).Nodup :=
    ha.nodup_transitions.filter _
  have hfresh : (a.freshTransitions arcs).Nodup := (nodup_freshTransitions arcs).of_map _
  have hdisjoint : (a.transitions.filter fun t => ¬ gone t).Disjoint
      (a.freshTransitions arcs) := by
    intro t ht htf
    exact ha.notMem_of_mem_freshTransitions htf (List.mem_of_mem_filter ht)
  rw [List.perm_ext_iff_of_nodup hb.nodup_transitions (hold.append hfresh hdisjoint)]
  intro t
  rw [h.mem_transitions, List.mem_append, List.mem_filter, decide_eq_true_eq]

end Rewired

end Automaton

end RegularForms
