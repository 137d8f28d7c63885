import RegularForms.Proofs.Automaton.Change

/-!
# Graphs that look alike in places

There are two things to see of a state of a graph: its flag and the transitions that leave
it. A place is a state together with one of the two, and a graph looks somehow at every place.
A change of a graph acts on each place by itself, so graphs that look alike at a place still
do so when the same change has been made in both.

A graph may be a `Blend` of two others, from one of which it has taken over how it looks at
some places.
-/

namespace RegularForms

inductive Aspect where
  /-- Whether it is accepting. -/
  | flag
  /-- The transitions that leave it. -/
  | out

namespace Node

/-- The node with one aspect of its state left, and the other one blank. -/
def keep : Aspect → Node → Node
  | .flag, n => { n with out := [] }
  | .out, n => { n with state := { n.state with accepting := false } }

theorem eq_of_keep_eq {m n : Node} (h : ∀ p, m.keep p = n.keep p) : m = n := by
  obtain ⟨⟨i, f⟩, ts⟩ := m
  obtain ⟨⟨j, g⟩, us⟩ := n
  obtain ⟨hstate, -⟩ := Node.mk.inj (h .flag)
  obtain ⟨-, hout⟩ := Node.mk.inj (h .out)
  exact congrArg₂ Node.mk hstate hout

/-- A change of nodes that keeps the state and acts on each aspect by itself. -/
structure Separate (f : Node → Node) : Prop where
  id_eq : ∀ n, (f n).id = n.id
  keep_eq : ∀ p n, (f n).keep p = (f (n.keep p)).keep p

theorem separate_out (f : List Transition → List Transition) :
    Separate fun n => { n with out := f n.out } where
  id_eq _ := rfl
  keep_eq p _ := by cases p <;> rfl

theorem separate_accepting (accepting : Bool) :
    Separate fun n => { n with state := { n.state with accepting := accepting } } where
  id_eq _ := rfl
  keep_eq p _ := by cases p <;> rfl

end Node

namespace Automaton

variable {a b x y z : Automaton} {S T : Set (StateId × Aspect)} {k : StateId × Aspect}

def look (a : Automaton) (k : StateId × Aspect) : Option Node := (a.node? k.1).map (Node.keep k.2)

theorem look_eq_none_iff : a.look k = none ↔ k.1 ∉ a.stateIds := by
  rw [look, Option.map_eq_none_iff, node?_eq_none_iff]

theorem node?_eq_of_look_eq {s : StateId} (h : ∀ p, a.look (s, p) = b.look (s, p)) :
    a.node? s = b.node? s := by
  unfold look at h
  cases ha : a.node? s with
  | none =>
      have hb := h .flag
      rw [ha] at hb
      exact (Option.map_eq_none_iff.1 hb.symm).symm
  | some m =>
      cases hb : b.node? s with
      | none =>
          have hm := h .flag
          rw [ha, hb] at hm
          nomatch hm
      | some n =>
          refine congrArg some (Node.eq_of_keep_eq fun p => ?_)
          simpa [ha, hb] using h p

/-- Whether a transition is in a graph can be seen from its source. -/
theorem Valid.mem_transitions_iff_look (ha : a.Valid) {t : Transition} :
    t ∈ a.transitions ↔ ∃ n, a.look (t.source, .out) = some n ∧ t ∈ n.out := by
  constructor
  · intro ht
    obtain ⟨n, hn, htn⟩ := mem_transitions.1 ht
    have hnode := ha.node?_eq_some_iff.2 ⟨hn, (ha.source_eq n hn t htn).symm⟩
    exact ⟨n.keep .out, by rw [look, hnode]; rfl, htn⟩
  · rintro ⟨n, hlook, ht⟩
    obtain ⟨m, hnode, rfl⟩ := Option.map_eq_some_iff.1 hlook
    exact mem_transitions.2 ⟨m, (node?_eq_some hnode).1, ht⟩

/-! ## Each change acts on a place by itself -/

theorem look_eraseNode (s : StateId) :
    (a.eraseNode s).look k = if k.1 = s then none else a.look k := by
  split
  · next hks => exact look_eq_none_iff.2 fun hmem => (mem_stateIds_eraseNode.1 hmem).2 hks
  · next hks =>
      refine congrArg (Option.map _) ?_
      rw [node?, node?, eraseNode, List.find?_filter]
      refine congrArg (fun f => List.find? f a.nodes) (funext fun n => ?_)
      by_cases hnk : n.id = k.1 <;> simp [hnk, hks]

theorem look_insertNode {n : Node} (hnew : n.id ∉ a.stateIds) :
    (a.insertNode n).look k = if k.1 = n.id then some (n.keep k.2) else a.look k := by
  split
  · next hk =>
      have hnode : (a.insertNode n).node? n.id = some n := by
        cases hfound : (a.insertNode n).node? n.id with
        | none =>
            exact absurd (mem_stateIds_insertNode.2 (.inl rfl)) (node?_eq_none_iff.1 hfound)
        | some m =>
            obtain ⟨hm, hmn⟩ := node?_eq_some hfound
            rcases mem_nodes_insertNode.1 hm with rfl | hm
            · rfl
            · exact absurd (mem_stateIds.2 ⟨m, hm, hmn⟩) hnew
      rw [look, hk, hnode]
      rfl
  · next hk =>
      have herase := look_eraseNode (a := a.insertNode n) (k := k) n.id
      rw [eraseNode_insertNode hnew, if_neg hk] at herase
      exact herase.symm

theorem look_updateNode (s : StateId) {f : Node → Node} (hf : Node.Separate f) :
    (a.updateNode s f).look k =
      if k.1 = s then (a.look k).map fun n => (f n).keep k.2 else a.look k := by
  have hnode : (a.updateNode s f).node? k.1 =
      (a.node? k.1).map fun n => if n.id = s then f n else n := by
    rw [node?, node?, updateNode, List.find?_map]
    refine congrArg (fun g => Option.map _ (List.find? g a.nodes)) (funext fun n => ?_)
    by_cases hns : n.id = s <;> simp [hns, hf.id_eq]
  rw [look, hnode, look]
  cases hn : a.node? k.1 with
  | none => simp
  | some n =>
      have hnk := (node?_eq_some hn).2
      by_cases hks : k.1 = s
      · simp [hnk, hks, ← hf.keep_eq]
      · simp [hnk, hks]

/-- A flag that is set can be seen at one place only. -/
theorem look_mark_of_ne {s : StateId} (hk : k ≠ (s, .flag)) (accepting : Bool) :
    (a.mark s accepting).look k = a.look k := by
  obtain ⟨r, p⟩ := k
  rw [mark, look_updateNode s (Node.separate_accepting accepting)]
  split
  · next hrs =>
      cases p with
      | flag => exact absurd (congrArg (·, Aspect.flag) hrs) hk
      | out =>
          rw [look, Option.map_map]
          rfl
  · rfl

theorem look_mark_self {s : StateId} (hs : s ∈ a.stateIds) (accepting : Bool) :
    (a.mark s accepting).look (s, .flag) = some ⟨⟨s, accepting⟩, []⟩ := by
  rw [mark, look_updateNode s (Node.separate_accepting accepting), if_pos rfl, look]
  cases hnode : a.node? s with
  | none => exact absurd hs (node?_eq_none_iff.1 hnode)
  | some n =>
      obtain ⟨-, rfl⟩ := node?_eq_some hnode
      rfl

theorem accepting_eq_of_look_eq {s : StateId} (h : a.look (s, .flag) = b.look (s, .flag)) :
    a.accepting s = b.accepting s := by
  have haccepting : ∀ c : Automaton,
      c.accepting s = ((c.look (s, .flag)).elim false fun n => n.state.accepting) := by
    intro c
    rw [look, accepting]
    cases c.node? s <;> rfl
  rw [haccepting, haccepting, h]

/-! ## Two graphs changed in the same way -/

/-- Wherever `b` and `x` look alike, `a` and `y` look alike, too, and at the places `S` they do
in any case. -/
structure Carried (S : Set (StateId × Aspect)) (b x a y : Automaton) : Prop where
  look_eq : ∀ k, b.look k = x.look k → a.look k = y.look k
  look_eq_of_mem : ∀ k ∈ S, a.look k = y.look k

theorem Carried.refl (b x : Automaton) : Carried ∅ b x b x :=
  ⟨fun _ h => h, fun _ h => absurd h (Set.notMem_empty _)⟩

theorem Carried.trans {c : Automaton} (h : Carried S b x c z) (h' : Carried T c z a y) :
    Carried (T ∪ S) b x a y where
  look_eq k hk := h'.look_eq k (h.look_eq k hk)
  look_eq_of_mem k hk :=
    hk.elim (h'.look_eq_of_mem k) fun hS => h'.look_eq k (h.look_eq_of_mem k hS)

theorem carried_eraseNode (s : StateId) (b x : Automaton) :
    Carried {k | k.1 = s} b x (b.eraseNode s) (x.eraseNode s) where
  look_eq k hk := by rw [look_eraseNode, look_eraseNode, hk]
  look_eq_of_mem k hk := by
    have hks : k.1 = s := hk
    rw [look_eraseNode, look_eraseNode, if_pos hks, if_pos hks]

theorem carried_insertNode {n : Node} (hb : n.id ∉ b.stateIds) (hx : n.id ∉ x.stateIds) :
    Carried {k | k.1 = n.id} b x (b.insertNode n) (x.insertNode n) where
  look_eq k hk := by rw [look_insertNode hb, look_insertNode hx, hk]
  look_eq_of_mem k hk := by
    have hkn : k.1 = n.id := hk
    rw [look_insertNode hb, look_insertNode hx, if_pos hkn, if_pos hkn]

theorem carried_updateNode (s : StateId) {f : Node → Node} (hf : Node.Separate f)
    (b x : Automaton) : Carried ∅ b x (b.updateNode s f) (x.updateNode s f) where
  look_eq k hk := by rw [look_updateNode s hf, look_updateNode s hf, hk]
  look_eq_of_mem k hk := absurd hk (Set.notMem_empty k)

theorem carried_link (t : Transition) (b x : Automaton) : Carried ∅ b x (b.link t) (x.link t) :=
  carried_updateNode _ (Node.separate_out _) b x

theorem carried_unlink (s : StateId) (t : TransitionId) (b x : Automaton) :
    Carried ∅ b x (b.unlink s t) (x.unlink s t) :=
  carried_updateNode _ (Node.separate_out _) b x

theorem carried_mark {s : StateId} (hb : s ∈ b.stateIds) (hx : s ∈ x.stateIds)
    (accepting : Bool) :
    Carried {(s, .flag)} b x (b.mark s accepting) (x.mark s accepting) where
  look_eq := (carried_updateNode s (Node.separate_accepting accepting) b x).look_eq
  look_eq_of_mem k hk := by
    obtain rfl := Set.mem_singleton_iff.1 hk
    rw [look_mark_self hb, look_mark_self hx]

/-! ## Blends -/

/-- A graph `z` with the states of `y`, and with no other transitions, that looks like `a` at
the places `S` and like `y` everywhere else. -/
structure Blend (S : Set (StateId × Aspect)) (a y z : Automaton) : Prop where
  start_eq : z.start = y.start
  mem_stateIds : ∀ s, s ∈ z.stateIds ↔ s ∈ y.stateIds
  transitions_subset : z.transitions ⊆ y.transitions
  look_eq : ∀ k ∈ S, z.look k = a.look k
  look_eq_of_notMem : ∀ k ∉ S, z.look k = y.look k

theorem Blend.refl (a y : Automaton) : Blend ∅ a y y where
  start_eq := rfl
  mem_stateIds _ := Iff.rfl
  transitions_subset := List.Subset.refl _
  look_eq _ hk := absurd hk (Set.notMem_empty _)
  look_eq_of_notMem _ _ := rfl

theorem Blend.trans (h : Blend S a x z) (h' : Blend T a y x) (hT : T ⊆ S) : Blend S a y z where
  start_eq := h.start_eq.trans h'.start_eq
  mem_stateIds s := (h.mem_stateIds s).trans (h'.mem_stateIds s)
  transitions_subset := List.Subset.trans h.transitions_subset h'.transitions_subset
  look_eq := h.look_eq
  look_eq_of_notMem k hk :=
    (h.look_eq_of_notMem k hk).trans (h'.look_eq_of_notMem k fun hmem => hk (hT hmem))

/-- A blend looks like both graphs where these look alike. -/
theorem Blend.extend (h : Blend S a y z) (hT : ∀ k ∈ T, a.look k = y.look k) :
    Blend (S ∪ T) a y z where
  start_eq := h.start_eq
  mem_stateIds := h.mem_stateIds
  transitions_subset := h.transitions_subset
  look_eq k hk := by
    by_cases hS : k ∈ S
    · exact h.look_eq k hS
    · exact (h.look_eq_of_notMem k hS).trans (hT k (hk.resolve_left hS)).symm
  look_eq_of_notMem k hk := h.look_eq_of_notMem k fun hS => hk (.inl hS)

/-- A blend has the transitions that the two graphs share. -/
theorem Blend.mem_transitions (h : Blend S a y z) (ha : a.Valid) (hy : y.Valid) (hz : z.Valid)
    {t : Transition} (hta : t ∈ a.transitions) (hty : t ∈ y.transitions) :
    t ∈ z.transitions := by
  rw [hz.mem_transitions_iff_look]
  by_cases hS : (t.source, Aspect.out) ∈ S
  · rw [h.look_eq _ hS]
    exact ha.mem_transitions_iff_look.1 hta
  · rw [h.look_eq_of_notMem _ hS]
    exact hy.mem_transitions_iff_look.1 hty

theorem Blend.insertNode (h : Blend S a y z) {n : Node} (ha : n.id ∉ a.stateIds)
    (hy : n.id ∉ y.stateIds) : Blend S (a.insertNode n) (y.insertNode n) (z.insertNode n) where
  start_eq := h.start_eq
  mem_stateIds s := by
    rw [mem_stateIds_insertNode, mem_stateIds_insertNode, h.mem_stateIds]
  transitions_subset t ht := by
    rw [mem_transitions_insertNode] at ht ⊢
    exact ht.imp_right fun hmem => h.transitions_subset hmem
  look_eq k hk := by
    have hz : n.id ∉ z.stateIds := fun hmem => hy ((h.mem_stateIds _).1 hmem)
    rw [look_insertNode hz, look_insertNode ha, h.look_eq k hk]
  look_eq_of_notMem k hk := by
    have hz : n.id ∉ z.stateIds := fun hmem => hy ((h.mem_stateIds _).1 hmem)
    rw [look_insertNode hz, look_insertNode hy, h.look_eq_of_notMem k hk]

theorem Blend.eraseNode (h : Blend S a y z) (hy : y.Valid) (hz : z.Valid) (s : StateId) :
    Blend S (a.eraseNode s) (y.eraseNode s) (z.eraseNode s) where
  start_eq := h.start_eq
  mem_stateIds r := by
    rw [mem_stateIds_eraseNode, mem_stateIds_eraseNode, h.mem_stateIds]
  transitions_subset t ht := by
    rw [hz.mem_transitions_eraseNode] at ht
    exact hy.mem_transitions_eraseNode.2 ⟨h.transitions_subset ht.1, ht.2⟩
  look_eq k hk := by rw [look_eraseNode, look_eraseNode, h.look_eq k hk]
  look_eq_of_notMem k hk := by rw [look_eraseNode, look_eraseNode, h.look_eq_of_notMem k hk]

theorem Blend.updateNode (h : Blend S a y z) {s : StateId} {f : Node → Node}
    (hf : Node.Separate f)
    (hsubset : (z.updateNode s f).transitions ⊆ (y.updateNode s f).transitions) :
    Blend S (a.updateNode s f) (y.updateNode s f) (z.updateNode s f) where
  start_eq := h.start_eq
  mem_stateIds r := by
    rw [stateIds_updateNode hf.id_eq, stateIds_updateNode hf.id_eq, h.mem_stateIds]
  transitions_subset := hsubset
  look_eq k hk := by rw [look_updateNode s hf, look_updateNode s hf, h.look_eq k hk]
  look_eq_of_notMem k hk := by
    rw [look_updateNode s hf, look_updateNode s hf, h.look_eq_of_notMem k hk]

theorem Blend.link (h : Blend S a y z) (hy : y.Valid) (hz : z.Valid) {t : Transition}
    (ht : t.source ∈ y.stateIds) : Blend S (a.link t) (y.link t) (z.link t) := by
  refine h.updateNode (Node.separate_out _) fun u hu => ?_
  rcases (mem_transitions_link hz ((h.mem_stateIds _).2 ht)).1 hu with rfl | hu
  · exact (mem_transitions_link hy ht).2 (.inl rfl)
  · exact (mem_transitions_link hy ht).2 (.inr (h.transitions_subset hu))

theorem Blend.unlink (h : Blend S a y z) (hy : y.Valid) (hz : z.Valid) {t : Transition}
    (hty : t ∈ y.transitions) (htz : t ∈ z.transitions) :
    Blend S (a.unlink t.source t.id) (y.unlink t.source t.id) (z.unlink t.source t.id) := by
  refine h.updateNode (Node.separate_out _) fun u hu => ?_
  obtain ⟨hu, hne⟩ := (mem_transitions_unlink hz htz).1 hu
  exact (mem_transitions_unlink hy hty).2 ⟨h.transitions_subset hu, hne⟩

theorem Blend.mark (h : Blend S a y z) (s : StateId) (accepting : Bool) :
    Blend S (a.mark s accepting) (y.mark s accepting) (z.mark s accepting) := by
  refine h.updateNode (Node.separate_accepting accepting) fun t ht => ?_
  exact mem_transitions_mark.2 (h.transitions_subset (mem_transitions_mark.1 ht))

/-- A state that is taken out and put in again comes without what it has got meanwhile. -/
theorem blend_insertNode_eraseNode (hx : x.Valid) {s : State} (hs : s.id ∈ x.stateIds)
    (ha : s.id ∉ a.stateIds) :
    Blend {k | k.1 = s.id} (a.insertNode ⟨s, []⟩) x
      ((x.eraseNode s.id).insertNode ⟨s, []⟩) := by
  have hout : s.id ∉ (x.eraseNode s.id).stateIds := fun h => (mem_stateIds_eraseNode.1 h).2 rfl
  refine ⟨rfl, fun r => ?_, fun t ht => ?_, fun k hk => ?_, fun k hk => ?_⟩
  · rw [mem_stateIds_insertNode, mem_stateIds_eraseNode]
    by_cases hr : r = s.id
    · simp [hr, hs]
    · simp [hr]
  · have ht := (mem_transitions_insertNode.1 ht).resolve_left List.not_mem_nil
    exact (hx.mem_transitions_eraseNode.1 ht).1
  · have hks : k.1 = s.id := hk
    rw [look_insertNode hout, look_insertNode ha, if_pos hks, if_pos hks]
  · have hks : k.1 ≠ s.id := hk
    rw [look_insertNode hout, if_neg hks, look_eraseNode, if_neg hks]

/-- A flag that is set twice is seen at one place only. -/
theorem blend_mark_mark {s : StateId} (ha : s ∈ a.stateIds) (hx : s ∈ x.stateIds)
    (previous accepting : Bool) :
    Blend {(s, .flag)} (a.mark s accepting) x ((x.mark s previous).mark s accepting) := by
  refine ⟨rfl, fun r => ?_, fun t ht => ?_, fun k hk => ?_, fun k hk => ?_⟩
  · rw [stateIds_mark, stateIds_mark]
  · exact mem_transitions_mark.1 (mem_transitions_mark.1 ht)
  · obtain rfl := Set.mem_singleton_iff.1 hk
    rw [look_mark_self (stateIds_mark.symm ▸ hx), look_mark_self ha]
  · rw [look_mark_of_ne hk, look_mark_of_ne hk]

end Automaton

end RegularForms
