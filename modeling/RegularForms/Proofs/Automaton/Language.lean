import RegularForms.Automaton.Query
import RegularForms.Proofs.Expr.Language

/-!
# The language of an automaton

A path reads a word along transitions, each of which contributes any word of its label.
`languageFrom s` holds the words read along the paths from `s` to an accepting state, and
`language` those from the start state.

`languageFrom` is the least solution of the inequations that the graph stands for: a
family of languages, one for each state, contains it as soon as it has the empty word at
every accepting state and is closed under putting a label before what its target has.
So that two graphs have one language is shown by giving, for either, such a family made
of the languages of the other.
-/

namespace RegularForms

namespace Automaton

variable {a b : Automaton}

/-- Reading a word along transitions from one state to another. -/
inductive Path (a : Automaton) : StateId → List Char → StateId → Prop
  | nil (s : StateId) : Path a s [] s
  | cons {t : Transition} {u v : List Char} {s : StateId} (ht : t ∈ a.transitions)
      (hu : u ∈ t.label.language) (hv : Path a t.target v s) : Path a t.source (u ++ v) s

def languageFrom (a : Automaton) (s : StateId) : Language Char :=
  {w | ∃ r, a.Path s w r ∧ a.accepting r = true}

def language (a : Automaton) : Language Char := a.languageFrom a.start

theorem Path.trans {s r q : StateId} {u v : List Char} (hu : a.Path s u r)
    (hv : a.Path r v q) : a.Path s (u ++ v) q := by
  induction hu with
  | nil s => exact hv
  | cons ht hu _ ih =>
      rw [List.append_assoc]
      exact .cons ht hu (ih hv)

theorem Path.single {t : Transition} {u : List Char} (ht : t ∈ a.transitions)
    (hu : u ∈ t.label.language) : a.Path t.source u t.target := by
  have h := Path.cons ht hu (.nil t.target)
  rwa [List.append_nil] at h

theorem nil_mem_languageFrom {s : StateId} (h : a.accepting s = true) :
    [] ∈ a.languageFrom s :=
  ⟨s, .nil s, h⟩

theorem one_le_languageFrom {s : StateId} (h : a.accepting s = true) :
    1 ≤ a.languageFrom s := by
  intro w hw
  rw [(Language.mem_one w).1 hw]
  exact nil_mem_languageFrom h

/-- What a label puts before a word of its target is a word of its source. -/
theorem label_mul_languageFrom_le {t : Transition} (ht : t ∈ a.transitions) :
    t.label.language * a.languageFrom t.target ≤ a.languageFrom t.source := by
  intro w hw
  obtain ⟨u, hu, v, ⟨r, hv, hr⟩, rfl⟩ := Language.mem_mul.1 hw
  exact ⟨r, .cons ht hu hv, hr⟩

/-- An `ε` transition makes the words of its target words of its source. -/
theorem languageFrom_le_of_isEpsilon {t : Transition} (ht : t ∈ a.transitions)
    (h : t.isEpsilon = true) : a.languageFrom t.target ≤ a.languageFrom t.source := by
  have hle := label_mul_languageFrom_le ht
  rwa [Expr.language_of_isEpsilon h, one_mul] at hle

/-- A family of languages that has the empty word at the accepting states and is closed
under the transitions contains the languages of the states. -/
theorem languageFrom_le {M : StateId → Language Char}
    (hnil : ∀ s, a.accepting s = true → 1 ≤ M s)
    (hstep : ∀ t ∈ a.transitions, t.label.language * M t.target ≤ M t.source)
    (s : StateId) : a.languageFrom s ≤ M s := by
  rintro w ⟨r, hpath, hr⟩
  induction hpath with
  | nil s => exact hnil s hr rfl
  | cons ht hu _ ih => exact hstep _ ht (Language.append_mem_mul hu (ih hr))

/-- A word from a state is empty and the state accepting, or it begins with a word of the
label of a transition that leaves the state. -/
theorem exists_of_mem_languageFrom {s : StateId} {w : List Char}
    (h : w ∈ a.languageFrom s) :
    (w = [] ∧ a.accepting s = true) ∨
      ∃ t ∈ a.transitions, t.source = s ∧ w ∈ t.label.language * a.languageFrom t.target := by
  obtain ⟨r, hpath, hr⟩ := h
  cases hpath with
  | nil => exact .inl ⟨rfl, hr⟩
  | cons ht hu hv => exact .inr ⟨_, ht, rfl, Language.append_mem_mul hu ⟨r, hv, hr⟩⟩

/-- What bounds the empty word of an accepting state and the words that begin along each
transition that leaves a state bounds the language of the state. -/
theorem languageFrom_le_of_step {s : StateId} {l : Language Char}
    (hnil : a.accepting s = true → 1 ≤ l)
    (hstep : ∀ t ∈ a.transitions, t.source = s →
      t.label.language * a.languageFrom t.target ≤ l) : a.languageFrom s ≤ l := by
  intro w hw
  rcases exists_of_mem_languageFrom hw with ⟨rfl, hs⟩ | ⟨t, ht, hts, hw⟩
  · exact hnil hs rfl
  · exact hstep t ht hts hw

/-! ## Ending elsewhere -/

def languageApart (a : Automaton) (s r : StateId) : Language Char :=
  {w | ∃ q, a.Path r w q ∧ a.accepting q = true ∧ q ≠ s}

theorem languageApart_le_languageFrom (s r : StateId) :
    a.languageApart s r ≤ a.languageFrom r :=
  fun _ ⟨q, hpath, hq, _⟩ => ⟨q, hpath, hq⟩

/-- Where nobody ends, everybody ends elsewhere. -/
theorem languageApart_eq {s : StateId} (hs : ¬ a.accepting s = true) (r : StateId) :
    a.languageApart s r = a.languageFrom r := by
  refine (languageApart_le_languageFrom s r).antisymm ?_
  rintro w ⟨q, hpath, hq⟩
  exact ⟨q, hpath, hq, fun hqs => hs (hqs ▸ hq)⟩

theorem one_le_languageApart {s r : StateId} (h : a.accepting r = true) (hrs : r ≠ s) :
    1 ≤ a.languageApart s r := by
  intro w hw
  rw [(Language.mem_one w).1 hw]
  exact ⟨r, .nil r, h, hrs⟩

theorem label_mul_languageApart_le (s : StateId) {t : Transition} (ht : t ∈ a.transitions) :
    t.label.language * a.languageApart s t.target ≤ a.languageApart s t.source := by
  intro w hw
  obtain ⟨u, hu, v, ⟨r, hv, hr⟩, rfl⟩ := Language.mem_mul.1 hw
  exact ⟨r, .cons ht hu hv, hr⟩

/-- A family that is closed under the transitions needs the empty word at the accepting
states other than `s` only. -/
theorem languageApart_le {s : StateId} {M : StateId → Language Char}
    (hnil : ∀ r, a.accepting r = true → r ≠ s → 1 ≤ M r)
    (hstep : ∀ t ∈ a.transitions, t.label.language * M t.target ≤ M t.source)
    (r : StateId) : a.languageApart s r ≤ M r := by
  rintro w ⟨q, hpath, hq, hqs⟩
  induction hpath with
  | nil r => exact hnil r hq hqs rfl
  | cons ht hu _ ih => exact hstep _ ht (Language.append_mem_mul hu (ih hq hqs))

/-! ## Handing out -/

/-- Handing out states and transitions does not touch the language. -/
@[simp] theorem languageFrom_reserve (a : Automaton) (m n : Nat) (s : StateId) :
    (a.reserve m n).languageFrom s = a.languageFrom s := by
  have key : ∀ {a b : Automaton}, a.transitions = b.transitions → a.accepting = b.accepting →
      a.languageFrom s ≤ b.languageFrom s := by
    intro a b ht hacc
    refine languageFrom_le (M := b.languageFrom) (fun r hr => ?_) (fun t h => ?_) s
    · exact one_le_languageFrom (hacc ▸ hr)
    · exact label_mul_languageFrom_le (ht ▸ h)
  exact le_antisymm (key rfl rfl) (key rfl rfl)

@[simp] theorem language_reserve (a : Automaton) (m n : Nat) :
    (a.reserve m n).language = a.language :=
  languageFrom_reserve a m n a.start

theorem language_reserve_eq {l : Language Char} (a : Automaton) (m n : Nat)
    (h : a.language = l) : (a.reserve m n).language = l := by
  rwa [language_reserve]

end Automaton

end RegularForms
