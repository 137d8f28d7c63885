import RegularForms.Expr.WellFormed
import RegularForms.Expr.Iteration

/-!
# The grammar of written expressions

A text without blanks that stands for an expression is derived by the grammar

* a choice is a sequence, or a choice, a bar and a sequence;
* a sequence is an item, or a sequence and an item;
* an item is an atom, or an item and one of the characters `*`, `+`, `?`;
* an atom is a symbol, or a choice in parentheses.

A symbol is any character other than `(`, `)`, `|`, `*`, `+` and `?`. A derivation has a word,
the text it derives, and a tree. No text has two derivations: read from its end, a text leaves
no doubt about where the last part of a phrase begins.
-/

namespace RegularForms

inductive Phrase where
  | atom
  | item
  | sequence
  | choice

inductive Derivation : Phrase → Type where
  | symbol (c : Char) (h : c ∉ ['(', ')', '|', '*', '+', '?']) : Derivation .atom
  | group (d : Derivation .choice) : Derivation .atom
  | bare (d : Derivation .atom) : Derivation .item
  | iterated (d : Derivation .item) (i : Iteration) : Derivation .item
  | first (d : Derivation .item) : Derivation .sequence
  | next (d : Derivation .sequence) (e : Derivation .item) : Derivation .sequence
  | only (d : Derivation .sequence) : Derivation .choice
  | either (d : Derivation .choice) (e : Derivation .sequence) : Derivation .choice

namespace Derivation

variable {p : Phrase}

def word {p : Phrase} : Derivation p → List Char
  | symbol c _ => [c]
  | group d => '(' :: (d.word ++ [')'])
  | bare d => d.word
  | iterated d i => d.word ++ [i.mark]
  | first d => d.word
  | next d e => d.word ++ e.word
  | only d => d.word
  | either d e => d.word ++ '|' :: e.word

/-- The trees of the parts of a phrase: a choice has its alternatives as parts and a sequence
its items, while an atom or item is one part. -/
def trees {p : Phrase} : Derivation p → List Expr
  | symbol c _ => [.sym c]
  | group d => [.join .choice d.trees]
  | bare d => d.trees
  | iterated d i => d.trees.map i.of
  | first d => d.trees
  | next d e => d.trees ++ e.trees
  | only d => [.join .sequence d.trees]
  | either d e => d.trees ++ [.join .sequence e.trees]

def tree (d : Derivation .choice) : Expr := .join .choice d.trees

/-- An atom or item has just one tree. -/
theorem exists_trees_eq (d : Derivation p) (h : p = .atom ∨ p = .item) :
    ∃ e, d.trees = [e] := by
  induction d with
  | symbol c hc => exact ⟨_, rfl⟩
  | group d ih => exact ⟨_, rfl⟩
  | bare d ih => exact ih (.inl rfl)
  | iterated d i ih =>
      obtain ⟨e, he⟩ := ih (.inr rfl)
      exact ⟨i.of e, by rw [trees, he]; rfl⟩
  | _ => nomatch h

theorem trees_ne_nil (d : Derivation p) : d.trees ≠ [] := by
  induction d with
  | symbol c hc => exact List.cons_ne_nil _ _
  | group d ih => exact List.cons_ne_nil _ _
  | bare d ih => exact ih
  | iterated d i ih => exact fun h => ih (List.map_eq_nil_iff.1 h)
  | first d ih => exact ih
  | next d e ihd ihe => exact fun h => ihd (List.append_eq_nil_iff.1 h).1
  | only d ih => exact List.cons_ne_nil _ _
  | either d e ihd ihe => exact fun h => ihd (List.append_eq_nil_iff.1 h).1

/-- The trees of a derivation are well formed. -/
theorem wellFormed_of_mem_trees (d : Derivation p) : ∀ e ∈ d.trees, e.WellFormed := by
  induction d with
  | symbol c hc => exact List.forall_mem_singleton.2 (Expr.wellFormed_sym c)
  | group d ih =>
      exact List.forall_mem_singleton.2 (Expr.wellFormed_join .choice d.trees_ne_nil ih)
  | bare d ih => exact ih
  | iterated d i ih =>
      refine List.forall_mem_map.2 fun e he => ?_
      cases i <;> exact ih e he
  | first d ih => exact ih
  | next d e ihd ihe => exact List.forall_mem_append.2 ⟨ihd, ihe⟩
  | only d ih =>
      exact List.forall_mem_singleton.2 (Expr.wellFormed_join .sequence d.trees_ne_nil ih)
  | either d e ihd ihe =>
      exact List.forall_mem_append.2
        ⟨ihd, List.forall_mem_singleton.2 (Expr.wellFormed_join .sequence e.trees_ne_nil ihe)⟩

/-! ## No text has two derivations -/

/-- How a phrase ends: neither with an opening parenthesis nor with a bar, and an atom not with
an iteration either. -/
theorem exists_word_eq_concat (d : Derivation p) :
    ∃ w c, d.word = w ++ [c] ∧ c ≠ '(' ∧ c ≠ '|' ∧ (p = .atom → ∀ i : Iteration, c ≠ i.mark) := by
  induction d with
  | symbol c hc =>
      simp only [List.mem_cons, List.not_mem_nil, or_false, not_or] at hc
      obtain ⟨hopening, -, hbar, hstar, hplus, hoption⟩ := hc
      exact ⟨[], c, rfl, hopening, hbar, fun _ i => by cases i <;> assumption⟩
  | group d ih =>
      exact ⟨'(' :: d.word, ')', rfl, by decide, by decide, fun _ i => by cases i <;> decide⟩
  | bare d ih =>
      obtain ⟨w, c, hw, hopening, hbar, -⟩ := ih
      exact ⟨w, c, hw, hopening, hbar, fun h => nomatch h⟩
  | iterated d i ih =>
      refine ⟨d.word, i.mark, rfl, ?_, ?_, fun h => nomatch h⟩ <;> cases i <;> decide
  | first d ih =>
      obtain ⟨w, c, hw, hopening, hbar, -⟩ := ih
      exact ⟨w, c, hw, hopening, hbar, fun h => nomatch h⟩
  | next d e ihd ihe =>
      obtain ⟨w, c, hw, hopening, hbar, -⟩ := ihe
      refine ⟨d.word ++ w, c, ?_, hopening, hbar, fun h => nomatch h⟩
      rw [word, hw, List.append_assoc]
  | only d ih =>
      obtain ⟨w, c, hw, hopening, hbar, -⟩ := ih
      exact ⟨w, c, hw, hopening, hbar, fun h => nomatch h⟩
  | either d e ihd ihe =>
      obtain ⟨w, c, hw, hopening, hbar, -⟩ := ihe
      refine ⟨d.word ++ '|' :: w, c, ?_, hopening, hbar, fun h => nomatch h⟩
      rw [word, hw, List.append_assoc, List.cons_append]

end Derivation

/-- What may stand before a phrase: an atom or item may stand anywhere, a sequence begins with
the text, a group or an alternative, and a choice begins with the text or a group. -/
def Phrase.Begins : Phrase → List Char → Prop
  | .atom, _ | .item, _ => True
  | .sequence, before => ∀ u c, before = u ++ [c] → c = '(' ∨ c = '|'
  | .choice, before => ∀ u c, before = u ++ [c] → c = '('

namespace Phrase

theorem begins_nil (p : Phrase) : p.Begins [] := by
  cases p with
  | atom | item => trivial
  | sequence | choice => exact fun u c h => nomatch List.append_eq_nil_iff.1 h.symm

theorem begins_group (before : List Char) : choice.Begins (before ++ ['(']) := fun _ _ h =>
  (List.cons.inj (List.append_inj' h rfl).2).1.symm

theorem begins_bar (before : List Char) : sequence.Begins (before ++ ['|']) := fun _ _ h =>
  .inr (List.cons.inj (List.append_inj' h rfl).2).1.symm

theorem Begins.sequence {before : List Char} (h : choice.Begins before) :
    sequence.Begins before := fun u c hc => .inl (h u c hc)

end Phrase

namespace Derivation

variable {p : Phrase}

/-- No sequence begins where a phrase ends. -/
theorem not_begins_append_word (d : Derivation p) (before : List Char) :
    ¬ Phrase.sequence.Begins (before ++ d.word) := by
  obtain ⟨w, c, hw, hopening, hbar, -⟩ := d.exists_word_eq_concat
  intro h
  rw [hw, ← List.append_assoc] at h
  exact (h _ c rfl).elim hopening hbar

/-- An atom does not end with an iteration. -/
theorem append_word_ne_append_mark (d : Derivation .atom) (before after : List Char)
    (i : Iteration) : before ++ d.word ≠ after ++ [i.mark] := by
  obtain ⟨w, c, hw, -, -, hmark⟩ := d.exists_word_eq_concat
  intro h
  rw [hw, ← List.append_assoc] at h
  exact hmark rfl i (List.cons.inj (List.append_inj' h rfl).2).1

theorem append_word_either (d : Derivation .choice) (e : Derivation .sequence)
    (before : List Char) :
    before ++ (either d e).word = (before ++ d.word ++ ['|']) ++ e.word := by
  simp [word]

/-- A symbol is not the end of a group. -/
theorem append_symbol_ne_append_group {c : Char} (hc : c ∉ ['(', ')', '|', '*', '+', '?'])
    (d : Derivation .choice) (before after : List Char) :
    before ++ (symbol c hc).word ≠ after ++ (group d).word := by
  intro h
  have hsplit : after ++ (group d).word = (after ++ '(' :: d.word) ++ [')'] := by
    rw [word, List.append_assoc, List.cons_append]
  rw [hsplit] at h
  obtain rfl := (List.cons.inj (List.append_inj' h rfl).2).1
  exact hc (by decide)

/-- When the text of another derivation ends in the same way, and both are begun where the phrase
can begin, they are the same. -/
def Determined (d : Derivation p) : Prop :=
  ∀ (d' : Derivation p) (before before' : List Char), p.Begins before → p.Begins before' →
    before ++ d.word = before' ++ d'.word → before = before' ∧ d = d'

theorem determined_symbol {c : Char} (hc : c ∉ ['(', ')', '|', '*', '+', '?']) :
    (symbol c hc).Determined := by
  intro d' before before' _ _ h
  cases d' with
  | symbol c' hc' =>
      obtain ⟨rfl, heq⟩ := List.append_inj' h rfl
      obtain rfl := (List.cons.inj heq).1
      exact ⟨rfl, rfl⟩
  | group d' => exact absurd h (append_symbol_ne_append_group hc d' _ _)

theorem Determined.group {d : Derivation .choice} (hd : d.Determined) :
    (group d).Determined := by
  intro d' before before' _ _ h
  cases d' with
  | symbol c hc => exact absurd h.symm (append_symbol_ne_append_group hc d _ _)
  | group d' =>
      have hclosed : (before ++ ['('] ++ d.word) ++ [')'] =
          (before' ++ ['('] ++ d'.word) ++ [')'] := by
        simpa [word] using h
      obtain ⟨heq, rfl⟩ := hd d' _ _ (Phrase.begins_group _) (Phrase.begins_group _)
        (List.append_cancel_right hclosed)
      exact ⟨List.append_cancel_right heq, rfl⟩

theorem Determined.bare {d : Derivation .atom} (hd : d.Determined) : (bare d).Determined := by
  intro d' before before' _ _ h
  cases d' with
  | bare d' =>
      obtain ⟨rfl, rfl⟩ := hd d' _ _ trivial trivial h
      exact ⟨rfl, rfl⟩
  | iterated d' i =>
      rw [word, word, ← List.append_assoc] at h
      exact absurd h (append_word_ne_append_mark d _ _ i)

theorem Determined.iterated {d : Derivation .item} (hd : d.Determined) (i : Iteration) :
    (iterated d i).Determined := by
  intro d' before before' _ _ h
  cases d' with
  | bare d' =>
      rw [word, word, ← List.append_assoc] at h
      exact absurd h.symm (append_word_ne_append_mark d' _ _ i)
  | iterated d' i' =>
      rw [word, word, ← List.append_assoc, ← List.append_assoc] at h
      obtain ⟨hitem, hmark⟩ := List.append_inj' h rfl
      obtain ⟨rfl, rfl⟩ := hd d' _ _ trivial trivial hitem
      obtain rfl := Iteration.mark_injective (List.cons.inj hmark).1
      exact ⟨rfl, rfl⟩

theorem Determined.first {d : Derivation .item} (hd : d.Determined) : (first d).Determined := by
  intro d' before before' hbefore _ h
  cases d' with
  | first d' =>
      obtain ⟨rfl, rfl⟩ := hd d' _ _ trivial trivial h
      exact ⟨rfl, rfl⟩
  | next d' e' =>
      rw [word, word, ← List.append_assoc] at h
      obtain ⟨rfl, -⟩ := hd e' _ _ trivial trivial h
      exact absurd hbefore (d'.not_begins_append_word before')

theorem Determined.next {d : Derivation .sequence} {e : Derivation .item} (hd : d.Determined)
    (he : e.Determined) : (next d e).Determined := by
  intro d' before before' hbefore hbefore' h
  cases d' with
  | first d' =>
      rw [word, word, ← List.append_assoc] at h
      obtain ⟨rfl, -⟩ := he d' _ _ trivial trivial h
      exact absurd hbefore' (d.not_begins_append_word before)
  | next d' e' =>
      rw [word, word, ← List.append_assoc, ← List.append_assoc] at h
      obtain ⟨heq, rfl⟩ := he e' _ _ trivial trivial h
      obtain ⟨rfl, rfl⟩ := hd d' _ _ hbefore hbefore' heq
      exact ⟨rfl, rfl⟩

theorem Determined.only {d : Derivation .sequence} (hd : d.Determined) :
    (only d).Determined := by
  intro d' before before' hbefore hbefore' h
  cases d' with
  | only d' =>
      obtain ⟨rfl, rfl⟩ := hd d' _ _ hbefore.sequence hbefore'.sequence h
      exact ⟨rfl, rfl⟩
  | either d' e' =>
      rw [append_word_either] at h
      obtain ⟨rfl, -⟩ := hd e' _ _ hbefore.sequence (Phrase.begins_bar _) h
      exact absurd (hbefore _ _ rfl) (by decide)

theorem Determined.either {d : Derivation .choice} {e : Derivation .sequence}
    (hd : d.Determined) (he : e.Determined) : (either d e).Determined := by
  intro d' before before' hbefore hbefore' h
  cases d' with
  | only d' =>
      rw [append_word_either] at h
      obtain ⟨rfl, -⟩ := he d' _ _ (Phrase.begins_bar _) hbefore'.sequence h
      exact absurd (hbefore' _ _ rfl) (by decide)
  | either d' e' =>
      rw [append_word_either, append_word_either] at h
      obtain ⟨heq, rfl⟩ := he e' _ _ (Phrase.begins_bar _) (Phrase.begins_bar _) h
      obtain ⟨rfl, rfl⟩ := hd d' _ _ hbefore hbefore' (List.append_cancel_right heq)
      exact ⟨rfl, rfl⟩

theorem determined (d : Derivation p) : d.Determined := by
  induction d with
  | symbol c hc => exact determined_symbol hc
  | group d ih => exact ih.group
  | bare d ih => exact ih.bare
  | iterated d i ih => exact ih.iterated i
  | first d ih => exact ih.first
  | next d e ihd ihe => exact ihd.next ihe
  | only d ih => exact ih.only
  | either d e ihd ihe => exact ihd.either ihe

/-- A text has at most one derivation. -/
theorem word_injective (p : Phrase) : Function.Injective (@word p) := fun d d' h =>
  (d.determined d' [] [] p.begins_nil p.begins_nil h).2

end Derivation

end RegularForms
