import RegularForms.Proofs.Expr.Recognition

/-!
# The shortest text of an expression

No text from which an expression is read has fewer characters than its written form. The
proof goes along the derivation of such a text: what a phrase derives is never longer than
its parts written out, each part in the parentheses it would need before an iteration. A
sequence spends these on each of its items, also on those that become several operands of it
and then do without; a choice spends nothing but a bar on each of its alternatives.
-/

namespace RegularForms

open Text

namespace Expr

def renderItem (e : Expr) : List Char := enclose .star e e.render

/-! ## Parentheses -/

theorem length_render_le_enclose (op : Operator) (e : Expr) :
    e.render.length ≤ (enclose op e e.render).length := by
  unfold enclose
  split
  · rw [List.length_cons, List.length_append]
    omega
  · exact Nat.le_refl _

theorem length_renderItem_le (e : Expr) : e.renderItem.length ≤ e.render.length + 2 := by
  rw [renderItem]
  unfold enclose
  split
  · simp
  · exact Nat.le_add_right _ 2

/-- An operator that binds less tightly demands no more parentheses. -/
theorem length_enclose_sequence_le (e : Expr) :
    (enclose .sequence e e.render).length ≤ e.renderItem.length := by
  rw [renderItem]
  by_cases h : e.operator.precedence < Operator.sequence.precedence
  · have hstar : e.operator.precedence < Operator.star.precedence := Nat.lt_succ_of_lt h
    exact Nat.le_of_eq (by rw [enclose_of_lt h, enclose_of_lt hstar])
  · rw [enclose_of_le (Nat.not_lt.1 h)]
    exact length_render_le_enclose .star e

theorem renderItem_of (i : Iteration) (e : Expr) :
    (i.of e).renderItem = e.renderItem ++ [i.mark] := by
  cases i <;> rfl

/-! ## Joining operands -/

theorem length_renderSeq_parts_le (e : Expr) :
    (renderSeq (parts .sequence e)).length ≤ e.renderItem.length := by
  by_cases h : e.operator = .sequence
  · have hnode : seq (parts .sequence e) = e := node_parts .sequence h
    calc (renderSeq (parts .sequence e)).length = e.render.length :=
          congrArg (List.length ∘ render) hnode
      _ ≤ e.renderItem.length := length_render_le_enclose .star e
  · rw [parts_of_ne .sequence h, renderSeq, renderSeq, List.append_nil]
    exact length_enclose_sequence_le e

/-- A sequence is not longer than its items. -/
theorem length_render_join_sequence_le (es : List Expr) :
    (join .sequence es).render.length ≤ (es.flatMap renderItem).length := by
  have hflat :
      (renderSeq (es.flatMap (parts .sequence))).length ≤ (es.flatMap renderItem).length := by
    induction es with
    | nil => exact Nat.le_refl _
    | cons e es ih =>
        have he := length_renderSeq_parts_le e
        rw [List.flatMap_cons, List.flatMap_cons, renderSeq_append, List.length_append,
          List.length_append]
        omega
  rcases join_eq .sequence es with ⟨e, he, heq⟩ | ⟨-, heq⟩
  · rw [he, renderSeq, renderSeq, List.append_nil] at hflat
    rw [heq]
    exact Nat.le_trans (length_render_le_enclose .sequence e) hflat
  · rw [heq]
    exact hflat

theorem renderBars_parts {e : Expr} (he : e.WellFormed) :
    renderBars (parts .choice e) = '|' :: e.render := by
  have hne := he.parts_ne_nil .choice
  cases e with
  | alt es =>
      cases es with
      | nil => exact absurd rfl hne
      | cons d ds => rfl
  | _ => exact congrArg _ (List.append_nil _)

theorem renderBars_flatMap_parts {es : List Expr} (h : ∀ e ∈ es, e.WellFormed) :
    renderBars (es.flatMap (parts .choice)) = renderBars es := by
  induction es with
  | nil => rfl
  | cons e es ih =>
      obtain ⟨he, hes⟩ := List.forall_mem_cons.1 h
      rw [List.flatMap_cons, renderBars_append, renderBars_parts he, ih hes, renderBars,
        enclose_choice, List.cons_append]

/-- A choice is written as its operands are, but for the first bar. -/
theorem cons_render_join_choice {es : List Expr} (hne : es ≠ []) (h : ∀ e ∈ es, e.WellFormed) :
    '|' :: (join .choice es).render = renderBars es := by
  rw [← renderBars_parts (wellFormed_join .choice hne h), parts_join .choice h,
    renderBars_flatMap_parts h]

end Expr

/-! ## Derived texts -/

/-- Some trees, written out as the parts of a phrase, have no more than the given number of
characters. The first bar of a choice is not counted. -/
def Phrase.Fits : Phrase → List Expr → Nat → Prop
  | .atom, es, n | .item, es, n | .sequence, es, n => (es.flatMap Expr.renderItem).length ≤ n
  | .choice, es, n => (Expr.renderBars es).length ≤ n + 1

namespace Derivation

variable {p : Phrase}

/-- The parts of a phrase are not longer, written out, than the text that it derives. -/
theorem fits (d : Derivation p) : p.Fits d.trees d.word.length := by
  induction d with
  | symbol c hc => exact Nat.le_refl 1
  | group d ih =>
      have hitem := Expr.length_renderItem_le (.join .choice d.trees)
      have hbars : (Expr.renderBars d.trees).length ≤ d.word.length + 1 := ih
      rw [← Expr.cons_render_join_choice d.trees_ne_nil d.wellFormed_of_mem_trees,
        List.length_cons] at hbars
      rw [Phrase.Fits, trees, List.flatMap_singleton, word, List.length_cons, List.length_append,
        List.length_singleton]
      omega
  | bare d ih => exact ih
  | iterated d i ih =>
      obtain ⟨e, he⟩ := d.exists_trees_eq (.inr rfl)
      have hitem : (d.trees.flatMap Expr.renderItem).length ≤ d.word.length := ih
      rw [he, List.flatMap_singleton] at hitem
      rw [Phrase.Fits, trees, he, List.map_singleton, List.flatMap_singleton, Expr.renderItem_of,
        word, List.length_append, List.length_append]
      exact Nat.add_le_add_right hitem 1
  | first d ih => exact ih
  | next d e ihd ihe =>
      rw [Phrase.Fits, trees, List.flatMap_append, word, List.length_append, List.length_append]
      exact Nat.add_le_add ihd ihe
  | only d ih =>
      have hitems := Nat.le_trans (Expr.length_render_join_sequence_le d.trees) ih
      rw [Phrase.Fits, trees, Expr.renderBars, Expr.renderBars, Expr.enclose_choice,
        List.append_nil, List.length_cons, word]
      exact Nat.succ_le_succ hitems
  | either d e ihd ihe =>
      have hbars : (Expr.renderBars d.trees).length ≤ d.word.length + 1 := ihd
      have hitems := Nat.le_trans (Expr.length_render_join_sequence_le e.trees) ihe
      rw [Phrase.Fits, trees, Expr.renderBars_append, Expr.renderBars, Expr.renderBars,
        Expr.enclose_choice, List.append_nil, List.length_append, List.length_cons, word,
        List.length_append, List.length_cons]
      omega

/-- The tree of a choice is not longer, written out, than the text that is derived. -/
theorem length_render_tree_le (d : Derivation .choice) :
    d.tree.render.length ≤ d.word.length := by
  have hbars : (Expr.renderBars d.trees).length ≤ d.word.length + 1 := d.fits
  rw [← Expr.cons_render_join_choice d.trees_ne_nil d.wellFormed_of_mem_trees] at hbars
  exact Nat.le_of_succ_le_succ hbars

end Derivation

namespace Expr

theorem length_render_le_of_readChars {text : List Char} {e : Expr}
    (h : readChars text = .ok (some e)) : e.render.length ≤ text.length := by
  obtain ⟨d, hword, rfl⟩ := readChars_eq_some_iff.1 h
  calc d.tree.render.length ≤ d.word.length := d.length_render_tree_le
    _ = (withoutBlanks text).length := congrArg List.length hword
    _ ≤ text.length := List.length_filter_le _ _

/-- A readable expression is read from its written form, and of all the texts from which it is
read none has fewer characters. -/
theorem print_shortest {e : Expr} (he : e.Readable) :
    parse e.print = .ok (some e) ∧
      ∀ text : String, parse text = .ok (some e) → e.print.length ≤ text.length := by
  refine ⟨he.parse_print_eq, fun text htext => ?_⟩
  rw [print, String.length_ofList, ← String.length_toList]
  exact length_render_le_of_readChars htext

/-- The case of `(a|b)(cd)*|e`, read from a text with groups around each of its parts. -/
theorem print_shortest_grouped :
    (alt [seq [alt [.sym 'a', .sym 'b'], star (seq [.sym 'c', .sym 'd'])], .sym 'e']).Readable ∧
      parse "(((a|(b))) ((c)d)*) | e" =
        .ok (some (alt [seq [alt [.sym 'a', .sym 'b'], star (seq [.sym 'c', .sym 'd'])],
          .sym 'e'])) ∧
      (alt [seq [alt [.sym 'a', .sym 'b'], star (seq [.sym 'c', .sym 'd'])],
        .sym 'e']).print.length ≤ 23 :=
  ⟨by decide, rfl, (print_shortest (by decide)).2 "(((a|(b))) ((c)d)*) | e" rfl⟩

end Expr

end RegularForms
