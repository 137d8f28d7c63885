import RegularForms.Expr.Token
import RegularForms.Expr.WellFormed

/-!
# The symbols of an expression

`Expr.symbols` lists the symbols of an expression from left to right, `ε` among them.
Joining operands neither adds nor loses a symbol. A symbol is `Writable` when a reader of
text takes it for itself: it is neither blank nor one of the characters with a meaning of
their own. An expression is `Readable` when it is well formed and all its symbols are
writable.
-/

namespace RegularForms

/-- A character that stands for itself in written text. -/
def Writable (c : Char) : Prop :=
  c ∉ ['(', ')', '|', '*', '+', '?'] ∧ Text.isBlank c = false

instance (c : Char) : Decidable (Writable c) := inferInstanceAs (Decidable (_ ∧ _))

/-- A character is read as a symbol exactly when it is writable, and then as itself. -/
theorem glyph?_eq_symbol_iff {c d : Char} : glyph? c = some (.symbol d) ↔ d = c ∧ Writable c := by
  constructor
  · intro h
    obtain rfl : d = c := mark_of_glyph? h
    refine ⟨rfl, fun hmem => ?_, Bool.eq_false_iff.2 fun hblank => ?_⟩
    · simp only [List.mem_cons, List.not_mem_nil, or_false] at hmem
      rcases hmem with rfl | rfl | rfl | rfl | rfl | rfl <;> nomatch h
    · unfold glyph? at h
      split at h <;> simp_all
  · rintro ⟨rfl, hmem, hblank⟩
    simp only [List.mem_cons, List.not_mem_nil, or_false, not_or] at hmem
    obtain ⟨h₁, h₂, h₃, h₄, h₅, h₆⟩ := hmem
    unfold glyph?
    split <;> simp_all

namespace Expr

mutual
def symbols : Expr → List Char
  | sym c => [c]
  | star e | plus e | opt e => symbols e
  | seq es | alt es => symbolsList es
def symbolsList : List Expr → List Char
  | [] => []
  | e :: es => symbols e ++ symbolsList es
end

theorem symbolsList_eq (es : List Expr) : symbolsList es = es.flatMap symbols := by
  induction es with
  | nil => rfl
  | cons e es ih => rw [symbolsList, ih, List.flatMap_cons]

@[simp] theorem symbols_sym (c : Char) : (sym c).symbols = [c] := rfl

@[simp] theorem symbols_of (i : Iteration) (e : Expr) : (i.of e).symbols = e.symbols := by
  cases i <;> rfl

@[simp] theorem symbols_node (op : Connective) (es : List Expr) :
    (op.node es).symbols = es.flatMap symbols := by
  rw [← symbolsList_eq]
  cases op <;> rfl

@[simp] theorem symbols_seq (es : List Expr) : (seq es).symbols = es.flatMap symbols :=
  symbols_node .sequence es

@[simp] theorem symbols_alt (es : List Expr) : (alt es).symbols = es.flatMap symbols :=
  symbols_node .choice es

theorem flatMap_symbols_parts (op : Connective) (e : Expr) :
    (parts op e).flatMap symbols = e.symbols := by
  by_cases h : e.operator = op.operator
  · rw [← symbols_node op, node_parts op h]
  · rw [parts_of_ne op h, List.flatMap_singleton]

theorem symbols_join (op : Connective) (es : List Expr) :
    (join op es).symbols = es.flatMap symbols := by
  have hflat : (es.flatMap (parts op)).flatMap symbols = es.flatMap symbols := by
    simp only [List.flatMap_assoc, flatMap_symbols_parts]
  rcases join_eq op es with ⟨e, hes, heq⟩ | ⟨-, heq⟩
  · rw [heq, ← hflat, hes, List.flatMap_singleton]
  · rw [heq, symbols_node, hflat]

structure Readable (e : Expr) : Prop where
  wellFormed : e.WellFormed
  writable : ∀ c ∈ e.symbols, Writable c

theorem readable_iff {e : Expr} :
    e.Readable ↔ e.WellFormed ∧ (e.symbols.all fun c => Writable c) = true := by
  simp only [List.all_eq_true, decide_eq_true_eq]
  exact ⟨fun ⟨hw, hs⟩ => ⟨hw, hs⟩, fun ⟨hw, hs⟩ => ⟨hw, hs⟩⟩

instance (e : Expr) : Decidable e.Readable := decidable_of_iff _ readable_iff.symm

theorem readable_sym {c : Char} (h : Writable c) : (sym c).Readable :=
  ⟨wellFormed_sym c, fun _ hd => List.mem_singleton.1 hd ▸ h⟩

theorem readable_of_iff {i : Iteration} {e : Expr} : (i.of e).Readable ↔ e.Readable := by
  have hwf : (i.of e).WellFormed ↔ e.WellFormed := by cases i <;> rfl
  constructor
  · rintro ⟨hw, hs⟩
    exact ⟨hwf.1 hw, symbols_of i e ▸ hs⟩
  · rintro ⟨hw, hs⟩
    exact ⟨hwf.2 hw, (symbols_of i e).symm ▸ hs⟩

theorem Readable.of_mem_operands {e d : Expr} (h : e.Readable) (hd : d ∈ e.operands) :
    d.Readable := by
  refine ⟨h.wellFormed.of_mem_operands hd, fun c hc => h.writable c ?_⟩
  cases e with
  | sym c => nomatch hd
  | star e | plus e | opt e => exact List.mem_singleton.1 hd ▸ hc
  | seq es => exact symbols_seq es ▸ List.mem_flatMap.2 ⟨d, hd, hc⟩
  | alt es => exact symbols_alt es ▸ List.mem_flatMap.2 ⟨d, hd, hc⟩

theorem writable_of_mem_flatMap {es : List Expr} (h : ∀ e ∈ es, e.Readable) {c : Char}
    (hc : c ∈ es.flatMap symbols) : Writable c := by
  obtain ⟨e, he, hce⟩ := List.mem_flatMap.1 hc
  exact (h e he).writable c hce

/-- Joining readable expressions yields a readable one. -/
theorem readable_join (op : Connective) {es : List Expr} (hne : es ≠ [])
    (h : ∀ e ∈ es, e.Readable) : (join op es).Readable :=
  ⟨wellFormed_join op hne fun e he => (h e he).wellFormed, fun _ hc =>
    writable_of_mem_flatMap h (symbols_join op es ▸ hc)⟩

end Expr

end RegularForms
