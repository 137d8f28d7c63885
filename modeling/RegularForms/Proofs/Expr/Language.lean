import Mathlib.Computability.Language
import Mathlib.Order.CompletePartialOrder
import RegularForms.Expr.WellFormed

/-!
# The language of an expression

`Expr.language e` is the set of words that `e` describes, with the operations of the
Kleene algebra of languages: a star is `l∗`, a plus is `l * l∗`, an option adds the empty
word, a sequence is a product and a choice a sum. The symbol `ε` describes the empty word
alone, so no word of a language contains it on its account.

The languages of the operands of a sequence or choice are gathered in `product` and
`total`, which depend only on the list and are the product and the sum over it.
-/

namespace RegularForms

open scoped Computability

namespace Expr

mutual
/-- The words that an expression describes. -/
noncomputable def language : Expr → Language Char
  | sym c => if c = epsilonSymbol then 1 else {[c]}
  | star e => (language e)∗
  | plus e => language e * (language e)∗
  | opt e => 1 + language e
  | seq es => product es
  | alt es => total es
noncomputable def product : List Expr → Language Char
  | [] => 1
  | e :: es => language e * product es
noncomputable def total : List Expr → Language Char
  | [] => 0
  | e :: es => language e + total es
end

@[simp] theorem language_star (e : Expr) : (star e).language = e.language∗ := rfl

@[simp] theorem language_plus (e : Expr) :
    (plus e).language = e.language * e.language∗ := rfl

@[simp] theorem language_opt (e : Expr) : (opt e).language = 1 + e.language := rfl

@[simp] theorem language_seq (es : List Expr) : (seq es).language = product es := rfl

@[simp] theorem language_alt (es : List Expr) : (alt es).language = total es := rfl

@[simp] theorem language_epsilon : epsilon.language = 1 := rfl

theorem language_sym_of_ne {c : Char} (h : c ≠ epsilonSymbol) :
    (sym c).language = {[c]} :=
  if_neg h

theorem language_of_isEpsilon {e : Expr} (h : e.isEpsilon = true) : e.language = 1 := by
  rw [isEpsilon_iff.1 h, language_epsilon]

@[simp] theorem product_nil : product [] = 1 := rfl

@[simp] theorem product_cons (e : Expr) (es : List Expr) :
    product (e :: es) = e.language * product es := rfl

@[simp] theorem total_nil : total [] = 0 := rfl

@[simp] theorem total_cons (e : Expr) (es : List Expr) :
    total (e :: es) = e.language + total es := rfl

theorem product_eq (es : List Expr) : product es = (es.map language).prod := by
  induction es with
  | nil => rfl
  | cons e es ih => rw [product_cons, ih, List.map_cons, List.prod_cons]

theorem product_append (es fs : List Expr) :
    product (es ++ fs) = product es * product fs := by
  rw [product_eq, product_eq, product_eq, List.map_append, List.prod_append]

/-- A word belongs to a choice when it belongs to one of the operands. -/
theorem mem_total {w : List Char} {es : List Expr} :
    w ∈ total es ↔ ∃ e ∈ es, w ∈ e.language := by
  induction es with
  | nil => simp
  | cons e es ih =>
      rw [total_cons, Language.mem_add, ih]
      simp

theorem language_le_total {e : Expr} {es : List Expr} (h : e ∈ es) :
    e.language ≤ total es := by
  intro w hw
  exact mem_total.2 ⟨e, h, hw⟩

theorem total_mul_le {es : List Expr} {l m : Language Char}
    (h : ∀ e ∈ es, e.language * l ≤ m) : total es * l ≤ m := by
  intro w hw
  obtain ⟨u, hu, v, hv, rfl⟩ := Language.mem_mul.1 hw
  obtain ⟨e, he, hue⟩ := mem_total.1 hu
  exact h e he (Language.append_mem_mul hue hv)

/-- Only which operands there are matters to a choice. -/
theorem total_congr {es fs : List Expr} (h : ∀ e, e ∈ es ↔ e ∈ fs) : total es = total fs := by
  ext w
  simp only [mem_total, h]

/-- The empty word belongs to the language of exactly the nullable expressions. -/
theorem nil_mem_language {e : Expr} : [] ∈ e.language ↔ e.nullable = true := by
  induction e using ind with
  | sym c =>
      by_cases h : c = epsilonSymbol
      · simp [language, h]
      · rw [language_sym_of_ne h]
        constructor
        · intro hw
          exact absurd (Set.mem_singleton_iff.1 hw) (by simp)
        · intro hc
          exact absurd (by simpa using hc) h
  | star e ih => simpa using Language.nil_mem_kstar _
  | plus e ih =>
      rw [language_plus, Language.mem_mul, nullable_plus, ← ih]
      constructor
      · rintro ⟨u, hu, v, -, huv⟩
        exact (List.append_eq_nil_iff.1 huv).1 ▸ hu
      · intro h
        exact ⟨[], h, [], Language.nil_mem_kstar _, rfl⟩
  | opt e ih => exact iff_of_true (.inl rfl) rfl
  | seq es ih =>
      rw [language_seq, nullable_seq, List.all_eq_true]
      induction es with
      | nil => simp
      | cons e es ihes =>
          rw [product_cons, Language.mem_mul, List.forall_mem_cons, ← ih e (by simp),
            ← ihes fun d hd => ih d (by simp [hd])]
          constructor
          · rintro ⟨u, hu, v, hv, huv⟩
            obtain ⟨rfl, rfl⟩ := List.append_eq_nil_iff.1 huv
            exact ⟨hu, hv⟩
          · rintro ⟨hu, hv⟩
            exact ⟨[], hu, [], hv, rfl⟩
  | alt es ih =>
      rw [language_alt, mem_total, nullable_alt, List.any_eq_true]
      exact exists_congr fun e => and_congr_right fun he => ih e he

theorem exists_mem_product {es : List Expr} (h : ∀ e ∈ es, ∃ w, w ∈ e.language) :
    ∃ w, w ∈ product es := by
  induction es with
  | nil => exact ⟨[], rfl⟩
  | cons e es ih =>
      obtain ⟨⟨u, hu⟩, hes⟩ := List.forall_mem_cons.1 h
      obtain ⟨v, hv⟩ := ih hes
      exact ⟨u ++ v, Language.append_mem_mul hu hv⟩

/-- A well-formed expression describes at least one word. -/
theorem WellFormed.exists_mem_language {e : Expr} (h : e.WellFormed) : ∃ w, w ∈ e.language := by
  induction e using ind with
  | sym c =>
      by_cases hc : c = epsilonSymbol
      · exact ⟨[], by simp [language, hc]⟩
      · exact ⟨[c], by rw [language_sym_of_ne hc]; exact Set.mem_singleton _⟩
  | star e ih => exact ⟨[], Language.nil_mem_kstar _⟩
  | plus e ih =>
      obtain ⟨w, hw⟩ := ih h
      exact ⟨w ++ [], Language.append_mem_mul hw (Language.nil_mem_kstar _)⟩
  | opt e ih => exact ⟨[], .inl rfl⟩
  | seq es ih => exact exists_mem_product fun e he => ih e he ((wellFormed_seq.1 h).2.2 e he)
  | alt es ih =>
      obtain ⟨hlen, -, hall⟩ := wellFormed_alt.1 h
      obtain ⟨e, he⟩ := List.exists_mem_of_length_pos (Nat.lt_of_lt_of_le Nat.zero_lt_two hlen)
      obtain ⟨w, hw⟩ := ih e he (hall e he)
      exact ⟨w, mem_total.2 ⟨e, he, hw⟩⟩

end Expr

end RegularForms
