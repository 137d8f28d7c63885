import RegularForms.Expr.Printer
import RegularForms.Proofs.Expr.Language
import RegularForms.Proofs.Expr.Symbols

/-!
# Words and the written form

The words that an expression describes are made of its symbols. When nothing but symbols
stands in the written form of an expression, so that it has neither choices nor iterations,
then it describes at most one word: the written form itself, without `ε`.
-/

namespace RegularForms

namespace Expr

variable {w : List Char}

/-- The characters of a word of the language of an expression are symbols of it. -/
theorem mem_symbols_of_mem_language {e : Expr} (hw : w ∈ e.language) {c : Char} (hc : c ∈ w) :
    c ∈ e.symbols := by
  induction e using ind generalizing w with
  | sym d =>
      by_cases hd : d = epsilonSymbol
      · rw [language_of_isEpsilon (by simp [isEpsilon, hd]), Language.mem_one] at hw
        rw [hw] at hc
        exact absurd hc List.not_mem_nil
      · rw [language_sym_of_ne hd] at hw
        rwa [Set.mem_singleton_iff.1 hw] at hc
  | star e ih =>
      obtain ⟨parts, rfl, hparts⟩ := Language.mem_kstar.1 hw
      obtain ⟨v, hv, hcv⟩ := List.mem_flatten.1 hc
      exact ih (hparts v hv) hcv
  | plus e ih =>
      obtain ⟨u, hu, v, hv, rfl⟩ := Language.mem_mul.1 hw
      obtain ⟨parts, rfl, hparts⟩ := Language.mem_kstar.1 hv
      rcases List.mem_append.1 hc with hc | hc
      · exact ih hu hc
      · obtain ⟨v, hv, hcv⟩ := List.mem_flatten.1 hc
        exact ih (hparts v hv) hcv
  | opt e ih =>
      rcases hw with rfl | hw
      · exact absurd hc List.not_mem_nil
      · exact ih hw hc
  | seq es ih =>
      rw [symbols_seq]
      induction es generalizing w with
      | nil =>
          rw [(Language.mem_one w).1 hw] at hc
          exact absurd hc List.not_mem_nil
      | cons e es ihes =>
          obtain ⟨u, hu, v, hv, rfl⟩ := Language.mem_mul.1 hw
          rw [List.flatMap_cons, List.mem_append]
          rcases List.mem_append.1 hc with hc | hc
          · exact .inl (ih e List.mem_cons_self hu hc)
          · exact .inr (ihes (fun d hd => ih d (List.mem_cons_of_mem _ hd)) hv hc)
  | alt es ih =>
      obtain ⟨e, he, hw⟩ := mem_total.1 hw
      rw [symbols_alt, List.mem_flatMap]
      exact ⟨e, he, ih e he hw hc⟩

/-- Each symbol of a well-formed expression but `ε` stands in a word that it describes. -/
theorem exists_mem_language_of_mem_symbols {e : Expr} (he : e.WellFormed) {c : Char}
    (hc : c ∈ e.symbols) (hne : c ≠ epsilonSymbol) : ∃ w ∈ e.language, c ∈ w := by
  induction e using ind with
  | sym d =>
      obtain rfl := List.mem_singleton.1 hc
      exact ⟨[c], language_sym_of_ne hne ▸ rfl, List.mem_singleton_self c⟩
  | star e ih =>
      obtain ⟨w, hw, hcw⟩ := ih he hc
      exact ⟨w, (le_kstar : e.language ≤ _) hw, hcw⟩
  | plus e ih =>
      obtain ⟨w, hw, hcw⟩ := ih he hc
      exact ⟨w ++ [], Language.append_mem_mul hw (Language.nil_mem_kstar _),
        List.mem_append_left _ hcw⟩
  | opt e ih =>
      obtain ⟨w, hw, hcw⟩ := ih he hc
      exact ⟨w, .inr hw, hcw⟩
  | seq es ih =>
      have hall := (wellFormed_seq.1 he).2.2
      obtain ⟨d, hd, hcd⟩ := List.mem_flatMap.1 (symbols_seq es ▸ hc)
      obtain ⟨w, hw, hcw⟩ := ih d hd (hall d hd) hcd
      -- the word is completed by one of each of the other operands
      obtain ⟨before, after, rfl⟩ := List.append_of_mem hd
      obtain ⟨u, hu⟩ := exists_mem_product fun f hf =>
        (hall f (List.mem_append_left _ hf)).exists_mem_language
      obtain ⟨v, hv⟩ := exists_mem_product fun f hf =>
        (hall f (List.mem_append_right _ (List.mem_cons_of_mem _ hf))).exists_mem_language
      refine ⟨u ++ (w ++ v), ?_, List.mem_append_right _ (List.mem_append_left _ hcw)⟩
      rw [language_seq, product_append, product_cons]
      exact Language.append_mem_mul hu (Language.append_mem_mul hw hv)
  | alt es ih =>
      obtain ⟨d, hd, hcd⟩ := List.mem_flatMap.1 (symbols_alt es ▸ hc)
      obtain ⟨w, hw, hcw⟩ := ih d hd ((wellFormed_alt.1 he).2.2 d hd) hcd
      exact ⟨w, mem_total.2 ⟨d, hd, hw⟩, hcw⟩

/-- A well-formed expression for the words of one that can be read can be read as well. -/
theorem readable_of_language_eq {d e : Expr} (hd : d.WellFormed) (he : e.Readable)
    (h : d.language = e.language) : d.Readable := by
  refine ⟨hd, fun c hc => ?_⟩
  by_cases hne : c = epsilonSymbol
  · subst hne
    decide
  · obtain ⟨w, hw, hcw⟩ := exists_mem_language_of_mem_symbols hd hc hne
    exact he.writable c (mem_symbols_of_mem_language (h ▸ hw) hcw)

/-! ## The written form -/

theorem mem_enclose {op : Operator} {e : Expr} {text : List Char} {c : Char}
    (h : c ∈ enclose op e text) : c ∈ text ∨ c ∈ ['(', ')', '|', '*', '+', '?'] := by
  rw [enclose] at h
  split at h
  · simp only [List.mem_cons, List.mem_append] at h
    grind
  · exact .inl h

theorem mem_render {e : Expr} {c : Char} (hc : c ∈ e.render) :
    c ∈ e.symbols ∨ c ∈ ['(', ')', '|', '*', '+', '?'] := by
  induction e using ind with
  | sym d => exact .inl hc
  | star e ih | plus e ih | opt e ih =>
      rcases List.mem_append.1 hc with hc | hc
      · exact (mem_enclose hc).elim ih .inr
      · obtain rfl := List.mem_singleton.1 hc
        exact .inr (by decide)
  | seq es ih =>
      rw [render, renderSeq_eq] at hc
      obtain ⟨d, hd, hcd⟩ := List.mem_flatMap.1 hc
      refine (mem_enclose hcd).elim (fun h => (ih d hd h).imp_left fun h => ?_) .inr
      exact symbols_seq es ▸ List.mem_flatMap.2 ⟨d, hd, h⟩
  | alt es ih =>
      have hoperand : ∀ d ∈ es, c ∈ d.render → c ∈ (alt es).symbols ∨ _ := fun d hd h =>
        (ih d hd h).imp_left fun h => symbols_alt es ▸ List.mem_flatMap.2 ⟨d, hd, h⟩
      cases es with
      | nil => nomatch hc
      | cons d ds =>
          rw [render, enclose_choice, renderBars_eq] at hc
          rcases List.mem_append.1 hc with hc | hc
          · exact hoperand d List.mem_cons_self hc
          · obtain ⟨f, hf, hcf⟩ := List.mem_flatMap.1 hc
            rcases List.mem_cons.1 hcf with rfl | hcf
            · exact .inr (by decide)
            · exact hoperand f (List.mem_cons_of_mem _ hf) hcf

/-- Nothing that can be read is written with blanks. -/
theorem Readable.isBlank_eq_false {e : Expr} (h : e.Readable) {c : Char} (hc : c ∈ e.render) :
    Text.isBlank c = false := by
  rcases mem_render hc with hc | hc
  · exact (h.writable c hc).2
  · have hmarks : (['(', ')', '|', '*', '+', '?'].all fun c => !Text.isBlank c) = true := by decide
    simpa using List.all_eq_true.1 hmarks c hc

end Expr

end RegularForms
