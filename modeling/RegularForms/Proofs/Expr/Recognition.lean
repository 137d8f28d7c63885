import RegularForms.Proofs.Expr.Blank
import RegularForms.Proofs.Expr.Grammar
import RegularForms.Proofs.Expr.RoundTrip

/-!
# Reading recognises the grammar

What has been read of a level are the derivations of its alternatives and of the items after
the last bar. A derived text drives the reader through just these levels to the tree of its
derivation; and whenever the reader accepts, the levels it went through spell out a derivation
of the text. So a text is read as an expression exactly when the grammar derives it without its
blanks, and the expression is the tree of its one derivation.
-/

namespace RegularForms

open Text

namespace Level

def all (l : Level) : List Expr :=
  (Expr.join .sequence l.operands.reverse :: l.alternatives).reverse

variable {l m : Level}

theorem pushAll_append (l : Level) (es ds : List Expr) :
    l.pushAll (es ++ ds) = (l.pushAll es).pushAll ds :=
  List.foldl_append

theorem of_iterate {i : Iteration} {p : Nat} (h : l.iterate i p = .ok m) :
    ∃ e es, l.operands = e :: es ∧ m = { l with operands := i.of e :: es } := by
  unfold iterate at h
  split at h
  · nomatch h
  · next e es hl => exact ⟨e, es, hl, (Except.ok.inj h).symm⟩

/-- A bar ends the alternative in progress. -/
theorem bar_eq (hne : l.operands ≠ []) (p : Nat) :
    l.bar p = .ok ⟨[], l.all.reverse, some p⟩ := by
  obtain ⟨_ | ⟨e, es⟩, alternatives, lastBar⟩ := l
  · exact absurd rfl hne
  · rw [all, List.reverse_reverse]
    rfl

theorem of_bar {p : Nat} (h : l.bar p = .ok m) :
    l.operands ≠ [] ∧ m = ⟨[], l.all.reverse, some p⟩ := by
  have hne : l.operands ≠ [] := by
    intro hnil
    rw [bar, hnil] at h
    nomatch h
  rw [bar_eq hne] at h
  exact ⟨hne, (Except.ok.inj h).symm⟩

/-- A level ends with the choice between its alternatives. -/
theorem finish_eq (hne : l.operands ≠ []) (hwf : ∀ e ∈ l.all, e.WellFormed) :
    l.finish = .ok (some (.join .choice l.all)) := by
  by_cases halt : l.alternatives = []
  · have hall : l.all = [Expr.join .sequence l.operands.reverse] := by
      rw [all, halt, List.reverse_singleton]
    rw [hall] at hwf ⊢
    rw [finish_of_nil hne halt, Expr.join_singleton .choice (hwf _ (List.mem_singleton_self _))]
  · exact finish_of_ne_nil hne halt

theorem of_finish_eq_none (h : l.finish = .ok none) : l.operands = [] ∧ l.lastBar = none := by
  obtain ⟨_ | ⟨e, es⟩, _ | ⟨d, ds⟩, _ | p⟩ := l <;> first | exact ⟨rfl, rfl⟩ | nomatch h

end Level

/-! ## Derived texts are read -/

/-- Reading a text does to a level what the parts of a phrase demand: the trees of a phrase
below a choice are pushed onto any level, and a choice fills a new level. -/
def Phrase.Pushes : Phrase → List Char → List Expr → Prop
  | .atom, text, es | .item, text, es | .sequence, text, es =>
    ∀ l : Level, Reads text l (l.pushAll es)
  | .choice, text, es => ∀ n outer rest, ∃ l : Level,
    readTokens outer .start (tokensFrom n text ++ rest) = readTokens outer l rest ∧
      l.operands ≠ [] ∧ l.all = es

namespace Derivation

variable {p : Phrase}

theorem balanced (d : Derivation p) (h : ∀ c ∈ d.word, isBlank c = false) :
    Balanced d.word := by
  induction d with
  | symbol c hc => exact balanced_symbol ⟨hc, h c (List.mem_singleton_self c)⟩
  | group d ih =>
      obtain ⟨-, h⟩ := List.forall_mem_cons.1 h
      exact (ih (List.forall_mem_append.1 h).1).group
  | bare d ih => exact ih h
  | iterated d i ih => exact (ih (List.forall_mem_append.1 h).1).append (balanced_mark i)
  | first d ih => exact ih h
  | next d e ihd ihe =>
      obtain ⟨hd, he⟩ := List.forall_mem_append.1 h
      exact (ihd hd).append (ihe he)
  | only d ih => exact ih h
  | either d e ihd ihe =>
      obtain ⟨hd, he⟩ := List.forall_mem_append.1 h
      exact (ihd hd).append (balanced_bar.append (ihe (List.forall_mem_cons.1 he).2))

/-- A choice that fills a level fills it with its tree. -/
theorem fills_of_pushes (d : Derivation .choice) (h : Phrase.choice.Pushes d.word d.trees) :
    Fills d.word d.tree := by
  intro n outer rest
  obtain ⟨l, hread, hne, hall⟩ := h n outer rest
  refine ⟨l, hread, ?_⟩
  rw [l.finish_eq hne (hall ▸ d.wellFormed_of_mem_trees), hall, tree]

/-- Reading a derived text pushes the trees of the derivation. -/
theorem pushes (d : Derivation p) (h : ∀ c ∈ d.word, isBlank c = false) :
    p.Pushes d.word d.trees := by
  induction d with
  | symbol c hc => exact reads_symbol ⟨hc, h c (List.mem_singleton_self c)⟩
  | group d ih =>
      obtain ⟨-, h⟩ := List.forall_mem_cons.1 h
      have hd := (List.forall_mem_append.1 h).1
      exact (d.fills_of_pushes (ih hd)).reads_group (d.balanced hd)
  | bare d ih => exact ih h
  | iterated d i ih =>
      intro l
      have hread := ih (List.forall_mem_append.1 h).1 l
      obtain ⟨e, he⟩ := d.exists_trees_eq (.inr rfl)
      rw [he] at hread
      rw [word, trees, he]
      exact hread.append (reads_mark i l e)
  | first d ih => exact ih h
  | next d e ihd ihe =>
      intro l
      obtain ⟨hd, he⟩ := List.forall_mem_append.1 h
      rw [trees, Level.pushAll_append]
      exact (ihd hd l).append (ihe he _)
  | only d ih =>
      intro n outer rest
      refine ⟨_, ih h .start n outer rest, ?_⟩
      rw [Level.pushAll_eq, Level.all, trees]
      simp [Level.start, d.trees_ne_nil]
  | either d e ihd ihe =>
      intro n outer rest
      obtain ⟨hd, he⟩ := List.forall_mem_append.1 h
      have he := ihe (List.forall_mem_cons.1 he).2
      obtain ⟨m, hread, hne, hall⟩ := ihd hd n outer
        (⟨.bar, n + d.word.length⟩ :: (tokensFrom (n + d.word.length + 1) e.word ++ rest))
      refine ⟨(⟨[], m.all.reverse, some (n + d.word.length)⟩ : Level).pushAll e.trees, ?_, ?_, ?_⟩
      · calc readTokens outer .start (tokensFrom n (d.word ++ '|' :: e.word) ++ rest)
            = readTokens outer .start (tokensFrom n d.word ++ (⟨.bar, n + d.word.length⟩ ::
                (tokensFrom (n + d.word.length + 1) e.word ++ rest))) := by
              rw [tokensFrom_append_append]
              rfl
          _ = readTokens outer m (⟨.bar, n + d.word.length⟩ ::
                (tokensFrom (n + d.word.length + 1) e.word ++ rest)) := hread
          _ = readTokens outer ⟨[], m.all.reverse, some (n + d.word.length)⟩
                (tokensFrom (n + d.word.length + 1) e.word ++ rest) := by
              rw [readTokens_bar, m.bar_eq hne]
          _ = _ := he _ _ _ _
      · rw [Level.pushAll_eq]
        simpa using e.trees_ne_nil
      · rw [Level.pushAll_eq, Level.all, trees]
        simp [hall]

/-- A derived text is read as the tree of its derivation. -/
theorem readChars_word (d : Derivation .choice) (h : ∀ c ∈ d.word, isBlank c = false) :
    Expr.readChars d.word = .ok (some d.tree) := by
  obtain ⟨l, hread, hfinish⟩ := d.fills_of_pushes (d.pushes h) 0 [] []
  rw [Expr.readChars, tokens, ← List.append_nil (tokensFrom _ _), hread, readTokens, hfinish]

end Derivation

/-! ## Texts that are read are derived -/

def SpellsItems (es : List Expr) (text : List Char) : Prop :=
  es = [] ∧ text = [] ∨ ∃ d : Derivation .sequence, d.trees = es.reverse ∧ d.word = text

/-- Some alternatives, latest first, are those of a text, each of which a bar ends. -/
def SpellsAlternatives (es : List Expr) (text : List Char) : Prop :=
  es = [] ∧ text = [] ∨ ∃ d : Derivation .choice, d.trees = es.reverse ∧ d.word ++ ['|'] = text

def Level.Spells (l : Level) (text : List Char) : Prop :=
  ∃ cs ds, cs ++ ds = text ∧ SpellsAlternatives l.alternatives cs ∧ SpellsItems l.operands ds

def SpellsOuter : List (Nat × Level) → List Char → Prop
  | [], text => text = []
  | (_, l) :: outer, text =>
    ∃ cs ds, cs ++ ds ++ ['('] = text ∧ SpellsOuter outer cs ∧ l.Spells ds

theorem SpellsItems.append {es : List Expr} {text : List Char} (h : SpellsItems es text)
    (d : Derivation .item) {e : Expr} (he : d.trees = [e]) :
    SpellsItems (e :: es) (text ++ d.word) := by
  rcases h with ⟨rfl, rfl⟩ | ⟨c, htrees, rfl⟩
  · exact .inr ⟨.first d, he, rfl⟩
  · refine .inr ⟨.next c d, ?_, rfl⟩
    rw [Derivation.trees, htrees, he, List.reverse_cons]

theorem Derivation.trees_iterated {d : Derivation .item} {e : Expr} (h : d.trees = [e])
    (i : Iteration) : (iterated d i).trees = [i.of e] := by
  rw [trees, h, List.map_singleton]

/-- An iteration applies to the last item. -/
theorem SpellsItems.iterate {e : Expr} {es : List Expr} {text : List Char}
    (h : SpellsItems (e :: es) text) (i : Iteration) :
    SpellsItems (i.of e :: es) (text ++ [i.mark]) := by
  rcases h with ⟨hnil, -⟩ | ⟨d, htrees, rfl⟩
  · nomatch hnil
  rw [List.reverse_cons] at htrees
  cases d with
  | first d =>
      obtain ⟨x, hx⟩ := d.exists_trees_eq (.inr rfl)
      have hlast : [] ++ [x] = es.reverse ++ [e] := hx.symm.trans htrees
      obtain ⟨hes, heq⟩ := List.append_inj' hlast rfl
      obtain rfl := List.reverse_eq_nil_iff.1 hes.symm
      obtain rfl := (List.cons.inj heq).1
      exact .inr ⟨.first (.iterated d i), Derivation.trees_iterated hx i, rfl⟩
  | next c d =>
      obtain ⟨x, hx⟩ := d.exists_trees_eq (.inr rfl)
      rw [Derivation.trees, hx] at htrees
      obtain ⟨hes, heq⟩ := List.append_inj' htrees rfl
      obtain rfl := (List.cons.inj heq).1
      refine .inr ⟨.next c (.iterated d i), ?_, ?_⟩
      · rw [Derivation.trees, Derivation.trees_iterated hx, hes, List.reverse_cons]
      · rw [Derivation.word, Derivation.word, Derivation.word, List.append_assoc]

namespace Level

variable {l m : Level} {text : List Char}

theorem spells_start : start.Spells [] :=
  ⟨[], [], rfl, .inl ⟨rfl, rfl⟩, .inl ⟨rfl, rfl⟩⟩

theorem Spells.push (h : l.Spells text) (d : Derivation .item) {e : Expr} (he : d.trees = [e]) :
    (l.push e).Spells (text ++ d.word) := by
  obtain ⟨cs, ds, rfl, hcs, hds⟩ := h
  exact ⟨cs, ds ++ d.word, (List.append_assoc cs ds _).symm, hcs, hds.append d he⟩

theorem Spells.iterate (h : l.Spells text) {i : Iteration} {p : Nat}
    (hm : l.iterate i p = .ok m) : m.Spells (text ++ [i.mark]) := by
  obtain ⟨cs, ds, rfl, hcs, hds⟩ := h
  obtain ⟨e, es, hl, rfl⟩ := of_iterate hm
  rw [hl] at hds
  exact ⟨cs, ds ++ [i.mark], (List.append_assoc cs ds _).symm, hcs, hds.iterate i⟩

/-- The alternatives of a level in which the last one is not empty are a choice. -/
theorem Spells.exists_choice (h : l.Spells text) (hne : l.operands ≠ []) :
    ∃ d : Derivation .choice, d.trees = l.all ∧ d.word = text := by
  obtain ⟨cs, ds, rfl, hcs, hds⟩ := h
  rcases hds with ⟨hnil, -⟩ | ⟨e, he, rfl⟩
  · exact absurd hnil hne
  rcases hcs with ⟨hnil, rfl⟩ | ⟨d, hd, rfl⟩
  · refine ⟨.only e, ?_, rfl⟩
    rw [Derivation.trees, he, all, hnil, List.reverse_singleton]
  · refine ⟨.either d e, ?_, ?_⟩
    · rw [Derivation.trees, hd, he, all, List.reverse_cons]
    · rw [Derivation.word, List.append_assoc, List.singleton_append]

theorem Spells.bar (h : l.Spells text) {p : Nat} (hm : l.bar p = .ok m) :
    m.Spells (text ++ ['|']) := by
  obtain ⟨hne, rfl⟩ := of_bar hm
  obtain ⟨d, htrees, rfl⟩ := h.exists_choice hne
  exact ⟨_, [], List.append_nil _, .inr ⟨d, htrees.trans (List.reverse_reverse _).symm, rfl⟩,
    .inl ⟨rfl, rfl⟩⟩

/-- A level read to its end is the tree of a derivation. -/
theorem Spells.finish (h : l.Spells text) {e : Expr} (he : l.finish = .ok (some e)) :
    ∃ d : Derivation .choice, d.word = text ∧ d.tree = e := by
  have hne := ne_nil_of_finish he
  obtain ⟨d, htrees, hword⟩ := h.exists_choice hne
  rw [finish_eq hne (htrees ▸ d.wellFormed_of_mem_trees), ← htrees] at he
  exact ⟨d, hword, Option.some.inj (Except.ok.inj he)⟩

end Level

/-- An expression that is read is the tree of a derivation of all that has been read. -/
theorem exists_derivation_of_readTokens {outer : List (Nat × Level)} {l : Level}
    {ts : List Token} {e : Expr} {before text : List Char} (houter : SpellsOuter outer before)
    (hl : l.Spells text) (hts : WritableTokens ts)
    (he : readTokens outer l ts = .ok (some e)) :
    ∃ d : Derivation .choice,
      d.word = before ++ text ++ ts.map (fun t => t.glyph.mark) ∧ d.tree = e := by
  have htail : ∀ {t : Token} {ts : List Token}, WritableTokens (t :: ts) → WritableTokens ts :=
    fun h => (List.forall_mem_cons.1 h).2
  fun_induction readTokens outer l ts generalizing before text with
  | case1 l =>
      obtain rfl : before = [] := houter
      simpa using hl.finish he
  | case3 outer l c p ts ih =>
      obtain ⟨hc, -⟩ := hts _ List.mem_cons_self c rfl
      have hpush := hl.push (.bare (.symbol c hc)) rfl
      obtain ⟨d, hd, htree⟩ := ih houter hpush (htail hts) he
      refine ⟨d, ?_, htree⟩
      simpa [Derivation.word, Glyph.mark] using hd
  | case5 outer l i p ts m hm ih =>
      obtain ⟨d, hd, htree⟩ := ih houter (hl.iterate hm) (htail hts) he
      refine ⟨d, ?_, htree⟩
      simpa [Glyph.mark] using hd
  | case7 outer l p ts m hm ih =>
      obtain ⟨d, hd, htree⟩ := ih houter (hl.bar hm) (htail hts) he
      refine ⟨d, ?_, htree⟩
      simpa [Glyph.mark] using hd
  | case8 outer l p ts _ ih =>
      obtain ⟨d, hd, htree⟩ := ih ⟨before, text, rfl, houter, hl⟩ Level.spells_start (htail hts) he
      refine ⟨d, ?_, htree⟩
      simpa [Glyph.mark] using hd
  | case13 opened around outer l p ts x hx ih =>
      obtain ⟨cs, ds, rfl, houter, haround⟩ := houter
      obtain ⟨c, rfl, rfl⟩ := hl.finish hx
      have hpush := haround.push (.bare (.group c)) rfl
      obtain ⟨d, hd, htree⟩ := ih houter hpush (htail hts) he
      refine ⟨d, ?_, htree⟩
      simpa [Derivation.word, Glyph.mark] using hd
  | _ => cases he

/-- There is no expression only where nothing has been read and nothing is left to be read. -/
theorem eq_nil_of_readTokens {outer : List (Nat × Level)} {l : Level} {ts : List Token}
    (h : readTokens outer l ts = .ok none) :
    outer = [] ∧ l.operands = [] ∧ l.lastBar = none ∧ ts = [] := by
  fun_induction readTokens outer l ts with
  | case1 l =>
      obtain ⟨hoperands, hbar⟩ := Level.of_finish_eq_none h
      exact ⟨rfl, hoperands, hbar, rfl⟩
  | case3 outer l c p ts ih => exact absurd (ih h).2.1 (List.cons_ne_nil _ _)
  | case5 outer l i p ts m hm ih =>
      obtain ⟨e, es, -, rfl⟩ := Level.of_iterate hm
      exact absurd (ih h).2.1 (List.cons_ne_nil _ _)
  | case7 outer l p ts m hm ih =>
      obtain ⟨-, rfl⟩ := Level.of_bar hm
      exact absurd (ih h).2.2.1 (Option.some_ne_none p)
  | case8 outer l p ts _ ih => exact absurd (ih h).1 (List.cons_ne_nil _ _)
  | case13 opened around outer l p ts x hx ih => exact absurd (ih h).2.1 (List.cons_ne_nil _ _)
  | _ => cases h

namespace Expr

theorem readChars_eq_none_iff {text : List Char} :
    readChars text = .ok none ↔ withoutBlanks text = [] := by
  have htokens : tokens text = [] ↔ withoutBlanks text = [] := by
    rw [← map_mark_tokensFrom 0 text, List.map_eq_nil_iff, tokens]
  rw [← htokens]
  constructor
  · exact fun h => (eq_nil_of_readTokens h).2.2.2
  · intro h
    rw [readChars, h]
    rfl

/-- A text is read as the tree of a derivation of its characters that are not blank. -/
theorem readChars_eq_some_iff {text : List Char} {e : Expr} :
    readChars text = .ok (some e) ↔
      ∃ d : Derivation .choice, d.word = withoutBlanks text ∧ d.tree = e := by
  constructor
  · intro h
    have houter : SpellsOuter [] [] := rfl
    obtain ⟨d, hword, htree⟩ := exists_derivation_of_readTokens houter Level.spells_start
      (writableTokens_tokensFrom 0 text) h
    rw [map_mark_tokensFrom] at hword
    exact ⟨d, hword, htree⟩
  · rintro ⟨d, hword, rfl⟩
    have hread := d.readChars_word (hword ▸ fun _ => not_blank_of_mem_withoutBlanks)
    rw [hword, readChars_withoutBlanks] at hread
    cases htext : readChars text with
    | ok r =>
        rw [htext] at hread
        exact hread
    | error err =>
        rw [htext] at hread
        nomatch hread

/-- Blank text is read as no expression. Any other text is read as an expression exactly when
the grammar derives it without its blanks: as the tree of the derivation, of which there is only
one. All other texts are refused. -/
theorem parse_by_grammar (text : String) :
    (parse text = .ok none ↔ withoutBlanks text.toList = []) ∧
      (∀ e, parse text = .ok (some e) ↔
        ∃ d : Derivation .choice, d.word = withoutBlanks text.toList ∧ d.tree = e) ∧
      Function.Injective (@Derivation.word .choice) ∧
      ((∃ err, parse text = .error err) ↔
        withoutBlanks text.toList ≠ [] ∧
          ∀ d : Derivation .choice, d.word ≠ withoutBlanks text.toList) := by
  refine ⟨readChars_eq_none_iff, fun e => readChars_eq_some_iff, Derivation.word_injective _, ?_⟩
  constructor
  · rintro ⟨err, herr⟩
    refine ⟨fun hnil => ?_, fun d hd => ?_⟩
    · rw [parse, readChars_eq_none_iff.2 hnil] at herr
      cases herr
    · rw [parse, readChars_eq_some_iff.2 ⟨d, hd, rfl⟩] at herr
      cases herr
  · rintro ⟨hne, hnone⟩
    cases h : parse text with
    | error err => exact ⟨err, rfl⟩
    | ok r =>
        cases r with
        | none => exact absurd (readChars_eq_none_iff.1 h) hne
        | some e =>
            obtain ⟨d, hd, -⟩ := readChars_eq_some_iff.1 h
            exact absurd hd (hnone d)

/-- The text ` (a|b) * c` and its derivation, and the text `a|*`, which has none. -/
theorem parse_by_grammar_star :
    parse " (a|b) * c" = .ok (some (seq [star (alt [sym 'a', sym 'b']), sym 'c'])) ∧
      ∀ d : Derivation .choice, d.word ≠ ['a', '|', '*'] := by
  have hrefused : parse "a|*" = .error (.missingOperand .star 2) := rfl
  refine ⟨((parse_by_grammar _).2.1 _).2 ⟨.only (.next (.first (.iterated (.bare (.group
    (.either (.only (.first (.bare (.symbol 'a' (by decide)))))
      (.first (.bare (.symbol 'b' (by decide))))))) .star)) (.bare (.symbol 'c' (by decide)))),
    rfl, rfl⟩, ?_⟩
  exact ((parse_by_grammar "a|*").2.2.2.1 ⟨_, hrefused⟩).2

end Expr

end RegularForms
