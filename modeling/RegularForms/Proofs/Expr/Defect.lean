import RegularForms.Proofs.Expr.Recognition

/-!
# What errors say about a text

An error points at a character of the text and says what is wrong there. `SyntaxError.Holds`
spells this out for the character, what stands before it and what stands after it, blanks left
out. The reader keeps track of less than that, so the proof carries along how the tokens read
so far are nested in parentheses, and which token came last where nothing has been read since.
From this each refusal follows at the token it is about.

The character that an error points at is never a blank. Hence texts that differ only in blanks
are not just refused alike: the errors are about the same character.
-/

namespace RegularForms

open Text

/-! ## Defects -/

/-- The text leaves the group that it begins in: up to some point it closes more parentheses
than it opens. So a parenthesis before the text is closed in it. -/
def LeavesGroup (text : List Char) : Prop := ∃ w, w <+: text ∧ w.count '(' < w.count ')'

/-- Nothing stands before an alternative but the beginning of the text, a parenthesis or a bar. -/
def BeginsAlternative (before : List Char) : Prop :=
  before.getLast? ∈ [none, some '(', some '|']

def EndsAlternative (after : List Char) : Prop := after.head? ∈ [none, some ')']

namespace SyntaxError

def position : SyntaxError → Nat
  | unclosed p | unopened p | missingOperand _ p | emptyAlternative p | emptyGroup p => p

/-- What an error says about a character and the texts before and after it. -/
def Holds : SyntaxError → List Char → Char → List Char → Prop
  | unclosed _, _, c, after => c = '(' ∧ ¬ LeavesGroup after
  | unopened _, before, c, _ => c = ')' ∧ ∀ w, '(' :: w <:+ before → LeavesGroup w
  | missingOperand i _, before, c, _ => c = i.mark ∧ BeginsAlternative before
  | emptyAlternative _, before, c, after =>
    c = '|' ∧ (BeginsAlternative before ∨ EndsAlternative after)
  | emptyGroup _, _, c, after => c = '(' ∧ after.head? = some ')'

/-- What an error says is true of the text at its position, blanks aside. -/
def TrueOf (err : SyntaxError) (text : List Char) : Prop :=
  ∃ before c after, text = before ++ c :: after ∧ before.length = err.position ∧
    err.Holds (withoutBlanks before) c (withoutBlanks after)

end SyntaxError

/-! ## Parentheses -/

/-- A text that closes all parentheses which it opens, and no others. -/
structure Matched (text : List Char) : Prop where
  count_eq : text.count '(' = text.count ')'
  not_leavesGroup : ¬ LeavesGroup text

theorem not_leavesGroup_iff {text : List Char} :
    ¬ LeavesGroup text ↔ ∀ w, w <+: text → w.count ')' ≤ w.count '(' := by
  simp only [LeavesGroup, not_exists, not_and, Nat.not_lt]

namespace Matched

theorem nil : Matched [] := by
  refine ⟨rfl, not_leavesGroup_iff.2 fun w hw => ?_⟩
  rw [List.prefix_nil.1 hw]
  exact Nat.le_refl _

theorem append {cs ds : List Char} (hcs : Matched cs) (hds : Matched ds) : Matched (cs ++ ds) := by
  have hc := hcs.count_eq
  refine ⟨?_, not_leavesGroup_iff.2 fun w hw => ?_⟩
  · rw [List.count_append, List.count_append, hc, hds.count_eq]
  · rcases List.prefix_or_prefix_of_prefix hw (List.prefix_append cs ds) with hw | ⟨v, rfl⟩
    · exact not_leavesGroup_iff.1 hcs.not_leavesGroup w hw
    · have hv := (List.prefix_append_right_inj cs).1 hw
      have hle := not_leavesGroup_iff.1 hds.not_leavesGroup v hv
      rw [List.count_append, List.count_append]
      omega

theorem singleton {c : Char} (hopening : c ≠ '(') (hclosing : c ≠ ')') : Matched [c] := by
  refine ⟨by simp [hopening, hclosing], not_leavesGroup_iff.2 fun w hw => ?_⟩
  have hnone : w.count ')' ≤ [c].count ')' := hw.sublist.count_le _
  simp only [List.count_singleton, beq_iff_eq, hclosing, if_false] at hnone
  omega

theorem group {text : List Char} (h : Matched text) : Matched ('(' :: (text ++ [')'])) := by
  have hc := h.count_eq
  refine ⟨by simp [hc], not_leavesGroup_iff.2 fun w hw => ?_⟩
  cases w with
  | nil => exact Nat.le_refl _
  | cons c w =>
      obtain ⟨rfl, hinner⟩ : c = '(' ∧ w <+: text ++ [')'] := List.cons_prefix_cons.1 hw
      have hle : w.count ')' ≤ w.count '(' + 1 := by
        rcases List.prefix_concat_iff.1 hinner with rfl | hinner
        · simp [hc]
        · have := not_leavesGroup_iff.1 h.not_leavesGroup w hinner
          omega
      simpa using hle

/-- A parenthesis that is opened in a matched text is closed in it. -/
theorem leavesGroup_of_suffix {text w : List Char} (h : Matched text) (hw : '(' :: w <:+ text) :
    LeavesGroup w := by
  obtain ⟨v, rfl⟩ := hw
  have hcount : v.count '(' + (w.count '(' + 1) = v.count ')' + w.count ')' := by
    simpa using h.count_eq
  have hle := not_leavesGroup_iff.1 h.not_leavesGroup v (List.prefix_append _ _)
  exact ⟨w, List.prefix_refl w, by omega⟩

end Matched

/-! ## Tokens -/

def marks (ts : List Token) : List Char := ts.map fun t => t.glyph.mark

@[simp] theorem marks_nil : marks [] = [] := rfl

@[simp] theorem marks_cons (t : Token) (ts : List Token) :
    marks (t :: ts) = t.glyph.mark :: marks ts := rfl

@[simp] theorem marks_append (ts us : List Token) : marks (ts ++ us) = marks ts ++ marks us :=
  List.map_append

/-- Where a token stands in a text, its character stands between the texts of the tokens before
and after it. -/
theorem exists_of_tokensFrom_eq {n : Nat} {text : List Char} {before after : List Token}
    {t : Token} (h : tokensFrom n text = before ++ t :: after) :
    ∃ cs ds, text = cs ++ t.glyph.mark :: ds ∧ n + cs.length = t.position ∧
      withoutBlanks cs = marks before ∧ withoutBlanks ds = marks after := by
  induction text generalizing n before with
  | nil => exact absurd h.symm (by simp)
  | cons c text ih =>
      rw [tokensFrom] at h
      split at h
      · next g hg =>
          cases before with
          | nil =>
              obtain ⟨rfl, rfl⟩ := List.cons.inj h
              refine ⟨[], text, ?_, rfl, rfl, (map_mark_tokensFrom _ _).symm⟩
              rw [mark_of_glyph? hg, List.nil_append]
          | cons u before =>
              obtain ⟨rfl, htail⟩ := List.cons.inj h
              obtain ⟨cs, ds, rfl, hposition, hcs, hds⟩ := ih htail
              refine ⟨c :: cs, ds, rfl, by simp [← hposition]; omega, ?_, hds⟩
              rw [withoutBlanks_cons_of_glyph? hg, hcs, marks_cons, mark_of_glyph? hg]
      · next hnone =>
          obtain ⟨cs, ds, rfl, hposition, hcs, hds⟩ := ih h
          refine ⟨c :: cs, ds, rfl, by simp [← hposition]; omega, ?_, hds⟩
          rw [withoutBlanks_cons_of_blank hnone, hcs]

def Glyph.Inner (g : Glyph) : Prop := g ≠ .opening ∧ g ≠ .closing

theorem inner_symbol (c : Char) : (Glyph.symbol c).Inner := ⟨nofun, nofun⟩

theorem inner_iteration (i : Iteration) : (Glyph.iteration i).Inner := ⟨nofun, nofun⟩

theorem inner_bar : Glyph.bar.Inner := ⟨nofun, nofun⟩

theorem Glyph.Inner.mark_ne {g : Glyph} (h : g.Inner) (hg : ∀ c, g = .symbol c → Writable c) :
    g.mark ≠ '(' ∧ g.mark ≠ ')' := by
  cases g with
  | opening => exact absurd rfl h.1
  | closing => exact absurd rfl h.2
  | bar => exact ⟨by decide, by decide⟩
  | iteration i => cases i <;> exact ⟨by decide, by decide⟩
  | symbol c =>
      have hc := (hg c rfl).1
      simp only [List.mem_cons, not_or] at hc
      exact ⟨hc.1, hc.2.1⟩

theorem Glyph.Inner.closes_cons {g : Glyph} (h : g.Inner) (p depth : Nat) (ts : List Token) :
    closes depth (⟨g, p⟩ :: ts) = closes depth ts := by
  cases g with
  | opening => exact absurd rfl h.1
  | closing => exact absurd rfl h.2
  | _ => cases depth <;> rfl

/-- The end of a level is in sight where the text leaves the level. -/
theorem closes_of_count_lt {ts : List Token} {depth : Nat} {w : List Char}
    (hts : WritableTokens ts) (hw : w <+: marks ts) (h : w.count '(' + depth < w.count ')') :
    closes depth ts = true := by
  induction ts generalizing depth w with
  | nil =>
      rw [List.prefix_nil.1 hw] at h
      exact absurd h (Nat.not_lt_zero _)
  | cons t ts ih =>
      obtain ⟨ht, htail⟩ := List.forall_mem_cons.1 hts
      obtain ⟨g, p⟩ := t
      cases w with
      | nil => exact absurd h (Nat.not_lt_zero _)
      | cons c w =>
          obtain ⟨rfl, hinner⟩ : c = g.mark ∧ w <+: marks ts := List.cons_prefix_cons.1 hw
          by_cases hopening : g = .opening
          · subst hopening
            have hcount : w.count '(' + 1 + depth < w.count ')' := by simpa [Glyph.mark] using h
            exact ih htail hinner (by omega)
          by_cases hclosing : g = .closing
          · subst hclosing
            cases depth with
            | zero => rfl
            | succ depth =>
                have hcount : w.count '(' + (depth + 1) < w.count ')' + 1 := by
                  simpa [Glyph.mark] using h
                exact ih htail hinner (by omega)
          have hg : g.Inner := ⟨hopening, hclosing⟩
          obtain ⟨hne, hne'⟩ := hg.mark_ne ht
          rw [List.count_cons_of_ne hne, List.count_cons_of_ne hne'] at h
          rw [hg.closes_cons]
          exact ih htail hinner h

theorem not_leavesGroup_of_closes {ts : List Token} (hts : WritableTokens ts)
    (h : ¬ closes 0 ts = true) : ¬ LeavesGroup (marks ts) := by
  rintro ⟨w, hw, hcount⟩
  exact h (closes_of_count_lt hts hw hcount)

/-! ## What has been read -/

/-- The token after which nothing has been read of a level, or of its last alternative. -/
def Level.begunBy (outer : List (Nat × Level)) (l : Level) : Option Token :=
  match l.lastBar, outer with
  | some p, _ => some ⟨.bar, p⟩
  | none, (opened, _) :: _ => some ⟨.opening, opened⟩
  | none, [] => none

/-- What has been read of each level is matched, and the levels are nested in the parentheses
that opened them. -/
def Nested : List (Nat × Level) → List Token → Prop
  | [], before => Matched (marks before)
  | (opened, _) :: outer, before =>
    ∃ us vs, before = us ++ ⟨.opening, opened⟩ :: vs ∧ Nested outer us ∧ Matched (marks vs)

theorem Nested.append {outer : List (Nat × Level)} {before ts : List Token}
    (h : Nested outer before) (hts : Matched (marks ts)) : Nested outer (before ++ ts) := by
  cases outer with
  | nil =>
      change Matched (marks (before ++ ts))
      rw [marks_append]
      exact Matched.append h hts
  | cons around outer =>
      obtain ⟨us, vs, rfl, hus, hvs⟩ := h
      refine ⟨us, vs ++ ts, by simp, hus, ?_⟩
      rw [marks_append]
      exact hvs.append hts

theorem Nested.append_inner {outer : List (Nat × Level)} {before : List Token}
    (h : Nested outer before) {g : Glyph} (hg : g.Inner) (hsym : ∀ c, g = .symbol c → Writable c)
    (p : Nat) : Nested outer (before ++ [⟨g, p⟩]) := by
  obtain ⟨hopening, hclosing⟩ := hg.mark_ne hsym
  exact h.append (.singleton hopening hclosing)

/-- What is known of the tokens that have been read when the reader has come to some levels: how
they are nested, and which of them is the last one where nothing is in progress. -/
structure Reached (outer : List (Nat × Level)) (l : Level) (before : List Token) : Prop where
  begun : l.operands = [] → before.getLast? = l.begunBy outer
  nested : Nested outer before

namespace Reached

variable {outer : List (Nat × Level)} {l m : Level} {before : List Token}

theorem start : Reached [] .start [] := ⟨fun _ => rfl, Matched.nil⟩

theorem symbol (h : Reached outer l before) {c : Char} (hc : Writable c) (p : Nat) :
    Reached outer (l.push (.sym c)) (before ++ [⟨.symbol c, p⟩]) :=
  ⟨fun hnil => absurd hnil (List.cons_ne_nil _ _),
    h.nested.append_inner (inner_symbol c) (fun _ hd => Glyph.symbol.inj hd ▸ hc) p⟩

theorem iterate (h : Reached outer l before) {i : Iteration} {p : Nat}
    (hm : l.iterate i p = .ok m) : Reached outer m (before ++ [⟨.iteration i, p⟩]) := by
  obtain ⟨e, es, -, rfl⟩ := Level.of_iterate hm
  exact ⟨fun hnil => absurd hnil (List.cons_ne_nil _ _),
    h.nested.append_inner (inner_iteration i) nofun p⟩

theorem bar (h : Reached outer l before) {p : Nat} (hm : l.bar p = .ok m) :
    Reached outer m (before ++ [⟨.bar, p⟩]) := by
  obtain ⟨-, rfl⟩ := Level.of_bar hm
  exact ⟨fun _ => List.getLast?_concat, h.nested.append_inner inner_bar nofun p⟩

theorem opening (h : Reached outer l before) (p : Nat) :
    Reached ((p, l) :: outer) .start (before ++ [⟨.opening, p⟩]) :=
  ⟨fun _ => List.getLast?_concat, before, [], rfl, h.nested, Matched.nil⟩

theorem closing {opened : Nat} {around : Level} (h : Reached ((opened, around) :: outer) l before)
    (e : Expr) (p : Nat) : Reached outer (around.push e) (before ++ [⟨.closing, p⟩]) := by
  obtain ⟨us, vs, rfl, hus, hvs⟩ := h.nested
  refine ⟨fun hnil => absurd hnil (List.cons_ne_nil _ _), ?_⟩
  rw [List.append_assoc]
  refine hus.append ?_
  rw [List.cons_append, marks_cons, marks_append]
  exact hvs.group

/-- Where nothing is in progress, an alternative begins. -/
theorem beginsAlternative (h : Reached outer l before) (hnil : l.operands = []) :
    BeginsAlternative (marks before) := by
  rw [BeginsAlternative, marks, List.getLast?_map, h.begun hnil]
  unfold Level.begunBy
  split <;> simp [Glyph.mark]

theorem exists_eq_concat (h : Reached outer l before) (hnil : l.operands = []) {t : Token}
    (ht : l.begunBy outer = some t) : ∃ us, before = us ++ [t] :=
  List.getLast?_eq_some_iff.1 ((h.begun hnil).trans ht)

end Reached

/-! ## Errors -/

def SyntaxError.TrueAmong (err : SyntaxError) (ts : List Token) : Prop :=
  ∃ us t vs, ts = us ++ t :: vs ∧ t.position = err.position ∧
    err.Holds (marks us) t.glyph.mark (marks vs)

namespace Level

variable {l : Level} {err : SyntaxError} {p : Nat}

theorem of_iterate_error {i : Iteration} (h : l.iterate i p = .error err) :
    l.operands = [] ∧ err = .missingOperand i p := by
  unfold iterate at h
  split at h
  · next hnil => exact ⟨hnil, (Except.error.inj h).symm⟩
  · nomatch h

theorem of_bar_error (h : l.bar p = .error err) :
    l.operands = [] ∧ err = .emptyAlternative p := by
  unfold bar at h
  split at h
  · next hnil => exact ⟨hnil, (Except.error.inj h).symm⟩
  · nomatch h

theorem of_finish_error (h : l.finish = .error err) :
    l.operands = [] ∧ ∃ p, l.lastBar = some p ∧ err = .emptyAlternative p := by
  obtain ⟨_ | ⟨e, es⟩, _ | ⟨d, ds⟩, _ | p⟩ := l <;>
    first | exact ⟨rfl, p, rfl, (Except.error.inj h).symm⟩ | nomatch h

end Level

/-- An alternative that is empty at the end of its level lies after a bar. -/
theorem Reached.trueAmong_of_finish {outer : List (Nat × Level)} {l : Level}
    {before ts : List Token} {err : SyntaxError} (h : Reached outer l before)
    (hfinish : l.finish = .error err) (hts : EndsAlternative (marks ts)) :
    err.TrueAmong (before ++ ts) := by
  obtain ⟨hnil, p, hbar, rfl⟩ := Level.of_finish_error hfinish
  have hbegun : l.begunBy outer = some ⟨.bar, p⟩ := by
    simp only [Level.begunBy, hbar]
  obtain ⟨us, rfl⟩ := h.exists_eq_concat hnil hbegun
  exact ⟨us, ⟨.bar, p⟩, ts, by simp, rfl, rfl, .inr hts⟩

/-- Whenever reading is refused, what the error says is true of the tokens. -/
theorem trueAmong_of_readTokens {outer : List (Nat × Level)} {l : Level} {before ts : List Token}
    {err : SyntaxError} (h : Reached outer l before) (hts : WritableTokens ts)
    (herr : readTokens outer l ts = .error err) : err.TrueAmong (before ++ ts) := by
  fun_induction readTokens outer l ts generalizing before with
  | case1 l => exact h.trueAmong_of_finish herr List.mem_cons_self
  | case2 opened around outer l =>
      obtain rfl := Except.error.inj herr
      obtain ⟨us, vs, rfl, -, hvs⟩ := h.nested
      exact ⟨us, ⟨.opening, opened⟩, vs, by simp, rfl, rfl, hvs.not_leavesGroup⟩
  | case3 outer l c p ts ih =>
      obtain ⟨hc, hts⟩ := List.forall_mem_cons.1 hts
      have hread := ih (h.symbol (hc c rfl) p) hts herr
      rwa [List.append_assoc] at hread
  | case4 outer l i p ts err' hiterate =>
      obtain rfl := Except.error.inj herr
      obtain ⟨hnil, rfl⟩ := Level.of_iterate_error hiterate
      exact ⟨before, ⟨.iteration i, p⟩, ts, rfl, rfl, rfl, h.beginsAlternative hnil⟩
  | case5 outer l i p ts m hm ih =>
      have hread := ih (h.iterate hm) (List.forall_mem_cons.1 hts).2 herr
      rwa [List.append_assoc] at hread
  | case6 outer l p ts err' hbar =>
      obtain rfl := Except.error.inj herr
      obtain ⟨hnil, rfl⟩ := Level.of_bar_error hbar
      exact ⟨before, ⟨.bar, p⟩, ts, rfl, rfl, rfl, .inl (h.beginsAlternative hnil)⟩
  | case7 outer l p ts m hm ih =>
      have hread := ih (h.bar hm) (List.forall_mem_cons.1 hts).2 herr
      rwa [List.append_assoc] at hread
  | case8 outer l p ts _ ih =>
      have hread := ih (h.opening p) (List.forall_mem_cons.1 hts).2 herr
      rwa [List.append_assoc] at hread
  | case9 outer l p ts hcloses =>
      obtain rfl := Except.error.inj herr
      exact ⟨before, ⟨.opening, p⟩, ts, rfl, rfl, rfl,
        not_leavesGroup_of_closes (List.forall_mem_cons.1 hts).2 hcloses⟩
  | case10 l p ts =>
      obtain rfl := Except.error.inj herr
      have hmatched : Matched (marks before) := h.nested
      exact ⟨before, ⟨.closing, p⟩, ts, rfl, rfl, rfl, fun _ => hmatched.leavesGroup_of_suffix⟩
  | case11 opened around outer l p ts err' hfinish =>
      obtain rfl := Except.error.inj herr
      exact h.trueAmong_of_finish hfinish (List.mem_cons_of_mem _ List.mem_cons_self)
  | case12 opened around outer l p ts hfinish =>
      obtain rfl := Except.error.inj herr
      obtain ⟨hnil, hbar⟩ := Level.of_finish_eq_none hfinish
      have hbegun : l.begunBy ((opened, around) :: outer) = some ⟨.opening, opened⟩ := by
        simp only [Level.begunBy, hbar]
      obtain ⟨us, rfl⟩ := h.exists_eq_concat hnil hbegun
      exact ⟨us, ⟨.opening, opened⟩, ⟨.closing, p⟩ :: ts, by simp, rfl, rfl, rfl⟩
  | case13 opened around outer l p ts e hfinish ih =>
      have hread := ih (h.closing e p) (List.forall_mem_cons.1 hts).2 herr
      rwa [List.append_assoc] at hread

namespace Expr

theorem trueOf_of_readChars {text : List Char} {err : SyntaxError}
    (h : readChars text = .error err) : err.TrueOf text := by
  obtain ⟨us, t, vs, htokens, hposition, hholds⟩ :=
    trueAmong_of_readTokens .start (writableTokens_tokensFrom 0 text) h
  obtain ⟨cs, ds, rfl, hlength, hcs, hds⟩ := exists_of_tokensFrom_eq htokens
  refine ⟨cs, t.glyph.mark, ds, rfl, by omega, ?_⟩
  rwa [hcs, hds]

/-- Whenever a text is refused, what the error says is true of the text at the position that it
names: that a parenthesis there is never closed, or closes nothing, or stands around nothing, or
that an iteration or a bar there lacks an operand beside it. -/
theorem parse_error_trueOf {text : String} {err : SyntaxError} (h : parse text = .error err) :
    err.TrueOf text.toList :=
  trueOf_of_readChars h

/-- The last bar of an inner group, with nothing but a blank after it, and a parenthesis that
closes nothing although another one is opened after it. -/
theorem parse_error_trueOf_nested :
    (parse "a(b(c | )d)" = .error (.emptyAlternative 6) ∧
        (SyntaxError.emptyAlternative 6).TrueOf "a(b(c | )d)".toList) ∧
      parse "(a)b) (" = .error (.unopened 4) ∧ (SyntaxError.unopened 4).TrueOf "(a)b) (".toList :=
  ⟨⟨rfl, parse_error_trueOf rfl⟩, rfl, parse_error_trueOf rfl⟩

end Expr

/-! ## Blanks -/

namespace SyntaxError

variable {err : SyntaxError}

theorem position_move (f : Nat → Nat) (err : SyntaxError) :
    (err.move f).position = f err.position := by
  cases err <;> rfl

/-- Moving an error back to where it was restores it. -/
theorem move_move_position (f : Nat → Nat) (err : SyntaxError) :
    (err.move f).move (fun _ => err.position) = err := by
  cases err <;> rfl

theorem Holds.isBlank_eq_false {before after : List Char} {c : Char}
    (h : err.Holds before c after) : isBlank c = false := by
  cases err with
  | missingOperand i p =>
      obtain ⟨rfl, -⟩ := h
      cases i <;> rfl
  | _ =>
      obtain ⟨rfl, -⟩ := h
      rfl

/-- An error that is true of a text is about a character which is left when the blanks are
deleted. -/
theorem TrueOf.exists_char {text : List Char} (h : err.TrueOf text) :
    ∃ c, text[err.position]? = some c ∧
      (withoutBlanks text)[rank text err.position]? = some c := by
  obtain ⟨before, c, after, rfl, hposition, hholds⟩ := h
  have hkeep : withoutBlanks (c :: after) = c :: withoutBlanks after :=
    List.filter_cons_of_pos (by rw [hholds.isBlank_eq_false]; rfl)
  rw [← hposition, rank_length_append, withoutBlanks_append, hkeep]
  exact ⟨c, by simp, by simp⟩

end SyntaxError

theorem cases_of_mapError_eq {α ε ε' : Type} {f g : ε → ε'} {x y : Except ε α}
    (h : x.mapError f = y.mapError g) :
    (∃ r, x = .ok r ∧ y = .ok r) ∨ ∃ a b, x = .error a ∧ y = .error b ∧ f a = g b := by
  cases x with
  | ok r =>
      cases y with
      | ok r' => exact .inl ⟨r, rfl, congrArg _ (Except.ok.inj h).symm⟩
      | error b => nomatch h
  | error a =>
      cases y with
      | ok r' => nomatch h
      | error b => exact .inr ⟨a, b, rfl, rfl, Except.error.inj h⟩

namespace Expr

/-- Texts that differ only in their blanks are read as the same expression, or both as none, or
both are refused with the same error. Then the positions in the two errors are those of the same
character of the text without blanks. -/
theorem parse_eq_up_to_blanks {s t : String}
    (h : withoutBlanks s.toList = withoutBlanks t.toList) :
    (∃ r, parse s = .ok r ∧ parse t = .ok r) ∨
      ∃ (err : SyntaxError) (c : Char) (p q : Nat),
        (withoutBlanks s.toList)[err.position]? = some c ∧
          (parse s = .error (err.move fun _ => p) ∧
            s.toList[p]? = some c ∧ rank s.toList p = err.position) ∧
          parse t = .error (err.move fun _ => q) ∧
            t.toList[q]? = some c ∧ rank t.toList q = err.position := by
  have hreads := readChars_withoutBlanks s.toList
  rw [h, readChars_withoutBlanks] at hreads
  rcases cases_of_mapError_eq hreads.symm with hok | ⟨err, err', hs, ht, hmove⟩
  · exact .inl hok
  obtain ⟨c, hc, hsc⟩ := (trueOf_of_readChars hs).exists_char
  obtain ⟨d, hd, htd⟩ := (trueOf_of_readChars ht).exists_char
  have hposition := congrArg SyntaxError.position hmove
  rw [SyntaxError.position_move, SyntaxError.position_move] at hposition
  obtain rfl : c = d := Option.some.inj (by rw [← hsc, ← htd, h, hposition])
  refine .inr ⟨err.move (rank s.toList), c, err.position, err'.position, ?_, ⟨?_, hc, ?_⟩,
    ?_, hd, ?_⟩
  · rwa [SyntaxError.position_move]
  · rwa [SyntaxError.move_move_position]
  · rw [SyntaxError.position_move]
  · rwa [hmove, SyntaxError.move_move_position]
  · rw [SyntaxError.position_move, hposition]

/-- The case of an empty alternative before the end of a group, with blanks on either side of its
bar and without. -/
theorem parse_eq_up_to_blanks_bar :
    withoutBlanks "a(b|)*".toList = withoutBlanks " a (b | )*".toList ∧
      ∃ (err : SyntaxError) (c : Char) (p q : Nat),
        (withoutBlanks "a(b|)*".toList)[err.position]? = some c ∧
          (parse "a(b|)*" = .error (err.move fun _ => p) ∧
            "a(b|)*".toList[p]? = some c ∧ rank "a(b|)*".toList p = err.position) ∧
          parse " a (b | )*" = .error (err.move fun _ => q) ∧
            " a (b | )*".toList[q]? = some c ∧ rank " a (b | )*".toList q = err.position := by
  have hsame : withoutBlanks "a(b|)*".toList = withoutBlanks " a (b | )*".toList := rfl
  have hrefused : ¬ ∃ r, parse "a(b|)*" = .ok r ∧ parse " a (b | )*" = .ok r := by
    rintro ⟨r, hr, -⟩
    nomatch hr
  exact ⟨hsame, (parse_eq_up_to_blanks hsame).resolve_left hrefused⟩

end Expr

end RegularForms
