import RegularForms.Expr.Parser

/-!
# Blanks in a text

Reading looks at the positions of tokens only to report them: reading tokens that have been
moved gives the same expression, or the same error about another position. Deleting the blanks
of a text moves its tokens, each to the number of characters before it that are not blank. So
a text is read as the text without its blanks is, but for the positions in errors.
-/

namespace RegularForms

namespace Text

def withoutBlanks (text : List Char) : List Char := text.filter fun c => !isBlank c

/-- Where a character of a text stands when the blanks before it have been deleted. -/
def rank (text : List Char) (position : Nat) : Nat := (withoutBlanks (text.take position)).length

@[simp] theorem withoutBlanks_nil : withoutBlanks [] = [] := rfl

theorem withoutBlanks_append (cs ds : List Char) :
    withoutBlanks (cs ++ ds) = withoutBlanks cs ++ withoutBlanks ds :=
  List.filter_append cs ds

theorem not_blank_of_mem_withoutBlanks {c : Char} {cs : List Char}
    (h : c ∈ withoutBlanks cs) : isBlank c = false := by
  simpa using (List.mem_filter.1 h).2

theorem rank_length_append (cs ds : List Char) :
    rank (cs ++ ds) cs.length = (withoutBlanks cs).length := by
  rw [rank, List.take_left]

end Text

open Text

/-- Just the blanks have no meaning. -/
theorem glyph?_eq_none_iff {c : Char} : glyph? c = none ↔ isBlank c = true := by
  unfold glyph?
  split
  case h_7 =>
      split
      · next h => exact ⟨fun _ => h, fun _ => rfl⟩
      · next h => exact ⟨fun hnone => (nomatch hnone), fun hblank => absurd hblank h⟩
  all_goals exact ⟨fun hnone => (nomatch hnone), fun hblank => (nomatch hblank)⟩

theorem withoutBlanks_cons_of_glyph? {c : Char} {g : Glyph} (h : glyph? c = some g)
    (cs : List Char) : withoutBlanks (c :: cs) = c :: withoutBlanks cs := by
  refine List.filter_cons_of_pos ?_
  rw [Bool.not_eq_true', Bool.eq_false_iff, ne_eq, ← glyph?_eq_none_iff, h]
  exact Option.some_ne_none g

theorem withoutBlanks_cons_of_blank {c : Char} (h : glyph? c = none) (cs : List Char) :
    withoutBlanks (c :: cs) = withoutBlanks cs :=
  List.filter_cons_of_neg (by rw [glyph?_eq_none_iff.1 h]; decide)

/-- The tokens of a text are written with its characters that are not blank. -/
theorem map_mark_tokensFrom (n : Nat) (cs : List Char) :
    (tokensFrom n cs).map (fun t => t.glyph.mark) = withoutBlanks cs := by
  induction cs generalizing n with
  | nil => rfl
  | cons c cs ih =>
      rw [tokensFrom]
      split
      · next g hg => rw [List.map_cons, ih, mark_of_glyph? hg, withoutBlanks_cons_of_glyph? hg]
      · next hnone => rw [ih, withoutBlanks_cons_of_blank hnone]

/-! ## Moving tokens -/

def Token.move (f : Nat → Nat) (t : Token) : Token := { t with position := f t.position }

def SyntaxError.move (f : Nat → Nat) : SyntaxError → SyntaxError
  | unclosed p => unclosed (f p)
  | unopened p => unopened (f p)
  | missingOperand i p => missingOperand i (f p)
  | emptyAlternative p => emptyAlternative (f p)
  | emptyGroup p => emptyGroup (f p)

def Level.move (f : Nat → Nat) (l : Level) : Level := { l with lastBar := l.lastBar.map f }

namespace Level

variable (f : Nat → Nat) (l : Level)

theorem move_iterate (i : Iteration) (p : Nat) :
    (l.move f).iterate i (f p) = ((l.iterate i p).map (move f)).mapError (.move f) := by
  obtain ⟨_ | ⟨e, es⟩, alternatives, lastBar⟩ := l <;> rfl

theorem move_bar (p : Nat) :
    (l.move f).bar (f p) = ((l.bar p).map (move f)).mapError (.move f) := by
  obtain ⟨_ | ⟨e, es⟩, alternatives, lastBar⟩ := l <;> rfl

theorem move_finish : (l.move f).finish = l.finish.mapError (.move f) := by
  obtain ⟨_ | ⟨e, es⟩, _ | ⟨d, ds⟩, _ | p⟩ := l <;> rfl

end Level

@[simp] theorem closes_move (f : Nat → Nat) (depth : Nat) (ts : List Token) :
    closes depth (ts.map (Token.move f)) = closes depth ts := by
  induction ts generalizing depth with
  | nil => cases depth <;> rfl
  | cons t ts ih =>
      obtain ⟨glyph, p⟩ := t
      cases glyph <;> cases depth <;> first | rfl | exact ih _

/-- Reading does the same wherever the tokens stand. -/
theorem readTokens_move (f : Nat → Nat) (outer : List (Nat × Level)) (l : Level)
    (ts : List Token) :
    readTokens (outer.map (Prod.map f (Level.move f))) (l.move f) (ts.map (Token.move f)) =
      (readTokens outer l ts).mapError (.move f) := by
  fun_induction readTokens outer l ts with
  | case1 l => exact l.move_finish f
  | case2 opened around outer l => rfl
  | case3 outer l c p ts ih => rwa [List.map_cons, Token.move, readTokens_symbol]
  | case4 outer l i p ts err herr =>
      rw [List.map_cons, Token.move, readTokens_iteration, l.move_iterate, herr]
      rfl
  | case5 outer l i p ts m hm ih =>
      rw [List.map_cons, Token.move, readTokens_iteration, l.move_iterate, hm]
      exact ih
  | case6 outer l p ts err herr =>
      rw [List.map_cons, Token.move, readTokens_bar, l.move_bar, herr]
      rfl
  | case7 outer l p ts m hm ih =>
      rw [List.map_cons, Token.move, readTokens_bar, l.move_bar, hm]
      exact ih
  | case8 outer l p ts hcloses ih =>
      rwa [List.map_cons, Token.move, readTokens_opening, closes_move, if_pos hcloses]
  | case9 outer l p ts hcloses =>
      rw [List.map_cons, Token.move, readTokens_opening, closes_move, if_neg hcloses]
      rfl
  | case10 l p ts => rfl
  | case11 opened around outer l p ts err herr =>
      rw [List.map_cons, List.map_cons, Token.move, Prod.map, readTokens, l.move_finish, herr]
      rfl
  | case12 opened around outer l p ts hnone =>
      rw [List.map_cons, List.map_cons, Token.move, Prod.map, readTokens, l.move_finish, hnone]
      rfl
  | case13 opened around outer l p ts e he ih =>
      rw [List.map_cons, List.map_cons, Token.move, Prod.map, readTokens, l.move_finish, he]
      exact ih

/-- Deleting the blanks moves each token of a text. -/
theorem map_move_tokensFrom (before cs : List Char) :
    (tokensFrom before.length cs).map (Token.move (rank (before ++ cs))) =
      tokensFrom (withoutBlanks before).length (withoutBlanks cs) := by
  induction cs generalizing before with
  | nil => rfl
  | cons c cs ih =>
      have hrest := ih (before ++ [c])
      rw [List.append_assoc, List.singleton_append, withoutBlanks_append, List.length_append,
        List.length_singleton] at hrest
      rw [tokensFrom]
      split
      · next g hg =>
          rw [withoutBlanks_cons_of_glyph? hg, withoutBlanks_nil, List.length_append,
            List.length_singleton] at hrest
          rw [List.map_cons, hrest, withoutBlanks_cons_of_glyph? hg, tokensFrom, hg, Token.move,
            rank_length_append]
      · next hnone =>
          rw [withoutBlanks_cons_of_blank hnone, withoutBlanks_nil, List.append_nil] at hrest
          rw [hrest, withoutBlanks_cons_of_blank hnone]

namespace Expr

/-- A text is read as the text without its blanks is, but for the positions in errors. -/
theorem readChars_withoutBlanks (text : List Char) :
    readChars (withoutBlanks text) = (readChars text).mapError (.move (rank text)) := by
  have htokens := map_move_tokensFrom [] text
  rw [List.nil_append, List.length_nil, withoutBlanks_nil, List.length_nil] at htokens
  rw [readChars, tokens, ← htokens]
  exact readTokens_move (rank text) [] .start (tokens text)

end Expr

end RegularForms
