import RegularForms.Expr.Iteration

/-!
# Tokens of a written expression

Written text is read one character at a time. The six characters `()|*+?` have a
meaning of their own, blanks are passed over, and every other character is a
symbol. A character is blank if it has the Unicode property `White_Space`, as twenty-five
code points do. A token remembers the position of its character, counted in characters
from the start of the text, blanks included.
-/

namespace RegularForms

namespace Text

/-- The code points with the property `White_Space`, as closed ranges in
ascending order. -/
def blankRanges : List (Nat × Nat) :=
  [(0x09, 0x0D), (0x20, 0x20), (0x85, 0x85), (0xA0, 0xA0), (0x1680, 0x1680),
   (0x2000, 0x200A), (0x2028, 0x2029), (0x202F, 0x202F), (0x205F, 0x205F),
   (0x3000, 0x3000)]

def isBlank (c : Char) : Bool :=
  blankRanges.any fun r => r.1 ≤ c.toNat && c.toNat ≤ r.2

end Text

inductive Glyph where
  | symbol (c : Char)
  | iteration (i : Iteration)
  | bar
  | opening
  | closing
  deriving DecidableEq

def glyph? (c : Char) : Option Glyph :=
  match c with
  | '(' => some .opening
  | ')' => some .closing
  | '|' => some .bar
  | '*' => some (.iteration .star)
  | '+' => some (.iteration .plus)
  | '?' => some (.iteration .option)
  | c => if Text.isBlank c then none else some (.symbol c)

def Glyph.mark : Glyph → Char
  | symbol c => c
  | iteration i => i.mark
  | bar => '|'
  | opening => '('
  | closing => ')'

structure Token where
  glyph : Glyph
  position : Nat
  deriving DecidableEq

/-- The tokens of a text whose first character has the given position. -/
def tokensFrom : Nat → List Char → List Token
  | _, [] => []
  | n, c :: cs =>
    match glyph? c with
    | some g => ⟨g, n⟩ :: tokensFrom (n + 1) cs
    | none => tokensFrom (n + 1) cs

def tokens (text : List Char) : List Token := tokensFrom 0 text

@[simp] theorem tokensFrom_nil (n : Nat) : tokensFrom n [] = [] := rfl

theorem tokensFrom_append (n : Nat) (cs ds : List Char) :
    tokensFrom n (cs ++ ds) = tokensFrom n cs ++ tokensFrom (n + cs.length) ds := by
  induction cs generalizing n with
  | nil => simp
  | cons c cs ih =>
      have hn : n + 1 + cs.length = n + (c :: cs).length := by simp; omega
      cases h : glyph? c <;> simp [tokensFrom, h, ih, hn]

/-- A glyph is written with the character it was read from. -/
theorem mark_of_glyph? {c : Char} {g : Glyph} (h : glyph? c = some g) : g.mark = c := by
  unfold glyph? at h
  split at h
  case h_7 =>
      split at h
      · nomatch h
      · exact Option.some.inj h ▸ rfl
  all_goals exact Option.some.inj h ▸ rfl

end RegularForms
