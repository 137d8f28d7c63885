import RegularForms.Expr.Join
import RegularForms.Expr.Token

/-!
# Reading an expression

The reader goes through the tokens once. A `Level` holds what has been read of one
nesting level: the operands of the sequence in progress and the alternatives before
it. An opening parenthesis sets the current level aside and starts a new one, a
closing parenthesis finishes the inner level and hands its expression to the one
set aside. Iterations apply to the operand read last, a bar ends an alternative.

Text without any token is no expression, which is not an error. An opening
parenthesis that is never closed is reported where it stands, before anything after
it is read; so a level is only ever entered when its end is in sight.
-/

namespace RegularForms

inductive SyntaxError where
  /-- An opening parenthesis without its closing one. -/
  | unclosed (position : Nat)
  /-- A closing parenthesis that closes nothing. -/
  | unopened (position : Nat)
  /-- An iteration with nothing before it. -/
  | missingOperand (iteration : Iteration) (position : Nat)
  /-- A bar with nothing before or after it. -/
  | emptyAlternative (position : Nat)
  /-- A pair of parentheses around nothing. -/
  | emptyGroup (position : Nat)
  deriving DecidableEq

def SyntaxError.message : SyntaxError → String
  | unclosed p => s!"unmatched '(' at position {p}"
  | unopened p => s!"unexpected ')' at position {p}"
  | missingOperand i p => s!"'{i.mark}' at position {p} has no operand to apply to"
  | emptyAlternative p => s!"empty alternative next to '|' at position {p}"
  | emptyGroup p => s!"empty parentheses at position {p}"

/-- One nesting level being read. Both lists have the latest entry first. -/
structure Level where
  /-- Operands of the sequence in progress. -/
  operands : List Expr
  /-- Alternatives that a bar has ended. -/
  alternatives : List Expr
  /-- The position of the last bar. -/
  lastBar : Option Nat

namespace Level

def start : Level := ⟨[], [], none⟩

def push (l : Level) (e : Expr) : Level :=
  { l with operands := e :: l.operands }

def iterate (l : Level) (i : Iteration) (position : Nat) : Except SyntaxError Level :=
  match l.operands with
  | [] => .error (.missingOperand i position)
  | e :: es => .ok { l with operands := i.of e :: es }

def bar (l : Level) (position : Nat) : Except SyntaxError Level :=
  match l.operands with
  | [] => .error (.emptyAlternative position)
  | es => .ok ⟨[], Expr.join .sequence es.reverse :: l.alternatives, some position⟩

/-- The expression of a level read to its end, none when it holds no token. -/
def finish (l : Level) : Except SyntaxError (Option Expr) :=
  match l.operands, l.lastBar with
  | [], some p => .error (.emptyAlternative p)
  | [], none => .ok none
  | es, _ =>
    let last := Expr.join .sequence es.reverse
    match l.alternatives with
    | [] => .ok (some last)
    | alternatives => .ok (some (Expr.join .choice (last :: alternatives).reverse))

end Level

/-- Whether the tokens close `depth` more parentheses than they open, and then one
more: whether the end of the level they start in is in sight. -/
def closes : Nat → List Token → Bool
  | _, [] => false
  | depth, ⟨.opening, _⟩ :: ts => closes (depth + 1) ts
  | 0, ⟨.closing, _⟩ :: _ => true
  | depth + 1, ⟨.closing, _⟩ :: ts => closes depth ts
  | depth, _ :: ts => closes depth ts

/-- Reads the tokens into the current level. The levels set aside come with the
position of the parenthesis that opened the level inside them. -/
def readTokens : List (Nat × Level) → Level → List Token → Except SyntaxError (Option Expr)
  | [], level, [] => level.finish
  | (opened, _) :: _, _, [] => .error (.unclosed opened)
  | outer, level, ⟨.symbol c, _⟩ :: ts => readTokens outer (level.push (.sym c)) ts
  | outer, level, ⟨.iteration i, p⟩ :: ts =>
    match level.iterate i p with
    | .error err => .error err
    | .ok level => readTokens outer level ts
  | outer, level, ⟨.bar, p⟩ :: ts =>
    match level.bar p with
    | .error err => .error err
    | .ok level => readTokens outer level ts
  | outer, level, ⟨.opening, p⟩ :: ts =>
    if closes 0 ts then readTokens ((p, level) :: outer) .start ts
    else .error (.unclosed p)
  | [], _, ⟨.closing, p⟩ :: _ => .error (.unopened p)
  | (opened, around) :: outer, level, ⟨.closing, _⟩ :: ts =>
    match level.finish with
    | .error err => .error err
    | .ok none => .error (.emptyGroup opened)
    | .ok (some e) => readTokens outer (around.push e) ts

section

variable (outer : List (Nat × Level)) (level : Level) (p : Nat) (ts : List Token)

theorem readTokens_symbol (c : Char) :
    readTokens outer level (⟨.symbol c, p⟩ :: ts) = readTokens outer (level.push (.sym c)) ts := by
  cases outer <;> rfl

theorem readTokens_iteration (i : Iteration) :
    readTokens outer level (⟨.iteration i, p⟩ :: ts) =
      match level.iterate i p with
      | .error err => .error err
      | .ok level => readTokens outer level ts := by
  cases outer <;> rfl

theorem readTokens_bar :
    readTokens outer level (⟨.bar, p⟩ :: ts) =
      match level.bar p with
      | .error err => .error err
      | .ok level => readTokens outer level ts := by
  cases outer <;> rfl

theorem readTokens_opening :
    readTokens outer level (⟨.opening, p⟩ :: ts) =
      if closes 0 ts then readTokens ((p, level) :: outer) .start ts
      else .error (.unclosed p) := by
  cases outer <;> rfl

end

namespace Expr

def readChars (text : List Char) : Except SyntaxError (Option Expr) :=
  readTokens [] .start (tokens text)

/-- Reads an expression from a text. Blank text holds none. -/
def parse (text : String) : Except SyntaxError (Option Expr) :=
  readChars text.toList

end Expr

end RegularForms
