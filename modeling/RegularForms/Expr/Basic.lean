/-!
# Regular expressions as trees

An expression is a single symbol, an iteration of an expression (star, plus or
option), or a sequence or choice of several. The symbol `ε` stands for the empty
word. Sequences and choices hold a list of operands; the expressions met in
practice are well formed, which means that such a list has at least two members
and none of them is of the same kind as the node that holds it.

Functions on expressions come in pairs, one for an expression and one for a list
of them, so that they are structurally recursive. `Expr.ind` is the induction
principle that hides the second half of the pair.
-/

namespace RegularForms

inductive Expr where
  /-- One symbol, or the empty word when the symbol is `ε`. -/
  | sym (c : Char)
  /-- Any number of repetitions. -/
  | star (e : Expr)
  /-- One or more repetitions. -/
  | plus (e : Expr)
  /-- At most one occurrence. -/
  | opt (e : Expr)
  /-- All operands one after the other. -/
  | seq (es : List Expr)
  /-- Any one of the operands. -/
  | alt (es : List Expr)

inductive Operator where
  | symbol
  | star
  | plus
  | option
  | sequence
  | choice
  deriving DecidableEq

namespace Operator

/-- How tightly an operator binds; a higher number binds tighter. -/
def precedence : Operator → Nat
  | symbol => 3
  | star | plus | option => 2
  | sequence => 1
  | choice => 0

def isUnary (op : Operator) : Bool :=
  op.precedence == 2

def name : Operator → String
  | symbol => "single symbol"
  | star => "star"
  | plus => "plus"
  | option => "option"
  | sequence => "sequence"
  | choice => "choice"

end Operator

def epsilonSymbol : Char := 'ε'

namespace Expr

def epsilon : Expr := sym epsilonSymbol

/-- Induction on expressions: in the sequence and choice cases the hypothesis
covers every operand. -/
@[elab_as_elim]
theorem ind {motive : Expr → Prop}
    (sym : ∀ c, motive (.sym c))
    (star : ∀ e, motive e → motive (.star e))
    (plus : ∀ e, motive e → motive (.plus e))
    (opt : ∀ e, motive e → motive (.opt e))
    (seq : ∀ es, (∀ e ∈ es, motive e) → motive (.seq es))
    (alt : ∀ es, (∀ e ∈ es, motive e) → motive (.alt es))
    (e : Expr) : motive e := by
  refine @Expr.rec motive (fun es => ∀ e ∈ es, motive e) sym star plus opt seq alt
    (fun _ h => nomatch h) (fun e es he hes d hd => ?_) e
  rcases List.mem_cons.1 hd with rfl | hd
  · exact he
  · exact hes d hd

def operator : Expr → Operator
  | sym _ => .symbol
  | star _ => .star
  | plus _ => .plus
  | opt _ => .option
  | seq _ => .sequence
  | alt _ => .choice

def operands : Expr → List Expr
  | sym _ => []
  | star e | plus e | opt e => [e]
  | seq es | alt es => es

def symbol? : Expr → Option Char
  | sym c => some c
  | _ => none

def isSymbol : Expr → Bool
  | sym _ => true
  | _ => false

def isEpsilon : Expr → Bool
  | sym c => c == epsilonSymbol
  | _ => false

@[simp] theorem isEpsilon_epsilon : epsilon.isEpsilon = true := rfl

theorem isEpsilon_iff {e : Expr} : e.isEpsilon = true ↔ e = epsilon := by
  cases e <;> simp [isEpsilon, epsilon]

theorem symbol?_eq_some_iff {e : Expr} {c : Char} :
    e.symbol? = some c ↔ e = sym c := by
  cases e <;> simp [symbol?]

theorem isSymbol_iff {e : Expr} : e.isSymbol = true ↔ ∃ c, e = sym c := by
  cases e <;> simp [isSymbol]

/-! ## Equality -/

mutual
def same : Expr → Expr → Bool
  | sym c, sym d => c == d
  | star e, star f => same e f
  | plus e, plus f => same e f
  | opt e, opt f => same e f
  | seq es, seq fs => sameList es fs
  | alt es, alt fs => sameList es fs
  | _, _ => false
def sameList : List Expr → List Expr → Bool
  | [], [] => true
  | e :: es, f :: fs => same e f && sameList es fs
  | _, _ => false
end

theorem sameList_iff_of {es : List Expr}
    (h : ∀ e ∈ es, ∀ f, same e f = true ↔ e = f) (fs : List Expr) :
    sameList es fs = true ↔ es = fs := by
  induction es generalizing fs with
  | nil => cases fs <;> simp [sameList]
  | cons e es ih =>
      cases fs with
      | nil => simp [sameList]
      | cons f fs =>
          have he := h e (by simp) f
          have hes := ih (fun d hd => h d (by simp [hd])) fs
          simp [sameList, he, hes]

theorem same_iff (e f : Expr) : same e f = true ↔ e = f := by
  induction e using ind generalizing f with
  | sym c => cases f <;> simp [same]
  | star e ih => cases f <;> simp [same, ih]
  | plus e ih => cases f <;> simp [same, ih]
  | opt e ih => cases f <;> simp [same, ih]
  | seq es ih => cases f <;> simp [same, sameList_iff_of ih]
  | alt es ih => cases f <;> simp [same, sameList_iff_of ih]

instance : DecidableEq Expr := fun e f =>
  decidable_of_iff (same e f = true) (same_iff e f)

/-! ## The empty word -/

mutual
/-- Whether the empty word belongs to the language of an expression. -/
def nullable : Expr → Bool
  | sym c => c == epsilonSymbol
  | star _ | opt _ => true
  | plus e => nullable e
  | seq es => allNullable es
  | alt es => anyNullable es
def allNullable : List Expr → Bool
  | [] => true
  | e :: es => nullable e && allNullable es
def anyNullable : List Expr → Bool
  | [] => false
  | e :: es => nullable e || anyNullable es
end

theorem allNullable_eq (es : List Expr) : allNullable es = es.all nullable := by
  induction es with
  | nil => rfl
  | cons e es ih => simp [allNullable, ih]

theorem anyNullable_eq (es : List Expr) : anyNullable es = es.any nullable := by
  induction es with
  | nil => rfl
  | cons e es ih => simp [anyNullable, ih]

@[simp] theorem nullable_sym (c : Char) : (sym c).nullable = (c == epsilonSymbol) := rfl

@[simp] theorem nullable_star (e : Expr) : (star e).nullable = true := rfl

@[simp] theorem nullable_plus (e : Expr) : (plus e).nullable = e.nullable := rfl

@[simp] theorem nullable_opt (e : Expr) : (opt e).nullable = true := rfl

@[simp] theorem nullable_seq (es : List Expr) : (seq es).nullable = es.all nullable :=
  allNullable_eq es

@[simp] theorem nullable_alt (es : List Expr) : (alt es).nullable = es.any nullable :=
  anyNullable_eq es

/-! ## Height and size -/

mutual
/-- The number of operators on the longest way down; a symbol has depth zero, and
so has a node without operands. -/
def depth : Expr → Nat
  | sym _ => 0
  | star e | plus e | opt e => depth e + 1
  | seq es | alt es => levels es
/-- The greatest depth below a node with the given operands, counting the node
itself; zero when there are none. -/
def levels : List Expr → Nat
  | [] => 0
  | e :: es => max (depth e + 1) (levels es)
end

theorem depth_lt_levels {e : Expr} {es : List Expr} (h : e ∈ es) :
    e.depth < levels es := by
  induction es with
  | nil => nomatch h
  | cons d ds ih =>
      rcases List.mem_cons.1 h with rfl | h
      · simp only [levels]; omega
      · have := ih h
        simp only [levels]; omega

/-- An operand is less deep than the expression. -/
theorem depth_lt_of_mem_operands {e d : Expr} (h : d ∈ e.operands) : d.depth < e.depth := by
  cases e with
  | sym c => nomatch h
  | star e | plus e | opt e => exact List.mem_singleton.1 h ▸ Nat.lt_succ_self _
  | seq es | alt es => exact depth_lt_levels h

mutual
def size : Expr → Nat
  | sym _ => 1
  | star e | plus e | opt e => size e + 1
  | seq es | alt es => sizeList es + 1
def sizeList : List Expr → Nat
  | [] => 0
  | e :: es => size e + sizeList es
end

@[simp] theorem sizeList_nil : sizeList [] = 0 := rfl

@[simp] theorem sizeList_cons (e : Expr) (es : List Expr) :
    sizeList (e :: es) = e.size + sizeList es := rfl

@[simp] theorem sizeList_append (es fs : List Expr) :
    sizeList (es ++ fs) = sizeList es + sizeList fs := by
  induction es with
  | nil => simp
  | cons e es ih => simp [ih, Nat.add_assoc]

theorem size_pos (e : Expr) : 0 < e.size := by
  cases e <;> simp [size]

theorem sizeList_le_of_sublist {es fs : List Expr} (h : es.Sublist fs) :
    sizeList es ≤ sizeList fs := by
  induction h with
  | slnil => simp
  | cons e _ ih => simp only [sizeList_cons]; omega
  | cons_cons e _ ih => simp only [sizeList_cons]; omega

mutual
def operatorCount : Expr → Nat
  | sym _ => 0
  | star e | plus e | opt e => operatorCount e + 1
  | seq es | alt es => operatorCountList es + 1
def operatorCountList : List Expr → Nat
  | [] => 0
  | e :: es => operatorCount e + operatorCountList es
end

theorem operatorCount_eq_zero_iff {e : Expr} :
    e.operatorCount = 0 ↔ e.isSymbol = true := by
  cases e <;> simp [operatorCount, isSymbol]

end Expr

end RegularForms
