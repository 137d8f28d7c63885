import RegularForms.Expr.Join
import RegularForms.Expr.Merge
import RegularForms.Repetition

/-!
# Simplification

Simplification works from the bottom up: the operands of a node are simplified first,
then the node is rebuilt over them by the constructor for its operator. `starOf`,
`plusOf`, `optOf`, `sequenceOf` and `choiceOf` are these constructors; each returns an
expression with the language of the plain node and leaves out what is redundant at the
top, given that nothing is redundant below.

`simplifyTo n` stops after `n` levels and takes what is deeper as it is; `simplify`
reaches every node.
-/

namespace RegularForms

namespace Expr

/-! ## Choices -/

def choiceOf (es : List Expr) : Expr :=
  join .choice (distinct (es.flatMap (parts .choice)))

/-- Either a choice is made of what its operands contribute, or it is the one
expression they contribute; in both cases it is no larger. -/
theorem size_choiceOf (es : List Expr) :
    ((choiceOf es).operator = .choice ∧ (choiceOf es).size ≤ sizeList es + 1) ∨
      (choiceOf es).size ≤ sizeList es := by
  have h₁ := sizeList_le_of_sublist (distinct_sublist (es.flatMap (parts .choice)))
  have h₂ := sizeList_flatMap_parts_le .choice es
  have h₃ := sizeList_flatMap_parts_le .choice (distinct (es.flatMap (parts .choice)))
  rcases join_eq .choice (distinct (es.flatMap (parts .choice))) with ⟨e, he, heq⟩ | ⟨-, heq⟩
  · right
    rw [he] at h₃
    simp only [sizeList_cons, sizeList_nil] at h₃
    simp only [choiceOf, heq]
    omega
  · left
    simp only [choiceOf, heq, Connective.size_node]
    exact ⟨rfl, by omega⟩

/-! ## Iterations -/

/-- What the operands below a star add to it: the empty word adds nothing, and an
iteration no more than what it repeats. -/
def starOperands (es : List Expr) : List Expr :=
  (es.filter fun e => !e.isEpsilon).map bare

theorem sizeList_starOperands_le (es : List Expr) :
    sizeList (starOperands es) ≤ sizeList es := by
  induction es with
  | nil => exact Nat.le_refl _
  | cons e es ih =>
      unfold starOperands at ih ⊢
      have := size_bare_le e
      cases h : e.isEpsilon <;> simp [h] <;> omega

/-- An empty word or an iteration among the operands makes what they add to a star
smaller than they are. -/
theorem sizeList_starOperands_lt {es : List Expr}
    (h : es.any fun e => e.iterated?.isSome || e.isEpsilon) :
    sizeList (starOperands es) < sizeList es := by
  induction es with
  | nil => simp at h
  | cons e es ih =>
      have hle := sizeList_starOperands_le es
      have hb := size_bare_le e
      have hp := size_pos e
      unfold starOperands at hle ih ⊢
      cases he : e.isEpsilon
      · cases hi : e.iterated?.isSome
        · have := ih (by simpa [he, hi] using h)
          simp [he]
          omega
        · have := size_bare_lt hi
          simp [he]
          omega
      · simp [he]
        omega

/-- What the construction of a star lessens with each step: twice the size, and one
more for a sequence. -/
def starWeight (e : Expr) : Nat := 2 * e.size + if e.operator = .sequence then 1 else 0

theorem starWeight_le (e : Expr) : starWeight e ≤ 2 * e.size + 1 := by
  unfold starWeight
  split <;> omega

theorem starWeight_lt_iteration (i : Iteration) (e : Expr) :
    starWeight e < starWeight (i.of e) := by
  have hle := starWeight_le e
  have heq : starWeight (i.of e) = 2 * (e.size + 1) := by cases i <;> rfl
  omega

theorem starWeight_choiceOf_lt_of_le {es fs : List Expr} (h : sizeList es ≤ sizeList fs) :
    starWeight (choiceOf es) < starWeight (seq fs) := by
  have hw := starWeight_le (choiceOf es)
  have hs : starWeight (seq fs) = 2 * (sizeList fs + 1) + 1 := rfl
  rcases size_choiceOf es with ⟨hop, hsize⟩ | hsize
  · have heq : starWeight (choiceOf es) = 2 * (choiceOf es).size := by simp [starWeight, hop]
    omega
  · omega

theorem starWeight_choiceOf_lt_of_lt {es fs : List Expr} (h : sizeList es < sizeList fs) :
    starWeight (choiceOf es) < starWeight (alt fs) := by
  have hw := starWeight_le (choiceOf es)
  have hs : starWeight (alt fs) = 2 * (sizeList fs + 1) := rfl
  rcases size_choiceOf es with ⟨-, hsize⟩ | hsize
  · omega
  · omega

/-- The star of an expression. A star over an iteration repeats what that repeats; over
a sequence of nullable operands, or a choice with an empty word or an iteration in it,
it repeats the choice between what these add to it. -/
def starOf : Expr → Expr
  | sym c => if c = epsilonSymbol then sym c else star (sym c)
  | star e | plus e | opt e => starOf e
  | seq es =>
    if es.all nullable then
      if starOperands es = [] then epsilon else starOf (choiceOf (starOperands es))
    else star (seq es)
  | alt es =>
    if es.any fun e => e.iterated?.isSome || e.isEpsilon then
      if starOperands es = [] then epsilon else starOf (choiceOf (starOperands es))
    else star (alt es)
termination_by e => starWeight e
decreasing_by
  · exact starWeight_lt_iteration .star e
  · exact starWeight_lt_iteration .plus e
  · exact starWeight_lt_iteration .option e
  · exact starWeight_choiceOf_lt_of_le (sizeList_starOperands_le es)
  · exact starWeight_choiceOf_lt_of_lt (sizeList_starOperands_lt (by assumption))

/-- The plus of an expression: of a star or an option it is the star of what these
repeat. -/
def plusOf : Expr → Expr
  | sym c => if c = epsilonSymbol then sym c else plus (sym c)
  | star e | opt e => starOf e
  | plus e => plus e
  | e => plus e

/-- The option of an expression: nothing new when the empty word is in its language
already, and a star when it is a plus. -/
def optOf (e : Expr) : Expr :=
  if e.nullable then e
  else match e with
    | plus d => starOf d
    | e => opt e

/-! ## Sequences -/

/-- The sequence of expressions, without empty words and with neighbours merged. -/
def sequenceOf (es : List Expr) : Expr :=
  match (es.flatMap (parts .sequence)).filter fun e => !e.isEpsilon with
  | [] => epsilon
  | flat => join .sequence (mergeBoth flat)

/-! ## Whole expressions -/

mutual
/-- Simplifies the top `n` levels of an expression. -/
def simplifyTo : Nat → Expr → Expr
  | 0, e => e
  | _ + 1, sym c => sym c
  | n + 1, star e => starOf (simplifyTo n e)
  | n + 1, plus e => plusOf (simplifyTo n e)
  | n + 1, opt e => optOf (simplifyTo n e)
  | n + 1, seq es => sequenceOf (simplifyAll n es)
  | n + 1, alt es => choiceOf (simplifyAll n es)
def simplifyAll : Nat → List Expr → List Expr
  | _, [] => []
  | n, e :: es => simplifyTo n e :: simplifyAll n es
end

def simplify (e : Expr) : Expr := simplifyTo (e.depth + 1) e

@[simp] theorem simplifyTo_zero (e : Expr) : simplifyTo 0 e = e := by
  cases e <;> rfl

@[simp] theorem simplifyTo_sym (n : Nat) (c : Char) : simplifyTo n (sym c) = sym c := by
  cases n <;> rfl

theorem simplifyAll_eq_map (n : Nat) (es : List Expr) :
    simplifyAll n es = es.map (simplifyTo n) := by
  induction es with
  | nil => rfl
  | cons e es ih => simp [simplifyAll, ih]

@[simp] theorem simplifyTo_succ_star (n : Nat) (e : Expr) :
    simplifyTo (n + 1) (star e) = starOf (simplifyTo n e) := rfl

@[simp] theorem simplifyTo_succ_plus (n : Nat) (e : Expr) :
    simplifyTo (n + 1) (plus e) = plusOf (simplifyTo n e) := rfl

@[simp] theorem simplifyTo_succ_opt (n : Nat) (e : Expr) :
    simplifyTo (n + 1) (opt e) = optOf (simplifyTo n e) := rfl

@[simp] theorem simplifyTo_succ_seq (n : Nat) (es : List Expr) :
    simplifyTo (n + 1) (seq es) = sequenceOf (es.map (simplifyTo n)) := by
  rw [simplifyTo, simplifyAll_eq_map]

@[simp] theorem simplifyTo_succ_alt (n : Nat) (es : List Expr) :
    simplifyTo (n + 1) (alt es) = choiceOf (es.map (simplifyTo n)) := by
  rw [simplifyTo, simplifyAll_eq_map]

/-- Once every level is reached, a greater depth changes nothing. -/
theorem simplifyTo_of_depth_lt {e : Expr} {m n : Nat} (hm : e.depth < m)
    (hn : e.depth < n) : simplifyTo m e = simplifyTo n e := by
  induction e using ind generalizing m n with
  | sym c => simp
  | star e ih =>
      obtain ⟨i, rfl⟩ := Nat.exists_eq_add_of_lt hm
      obtain ⟨j, rfl⟩ := Nat.exists_eq_add_of_lt hn
      simp only [simplifyTo_succ_star, depth]
      exact congrArg starOf (ih (by omega) (by omega))
  | plus e ih =>
      obtain ⟨i, rfl⟩ := Nat.exists_eq_add_of_lt hm
      obtain ⟨j, rfl⟩ := Nat.exists_eq_add_of_lt hn
      simp only [simplifyTo_succ_plus, depth]
      exact congrArg plusOf (ih (by omega) (by omega))
  | opt e ih =>
      obtain ⟨i, rfl⟩ := Nat.exists_eq_add_of_lt hm
      obtain ⟨j, rfl⟩ := Nat.exists_eq_add_of_lt hn
      simp only [simplifyTo_succ_opt, depth]
      exact congrArg optOf (ih (by omega) (by omega))
  | seq es ih =>
      obtain ⟨i, rfl⟩ := Nat.exists_eq_add_of_lt hm
      obtain ⟨j, rfl⟩ := Nat.exists_eq_add_of_lt hn
      simp only [simplifyTo_succ_seq, depth]
      refine congrArg sequenceOf (List.map_congr_left fun e he => ?_)
      have := depth_lt_levels he
      exact ih e he (by omega) (by omega)
  | alt es ih =>
      obtain ⟨i, rfl⟩ := Nat.exists_eq_add_of_lt hm
      obtain ⟨j, rfl⟩ := Nat.exists_eq_add_of_lt hn
      simp only [simplifyTo_succ_alt, depth]
      refine congrArg choiceOf (List.map_congr_left fun e he => ?_)
      have := depth_lt_levels he
      exact ih e he (by omega) (by omega)

end Expr

end RegularForms
