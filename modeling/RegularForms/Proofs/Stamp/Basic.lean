import Mathlib.Order.Hom.Basic
import RegularForms.Error
import RegularForms.Proofs.Automaton.Valid

/-!
# Exchanging stamps

A copy of an automaton is the same graph with another stamp on its identifiers. What carries
identifiers is `Stamped`: `restamp f x` is `x` with the stamp `f k` wherever it has `k`.

An identifier is only ever compared with others, so an order embedding `σ` of the stamps makes
no difference to what is done: `F (restamp σ x) = restamp σ (F x)`. A copy does not come from
an embedding, since all stamps become one. But where there has been one stamp only, it might
have, whichever of the two stamps is the greater one. That is `By.restamp_const`: whatever
goes along with all embeddings keeps to one stamp, and goes along with exchanging it.
-/

namespace RegularForms

/-- What carries identifiers, and can have their stamps exchanged. -/
class Stamped (α : Type) where
  restamp : (Nat → Nat) → α → α
  restamp_id : ∀ x, restamp id x = x
  restamp_restamp : ∀ f g x, restamp f (restamp g x) = restamp (f ∘ g) x

/-- What carries no identifiers. -/
class Plain (α : Type) extends Stamped α where
  restamp_eq : ∀ f x, restamp f x = x

open Stamped

attribute [simp] restamp_id Plain.restamp_eq

/-- All stamps are the same given one. -/
def Stamped.By {α : Type} [Stamped α] (m : Nat) (x : α) : Prop := restamp (fun _ => m) x = x

namespace Stamped

variable {α β : Type} [Stamped α] [Stamped β] {m n : Nat} {x y : α} {σ : Nat ↪o Nat}

/-! ## Embeddings of the stamps -/

theorem restamp_injective (σ : Nat ↪o Nat) : Function.Injective (restamp (α := α) σ) := by
  refine Function.LeftInverse.injective (g := restamp (Function.invFun σ)) fun x => ?_
  rw [restamp_restamp, Function.invFun_comp σ.injective, restamp_id]

@[simp] theorem restamp_inj : restamp σ x = restamp σ y ↔ x = y := (restamp_injective σ).eq_iff

@[simp] theorem restamp_beq [BEq α] [LawfulBEq α] :
    (restamp σ x == restamp σ y) = (x == y) := by
  rw [Bool.eq_iff_iff, beq_iff_eq, beq_iff_eq, restamp_inj]

@[simp] theorem compare_embedding (σ : Nat ↪o Nat) (i j : Nat) :
    compare (σ i) (σ j) = compare i j := by
  rw [← cmp_eq_compare, ← cmp_eq_compare, σ.strictMono.cmp_map_eq]

@[simp] theorem beq_embedding (σ : Nat ↪o Nat) (i j : Nat) : (σ i == σ j) = (i == j) := by
  rw [Bool.eq_iff_iff, beq_iff_eq, beq_iff_eq, σ.injective.eq_iff]

/-! ## One stamp only -/

theorem By.restamp_eq (hx : By m x) (f : Nat → Nat) : restamp f x = restamp (fun _ => f m) x :=
  calc restamp f x = restamp f (restamp (fun _ => m) x) := by rw [hx]
    _ = restamp (fun _ => f m) x := restamp_restamp f _ x

theorem by_restamp (n : Nat) (x : α) : By n (restamp (fun _ => n) x) := restamp_restamp _ _ x

/-- The embedding of the stamps that leaves a gap beside each of them. -/
def spread : Nat ↪o Nat := OrderEmbedding.ofStrictMono (fun k => 2 * k + 1) fun i j h => by
  dsimp only
  omega

/-- An embedding that goes along with `spread` at one stamp, and nowhere else. -/
def spreadAt (m : Nat) : Nat ↪o Nat :=
  OrderEmbedding.ofStrictMono (fun k => if k = m then 2 * k + 1 else if k < m then 2 * k
    else 2 * k + 2) fun i j h => by
    dsimp only
    split_ifs <;> omega

/-- Reading the stamps off again that `spread` leads to, with `m` for all others. -/
def unspread (m k : Nat) : Nat := if k % 2 = 1 then k / 2 else m

theorem unspread_comp_spread (m : Nat) : unspread m ∘ spread = id := funext fun k => by
  show (if (2 * k + 1) % 2 = 1 then (2 * k + 1) / 2 else m) = k
  rw [if_pos (by omega)]
  omega

theorem unspread_comp_spreadAt (m : Nat) : unspread m ∘ spreadAt m = fun _ => m :=
  funext fun k => by
    show (if (if k = m then 2 * k + 1 else if k < m then 2 * k else 2 * k + 2) % 2 = 1 then
      (if k = m then 2 * k + 1 else if k < m then 2 * k else 2 * k + 2) / 2 else m) = m
    split_ifs <;> omega

def shift (k : Nat) : Nat ↪o Nat := OrderEmbedding.ofStrictMono (· + k) fun i j h => by
  dsimp only
  omega

variable {F : α → β}

/-- What goes along with all embeddings brings no other stamp in. -/
theorem By.map (hF : ∀ (σ : Nat ↪o Nat) x, F (restamp σ x) = restamp σ (F x)) (hx : By m x) :
    By m (F x) := by
  have hsame : restamp (spreadAt m) x = restamp spread x := by
    rw [hx.restamp_eq, hx.restamp_eq spread]
    exact congrArg (fun k => restamp (fun _ => k) x) (if_pos rfl)
  calc restamp (fun _ => m) (F x)
      = restamp (unspread m) (restamp (spreadAt m) (F x)) := by
        rw [restamp_restamp, unspread_comp_spreadAt]
    _ = restamp (unspread m) (restamp spread (F x)) := by rw [← hF, hsame, hF]
    _ = F x := by rw [restamp_restamp, unspread_comp_spread, restamp_id]

/-- What goes along with all embeddings goes along with exchanging the only stamp there is. -/
theorem By.restamp_const (hF : ∀ (σ : Nat ↪o Nat) x, F (restamp σ x) = restamp σ (F x))
    (hx : By m x) (n : Nat) : F (restamp (fun _ => n) x) = restamp (fun _ => n) (F x) := by
  rcases Nat.le_total m n with hmn | hmn
  · have hshift : ∀ {γ : Type} [Stamped γ] {z : γ}, By m z →
        restamp (shift (n - m)) z = restamp (fun _ => n) z := fun hz => by
      rw [hz.restamp_eq]
      exact congrArg (fun k => restamp (fun _ => k) _) (Nat.add_sub_cancel' hmn)
    rw [← hshift hx, hF, hshift (hx.map hF)]
  · -- Here the other way leads up: from the new stamp to the old one.
    have hback : restamp (shift (m - n)) (restamp (fun _ => n) x) = x := by
      rw [restamp_restamp]
      refine Eq.trans ?_ hx
      exact congrArg (fun k => restamp (fun _ => k) x) (Nat.add_sub_cancel' hmn)
    calc F (restamp (fun _ => n) x)
        = restamp (fun _ => n) (F (restamp (fun _ => n) x)) :=
          ((by_restamp n x).map hF).symm
      _ = restamp (fun _ => n) (restamp (shift (m - n)) (F (restamp (fun _ => n) x))) := by
          rw [restamp_restamp]
          rfl
      _ = restamp (fun _ => n) (F x) := by rw [← hF, hback]

end Stamped

/-! ## What carries no identifiers -/

@[reducible] def Plain.trivial (α : Type) : Plain α where
  restamp _ x := x
  restamp_id _ := rfl
  restamp_restamp _ _ _ := rfl
  restamp_eq _ _ := rfl

instance : Plain Unit := .trivial Unit
instance : Plain Bool := .trivial Bool
instance : Plain Nat := .trivial Nat
instance : Plain Char := .trivial Char
instance : Plain String := .trivial String
instance : Plain Expr := .trivial Expr
instance : Plain Isolation := .trivial Isolation

/-! ## Containers -/

section Containers

variable {α β : Type} [Stamped α] [Stamped β] {f : Nat → Nat}

instance : Stamped (List α) where
  restamp f := List.map (restamp f)
  restamp_id xs := by rw [show restamp id = (id : α → α) from funext restamp_id, List.map_id]
  restamp_restamp f g xs := by
    rw [List.map_map]
    exact List.map_congr_left fun x _ => restamp_restamp f g x

@[simp] theorem restamp_list (xs : List α) : restamp f xs = xs.map (restamp f) := rfl

instance : Stamped (Option α) where
  restamp f := Option.map (restamp f)
  restamp_id x := by rw [show restamp id = (id : α → α) from funext restamp_id, Option.map_id, id]
  restamp_restamp f g x := by
    rw [Option.map_map]
    exact congrArg (Option.map · x) (funext fun x => restamp_restamp f g x)

@[simp] theorem restamp_option (x : Option α) : restamp f x = x.map (restamp f) := rfl

instance : Stamped (α × β) where
  restamp f p := (restamp f p.1, restamp f p.2)
  restamp_id p := by rw [restamp_id, restamp_id]
  restamp_restamp f g p := by rw [restamp_restamp, restamp_restamp]

@[simp] theorem restamp_mk (x : α) (y : β) : restamp f (x, y) = (restamp f x, restamp f y) := rfl

@[simp] theorem fst_restamp (p : α × β) : (restamp f p).1 = restamp f p.1 := rfl

@[simp] theorem snd_restamp (p : α × β) : (restamp f p).2 = restamp f p.2 := rfl

end Containers

/-! ## Graphs -/

section Graphs

variable {kind : Kind} {f : Nat → Nat}

instance : Stamped (Ident kind) where
  restamp f i := ⟨f i.owner, i.index⟩
  restamp_id _ := rfl
  restamp_restamp _ _ _ := rfl

@[simp] theorem Ident.owner_restamp (i : Ident kind) : (restamp f i).owner = f i.owner := rfl

@[simp] theorem Ident.index_restamp (i : Ident kind) : (restamp f i).index = i.index := rfl

instance : Stamped State where
  restamp f s := ⟨restamp f s.id, s.accepting⟩
  restamp_id _ := rfl
  restamp_restamp _ _ _ := rfl

instance : Stamped Transition where
  restamp f t := ⟨restamp f t.id, restamp f t.source, restamp f t.target, t.label⟩
  restamp_id _ := rfl
  restamp_restamp _ _ _ := rfl

instance : Stamped Node where
  restamp f n := ⟨restamp f n.state, restamp f n.out⟩
  restamp_id n := by rw [restamp_id, restamp_id]
  restamp_restamp f g n := by rw [restamp_restamp, restamp_restamp]

instance : Stamped Automaton where
  restamp f a := ⟨f a.owner, restamp f a.start, a.nextState, a.nextTransition, restamp f a.nodes⟩
  restamp_id a := by rw [restamp_id, restamp_id]; rfl
  restamp_restamp f g a := by rw [restamp_restamp, restamp_restamp]; rfl

@[simp] theorem State.id_restamp (s : State) : (restamp f s).id = restamp f s.id := rfl

@[simp] theorem State.accepting_restamp (s : State) : (restamp f s).accepting = s.accepting := rfl

@[simp] theorem Transition.id_restamp (t : Transition) : (restamp f t).id = restamp f t.id := rfl

@[simp] theorem Transition.source_restamp (t : Transition) :
    (restamp f t).source = restamp f t.source := rfl

@[simp] theorem Transition.target_restamp (t : Transition) :
    (restamp f t).target = restamp f t.target := rfl

@[simp] theorem Transition.label_restamp (t : Transition) : (restamp f t).label = t.label := rfl

@[simp] theorem Node.state_restamp (n : Node) : (restamp f n).state = restamp f n.state := rfl

@[simp] theorem Node.out_restamp (n : Node) : (restamp f n).out = n.out.map (restamp f) := rfl

namespace Automaton

variable (a : Automaton)

@[simp] theorem owner_restamp : (restamp f a).owner = f a.owner := rfl

@[simp] theorem start_restamp : (restamp f a).start = restamp f a.start := rfl

@[simp] theorem nextState_restamp : (restamp f a).nextState = a.nextState := rfl

@[simp] theorem nextTransition_restamp : (restamp f a).nextTransition = a.nextTransition := rfl

@[simp] theorem nodes_restamp : (restamp f a).nodes = a.nodes.map (restamp f) := rfl

/-- A copy is the graph with all stamps exchanged for one. -/
theorem copy_eq_restamp (owner : Nat) : a.copy owner = restamp (fun _ => owner) a := rfl

/-- In a valid automaton there is one stamp only. -/
theorem Valid.by_owner {a : Automaton} (ha : a.Valid) : By a.owner a := by
  have hstate : ∀ s ∈ a.stateIds, restamp (fun _ => a.owner) s = s := fun s hs =>
    congrArg (Ident.mk · s.index) (ha.state_issued s hs).1.symm
  have htransition : ∀ t ∈ a.transitions, restamp (fun _ => a.owner) t = t := fun t ht => by
    have hid : restamp (fun _ => a.owner) t.id = t.id :=
      congrArg (Ident.mk · t.id.index) (ha.transition_issued t ht).1.symm
    calc restamp (fun _ => a.owner) t
        = ⟨restamp _ t.id, restamp _ t.source, restamp _ t.target, t.label⟩ := rfl
      _ = t := by rw [hid, hstate _ (ha.source_mem ht), hstate _ (ha.target_mem t ht)]
  have hnode : ∀ n ∈ a.nodes, restamp (fun _ => a.owner) n = n := fun n hn => by
    have hid := hstate n.id (mem_stateIds.2 ⟨n, hn, rfl⟩)
    have hout : n.out.map (restamp fun _ => a.owner) = n.out :=
      (List.map_congr_left fun t ht =>
        htransition t (mem_transitions.2 ⟨n, hn, ht⟩)).trans (List.map_id _)
    calc restamp (fun _ => a.owner) n
        = ⟨⟨restamp _ n.id, n.state.accepting⟩, n.out.map (restamp _)⟩ := rfl
      _ = n := by rw [hid, hout]
  have hnodes : a.nodes.map (restamp fun _ => a.owner) = a.nodes :=
    (List.map_congr_left hnode).trans (List.map_id _)
  calc restamp (fun _ => a.owner) a
      = ⟨a.owner, restamp _ a.start, a.nextState, a.nextTransition,
          a.nodes.map (restamp _)⟩ := rfl
    _ = a := by rw [hstate _ ha.start_mem, hnodes]

end Automaton

end Graphs

/-! ## Refusals -/

section Refusals

variable {α : Type} [Stamped α] {f : Nat → Nat}

def Error.exchange (f : Nat → Nat) : Error → Error
  | unknownState s => unknownState (restamp f s)
  | unknownTransition t => unknownTransition (restamp f t)
  | stateExists s => stateExists (restamp f s)
  | transitionExists t => transitionExists (restamp f t)
  | foreignState s => foreignState (restamp f s)
  | foreignTransition t => foreignTransition (restamp f t)
  | stateInUse s => stateInUse (restamp f s)
  | misplaced t s => misplaced (restamp f t) (restamp f s)
  | selfLoop s => selfLoop (restamp f s)
  | notSelfLoop t => notSelfLoop (restamp f t)
  | severalSelfLoops s => severalSelfLoops (restamp f s)
  | notParallel source target => notParallel (restamp f source) (restamp f target)
  | compoundLabel t => compoundLabel (restamp f t)
  | err => err

instance : Stamped Error where
  restamp := Error.exchange
  restamp_id err := by cases err <;> rfl
  restamp_restamp f g err := by cases err <;> rfl

/-- Stamps are not part of the wording. -/
@[simp] theorem Error.message_restamp (err : Error) :
    (restamp f err).message = err.message := by
  cases err <;> rfl

instance : Stamped (Except Error α) where
  restamp f
    | .ok x => .ok (restamp f x)
    | .error err => .error (restamp f err)
  restamp_id r := by cases r <;> simp
  restamp_restamp f g r := by cases r <;> simp [restamp_restamp]

@[simp] theorem restamp_ok (x : α) :
    restamp f (.ok x : Except Error α) = .ok (restamp f x) := rfl

@[simp] theorem restamp_error (err : Error) :
    restamp f (.error err : Except Error α) = .error (restamp f err) := rfl

/-- Going on after something that may be refused. -/
theorem restamp_bind {β : Type} [Stamped β] (r : Except Error α) {g g' : α → Except Error β}
    (hg : ∀ x, g' (restamp f x) = restamp f (g x)) :
    restamp f r >>= g' = restamp f (r >>= g) := by
  cases r with
  | ok x => exact hg x
  | error err => rfl

/-- What is made of something that may be refused. -/
theorem map_restamp {β : Type} [Stamped β] {r r' : Except Error α} {g g' : α → β}
    (hr : r' = restamp f r) (hg : ∀ x, g' (restamp f x) = restamp f (g x)) :
    r'.map g' = restamp f (r.map g) := by
  subst hr
  cases r with
  | ok x => exact congrArg Except.ok (hg x)
  | error err => rfl

end Refusals

end RegularForms
