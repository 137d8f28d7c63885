/-!
# Isolation of a loop

When a repetition is unfolded into a loop, the loop may be given states of its own at
its start, at its end, or at both. An isolation says which.
-/

namespace RegularForms

/-- Which ends of a loop are states of its own. -/
structure Isolation where
  /-- The start of the loop is a state of its own. -/
  start : Bool
  /-- The end of the loop is a state of its own. -/
  finish : Bool
  deriving DecidableEq

namespace Isolation

def none : Isolation := ⟨false, false⟩

def full : Isolation := ⟨true, true⟩

def covers (i j : Isolation) : Bool :=
  (i.start || !j.start) && (i.finish || !j.finish)

def name : Isolation → String
  | ⟨false, false⟩ => "no isolation"
  | ⟨true, false⟩ => "start isolated"
  | ⟨false, true⟩ => "end isolated"
  | ⟨true, true⟩ => "fully isolated"

instance : ToString Isolation := ⟨name⟩

theorem covers_iff {i j : Isolation} :
    i.covers j = true ↔
      (j.start = true → i.start = true) ∧ (j.finish = true → i.finish = true) := by
  rcases i with ⟨_ | _, _ | _⟩ <;> rcases j with ⟨_ | _, _ | _⟩ <;> decide

@[simp] theorem covers_self (i : Isolation) : i.covers i = true := by
  rw [covers_iff]
  exact ⟨id, id⟩

end Isolation

end RegularForms
