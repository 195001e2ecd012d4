import Mathlib.Data.List.Basic

/-!
# Tables of locks

A lock is held on a resource, alone (exclusive) or together with others. A table is compatible if no resource has an
exclusive lock and another one.

- `compatible_concat`: exactly the locks that may be added;
- `Compatible.of_sublist`: locks may always be removed.
-/

namespace LockTable

variable {τ ρ : Type} {resource : τ → ρ} {excl : τ → Prop} {locks : List τ}

def Locked (resource : τ → ρ) (locks : List τ) (r : ρ) : Prop := ∃ l ∈ locks, resource l = r

/-- **No resource has an exclusive lock together with another one.** -/
def Compatible (resource : τ → ρ) (excl : τ → Prop) (locks : List τ) : Prop :=
  locks.Pairwise fun l l' => resource l = resource l' → ¬ excl l ∧ ¬ excl l'

theorem compatible_nil : Compatible resource excl [] := List.Pairwise.nil

theorem Compatible.of_sublist {locks' : List τ} (h : Compatible resource excl locks) (hsub : locks'.Sublist locks) :
    Compatible resource excl locks' := List.Pairwise.sublist hsub h

/-- **A lock may be added** to a table if it and the locks of its resource are all shared, and only then. -/
theorem compatible_concat {l : τ} : Compatible resource excl (locks ++ [l]) ↔
    Compatible resource excl locks ∧ ∀ l' ∈ locks, resource l' = resource l → ¬ excl l' ∧ ¬ excl l := by
  unfold Compatible
  rw [List.pairwise_append]
  simp

end LockTable
