import Mathlib.Data.List.Basic
import Mathlib.Data.List.Perm.Basic

/-!
# Removing an entry by the last one

An array whose order does not matter loses an entry by copying the last one over it. `removeAt_append` says what is left:
the entries in front stay, and those behind are the same ones in another order (`lastFirst_perm`).
-/

namespace SwapRemove

variable {α : Type*}

/-- The last entry takes the place of the entry at `i`. -/
def removeAt (l : List α) (i : ℕ) : List α :=
  match l.getLast? with
  | some a => (l.set i a).dropLast
  | none => []

/-- The last entry in front of the others. -/
def lastFirst (l : List α) : List α :=
  match l.getLast? with
  | some a => a :: l.dropLast
  | none => []

theorem lastFirst_concat (l : List α) (a : α) : lastFirst (l ++ [a]) = a :: l := by
  rw [lastFirst, List.getLast?_concat, List.dropLast_concat]

theorem lastFirst_perm (l : List α) : (lastFirst l).Perm l := by
  rcases List.eq_nil_or_concat' l with rfl | ⟨l', a, rfl⟩
  · exact List.Perm.nil
  · rw [lastFirst_concat]
    exact (List.perm_append_singleton a l').symm

/-- **What is left of the array.** -/
theorem removeAt_append (pre post : List α) (a : α) : removeAt (pre ++ a :: post) pre.length = pre ++ lastFirst post := by
  rcases List.eq_nil_or_concat' post with rfl | ⟨mid, b, rfl⟩
  · rw [removeAt, List.getLast?_concat]
    simp [lastFirst]
  · have happend : pre ++ a :: (mid ++ [b]) = (pre ++ a :: mid) ++ [b] := by simp
    have hset : ((pre ++ a :: mid) ++ [b]).set pre.length b = (pre ++ b :: mid) ++ [b] := by simp
    rw [lastFirst_concat, removeAt, happend, List.getLast?_concat]
    simp only
    rw [hset, List.dropLast_concat]

end SwapRemove
