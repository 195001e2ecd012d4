import Mathlib.Data.List.Basic

/-!
# Hashing in blocks

A text is absorbed element by element; whenever `n` elements have come together, they are processed as a block. How the
text was cut into pieces makes no difference (`absorb_append`), and a piece that stays within a block, or fills it, is
absorbed at once (`absorb_short`, `absorb_full`).
-/

namespace BlockHash

variable {α σ : Type*} {n : Nat} {f : σ → List α → σ}

/-- One more element: the state and the elements that are not yet processed. -/
def push (n : Nat) (f : σ → List α → σ) (s : σ × List α) (x : α) : σ × List α :=
  if s.2.length + 1 = n then (f s.1 (s.2 ++ [x]), []) else (s.1, s.2 ++ [x])

def absorb (n : Nat) (f : σ → List α → σ) (s : σ × List α) (xs : List α) : σ × List α := xs.foldl (push n f) s

@[simp] theorem absorb_nil (s : σ × List α) : absorb n f s [] = s := rfl

theorem absorb_cons (s : σ × List α) (x : α) (xs : List α) : absorb n f s (x :: xs) = absorb n f (push n f s x) xs := rfl

/-- **Piece by piece or at once.** -/
theorem absorb_append (s : σ × List α) (xs ys : List α) : absorb n f s (xs ++ ys) = absorb n f (absorb n f s xs) ys :=
  List.foldl_append

theorem absorb_short {s : σ × List α} {xs : List α} (h : s.2.length + xs.length < n) :
    absorb n f s xs = (s.1, s.2 ++ xs) := by
  induction xs generalizing s with
  | nil => simp
  | cons x xs ih =>
    rw [List.length_cons] at h
    have hpush : push n f s x = (s.1, s.2 ++ [x]) := if_neg (by omega)
    rw [absorb_cons, hpush, ih]
    · simp
    · simp only [List.length_append, List.length_cons, List.length_nil]
      omega

theorem absorb_full {s : σ × List α} {xs : List α} (hpos : 0 < xs.length) (h : s.2.length + xs.length = n) :
    absorb n f s xs = (f s.1 (s.2 ++ xs), []) := by
  induction xs generalizing s with
  | nil => simp at hpos
  | cons x xs ih =>
    rw [List.length_cons] at h
    cases xs with
    | nil =>
      have hpush : push n f s x = (f s.1 (s.2 ++ [x]), []) := if_pos h
      rw [absorb_cons, hpush, absorb_nil]
    | cons y ys =>
      rw [List.length_cons] at h
      have hpush : push n f s x = (s.1, s.2 ++ [x]) := if_neg (by omega)
      rw [absorb_cons, hpush, ih]
      · simp
      · simp
      · simp only [List.length_append, List.length_cons, List.length_nil]
        omega

end BlockHash
