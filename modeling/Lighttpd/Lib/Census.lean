import Mathlib.Data.List.Basic

/-!
# Counting the members of a list

A counter is kept beside a list, and one member of the list changes or leaves it at a time. `countP_replace` says how the
number of the members with a property changes then.
-/

namespace Census

variable {α : Type*} {p : α → Bool} {l : List α} {n : Nat} {a : α}

/-- `1` for a member with the property. -/
def one (p : α → Bool) : Option α → Int
  | none => 0
  | some a => if p a then 1 else 0

@[simp]
theorem one_none : one p none = 0 := rfl

theorem one_of_true (h : p a = true) : one p (some a) = 1 := by
  simp [one, h]

theorem one_of_false (h : p a = false) : one p (some a) = 0 := by
  simp [one, h]

theorem one_congr {a' : α} (h : p a = p a') : one p (some a) = one p (some a') := by
  simp [one, h]

theorem one_bounds (p : α → Bool) (o : Option α) : 0 ≤ one p o ∧ one p o ≤ 1 := by
  cases o with
  | none => simp
  | some a =>
    unfold one
    split <;> omega

theorem countP_cons (a : α) (l : List α) : ((a :: l).countP p : Int) = l.countP p + one p (some a) := by
  rw [List.countP_cons, one]
  split <;> rfl

/-- The member at `n` becomes another one, or leaves. -/
def replace (l : List α) (n : Nat) : Option α → List α
  | none => l.eraseIdx n
  | some a => l.set n a

/-- **The number changes as the member does.** -/
theorem countP_replace (h : l[n]? = some a) (o : Option α) :
    ((replace l n o).countP p : Int) + one p (some a) = l.countP p + one p o := by
  induction l generalizing n with
  | nil => simp at h
  | cons x l ih =>
    cases n with
    | zero =>
      obtain rfl : x = a := by simpa using h
      cases o with
      | none =>
        rw [countP_cons, one_none, Int.add_zero]
        rfl
      | some b =>
        rw [replace, List.set_cons_zero, countP_cons, countP_cons]
        omega
    | succ n =>
      have htail := ih (n := n) (by simpa using h)
      have hcons : replace (x :: l) (n + 1) o = x :: replace l n o := by
        cases o <;> simp [replace]
      rw [hcons, countP_cons, countP_cons]
      omega

theorem countP_set (h : l[n]? = some a) (b : α) :
    ((l.set n b).countP p : Int) = l.countP p + one p (some b) - one p (some a) := by
  have hcount := countP_replace (p := p) h (some b)
  simp only [replace] at hcount
  omega

theorem countP_update {q : α → Bool} (hl : l.Nodup) (ha : a ∈ l) (hother : ∀ b, b ≠ a → q b = p b) :
    (l.countP q : Int) = l.countP p + one q (some a) - one p (some a) := by
  induction l with
  | nil => cases ha
  | cons x l ih =>
    obtain ⟨hx, hl⟩ := List.nodup_cons.mp hl
    rw [countP_cons, countP_cons]
    by_cases hxa : x = a
    · subst hxa
      have hsame : l.countP q = l.countP p := by
        apply List.countP_congr
        intro b hb
        rw [hother b]
        rintro rfl
        exact hx hb
      omega
    · have hmem : a ∈ l := by
        rcases List.mem_cons.mp ha with rfl | hmem
        · exact absurd rfl hxa
        · exact hmem
      have hcount := ih hl hmem
      have hone : one q (some x) = one p (some x) := by
        simp only [one, hother x hxa]
      omega

theorem mem_replace {o : Option α} {b : α} (h : b ∈ replace l n o) : b ∈ l ∨ o = some b := by
  cases o with
  | none => exact .inl (List.mem_of_mem_eraseIdx h)
  | some c =>
    rcases List.mem_or_eq_of_mem_set h with h | rfl
    · exact .inl h
    · exact .inr rfl

end Census
