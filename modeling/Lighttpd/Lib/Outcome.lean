import Mathlib.Logic.Basic

/-!
# What holds of the ends of a computation

`Ends E P x` says of a computation that returns or gives up: if it gives up, then with an error that satisfies `E`; if it
returns, then a result that satisfies `P`. These rules follow the structure of the computation.
-/

/-- **`x` gives up with an error in `E`, or returns a result in `P`.** -/
def Ends {ε α : Type} (E : ε → Prop) (P : α → Prop) : Except ε α → Prop
  | .error e => E e
  | .ok a => P a

namespace Ends

variable {ε α β : Type} {E E' : ε → Prop} {P Q : α → Prop} {R : β → Prop} {x : Except ε α}

@[simp] theorem ok_iff (E : ε → Prop) (P : α → Prop) (a : α) : Ends E P (.ok a) ↔ P a := Iff.rfl

theorem mono (h : Ends E P x) (hE : ∀ e, E e → E' e) (hP : ∀ a, P a → Q a) : Ends E' Q x := by
  cases x with
  | error e => exact hE e h
  | ok a => exact hP a h

theorem bind {f : α → Except ε β} (h : Ends E P x) (hf : ∀ a, P a → Ends E R (f a)) : Ends E R (x >>= f) := by
  cases x with
  | error e => exact h
  | ok a => exact hf a h

theorem map {f : α → β} (h : Ends E P x) (hf : ∀ a, P a → R (f a)) : Ends E R (x.map f) := by
  cases x with
  | error e => exact h
  | ok a => exact hf a h

theorem ite {p : Prop} [Decidable p] {y : Except ε α} (h : p → Ends E P x) (h' : ¬ p → Ends E P y) :
    Ends E P (if p then x else y) := by
  by_cases hp : p
  · rw [if_pos hp]
    exact h hp
  · rw [if_neg hp]
    exact h' hp

/-- The condition that holds of the result of a computation that returns. -/
theorem of_ok {a : α} (h : Ends E P x) (hx : x = .ok a) : P a := by
  rw [hx] at h
  exact h

/-- The condition that holds of the error of a computation that gives up. -/
theorem of_error {e : ε} (h : Ends E P x) (hx : x = .error e) : E e := by
  rw [hx] at h
  exact h

end Ends
