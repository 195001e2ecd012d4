import Mathlib.Data.Option.Basic

/-!
# Two partial computations side by side

`Option.Rel R x y` says that `x` and `y` both fail, or both return results related by `R`. These rules follow the
structure of two programs that are the same but for what they compute on.
-/

namespace OptionRel

variable {α β γ δ : Type} {R : α → β → Prop} {x : Option α} {y : Option β} {S : γ → δ → Prop} {g : β → δ}

theorem bind {f : α → Option γ} {g : β → Option δ}
    (hxy : Option.Rel R x y) (hfg : ∀ a b, R a b → Option.Rel S (f a) (g b)) :
    Option.Rel S (x >>= f) (y >>= g) := by
  cases hxy with
  | some hab => exact hfg _ _ hab
  | none => exact .none

theorem mono {S : α → β → Prop} (h : Option.Rel R x y) (hRS : ∀ a b, R a b → S a b) : Option.Rel S x y := by
  cases h with
  | some hab => exact .some (hRS _ _ hab)
  | none => exact .none

theorem of_some {a : α} (h : Option.Rel R x y) (hx : x = some a) : ∃ b, y = some b ∧ R a b := by
  cases h with
  | some hab =>
    obtain rfl := Option.some.inj hx
    exact ⟨_, rfl, hab⟩
  | none => cases hx

theorem eq_none_iff (h : Option.Rel R x y) : x = none ↔ y = none := by
  cases h with
  | some _ => simp
  | none => simp

theorem map {f : α → γ}
    (hxy : Option.Rel R x y) (hfg : ∀ a b, R a b → S (f a) (g b)) : Option.Rel S (x.map f) (y.map g) := by
  cases hxy with
  | some hab => exact .some (hfg _ _ hab)
  | none => exact .none

/-- A computation on one side, and a function of the result on the other. -/
theorem bind_map {f : α → Option γ} (hxy : Option.Rel R x y) (hfg : ∀ a b, R a b → Option.Rel S (f a) (some (g b))) :
    Option.Rel S (x.bind f) (y.map g) := by
  cases hxy with
  | some hab => exact hfg _ _ hab
  | none => exact .none

theorem map_right {S : α → δ → Prop}
    (hxy : Option.Rel R x y) (hg : ∀ a b, R a b → S a (g b)) : Option.Rel S x (y.map g) := by
  cases hxy with
  | some hab => exact .some (hg _ _ hab)
  | none => exact .none

theorem with_left (h : Option.Rel R x y) : Option.Rel (fun a b => x = some a ∧ R a b) x y := by
  cases h with
  | some hab => exact .some ⟨rfl, hab⟩
  | none => exact .none

theorem ite {p : Prop} [Decidable p] {x' : Option α} {y' : Option β}
    (h : p → Option.Rel R x y) (h' : ¬ p → Option.Rel R x' y') :
    Option.Rel R (if p then x else x') (if p then y else y') := by
  by_cases hp : p
  · rw [if_pos hp, if_pos hp]
    exact h hp
  · rw [if_neg hp, if_neg hp]
    exact h' hp

end OptionRel
