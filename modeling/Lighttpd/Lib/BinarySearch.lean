import Mathlib.Data.List.Basic
import Mathlib.Order.Basic

/-!
# Binary search

`search` looks for the place where a comparison is zero, in a range on which it is first positive and then negative. The
comparison may fail, and `search_spec` says that it does not when it is defined on the range.
-/

namespace BinarySearch

/-- The search between `lower` and `upper`: whether there is an equal place, and it or the place to insert at. The first
argument bounds the number of rounds. -/
def search (cmp : Nat → Option Int) : Nat → Nat → Nat → Option (Bool × Nat)
  | 0, _, _ => none
  | fuel + 1, lower, upper =>
    if lower = upper then some (false, lower)
    else (cmp ((lower + upper) / 2)).bind fun c =>
      if c = 0 then some (true, (lower + upper) / 2)
      else if c < 0 then search cmp fuel lower ((lower + upper) / 2)
      else search cmp fuel ((lower + upper) / 2 + 1) upper

/-- **The result of a search** in the first `n` places. -/
inductive Result (f : Nat → Int) (n : Nat) : Bool × Nat → Prop
  | found (pos : Nat) (lt : pos < n) (eq : f pos = 0) : Result f n (true, pos)
  | missing (pos : Nat) (le : pos ≤ n) (before : ∀ i, i < pos → 0 < f i) (behind : ∀ i, pos ≤ i → i < n → f i < 0) :
      Result f n (false, pos)

variable {cmp : Nat → Option Int} {f : Nat → Int} {n : Nat}

/-- The places before `lower` and those from `upper` on have been excluded. -/
theorem search_between (hcmp : ∀ i, i < n → cmp i = some (f i)) (hsort : ∀ i j, i < j → j < n → f i ≤ 0 → f j < 0)
    {fuel lower upper : Nat} (hfuel : upper - lower < fuel) (hle : lower ≤ upper) (hn : upper ≤ n)
    (hbefore : ∀ i, i < lower → 0 < f i) (hbehind : ∀ i, upper ≤ i → i < n → f i < 0) :
    ∃ r, search cmp fuel lower upper = some r ∧ Result f n r := by
  induction fuel generalizing lower upper with
  | zero => omega
  | succ fuel ih =>
    unfold search
    split
    · rename_i heq
      exact ⟨_, rfl, .missing lower (by omega) hbefore (heq ▸ hbehind)⟩
    · rename_i hne
      have hprobe : (lower + upper) / 2 < upper := by omega
      have hprobe' : lower ≤ (lower + upper) / 2 := by omega
      generalize (lower + upper) / 2 = probe at hprobe hprobe'
      rw [hcmp probe (by omega), Option.bind_some]
      split
      · rename_i hzero
        exact ⟨_, rfl, .found probe (by omega) hzero⟩
      · rename_i hzero
        split
        · rename_i hneg
          refine ih (by omega) hprobe' (by omega) hbefore fun i hi hin => ?_
          rcases Nat.eq_or_lt_of_le hi with rfl | hlt
          · exact hneg
          · exact hsort probe i hlt hin (Int.le_of_lt hneg)
        · rename_i hneg
          refine ih (by omega) (by omega) hn (fun i hi => ?_) hbehind
          by_contra hnot
          rcases Nat.eq_or_lt_of_le (Nat.le_of_lt_succ hi) with rfl | hlt
          · omega
          · exact hneg (hsort i probe hlt (by omega) (by omega))

/-- **The search finds an equal place, or the place between the smaller and the greater ones.** -/
theorem search_spec (hcmp : ∀ i, i < n → cmp i = some (f i)) (hsort : ∀ i j, i < j → j < n → f i ≤ 0 → f j < 0) :
    ∃ r, search cmp (n + 1) 0 n = some r ∧ Result f n r :=
  search_between hcmp hsort (by omega) (Nat.zero_le n) (Nat.le_refl n) (fun _ hi => absurd hi (Nat.not_lt_zero _))
    fun _ hi hin => absurd hin (Nat.not_lt_of_le hi)

end BinarySearch
