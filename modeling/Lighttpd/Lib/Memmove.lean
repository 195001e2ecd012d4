import Mathlib.Data.List.Basic
import Mathlib.Data.List.Perm.Subperm

/-!
# Moving a part of an array

`memmove` as a function on lists, and what moving a part by one place does to the first elements: one is inserted among
them, or one is taken out.
-/

namespace Memmove

variable {α : Type*}

def memmove (l : List α) (dst src n : Nat) : List α := l.take dst ++ ((l.drop src).take n ++ l.drop (dst + n))

variable {n : Nat} {l : List α}

theorem memmove_getElem? {dst src : Nat} (hsrc : src + n ≤ l.length) (hdst : dst + n ≤ l.length) (k : Nat) :
    (memmove l dst src n)[k]? = if dst ≤ k ∧ k < dst + n then l[k - dst + src]? else l[k]? := by
  unfold memmove
  rw [List.getElem?_append, List.length_take, Nat.min_eq_left (by omega)]
  split
  · rename_i hlt
    rw [if_neg (by omega), List.getElem?_take_of_lt hlt]
  · rename_i hge
    rw [List.getElem?_append, List.length_take, List.length_drop, Nat.min_eq_left (by omega)]
    split
    · rename_i hlt
      rw [if_pos (by omega), List.getElem?_take_of_lt hlt, List.getElem?_drop, Nat.add_comm]
    · rw [if_neg (by omega), List.getElem?_drop]
      congr 1
      omega

theorem memmove_length {dst src : Nat} (hsrc : src + n ≤ l.length)
    (hdst : dst + n ≤ l.length) : (memmove l dst src n).length = l.length := by
  simp only [memmove, List.length_append, List.length_take, List.length_drop]
  omega

/-- An element is inserted among the first `n`. -/
theorem take_insert {pos : Nat} {x : α} (hn : n < l.length) (hpos : pos ≤ n) :
    ((if pos ≠ n then memmove l (pos + 1) pos (n - pos) else l).set pos x).take (n + 1) =
      (l.take n).take pos ++ x :: (l.take n).drop pos := by
  have hmove : ∀ k, k ≠ pos → (if pos ≠ n then memmove l (pos + 1) pos (n - pos) else l)[k]? =
      if pos < k ∧ k ≤ n then l[k - 1]? else l[k]? := by
    intro k hk
    split
    · rw [memmove_getElem? (by omega) (by omega)]
      by_cases hin : pos < k ∧ k ≤ n
      · rw [if_pos (by omega), if_pos hin]
        congr 1
        omega
      · rw [if_neg (by omega), if_neg hin]
    · rw [if_neg (by omega)]
  have hlen : pos < (if pos ≠ n then memmove l (pos + 1) pos (n - pos) else l).length := by
    split
    · rw [memmove_length (by omega) (by omega)]
      omega
    · omega
  refine List.ext_getElem? fun k => ?_
  rw [List.getElem?_take, List.getElem?_append, List.length_take, List.length_take]
  by_cases hk : k = pos
  · subst hk
    rw [if_pos (by omega), List.getElem?_set_self hlen, if_neg (by omega)]
    have hz : k - min k (min n l.length) = 0 := by omega
    rw [hz]
    rfl
  · rw [List.getElem?_set_ne (Ne.symm hk), hmove k hk]
    by_cases hlt : k < pos
    · rw [if_pos (by omega), if_neg (by omega), if_pos (by omega), List.getElem?_take_of_lt hlt,
        List.getElem?_take_of_lt (by omega)]
    · obtain ⟨j, hj⟩ : ∃ j, k = pos + 1 + j := ⟨k - pos - 1, by omega⟩
      have hz : k - min pos (min n l.length) = j + 1 := by omega
      by_cases hkn : k ≤ n
      · rw [if_pos (by omega), if_pos (by omega), if_neg (by omega), hz, List.getElem?_cons_succ, List.getElem?_drop,
          List.getElem?_take_of_lt (by omega)]
        congr 1
        omega
      · rw [if_neg (by omega), if_neg (by omega), hz, List.getElem?_cons_succ, List.getElem?_drop, List.getElem?_take,
          if_neg (by omega)]

/-- An element is taken out of the first `n`. -/
theorem take_remove {pos : Nat} {x : α} (hn : n ≤ l.length) (hpos : pos < n) :
    ((if pos ≠ n - 1 then memmove l pos (pos + 1) (n - 1 - pos) else l).set (n - 1) x).take (n - 1) =
      (l.take n).eraseIdx pos := by
  have hmove : ∀ k, k < n - 1 → (if pos ≠ n - 1 then memmove l pos (pos + 1) (n - 1 - pos) else l)[k]? =
      if k < pos then l[k]? else l[k + 1]? := by
    intro k hk
    by_cases hlast : pos = n - 1
    · rw [if_neg (by omega), if_pos (by omega)]
    · rw [if_pos hlast, memmove_getElem? (by omega) (by omega)]
      by_cases hlt : k < pos
      · rw [if_neg (by omega), if_pos hlt]
      · rw [if_pos (by omega), if_neg hlt]
        congr 1
        omega
  refine List.ext_getElem? fun k => ?_
  rw [List.getElem?_take, List.getElem?_eraseIdx]
  by_cases hk : k < n - 1
  · rw [if_pos hk, List.getElem?_set_ne (by omega), hmove k hk, List.getElem?_take_of_lt (by omega),
      List.getElem?_take_of_lt (by omega)]
  · rw [if_neg hk, if_neg (by omega), List.getElem?_take, if_neg (by omega)]

/-- The places below `n`, in some order. -/
theorem perm_range {l : List Nat} (hn : l.Nodup) (hlen : l.length = n) (hlt : ∀ i ∈ l, i < n) :
    l.Perm (List.range n) := by
  apply (List.subperm_of_subset hn fun i hi => List.mem_range.mpr (hlt i hi)).perm_of_length_le
  simp [hlen]

end Memmove
