import Mathlib.Data.List.Infix

/-!
# The first occurrence of a pattern

`EndsFirst pat s p` says that `p` is the shortest prefix of `s` that ends in `pat`; `firstEnd pat s` computes its
length. What follows `s` does not matter for it (`EndsFirst.append`), so that a search that is repeated on a growing
stream gives one answer.
-/

namespace Occurrence

variable {α : Type}

/-- **`p` is the shortest prefix of `s` that ends in `pat`.** -/
structure EndsFirst (pat s p : List α) : Prop where
  pre : p <+: s
  ends : pat <:+ p
  least : ∀ q, q <+: s → pat <:+ q → p.length ≤ q.length

variable {pat s : List α} {n : Nat}

theorem EndsFirst.append {p : List α} (h : EndsFirst pat s p) (t : List α) : EndsFirst pat (s ++ t) p where
  pre := h.pre.trans (List.prefix_append s t)
  ends := h.ends
  least := fun q hq hs => by
    rcases Nat.le_total p.length q.length with hle | hle
    · exact hle
    · have hqp : q <+: p := List.prefix_of_prefix_length_le hq (h.pre.trans (List.prefix_append s t)) hle
      exact h.least q (hqp.trans h.pre) hs

theorem EndsFirst.unique {p q : List α} (h : EndsFirst pat s p) (h' : EndsFirst pat s q) : p = q := by
  have hlen : p.length = q.length := Nat.le_antisymm (h.least q h'.pre h'.ends) (h'.least p h.pre h.ends)
  exact (List.prefix_of_prefix_length_le h.pre h'.pre (Nat.le_of_eq hlen)).eq_of_length hlen

variable [DecidableEq α]

/-- The length of the shortest prefix of `s` that ends in `pat`. -/
def firstEnd (pat : List α) : List α → Option Nat
  | [] => if pat = [] then some 0 else none
  | c :: s => if pat <+: c :: s then some pat.length else (firstEnd pat s).map (· + 1)

theorem firstEnd_cons_pos {c : α} (h : pat <+: c :: s) : firstEnd pat (c :: s) = some pat.length := if_pos h

theorem firstEnd_cons_neg {c : α} (h : ¬ pat <+: c :: s) :
    firstEnd pat (c :: s) = (firstEnd pat s).map (· + 1) := if_neg h

theorem firstEnd_some (h : firstEnd pat s = some n) : EndsFirst pat s (s.take n) ∧ n ≤ s.length := by
  induction s generalizing n with
  | nil =>
    unfold firstEnd at h
    split at h
    · rename_i hp
      cases h
      subst hp
      exact ⟨⟨List.prefix_rfl, List.suffix_rfl, fun q _ _ => Nat.zero_le _⟩, Nat.le_refl 0⟩
    · cases h
  | cons c s ih =>
    by_cases hp : pat <+: c :: s
    · rw [firstEnd_cons_pos hp] at h
      cases h
      rw [← List.prefix_iff_eq_take.mp hp]
      exact ⟨⟨hp, List.suffix_rfl, fun q _ hq => hq.length_le⟩, hp.length_le⟩
    · rw [firstEnd_cons_neg hp] at h
      obtain ⟨m, hm, rfl⟩ := Option.map_eq_some_iff.mp h
      obtain ⟨⟨hpre, hends, hleast⟩, hle⟩ := ih hm
      refine ⟨⟨List.take_prefix _ _, ?_, fun q hq hs => ?_⟩, Nat.succ_le_succ hle⟩
      · exact hends.trans (List.suffix_cons c _)
      · cases q with
        | nil =>
          have hnil : pat = [] := List.suffix_nil.mp hs
          exact absurd (hnil ▸ List.nil_prefix) hp
        | cons d q =>
          obtain ⟨rfl, htail⟩ := List.cons_prefix_cons.mp hq
          rcases List.suffix_cons_iff.mp hs with rfl | hs
          · exact absurd hq hp
          · have := hleast q htail hs
            rw [List.take_succ_cons, List.length_cons, List.length_cons]
            omega

theorem firstEnd_none (h : firstEnd pat s = none) (p : List α) : ¬ EndsFirst pat s p := by
  induction s generalizing p with
  | nil =>
    unfold firstEnd at h
    split at h
    · cases h
    · rename_i hne
      intro hp
      have hnil : p = [] := List.prefix_nil.mp hp.pre
      exact hne (List.suffix_nil.mp (hnil ▸ hp.ends))
  | cons c s ih =>
    by_cases hpre : pat <+: c :: s
    · rw [firstEnd_cons_pos hpre] at h
      cases h
    · rw [firstEnd_cons_neg hpre, Option.map_eq_none_iff] at h
      rintro ⟨hp, hends, hleast⟩
      cases p with
      | nil => exact hpre (List.suffix_nil.mp hends ▸ List.nil_prefix)
      | cons d p =>
        obtain ⟨rfl, htail⟩ := List.cons_prefix_cons.mp hp
        rcases List.suffix_cons_iff.mp hends with rfl | hs
        · exact hpre hp
        · refine ih h p ⟨htail, hs, fun q hq hqs => ?_⟩
          have := hleast (d :: q) (List.cons_prefix_cons.mpr ⟨rfl, hq⟩) (hqs.trans (List.suffix_cons d q))
          rw [List.length_cons, List.length_cons] at this
          omega

/-- `firstEnd` is the length of the shortest prefix that ends in the pattern. -/
theorem firstEnd_eq_some_iff : firstEnd pat s = some n ↔ EndsFirst pat s (s.take n) ∧ n ≤ s.length := by
  constructor
  · exact firstEnd_some
  · rintro ⟨h, hle⟩
    cases hs : firstEnd pat s with
    | none => exact absurd h (firstEnd_none hs _)
    | some m =>
      obtain ⟨h', hle'⟩ := firstEnd_some hs
      have := congrArg List.length (h.unique h')
      rw [List.length_take, List.length_take] at this
      congr 1
      omega

theorem firstEnd_append (h : firstEnd pat s = some n) (t : List α) : firstEnd pat (s ++ t) = some n := by
  obtain ⟨hends, hle⟩ := firstEnd_some h
  rw [firstEnd_eq_some_iff, List.take_append_of_le_length hle, List.length_append]
  exact ⟨hends.append t, by omega⟩

theorem firstEnd_append_none {t : List α} (h : firstEnd pat s = none)
    (hn : firstEnd pat (s ++ t) = some n) : s.length < n := by
  by_contra hle
  obtain ⟨hends, -⟩ := firstEnd_some hn
  rw [List.take_append_of_le_length (by omega)] at hends
  refine firstEnd_none h _ ⟨List.take_prefix _ _, hends.ends, fun q hq hs => ?_⟩
  exact hends.least q (hq.trans (List.prefix_append s t)) hs

end Occurrence
