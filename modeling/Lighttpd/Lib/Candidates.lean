import Mathlib.Data.Int.ConditionallyCompleteOrder
import Mathlib.Data.List.MinMax
import Mathlib.Order.ConditionallyCompleteLattice.Basic

/-!
# Choosing among candidates

The candidates are the elements of a list that are eligible, each with its place in the list. One with the greatest or the
least key is chosen among them, the first of several.

- `argmax_filter`: a choice stays as it is when others are taken away;
- `argmax_disable`, `argmax_enable`: what happens when one element of the list becomes ineligible or eligible.
-/

namespace Lighttpd.Candidates

variable {α κ : Type} {ok : α → Bool}

/-- The eligible elements with their places, which are counted from `k`. -/
def candidates (ok : α → Bool) (k : Nat) (l : List α) : List (α × Nat) := (l.zipIdx k).filter fun x => ok x.1

@[simp] theorem candidates_nil (k : Nat) : candidates ok k [] = [] := rfl

variable {a : α} {l : List α}

theorem candidates_cons_of_pos (h : ok a = true) (k : Nat) (l : List α) :
    candidates ok k (a :: l) = (a, k) :: candidates ok (k + 1) l := by
  exact List.filter_cons_of_pos h

theorem candidates_cons_of_neg (h : ¬ ok a = true) (k : Nat) (l : List α) :
    candidates ok k (a :: l) = candidates ok (k + 1) l := by
  exact List.filter_cons_of_neg h

theorem mem_candidates {n : Nat} : (a, n) ∈ candidates ok 0 l ↔ l[n]? = some a ∧ ok a = true := by
  rw [candidates, List.mem_filter, List.mem_zipIdx_iff_getElem?]

theorem candidates_eq_nil_iff {k : Nat} : candidates ok k l = [] ↔ ∀ a ∈ l, ¬ ok a = true := by
  induction l generalizing k with
  | nil => simp
  | cons a l ih =>
    rw [List.forall_mem_cons]
    by_cases h : ok a = true
    · simp [candidates_cons_of_pos h, h]
    · rw [candidates_cons_of_neg h, ih]
      simp [h]

theorem candidates_set (h : ¬ ok a = true) {j : Nat} (k : Nat) :
    candidates ok k (l.set j a) = (candidates ok k l).filter fun x => x.2 ≠ k + j := by
  induction l generalizing j k with
  | nil => rfl
  | cons b l ih =>
    have hlater : ∀ x ∈ candidates ok (k + 1) l, x.2 ≠ k := by
      intro x hx
      have hle := (List.mem_zipIdx (List.mem_of_mem_filter hx)).1
      omega
    cases j with
    | zero =>
      rw [List.set_cons_zero, candidates_cons_of_neg h]
      have hself : (candidates ok (k + 1) l).filter (fun x => x.2 ≠ k + 0) = candidates ok (k + 1) l :=
        List.filter_eq_self.mpr fun x hx => by simpa using hlater x hx
      by_cases hb : ok b = true
      · rw [candidates_cons_of_pos hb, List.filter_cons_of_neg (by simp), hself]
      · rw [candidates_cons_of_neg hb, hself]
    | succ j =>
      have hplace : k + 1 + j = k + (j + 1) := by omega
      rw [List.set_cons_succ]
      by_cases hb : ok b = true
      · rw [candidates_cons_of_pos hb, candidates_cons_of_pos hb, ih, hplace, List.filter_cons_of_pos (by simp)]
      · rw [candidates_cons_of_neg hb, candidates_cons_of_neg hb, ih, hplace]

section Choice

variable [LinearOrder κ] {β : Type}

theorem argAux_of_pos {r : β → β → Prop} [DecidableRel r] {b c : β} (h : r b c) :
    List.argAux r (some c) b = some b := if_pos h

theorem argAux_of_neg {r : β → β → Prop} [DecidableRel r] {b c : β} (h : ¬ r b c) :
    List.argAux r (some c) b = some c := if_neg h

/-- **A choice stays as it is** when others are taken away. -/
theorem argmax_filter {f : β → κ} {p : β → Bool} {l : List β} {m : β} (h : l.argmax f = some m) (hm : p m = true) :
    (l.filter p).argmax f = some m := by
  induction l generalizing m with
  | nil => cases h
  | cons a l ih =>
    rw [List.argmax_cons] at h
    cases hl : l.argmax f with
    | none =>
      rw [hl] at h
      cases h
      rw [List.argmax_eq_none.mp hl, List.filter_cons_of_pos hm]
      rfl
    | some c =>
      rw [hl] at h
      dsimp only at h
      split at h
      · -- the first element is no better than one behind it
        rename_i hlt
        cases h
        by_cases ha : p a = true
        · rw [List.filter_cons_of_pos ha, List.argmax_cons, ih hl hm]
          exact if_pos hlt
        · rw [List.filter_cons_of_neg ha]
          exact ih hl hm
      · rename_i hlt
        cases h
        rw [List.filter_cons_of_pos hm, List.argmax_cons]
        cases hd : (l.filter p).argmax f with
        | none => rfl
        | some d =>
          have hle : f d ≤ f c := List.le_of_mem_argmax (List.mem_of_mem_filter (List.argmax_mem hd)) hl
          exact if_neg (not_lt.mpr (hle.trans (not_lt.mp hlt)))

end Choice

section Least

variable [LinearOrder κ] {f : α × Nat → κ}

theorem exists_candidate {a : α} (ha : a ∈ l) (hok : ok a = true) : ∃ n, (a, n) ∈ candidates ok 0 l := by
  obtain ⟨n, hn⟩ := List.mem_iff_getElem?.mp ha
  exact ⟨n, mem_candidates.mpr ⟨hn, hok⟩⟩

/-- **A candidate with the least key**, if there is an eligible element. -/
theorem exists_argmin (h : ∃ a ∈ l, ok a = true) : ∃ a n, (candidates ok 0 l).argmin f = some (a, n) := by
  obtain ⟨a, ha, hok⟩ := h
  cases hmin : (candidates ok 0 l).argmin f with
  | none => exact absurd hok (candidates_eq_nil_iff.mp (List.argmin_eq_none.mp hmin) a ha)
  | some b => exact ⟨b.1, b.2, rfl⟩

theorem argmin_candidates {a : α} {n : Nat} (h : (candidates ok 0 l).argmin f = some (a, n)) :
    l[n]? = some a ∧ ok a = true ∧ ∀ b ∈ l, ok b = true → ∃ m, f (a, n) ≤ f (b, m) := by
  obtain ⟨ha, hok⟩ := mem_candidates.mp (List.argmin_mem h)
  refine ⟨ha, hok, fun b hb hok => ?_⟩
  obtain ⟨m, hm⟩ := exists_candidate hb hok
  exact ⟨m, List.le_of_mem_argmin hm h⟩

end Least

section Toggle

variable [LinearOrder κ] {f : α × Nat → κ} {j : Nat}

/-- **Another element becomes ineligible**: the choice stays as it is. -/
theorem argmax_disable {a : α} (ha : ¬ ok a = true) (h : ∀ x, (candidates ok 0 l).argmax f = some x → x.2 ≠ j) :
    (candidates ok 0 (l.set j a)).argmax f = (candidates ok 0 l).argmax f := by
  rw [candidates_set ha 0]
  cases hmax : (candidates ok 0 l).argmax f with
  | none =>
    rw [List.argmax_eq_none.mp hmax]
    rfl
  | some x => exact argmax_filter hmax (by simpa using h x hmax)

/-- **An element becomes eligible**: the choice stays as it is, or is this element. -/
theorem argmax_enable {a b : α} (hb : l[j]? = some b) (hok : ¬ ok b = true) :
    (candidates ok 0 (l.set j a)).argmax f = (candidates ok 0 l).argmax f ∨
      (candidates ok 0 (l.set j a)).argmax f = some (a, j) := by
  obtain ⟨hlen, rfl⟩ := List.getElem?_eq_some_iff.mp hb
  have hback : (l.set j a).set j l[j] = l := by rw [List.set_set, List.set_getElem_self hlen]
  by_cases h : ∀ x, (candidates ok 0 (l.set j a)).argmax f = some x → x.2 ≠ j
  · left
    conv_rhs => rw [← hback]
    exact (argmax_disable hok h).symm
  · right
    push Not at h
    obtain ⟨⟨c, n⟩, hmax, rfl⟩ := h
    obtain ⟨hc, -⟩ := mem_candidates.mp (List.argmax_mem hmax)
    rw [List.getElem?_set_self hlen] at hc
    cases hc
    exact hmax

end Toggle

end Lighttpd.Candidates
