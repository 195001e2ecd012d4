import Mathlib.Data.List.Chain
import Mathlib.Data.List.Perm.Basic

/-!
# Comb sort

A pass with the gap `gap` compares every element with the one `gap` places behind it, and exchanges the two if the first
is greater. Passes with smaller and smaller gaps follow each other, until one with the gap 1 exchanges nothing.

- `pass_spec`: a pass stays inside the list and keeps its elements, and one that exchanges nothing has found nothing
  greater;
- `pass_one`: a pass with the gap 1 that exchanges something leaves fewer inversions;
- `sort_spec`: passes whose gaps shrink to 1 come to an end, with the list in order.
-/

namespace CombSort

variable {α : Type} (gt : α → α → Bool)

/-- The elements at `i` and `i + gap` change places if the first is greater; the flag says whether any have. -/
def exchange (gap : Nat) (s : List α × Bool) (i : Nat) : Option (List α × Bool) := do
  let a ← s.1[i]?
  let b ← s.1[i + gap]?
  if gt a b then some ((s.1.set i b).set (i + gap) a, true) else some s

def pass (gap : Nat) (l : List α) : Option (List α × Bool) :=
  (List.range (l.length - gap)).foldlM (exchange gt gap) (l, false)

/-- The passes from the gap behind `gap` on. The first argument bounds their number. -/
def sort (next : Nat → Option Nat) : Nat → Nat → List α → Option (List α)
  | 0, _, _ => none
  | fuel + 1, gap, l => do
    let gap ← next gap
    let r ← pass gt gap l
    if 1 < gap ∨ r.2 then sort next fuel gap r.1 else some r.1

/-- The pairs of elements that are in the wrong order. -/
def inversions : List α → Nat
  | [] => 0
  | a :: l => l.countP (gt a) + inversions l

/-- The gaps up to `n` shrink to 1. -/
def Shrinks (next : Nat → Option Nat) (n : Nat) : Prop :=
  ∀ gap, gap ≤ n → ∃ gap', next gap = some gap' ∧ 1 ≤ gap' ∧ (gap' < gap ∨ gap' = 1)

/-! ## One exchange -/

variable {gt} {gap i n : Nat} {l l' : List α} {s : List α × Bool}

theorem exchange_spec (h : i + gap < s.1.length) :
    (gt s.1[i] s.1[i + gap] = true ∧
      exchange gt gap s i = some ((s.1.set i s.1[i + gap]).set (i + gap) s.1[i], true)) ∨
    (gt s.1[i] s.1[i + gap] = false ∧ exchange gt gap s i = some s) := by
  have hi : s.1[i]? = some s.1[i] := List.getElem?_eq_getElem (by omega)
  have hj : s.1[i + gap]? = some s.1[i + gap] := List.getElem?_eq_getElem h
  unfold exchange
  rw [hi, hj]
  cases hgt : gt s.1[i] s.1[i + gap] with
  | true => exact .inl ⟨rfl, by simp [hgt]⟩
  | false => exact .inr ⟨rfl, by simp [hgt]⟩

theorem inversions_swap (hasymm : ∀ a b, gt a b = true → gt b a = false) {a b : α} (hab : gt a b = true)
    (pre post : List α) : inversions gt (pre ++ b :: a :: post) < inversions gt (pre ++ a :: b :: post) := by
  induction pre with
  | nil =>
    simp only [List.nil_append, inversions, List.countP_cons, hab, hasymm a b hab]
    simp
    omega
  | cons c pre ih =>
    have hperm : (pre ++ b :: a :: post).Perm (pre ++ a :: b :: post) := (List.Perm.swap a b post).append_left pre
    simp only [List.cons_append, inversions, hperm.countP_eq]
    omega

theorem inversions_exchange (hasymm : ∀ a b, gt a b = true → gt b a = false) (h : i + 1 < l.length)
    (hgt : gt l[i] l[i + 1] = true) : inversions gt ((l.set i l[i + 1]).set (i + 1) l[i]) < inversions gt l := by
  have hsplit : l = l.take i ++ l[i] :: l[i + 1] :: l.drop (i + 2) := by simp
  have hlen : (l.take i).length = i := List.length_take_of_le (by omega)
  have hset : ∀ a b, (l.set i b).set (i + 1) a = l.take i ++ b :: a :: l.drop (i + 2) := by
    intro a b
    conv_lhs => rw [hsplit]
    rw [List.set_append_right i b (by omega), List.set_append_right (i + 1) a (by omega), hlen, Nat.sub_self,
      Nat.add_sub_cancel_left]
    rfl
  rw [hset]
  calc inversions gt (l.take i ++ l[i + 1] :: l[i] :: l.drop (i + 2))
      < inversions gt (l.take i ++ l[i] :: l[i + 1] :: l.drop (i + 2)) := inversions_swap hasymm hgt _ _
    _ = inversions gt l := by rw [← hsplit]

/-! ## One pass -/

/-- What the first exchanges of a pass have done to the list `l`. -/
structure Passed (gt : α → α → Bool) (gap : Nat) (l : List α) (n : Nat) (s : List α × Bool) : Prop where
  perm : s.1.Perm l
  same : s.2 = false → s.1 = l
  ordered : s.2 = false → ∀ i (_ : i < n) (h : i + gap < l.length), gt l[i] l[i + gap] = false
  fewer : gap = 1 → (∀ a b, gt a b = true → gt b a = false) → s.2 = true → inversions gt s.1 < inversions gt l

theorem Passed.exchange (hs : Passed gt gap l n s) (h : n + gap < l.length) :
    ∃ s', exchange gt gap s n = some s' ∧ Passed gt gap l (n + 1) s' := by
  obtain ⟨l₁, swapped⟩ := s
  have hlen : n + gap < l₁.length := by rw [hs.perm.length_eq]; exact h
  obtain ⟨hgt, heq⟩ | ⟨hgt, heq⟩ := @exchange_spec _ gt gap n (l₁, swapped) hlen
  · refine ⟨_, heq, (List.set_set_perm (by omega) hlen).trans hs.perm, nofun, nofun, fun hone hasymm _ => ?_⟩
    subst hone
    have hless := inversions_exchange hasymm hlen hgt
    cases swapped with
    | true => exact hless.trans (hs.fewer rfl hasymm rfl)
    | false =>
      obtain rfl : l₁ = l := hs.same rfl
      exact hless
  · refine ⟨_, heq, hs.perm, hs.same, fun hflag i hi hl => ?_, hs.fewer⟩
    rcases Nat.lt_succ_iff_lt_or_eq.mp hi with hi | rfl
    · exact hs.ordered hflag i hi hl
    · obtain rfl : l₁ = l := hs.same hflag
      exact hgt

/-- **A pass stays inside the list.** -/
theorem pass_spec (gt : α → α → Bool) (gap : Nat) (l : List α) :
    ∃ s, pass gt gap l = some s ∧ Passed gt gap l (l.length - gap) s := by
  have hfold : ∀ n, n ≤ l.length - gap →
      ∃ s, (List.range n).foldlM (CombSort.exchange gt gap) (l, false) = some s ∧ Passed gt gap l n s := by
    intro n hn
    induction n with
    | zero => exact ⟨_, rfl, .refl l, fun _ => rfl, fun _ i hi => absurd hi (Nat.not_lt_zero i), fun _ _ => nofun⟩
    | succ n ih =>
      obtain ⟨s, hs, hpassed⟩ := ih (by omega)
      obtain ⟨s', hs', hpassed'⟩ := hpassed.exchange (by omega)
      refine ⟨s', ?_, hpassed'⟩
      rw [List.range_succ, List.foldlM_append, hs]
      simpa using hs'
  exact hfold _ (Nat.le_refl _)

/-! ## All passes -/

/-- The list has the elements of `l`, and none of them is greater than one behind it. -/
def Sorted (gt : α → α → Bool) (l l' : List α) : Prop := l'.Perm l ∧ l'.Pairwise fun a b => gt a b = false

/-- A pass with the gap 1 that exchanges nothing has found the list in order. -/
theorem Passed.sorted (hs : Passed gt 1 l (l.length - 1) s) (hflag : s.2 = false)
    (htrans : ∀ a b c, gt a b = false → gt b c = false → gt a c = false) : Sorted gt l s.1 := by
  refine ⟨hs.perm, ?_⟩
  rw [hs.same hflag]
  have : IsTrans α (fun a b => gt a b = false) := ⟨htrans⟩
  exact List.isChain_iff_pairwise.mp (List.isChain_iff_getElem.mpr fun i hi => hs.ordered hflag i (by omega) hi)

theorem Sorted.of_perm {l₁ : List α} (h : Sorted gt l₁ l') (hperm : l₁.Perm l) : Sorted gt l l' :=
  ⟨h.1.trans hperm, h.2⟩

variable {next : Nat → Option Nat}

/-- The passes from `gap` on end with a list in order, whatever more fuel there is. -/
def Ends (gt : α → α → Bool) (next : Nat → Option Nat) (gap : Nat) (l : List α) : Prop :=
  ∃ n l', (∀ fuel, n ≤ fuel → sort gt next fuel gap l = some l') ∧ Sorted gt l l'

theorem Ends.pass {gap' : Nat} (hnext : next gap = some gap') (hpos : 1 ≤ gap')
    (htrans : ∀ a b c, gt a b = false → gt b c = false → gt a c = false)
    (hmore : ∀ s, Passed gt gap' l (l.length - gap') s → 1 < gap' ∨ s.2 = true → Ends gt next gap' s.1) :
    Ends gt next gap l := by
  obtain ⟨s, hpass, hs⟩ := pass_spec gt gap' l
  by_cases hgo : 1 < gap' ∨ s.2 = true
  · obtain ⟨n, l', hsort, hsorted⟩ := hmore s hs hgo
    refine ⟨n + 1, l', fun fuel hfuel => ?_, hsorted.of_perm hs.perm⟩
    obtain ⟨fuel, rfl⟩ : ∃ k, fuel = k + 1 := ⟨fuel - 1, by omega⟩
    simp [sort, hnext, hpass, hgo, hsort fuel (by omega)]
  · have hone : gap' = 1 := by omega
    have hflag : s.2 = false := by simpa using fun h => hgo (.inr h)
    subst hone
    refine ⟨1, s.1, fun fuel hfuel => ?_, hs.sorted hflag htrans⟩
    obtain ⟨fuel, rfl⟩ : ∃ k, fuel = k + 1 := ⟨fuel - 1, by omega⟩
    simp [sort, hnext, hpass, hflag]

/-- With the gap 1 every pass that exchanges something leaves fewer inversions. -/
theorem ends_one (hone : next 1 = some 1) (hasymm : ∀ a b, gt a b = true → gt b a = false)
    (htrans : ∀ a b c, gt a b = false → gt b c = false → gt a c = false) (l : List α) : Ends gt next 1 l := by
  induction hinv : inversions gt l using Nat.strong_induction_on generalizing l with
  | h m ih =>
    refine .pass hone (Nat.le_refl 1) htrans fun s hs hgo => ?_
    have hflag : s.2 = true := hgo.resolve_left (Nat.lt_irrefl 1)
    exact ih _ (hinv ▸ hs.fewer rfl hasymm hflag) s.1 rfl

/-- **Passes whose gaps shrink come to an end, with the list in order.** -/
theorem sort_spec (hshrinks : Shrinks next n) (hasymm : ∀ a b, gt a b = true → gt b a = false)
    (htrans : ∀ a b c, gt a b = false → gt b c = false → gt a c = false) (hn : 1 ≤ n) (hgap : gap ≤ n) (l : List α) :
    Ends gt next gap l := by
  have hone : next 1 = some 1 := by
    obtain ⟨g, hg, hpos, hless⟩ := hshrinks 1 hn
    rw [hg, show g = 1 by omega]
  induction gap using Nat.strong_induction_on generalizing l with
  | h gap ih =>
    obtain ⟨gap', hnext, hpos, hless⟩ := hshrinks gap hgap
    refine .pass hnext hpos htrans fun s _ _ => ?_
    rcases hless with hless | rfl
    · exact ih gap' hless (by omega) s.1
    · exact ends_one hone hasymm htrans s.1

end CombSort
