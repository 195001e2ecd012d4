import Lighttpd.Base.Ascii
import Lighttpd.Lib.CombSort
import Mathlib.Data.List.Lex

/-!
# The order of a directory listing (`mod_dirlisting.c`)

`http_dirls_sort` is a comb sort of the entries by their names. The number of the entries and the gap are `int`s, and
the gap is multiplied by 10 before it is divided by 13.

- `strcmp_pos`: `strcmp` is the lexicographic order of C strings;
- `nextGap_shrinks`: the gaps shrink to 1, if the first one can be multiplied;
- `sorts_iff`: the listing is sorted just when there are at most 214748364 entries.
-/

namespace Lighttpd.Dirlisting

/-- `dirls_entry_t`, with the name behind it, which is a C string. -/
structure DirlsEntry where
  name : Bytes
  mtime : Int
  size : Int
  noNul : (0 : Byte) ∉ name

/-- `strcmp` of two C strings, which are given without their NULs. -/
def strcmp : Bytes → Bytes → Int
  | [], [] => 0
  | [], b :: _ => -b.toNat
  | a :: _, [] => a.toNat
  | a :: s, b :: t => if a = b then strcmp s t else (a.toNat : Int) - b.toNat

def intMax : Nat := 2 ^ 31 - 1

/-- The gap of the next pass, where `gap * 10` is an `int`. -/
def nextGap (gap : Nat) : Option Nat :=
  if gap * 10 ≤ intMax then
    let gap := gap * 10 / 13
    let gap := if gap = 9 ∨ gap = 10 then 11 else gap
    some (if gap < 1 then 1 else gap)
  else none

/-- The comparison of `http_dirls_sort`. -/
def nameGt (a b : DirlsEntry) : Bool := decide (0 < strcmp a.name b.name)

/-- `http_dirls_sort`, for at most `fuel` passes. It is `none` where the gap overflows or an index is outside the array. -/
def httpDirlsSort (fuel : Nat) (ent : List DirlsEntry) : Option (List DirlsEntry) :=
  CombSort.sort nameGt nextGap fuel ent.length ent

/-! ## The order of the names -/

theorem strcmp_pos {s t : Bytes} (hs : (0 : Byte) ∉ s) (ht : (0 : Byte) ∉ t) : 0 < strcmp s t ↔ t < s := by
  have hpos : ∀ {c : Byte} {s : Bytes}, (0 : Byte) ∉ c :: s → 0 < c.toNat := by
    intro c s h
    rw [List.mem_cons, not_or] at h
    rcases Nat.eq_zero_or_pos c.toNat with hzero | hpos
    · exact absurd (UInt8.toNat_inj.mp (hzero : c.toNat = (0 : Byte).toNat)).symm h.1
    · exact hpos
  induction s generalizing t with
  | nil =>
    cases t with
    | nil => simp [strcmp]
    | cons b t =>
      have := hpos ht
      simp only [strcmp, List.not_lt_nil, iff_false]
      omega
  | cons a s ih =>
    cases t with
    | nil =>
      have := hpos hs
      simp only [strcmp, List.nil_lt_cons, iff_true]
      omega
    | cons b t =>
      have hrest : 0 < strcmp s t ↔ t < s :=
        ih (fun h => hs (List.mem_cons_of_mem a h)) fun h => ht (List.mem_cons_of_mem b h)
      rw [strcmp, List.cons_lt_cons_iff]
      by_cases h : a = b
      · rw [if_pos h, hrest]
        simp [h, UInt8.lt_irrefl]
      · rw [if_neg h, UInt8.lt_iff_toNat_lt]
        simp only [Ne.symm h, false_and, or_false]
        omega

theorem nameGt_iff {a b : DirlsEntry} : nameGt a b = true ↔ b.name < a.name := by
  unfold nameGt
  rw [decide_eq_true_eq, strcmp_pos a.noNul b.noNul]

theorem nameGt_eq_false {a b : DirlsEntry} : nameGt a b = false ↔ a.name ≤ b.name := by
  rw [← Bool.not_eq_true, nameGt_iff, List.not_lt]

theorem nameGt_asymm (a b : DirlsEntry) (h : nameGt a b = true) : nameGt b a = false :=
  Iff.mpr nameGt_eq_false (List.le_of_lt (Iff.mp nameGt_iff h))

theorem nameGt_trans (a b c : DirlsEntry) (h : nameGt a b = false) (h' : nameGt b c = false) : nameGt a c = false :=
  Iff.mpr nameGt_eq_false (List.le_trans (Iff.mp nameGt_eq_false h) (Iff.mp nameGt_eq_false h'))

/-! ## The gaps -/

/-- **The gaps shrink to 1**: 12, 13 and 14 are followed by 11, and 11 by 8. -/
theorem nextGap_shrinks {n : Nat} (hn : n * 10 ≤ intMax) : CombSort.Shrinks nextGap n := by
  intro gap hgap
  unfold nextGap
  rw [if_pos (by omega)]
  refine ⟨_, rfl, ?_, ?_⟩
  · split_ifs <;> omega
  · split_ifs <;> omega

/-! ## The listing -/

/-- The sort comes to an end, with the entries in the order of their names. -/
def Sorts (ent : List DirlsEntry) : Prop :=
  ∃ n ent', (∀ fuel, n ≤ fuel → httpDirlsSort fuel ent = some ent') ∧ ent'.Perm ent ∧
    ent'.Pairwise fun a b => strcmp a.name b.name ≤ 0

theorem httpDirlsSort_overflow {ent : List DirlsEntry} (h : intMax < ent.length * 10) (fuel : Nat) :
    httpDirlsSort fuel ent = none := by
  cases fuel with
  | zero => rfl
  | succ fuel => simp [httpDirlsSort, CombSort.sort, nextGap, Nat.not_le.mpr h]

/-- **The listing is sorted just when ten times the number of its entries is an `int`.** -/
theorem sorts_iff (ent : List DirlsEntry) : Sorts ent ↔ ent.length ≤ 214748364 := by
  constructor
  · rintro ⟨n, ent', hsort, -⟩
    by_contra hlong
    have hnone := httpDirlsSort_overflow (show intMax < ent.length * 10 by unfold intMax; omega) n
    rw [hsort n (Nat.le_refl n)] at hnone
    cases hnone
  · intro hshort
    have hshrinks := nextGap_shrinks (show max ent.length 1 * 10 ≤ intMax by unfold intMax; omega)
    obtain ⟨n, ent', hsort, hperm, hpairwise⟩ := CombSort.sort_spec hshrinks nameGt_asymm nameGt_trans
      (Nat.le_max_right _ 1) (Nat.le_max_left ent.length 1) ent
    exact ⟨n, ent', hsort, hperm, hpairwise.imp fun h => Int.not_lt.mp (of_decide_eq_false h)⟩

def sampleEntry : DirlsEntry := ⟨ascii "a", 0, 0, by decide⟩

/-- With one entry more the gap overflows before the first pass. -/
theorem sorts_overflow : (List.replicate 214748365 sampleEntry).length ≤ intMax ∧
    ¬ Sorts (List.replicate 214748365 sampleEntry) := by
  rw [List.length_replicate]
  refine ⟨by decide, ?_⟩
  rintro ⟨n, ent', hsort, -⟩
  have hlong : intMax < (List.replicate 214748365 sampleEntry).length * 10 := by
    rw [List.length_replicate]
    decide
  have hnone := httpDirlsSort_overflow hlong n
  rw [hsort n (Nat.le_refl n)] at hnone
  cases hnone

end Lighttpd.Dirlisting
