import Mathlib.Data.List.Basic
import Mathlib.Data.Nat.Bitwise
import Mathlib.Tactic.Ring

/-!
# Bytes as groups of six bits

Three bytes are four groups of six bits; a last group of one or two bytes is two or three of them, with zero bits at the
end. `ofSextets` rejects other bits there, so that the two directions are inverse to each other (`ofSextets_toSextets`,
`toSextets_ofSextets`).
-/

namespace Sextets

/-- The groups of six bits of some bytes. -/
def toSextets : List UInt8 → List Nat
  | x :: y :: z :: s =>
    x.toNat / 4 :: (16 * (x.toNat % 4) + y.toNat / 16) :: (4 * (y.toNat % 16) + z.toNat / 64) :: z.toNat % 64 ::
      toSextets s
  | [x, y] => [x.toNat / 4, 16 * (x.toNat % 4) + y.toNat / 16, 4 * (y.toNat % 16)]
  | [x] => [x.toNat / 4, 16 * (x.toNat % 4)]
  | [] => []

/-- The byte that ends with the first bits of a group. -/
def firstByte (a b : Nat) : UInt8 := UInt8.ofNat (4 * a + b / 16)

def secondByte (b c : Nat) : UInt8 := UInt8.ofNat (16 * (b % 16) + c / 4)

def thirdByte (c d : Nat) : UInt8 := UInt8.ofNat (64 * (c % 4) + d)

/-- The bytes of some groups, unless they end within a byte. -/
def ofSextets : List Nat → Option (List UInt8)
  | a :: b :: c :: d :: s =>
    (ofSextets s).map fun r => firstByte a b :: secondByte b c :: thirdByte c d :: r
  | [a, b, c] => if c % 4 = 0 then some [firstByte a b, secondByte b c] else none
  | [a, b] => if b % 16 = 0 then some [firstByte a b] else none
  | [_] => none
  | [] => some []

theorem length_toSextets (s : List UInt8) :
    (toSextets s).length = 4 * (s.length / 3) + if s.length % 3 = 0 then 0 else 1 + s.length % 3 := by
  fun_induction toSextets s with
  | case1 x y z s ih =>
    simp only [List.length_cons, ih]
    have hdiv : (s.length + 1 + 1 + 1) / 3 = s.length / 3 + 1 := by omega
    have hmod : (s.length + 1 + 1 + 1) % 3 = s.length % 3 := by omega
    rw [hdiv, hmod]
    ring
  | case2 x y => simp
  | case3 x => simp
  | case4 => simp

theorem toSextets_lt (s : List UInt8) : ∀ d ∈ toSextets s, d < 64 := by
  fun_induction toSextets s with
  | case1 x y z s ih =>
    have hx := x.toNat_lt
    have hy := y.toNat_lt
    have hz := z.toNat_lt
    intro d hd
    simp only [List.mem_cons] at hd
    rcases hd with rfl | rfl | rfl | rfl | hd
    · omega
    · omega
    · omega
    · omega
    · exact ih d hd
  | case2 x y =>
    have hx := x.toNat_lt
    have hy := y.toNat_lt
    simp only [List.mem_cons, List.not_mem_nil, or_false, forall_eq_or_imp, forall_eq]
    omega
  | case3 x =>
    have hx := x.toNat_lt
    simp only [List.mem_cons, List.not_mem_nil, or_false, forall_eq_or_imp, forall_eq]
    omega
  | case4 => simp

theorem eq_ofNat {x : UInt8} {n : Nat} (h : n = x.toNat) : UInt8.ofNat n = x := by
  rw [h, UInt8.ofNat_toNat]

theorem toNat_ofNat {n : Nat} (h : n < 256) : (UInt8.ofNat n).toNat = n := UInt8.toNat_ofNat_of_lt' h

/-- **The groups of some bytes give these bytes.** -/
theorem ofSextets_toSextets (s : List UInt8) : ofSextets (toSextets s) = some s := by
  fun_induction toSextets s with
  | case1 x y z s ih =>
    have hx := x.toNat_lt
    have hy := y.toNat_lt
    have hz := z.toNat_lt
    rw [ofSextets, ih, Option.map_some, firstByte, secondByte, thirdByte]
    rw [eq_ofNat (x := x) (by omega), eq_ofNat (x := y) (by omega), eq_ofNat (x := z) (by omega)]
  | case2 x y =>
    have hx := x.toNat_lt
    have hy := y.toNat_lt
    rw [ofSextets, if_pos (by omega), firstByte, secondByte]
    rw [eq_ofNat (x := x) (by omega), eq_ofNat (x := y) (by omega)]
  | case3 x =>
    have hx := x.toNat_lt
    rw [ofSextets, if_pos (by omega), firstByte, eq_ofNat (x := x) (by omega)]
  | case4 => rfl

/-- **The bytes of some groups have these groups.** -/
theorem toSextets_ofSextets {ds : List Nat} (hlt : ∀ d ∈ ds, d < 64) {s : List UInt8} (h : ofSextets ds = some s) :
    toSextets s = ds := by
  fun_induction ofSextets ds generalizing s with
  | case1 a b c d ds ih =>
    simp only [List.mem_cons, forall_eq_or_imp] at hlt
    obtain ⟨ha, hb, hc, hd, hds⟩ := hlt
    obtain ⟨r, hr, rfl⟩ := Option.map_eq_some_iff.mp h
    rw [toSextets, ih hds hr, firstByte, secondByte, thirdByte, toNat_ofNat (by omega), toNat_ofNat (by omega),
      toNat_ofNat (by omega)]
    congr 1
    · omega
    · congr 1
      · omega
      · congr 1
        · omega
        · congr 1
          omega
  | case2 a b c hzero =>
    simp only [List.mem_cons, List.not_mem_nil, or_false, forall_eq_or_imp, forall_eq] at hlt
    cases h
    rw [toSextets, firstByte, secondByte, toNat_ofNat (by omega), toNat_ofNat (by omega)]
    congr 1
    · omega
    · congr 1
      · omega
      · congr 1
        omega
  | case3 a b c hzero => cases h
  | case4 a b hzero =>
    simp only [List.mem_cons, List.not_mem_nil, or_false, forall_eq_or_imp, forall_eq] at hlt
    cases h
    rw [toSextets, firstByte, toNat_ofNat (by omega)]
    congr 1
    · omega
    · congr 1
      omega
  | case5 a b hzero => cases h
  | case6 a => cases h
  | case7 =>
    cases h
    rfl

theorem length_ofSextets {ds : List Nat} {s : List UInt8} (h : ofSextets ds = some s) :
    s.length ≤ 3 * (ds.length / 4) + 2 := by
  fun_induction ofSextets ds generalizing s with
  | case1 a b c d ds ih =>
    obtain ⟨r, hr, rfl⟩ := Option.map_eq_some_iff.mp h
    have hlen := ih hr
    simp only [List.length_cons]
    omega
  | case2 a b c hzero => cases h; simp
  | case3 a b c hzero => cases h
  | case4 a b hzero => cases h; simp
  | case5 a b hzero => cases h
  | case6 a => cases h
  | case7 => cases h; simp

end Sextets
