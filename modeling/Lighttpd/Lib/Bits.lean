import Mathlib.Data.List.Basic
import Mathlib.Data.Nat.Bitwise

/-!
# The bits of a sequence of bytes

`bitsOf k x` are the low `k` bits of a number, the highest one first, `bits l` are the bits of a sequence of bytes and
`number l` is the number that it writes.

* `bits_eq`: the bits of a sequence are those of its number;
* `take_bits_iff`: two sequences agree in their first bits if their numbers agree behind a shift, or under a mask.
-/

namespace Lighttpd.Bits

/-- The low `k` bits of a number, the highest one first. -/
def bitsOf (k x : Nat) : List Bool := (List.range k).map fun i => x.testBit (k - 1 - i)

def bits (l : List UInt8) : List Bool := l.flatMap fun b => bitsOf 8 b.toNat

/-- The number that a sequence of bytes writes. -/
def number : List UInt8 → Nat
  | [] => 0
  | b :: l => b.toNat * 2 ^ (8 * l.length) + number l

variable {k n x y : Nat} {l m : List UInt8}

@[simp] theorem length_bitsOf (k x : Nat) : (bitsOf k x).length = k := by simp [bitsOf]

theorem getElem_bitsOf {i : Nat} (h : i < (bitsOf k x).length) : (bitsOf k x)[i] = x.testBit (k - 1 - i) := by
  simp [bitsOf]

theorem take_bitsOf (h : n ≤ k) (x : Nat) : (bitsOf k x).take n = bitsOf n (x / 2 ^ (k - n)) := by
  apply List.ext_getElem
  · simp [h]
  · intro i hi hi'
    rw [length_bitsOf] at hi'
    rw [List.getElem_take, getElem_bitsOf, getElem_bitsOf, Nat.testBit_div_two_pow]
    congr 1
    omega

/-- **A number below `2 ^ k` is its bits.** -/
theorem bitsOf_inj (hx : x < 2 ^ k) (hy : y < 2 ^ k) : bitsOf k x = bitsOf k y ↔ x = y := by
  constructor
  · intro h
    apply Nat.eq_of_testBit_eq
    intro i
    by_cases hi : i < k
    · have hget : (bitsOf k x)[k - 1 - i]? = (bitsOf k y)[k - 1 - i]? := by rw [h]
      rw [List.getElem?_eq_getElem (by simp; omega), List.getElem?_eq_getElem (by simp; omega), getElem_bitsOf,
        getElem_bitsOf, Option.some.injEq] at hget
      have hidx : k - 1 - (k - 1 - i) = i := by omega
      rwa [hidx] at hget
    · have hle : 2 ^ k ≤ 2 ^ i := Nat.pow_le_pow_right (by omega) (by omega)
      rw [Nat.testBit_lt_two_pow (Nat.lt_of_lt_of_le hx hle), Nat.testBit_lt_two_pow (Nat.lt_of_lt_of_le hy hle)]
  · rintro rfl
    rfl

theorem bitsOf_append (hy : y < 2 ^ k) : bitsOf n x ++ bitsOf k y = bitsOf (n + k) (x * 2 ^ k + y) := by
  apply List.ext_getElem
  · simp
  · intro i hi hi'
    rw [length_bitsOf] at hi'
    rw [getElem_bitsOf, Nat.mul_comm, Nat.testBit_two_pow_mul_add x hy]
    by_cases hin : i < n
    · rw [List.getElem_append_left (by simpa using hin), getElem_bitsOf, if_neg (by omega)]
      congr 1
      omega
    · rw [List.getElem_append_right (by simpa using hin), getElem_bitsOf, if_pos (by omega)]
      congr 1
      simp
      omega

theorem number_lt (l : List UInt8) : number l < 2 ^ (8 * l.length) := by
  induction l with
  | nil => simp [number]
  | cons b l ih =>
    have hb : b.toNat ≤ 255 := Nat.le_of_lt_succ b.toNat_lt
    have hpow : 2 ^ (8 * (b :: l).length) = 256 * 2 ^ (8 * l.length) := by
      rw [List.length_cons, Nat.mul_add, Nat.pow_add]
      omega
    have hmul : b.toNat * 2 ^ (8 * l.length) ≤ 255 * 2 ^ (8 * l.length) := Nat.mul_le_mul_right _ hb
    rw [number, hpow]
    omega

theorem bits_cons (b : UInt8) (l : List UInt8) : bits (b :: l) = bitsOf 8 b.toNat ++ bits l := rfl

/-- **The bits of a sequence are those of its number.** -/
theorem bits_eq (l : List UInt8) : bits l = bitsOf (8 * l.length) (number l) := by
  induction l with
  | nil => rfl
  | cons b l ih =>
    rw [bits_cons, ih, bitsOf_append (number_lt l), number, List.length_cons]
    congr 1
    omega

@[simp] theorem length_bits (l : List UInt8) : (bits l).length = 8 * l.length := by rw [bits_eq, length_bitsOf]

theorem bits_append (l m : List UInt8) : bits (l ++ m) = bits l ++ bits m := List.flatMap_append

theorem div_lt (h : n ≤ k) (hx : x < 2 ^ k) : x / 2 ^ (k - n) < 2 ^ n := by
  rw [Nat.div_lt_iff_lt_mul (Nat.two_pow_pos _), ← Nat.pow_add]
  have hsum : n + (k - n) = k := by omega
  rwa [hsum]

theorem take_byte_iff (h : n ≤ 8) (a b : UInt8) :
    (bitsOf 8 a.toNat).take n = (bitsOf 8 b.toNat).take n ↔ a.toNat / 2 ^ (8 - n) = b.toNat / 2 ^ (8 - n) := by
  rw [take_bitsOf h, take_bitsOf h, bitsOf_inj (div_lt h a.toNat_lt) (div_lt h b.toNat_lt)]

/-- **The first bits agree when the shifted numbers do.** -/
theorem take_bits_iff (hlen : l.length = m.length) (h : n ≤ 8 * l.length) :
    (bits l).take n = (bits m).take n ↔
      number l / 2 ^ (8 * l.length - n) = number m / 2 ^ (8 * l.length - n) := by
  have hm := number_lt m
  rw [← hlen] at hm
  rw [bits_eq, bits_eq, ← hlen, take_bitsOf h, take_bitsOf h, bitsOf_inj (div_lt h (number_lt l)) (div_lt h hm)]

theorem take_cons_iff (h : 8 ≤ n) (a b : UInt8) :
    (bits (a :: l)).take n = (bits (b :: m)).take n ↔ a = b ∧ (bits l).take (n - 8) = (bits m).take (n - 8) := by
  have hcons : ∀ (c : UInt8) l, (bits (c :: l)).take n = bitsOf 8 c.toNat ++ (bits l).take (n - 8) := fun c l => by
    rw [bits_cons, List.take_append, length_bitsOf, List.take_of_length_le (by rwa [length_bitsOf])]
  rw [hcons, hcons]
  constructor
  · intro heq
    obtain ⟨hbyte, hrest⟩ := List.append_inj heq (by simp)
    exact ⟨UInt8.toNat_inj.mp ((bitsOf_inj a.toNat_lt b.toNat_lt).mp hbyte), hrest⟩
  · rintro ⟨rfl, hrest⟩
    rw [hrest]

theorem take_cons_iff_of_le (h : n ≤ 8) (a b : UInt8) :
    (bits (a :: l)).take n = (bits (b :: m)).take n ↔ a.toNat / 2 ^ (8 - n) = b.toNat / 2 ^ (8 - n) := by
  rw [bits_cons, bits_cons, List.take_append_of_le_length (by simpa using h),
    List.take_append_of_le_length (by simpa using h), take_byte_iff h]

theorem and_mask_iff {mask : Nat} (hmask : ∀ i, mask.testBit i = decide (n ≤ i ∧ i < k)) (hx : x < 2 ^ k)
    (hy : y < 2 ^ k) : x &&& mask = y &&& mask ↔ x / 2 ^ n = y / 2 ^ n := by
  have hhigh : ∀ z, z < 2 ^ k → ∀ i, k ≤ i → z.testBit i = false := fun z hz i hi =>
    Nat.testBit_lt_two_pow (Nat.lt_of_lt_of_le hz (Nat.pow_le_pow_right (by omega) hi))
  constructor
  · intro h
    apply Nat.eq_of_testBit_eq
    intro i
    rw [Nat.testBit_div_two_pow, Nat.testBit_div_two_pow]
    by_cases hi : n + i < k
    · have hbit := congrArg (fun z => z.testBit (n + i)) h
      simpa [Nat.testBit_and, hmask, hi, Nat.add_comm] using hbit
    · rw [hhigh x hx _ (by omega), hhigh y hy _ (by omega)]
  · intro h
    apply Nat.eq_of_testBit_eq
    intro i
    rw [Nat.testBit_and, Nat.testBit_and, hmask]
    by_cases hi : n ≤ i
    · have hbit := congrArg (fun z => z.testBit (i - n)) h
      simp only [Nat.testBit_div_two_pow, Nat.sub_add_cancel hi] at hbit
      rw [hbit]
    · simp [hi]

end Lighttpd.Bits
