import Lighttpd.Base.Ascii
import Lighttpd.Lib.Netstring

/-!
# Decimal numbers (`buffer.c`)

`utostr` writes a number backwards from its last digit.
-/

namespace Lighttpd

/-- The loop of `utostr`: the digits of `val` in front of `str`. The first argument bounds the number of digits. -/
def utostr : Nat → Nat → Bytes → Bytes
  | 0, _, str => str
  | fuel + 1, val, str =>
    let str := (48 + val % 10).toUInt8 :: str
    if val / 10 = 0 then str else utostr fuel (val / 10) str

def liUtostrn (val : Nat) : Bytes := utostr (val + 1) val []

def liItostrn (val : Int) : Bytes := if val < 0 then chr '-' :: liUtostrn val.natAbs else liUtostrn val.natAbs

theorem digit_toNat {d : Nat} (h : d < 10) : ((48 + d).toUInt8).toNat = 48 + d := by
  simp only [Nat.toUInt8_eq, UInt8.toNat_ofNat']
  omega

theorem isDigit_digit {d : Nat} (h : d < 10) : Netstring.isDigit (48 + d).toUInt8 = true := by
  have hall : ∀ m : Fin 10, Netstring.isDigit (48 + m.val).toUInt8 = true := by decide
  exact hall ⟨d, h⟩

/-- The digits that `utostr` writes multiply the number before by a power of ten. -/
theorem utostr_spec {fuel val : Nat} (h : val < fuel) (str : Bytes) :
    ∃ digits, utostr fuel val str = digits ++ str ∧ digits ≠ [] ∧ (∀ c ∈ digits, Netstring.isDigit c) ∧
      ∀ n s, Netstring.number n (digits ++ s) = Netstring.number (n * 10 ^ digits.length + val) s := by
  induction fuel generalizing val str with
  | zero => exact absurd h (Nat.not_lt_zero _)
  | succ fuel ih =>
    have hd : val % 10 < 10 := Nat.mod_lt _ (by omega)
    have hread : ∀ n s, Netstring.number n ((48 + val % 10).toUInt8 :: s) = Netstring.number (n * 10 + val % 10) s := by
      intro n s
      rw [Netstring.number, if_pos (isDigit_digit hd), digit_toNat hd, Nat.add_sub_cancel_left]
    unfold utostr
    dsimp only
    split
    · rename_i h0
      refine ⟨[(48 + val % 10).toUInt8], rfl, List.cons_ne_nil _ _, ?_, fun n s => ?_⟩
      · intro c hc
        rw [List.mem_singleton.mp hc]
        exact isDigit_digit hd
      · have hval : val % 10 = val := by omega
        rw [List.singleton_append, hread, hval, List.length_singleton, Nat.pow_one]
    · rename_i h0
      obtain ⟨digits, heq, hne, hdig, hval⟩ := @ih (val / 10) (by omega) ((48 + val % 10).toUInt8 :: str)
      refine ⟨digits ++ [(48 + val % 10).toUInt8], ?_, ?_, ?_, fun n s => ?_⟩
      · rw [heq, List.append_assoc, List.singleton_append]
      · simp
      · intro c hc
        rcases List.mem_append.mp hc with hc | hc
        · exact hdig c hc
        · rw [List.mem_singleton.mp hc]
          exact isDigit_digit hd
      · have hsum : (n * 10 ^ digits.length + val / 10) * 10 + val % 10 = n * 10 ^ (digits.length + 1) + val := by
          rw [Nat.pow_succ, Nat.add_mul, Nat.mul_assoc]
          omega
        rw [List.append_assoc, List.singleton_append, hval, hread, List.length_append, List.length_singleton, hsum]

/-- **A number is written in digits, and read back.** -/
theorem liUtostrn_spec (val : Nat) : liUtostrn val ≠ [] ∧ (∀ c ∈ liUtostrn val, Netstring.isDigit c) ∧
    Netstring.number 0 (liUtostrn val) = some val := by
  obtain ⟨digits, heq, hne, hdig, hval⟩ := utostr_spec (Nat.lt_succ_self val) []
  have hlist : liUtostrn val = digits := by rw [liUtostrn, heq, List.append_nil]
  rw [hlist]
  refine ⟨hne, hdig, ?_⟩
  have hread := hval 0 []
  rw [List.append_nil, Nat.zero_mul, Nat.zero_add] at hread
  exact hread

theorem liUtostrn_inj {m n : Nat} (h : liUtostrn m = liUtostrn n) : m = n := by
  have hread := (liUtostrn_spec m).2.2
  rw [h, (liUtostrn_spec n).2.2] at hread
  exact (Option.some.inj hread).symm

theorem length_utostr {fuel val n : Nat} (h : val < 10 ^ (n + 1)) (str : Bytes) :
    (utostr fuel val str).length ≤ n + 1 + str.length := by
  induction fuel generalizing val n str with
  | zero => exact Nat.le_add_left _ _
  | succ fuel ih =>
    unfold utostr
    dsimp only
    split_ifs with hzero
    · rw [List.length_cons]
      omega
    · cases n with
      | zero => exact absurd (Nat.div_eq_of_lt h) hzero
      | succ n =>
        have hdiv : val / 10 < 10 ^ (n + 1) := Nat.div_lt_of_lt_mul (by rwa [Nat.pow_succ'] at h)
        have hlen := ih hdiv ((48 + val % 10).toUInt8 :: str)
        rw [List.length_cons] at hlen
        omega

theorem length_liUtostrn {val n : Nat} (h : val < 10 ^ (n + 1)) : (liUtostrn val).length ≤ n + 1 :=
  length_utostr h []

end Lighttpd
