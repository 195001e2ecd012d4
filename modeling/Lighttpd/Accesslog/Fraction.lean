import Lighttpd.Base.Itostr

/-!
# Fractions of a second in the access log (`mod_accesslog.c`)

The fields `msec_frac`, `usec_frac` and `nsec_frac` append zeros to the buffer, and write the digits of the fraction over
them from behind. The fraction is rounded up, so that it may have one digit more than there are zeros.

- `digitLoop_area`: what the loop does to the zeros, and what it is left with;
- `appendFraction_iff`: the field appends its digits just when the fraction does not become a whole second, unless the
  byte in front of the field is the digit that is written there.
-/

namespace Lighttpd.Accesslog

/-- `FORMAT_FLAG_TIME_MSEC_FRAC`, `FORMAT_FLAG_TIME_USEC_FRAC` and `FORMAT_FLAG_TIME_NSEC_FRAC`. -/
inductive Fraction
  | msec
  | usec
  | nsec
deriving DecidableEq, Repr

/-- The digits of the field. -/
def Fraction.width : Fraction → Nat
  | .msec => 3
  | .usec => 6
  | .nsec => 9

/-- The nanoseconds, rounded up. -/
def Fraction.ceil (k : Fraction) (ns : Nat) : Nat :=
  match k with
  | .msec => (ns + 999999) / 1000000
  | .usec => (ns + 999) / 1000
  | .nsec => ns

/-- The zeros that are appended. -/
def Fraction.area : Fraction → Bytes
  | .msec => ascii "000"
  | .usec => ascii "000000"
  | .nsec => ascii "000000000"

/-- `for (ptr = ...; ns > 0; ns /= 10) *--ptr = (ns % 10) + '0'`. It is `none` where `ptr` is in front of the buffer. The
first argument bounds the number of digits. -/
def digitLoop : Nat → Nat → Nat → Bytes → Option Bytes
  | 0, _, _, b => some b
  | fuel + 1, ns, ptr, b =>
    if 0 < ns then
      if ptr = 0 then none else digitLoop fuel (ns / 10) (ptr - 1) (b.set (ptr - 1) (ns % 10 + 48).toUInt8)
    else some b

def appendFraction (k : Fraction) (ns : Nat) (b : Bytes) : Option Bytes :=
  let ns := k.ceil ns
  let b := b ++ k.area
  digitLoop (ns + 1) ns b.length b

/-- The last `w` digits of a number. -/
def padded : Nat → Nat → Bytes
  | 0, _ => []
  | w + 1, ns => padded w (ns / 10) ++ [(ns % 10 + 48).toUInt8]

/-- The largest number of nanoseconds that is not rounded up to a whole second. -/
def Fraction.largest : Fraction → Nat
  | .msec => 999000000
  | .usec => 999999000
  | .nsec => 999999999

/-! ## The digits -/

theorem length_padded (w ns : Nat) : (padded w ns).length = w := by
  induction w generalizing ns with
  | zero => rfl
  | succ w ih => rw [padded, List.length_append, ih, List.length_singleton]

variable {ns : Nat} {k : Fraction}

theorem isDigit_padded {w : Nat} : ∀ c ∈ padded w ns, Netstring.isDigit c = true := by
  induction w generalizing ns with
  | zero => nofun
  | succ w ih =>
    intro c hc
    rw [padded, List.mem_append, List.mem_singleton] at hc
    rcases hc with hc | rfl
    · exact ih c hc
    · rw [Nat.add_comm]
      exact isDigit_digit (Nat.mod_lt ns (by omega))

theorem padded_zero (w : Nat) : padded w 0 = List.replicate w (48 : Byte) := by
  induction w with
  | zero => rfl
  | succ w ih => rw [padded, Nat.zero_div, ih, List.replicate_succ']; rfl

/-! ## The loop -/

theorem digitLoop_zero (fuel ptr : Nat) (b : Bytes) : digitLoop fuel 0 ptr b = some b := by
  cases fuel <;> rfl

/-- **What the loop does to the zeros**: it writes the last digits of the number over them, and goes on in front of them
with the rest of the number. -/
theorem digitLoop_area (w : Nat) {fuel : Nat} (hfuel : ns < fuel) (pre post : Bytes) :
    ∃ fuel', ns / 10 ^ w < fuel' ∧ digitLoop fuel ns (pre.length + w) (pre ++ List.replicate w 48 ++ post) =
      digitLoop fuel' (ns / 10 ^ w) pre.length (pre ++ padded w ns ++ post) := by
  induction w generalizing fuel ns post with
  | zero => exact ⟨fuel, by simpa using hfuel, by simp [padded]⟩
  | succ w ih =>
    rcases Nat.eq_zero_or_pos ns with rfl | hpos
    · refine ⟨1, by simp, ?_⟩
      rw [padded_zero, Nat.zero_div, digitLoop_zero, digitLoop_zero]
    · obtain ⟨fuel, rfl⟩ : ∃ k, fuel = k + 1 := ⟨fuel - 1, by omega⟩
      have hset : (pre ++ List.replicate (w + 1) 48 ++ post).set (pre.length + w) (ns % 10 + 48).toUInt8 =
          pre ++ List.replicate w 48 ++ ((ns % 10 + 48).toUInt8 :: post) := by
        rw [List.replicate_succ', ← List.append_assoc, List.append_assoc _ [48], List.singleton_append,
          List.set_append_right _ _ (by simp)]
        simp
      obtain ⟨fuel', hfuel', hloop⟩ := ih (show ns / 10 < fuel by omega) ((ns % 10 + 48).toUInt8 :: post)
      refine ⟨fuel', by rwa [Nat.pow_succ', ← Nat.div_div_eq_div_mul], ?_⟩
      rw [digitLoop, if_pos hpos, if_neg (by omega), ← Nat.add_assoc, Nat.add_sub_cancel, hset, hloop, padded,
        Nat.pow_succ', ← Nat.div_div_eq_div_mul]
      simp

theorem Fraction.area_eq (k : Fraction) : k.area = List.replicate k.width 48 := by
  cases k <;> rfl

/-- **What a field leaves for the bytes in front of it.** -/
theorem appendFraction_eq (k : Fraction) (ns : Nat) (b : Bytes) :
    ∃ fuel, k.ceil ns / 10 ^ k.width < fuel ∧
      appendFraction k ns b = digitLoop fuel (k.ceil ns / 10 ^ k.width) b.length (b ++ padded k.width (k.ceil ns)) := by
  obtain ⟨fuel, hfuel, hloop⟩ := digitLoop_area k.width (Nat.lt_succ_self (k.ceil ns)) b []
  refine ⟨fuel, hfuel, ?_⟩
  rw [List.append_nil, List.append_nil] at hloop
  unfold appendFraction
  rw [k.area_eq]
  dsimp only
  rw [List.length_append, List.length_replicate]
  exact hloop

theorem Fraction.ceil_small (h : ns ≤ k.largest) : k.ceil ns / 10 ^ k.width = 0 := by
  cases k <;> simp only [Fraction.ceil, Fraction.width, Fraction.largest] at h ⊢ <;> omega

theorem Fraction.ceil_carry (hlt : ns < 10 ^ 9) (h : k.largest < ns) : k.ceil ns = 10 ^ k.width := by
  cases k <;> simp only [Fraction.ceil, Fraction.width, Fraction.largest] at h ⊢ <;> omega

theorem padded_pow (w : Nat) : padded w (10 ^ w) = List.replicate w 48 := by
  induction w with
  | zero => rfl
  | succ w ih =>
    have hdiv : 10 ^ (w + 1) / 10 = 10 ^ w := by rw [Nat.pow_succ', Nat.mul_div_cancel_left _ (by omega)]
    have hmod : 10 ^ (w + 1) % 10 = 0 := by rw [Nat.pow_succ', Nat.mul_mod_right]
    rw [padded, hdiv, hmod, ih, List.replicate_succ']
    rfl

/-! ## The field -/

theorem appendFraction_small (h : ns ≤ k.largest) (b : Bytes) :
    appendFraction k ns b = some (b ++ padded k.width (k.ceil ns)) := by
  obtain ⟨fuel, -, heq⟩ := appendFraction_eq k ns b
  rw [heq, k.ceil_small h, digitLoop_zero]

/-- A field whose fraction becomes a whole second: the digit 1 is written in front of it. -/
theorem appendFraction_carry (hlt : ns < 10 ^ 9) (h : k.largest < ns) (b : Bytes) : appendFraction k ns b =
      if b = [] then none else some (b.set (b.length - 1) (chr '1') ++ List.replicate k.width 48) := by
  obtain ⟨fuel, hfuel, heq⟩ := appendFraction_eq k ns b
  have hone : k.ceil ns / 10 ^ k.width = 1 := by rw [k.ceil_carry hlt h, Nat.div_self (Nat.pow_pos (by omega))]
  rw [hone] at hfuel heq
  rw [heq, k.ceil_carry hlt h, padded_pow]
  obtain ⟨fuel, rfl⟩ : ∃ n, fuel = n + 1 := ⟨fuel - 1, by omega⟩
  rw [digitLoop, if_pos (by omega)]
  by_cases hb : b = []
  · rw [if_pos hb, if_pos (by rw [hb]; rfl)]
  · have hlen := List.length_pos_iff.mpr hb
    rw [if_neg hb, if_neg (by omega), List.set_append_left _ _ (by omega)]
    exact digitLoop_zero fuel _ _

/-- **The bytes in front of a field stay as they are** just when the fraction is not rounded up to a whole second, or the
byte in front of the field is the digit 1 already. -/
theorem appendFraction_kept (hlt : ns < 10 ^ 9) {b text : Bytes}
    (h : appendFraction k ns b = some (b ++ text)) : ns ≤ k.largest ∨ b.getLast? = some (chr '1') := by
  rcases Nat.lt_or_ge k.largest ns with hlarge | hsmall
  · right
    rw [appendFraction_carry hlt hlarge] at h
    split_ifs at h with hb
    obtain ⟨hset, -⟩ := List.append_inj (Option.some.inj h) List.length_set
    rw [← hset, List.getLast?_eq_getElem?, List.length_set, List.getElem?_set_self]
    have := List.length_pos_iff.mpr hb
    omega
  · exact .inl hsmall

/-- The field appends the digits of its width, and nothing else changes. -/
def FieldAppended (k : Fraction) (ns : Nat) (b : Bytes) : Prop :=
  ∃ digits, digits.length = k.width ∧ (∀ c ∈ digits, Netstring.isDigit c = true) ∧
    appendFraction k ns b = some (b ++ digits)

/-- **A field appends its digits** just when the fraction is not rounded up to a whole second, or the byte in front of the
field is the digit 1 already. -/
theorem appendFraction_iff {k : Fraction} {ns : Nat} (hlt : ns < 10 ^ 9) (b : Bytes) :
    FieldAppended k ns b ↔ ns ≤ k.largest ∨ b.getLast? = some (chr '1') := by
  constructor
  · rintro ⟨digits, -, -, h⟩
    exact appendFraction_kept hlt h
  · intro h
    rcases Nat.lt_or_ge k.largest ns with hlarge | hsmall
    · have hlast : b.getLast? = some (chr '1') := h.resolve_left (by omega)
      have hb : b ≠ [] := by
        rintro rfl
        cases hlast
      have hset : b.set (b.length - 1) (chr '1') = b := by
        rw [List.getLast?_eq_getElem?] at hlast
        obtain ⟨hlen, heq⟩ := List.getElem?_eq_some_iff.mp hlast
        rw [← heq, List.set_getElem_self]
      refine ⟨List.replicate k.width 48, List.length_replicate, fun c hc => ?_, ?_⟩
      · rw [List.eq_of_mem_replicate hc]
        rfl
      · rw [appendFraction_carry hlt hlarge, if_neg hb, hset]
    · exact ⟨_, length_padded _ _, isDigit_padded, appendFraction_small hsmall b⟩

/-- The first microsecond of a second behind a point. -/
theorem appendFraction_sample : FieldAppended .usec 1000 (ascii "12:00:00.") :=
  (appendFraction_iff (by decide) _).mpr (.inl (by decide))

/-- The last nanosecond of a second takes the point in front of its milliseconds away. -/
theorem appendFraction_overwrites :
    appendFraction .msec 999999999 (ascii "12:00:00.") = some (ascii "12:00:001000") ∧
    ¬ FieldAppended .msec 999999999 (ascii "12:00:00.") := by
  have hfield : appendFraction .msec 999999999 (ascii "12:00:00.") = some (ascii "12:00:001000") := by decide
  refine ⟨hfield, ?_⟩
  rintro ⟨digits, -, -, h⟩
  rw [hfield] at h
  have hfirst := congrArg (List.take 9) (Option.some.inj h)
  rw [List.take_append_of_le_length (by decide)] at hfirst
  exact absurd hfirst (by decide)

end Lighttpd.Accesslog
