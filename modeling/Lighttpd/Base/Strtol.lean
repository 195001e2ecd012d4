import Lighttpd.Base.Ascii
import Lighttpd.Lib.Netstring

/-!
# Numbers in strings

`strtol` and `strtoul` of the C library, on the C string at the start of their argument. `long` has 64 bits and `int`
has 32.
-/

namespace Lighttpd

def isspace (c : Byte) : Bool := c == 32 || (9 ≤ c && c ≤ 13)

def digitVal (c : Byte) : Option Nat :=
  if lightIsdigit c then some (c.toNat - 48)
  else if lightIsalpha c then some ((c ||| 32).toNat - 87)
  else none

/-- The number that the digits at the start of `s` append to `acc`, and what follows them. -/
def readDigits (base : Nat) (acc : Nat) : Bytes → Nat × Bytes
  | [] => (acc, [])
  | c :: s =>
    match digitVal c with
    | none => (acc, c :: s)
    | some d => if d < base then readDigits base (acc * base + d) s else (acc, c :: s)

/-- The base that base `0` stands for, and the digits: `0x` has to be followed by a hexadecimal digit. -/
def detectBase (s : Bytes) : Nat × Bytes :=
  match s with
  | 48 :: x :: d :: s' =>
    if (x ||| 32) = chr 'x' ∧ lightIsxdigit d then (16, d :: s') else (8, s)
  | 48 :: _ => (8, s)
  | _ => (10, s)

def longMax : Nat := 2 ^ 63 - 1

def ulongMax : Nat := 2 ^ 64 - 1

def readSign (s : Bytes) : Bool × Bytes :=
  match s with
  | 45 :: s' => (true, s')
  | 43 :: s' => (false, s')
  | _ => (false, s)

/-- `strtol(s, &err, base)` and the rest at `err`, for the bases `0` and `10`. -/
def strtol (base : Nat) (s : Bytes) : Int × Bytes :=
  let str := cstr s
  let (neg, t) := readSign (str.dropWhile isspace)
  let (base, t) := if base = 0 then detectBase t else (base, t)
  let (n, rest) := readDigits base 0 t
  if rest = t then (0, str)
  else if neg then (max (-(n : Int)) (-(longMax : Int) - 1), rest)
  else (min n longMax, rest)

/-- `strtoul(s, &err, 10)` and the rest at `err`, for a string that starts with a digit. -/
def strtoul (s : Bytes) : Nat × Bytes :=
  let (n, rest) := readDigits 10 0 (cstr s)
  (min n ulongMax, rest)

/-- `strtoul(s, NULL, 10)` of any string: a minus sign negates the number. -/
def strtoulSigned (s : Bytes) : Nat :=
  let (neg, t) := readSign ((cstr s).dropWhile isspace)
  let n := (readDigits 10 0 t).1
  if n > ulongMax then ulongMax else if neg then (2 ^ 64 - n) % 2 ^ 64 else n

/-- A `long` that is stored in an `int`. -/
def toInt (n : Int) : Int := Int.bmod n (2 ^ 32)

/-- An `unsigned long` that is stored in an `off_t`. -/
def toOff (n : Nat) : Int := Int.bmod n (2 ^ 64)

/-! ## Digits -/

theorem digit_facts {c : Byte} (h : lightIsdigit c = true) : isspace c = false ∧ c ≠ 45 ∧ c ≠ 43 ∧ c ≠ 0 := by
  rw [lightIsdigit_iff] at h
  grind [isspace]

theorem digitVal_digit {c : Byte} (h : lightIsdigit c = true) : digitVal c = some (c.toNat - 48) ∧ c.toNat - 48 < 10 := by
  refine ⟨by simp [digitVal, h], ?_⟩
  simp only [lightIsdigit, Bool.and_eq_true, decide_eq_true_eq, UInt8.le_iff_toNat_le] at h
  have hupper : c.toNat ≤ 57 := h.2
  omega

theorem readDigits_digits {s : Bytes} (h : s.all lightIsdigit = true) (acc : Nat) :
    readDigits 10 acc s = (s.foldl (fun n c => 10 * n + (c.toNat - 48)) acc, []) := by
  induction s generalizing acc with
  | nil => rfl
  | cons c s ih =>
    obtain ⟨hc, hs⟩ : lightIsdigit c = true ∧ s.all lightIsdigit = true := by simpa using h
    obtain ⟨hval, hlt⟩ := digitVal_digit hc
    rw [readDigits, hval]
    simp only [hlt, if_true]
    rw [ih hs, List.foldl_cons, Nat.mul_comm acc 10]

theorem readDigits_number {s : Bytes} {acc n : Nat} (h : Netstring.number acc s = some n) : readDigits 10 acc s = (n, []) := by
  induction s generalizing acc with
  | nil =>
    cases h
    rfl
  | cons c s ih =>
    rw [Netstring.number] at h
    split at h
    · next hdigit =>
      obtain ⟨hval, hlt⟩ := digitVal_digit (c := c) hdigit
      rw [readDigits, hval]
      simp only [hlt, if_true]
      exact ih h
    · cases h

theorem digit_of_digitVal {c : Byte} {d : Nat} (h : digitVal c = some d) (hd : d < 10) :
    lightIsdigit c = true ∧ d = c.toNat - 48 := by
  unfold digitVal at h
  split at h
  · exact ⟨‹_›, (Option.some.inj h).symm⟩
  · split at h
    · -- the letters stand for 10 and more
      rename_i halpha
      obtain rfl := Option.some.inj h
      simp only [lightIsalpha, Bool.and_eq_true, decide_eq_true_eq, UInt8.le_iff_toNat_le] at halpha
      have h97 : (97 : Byte).toNat = 97 := by decide
      omega
    · cases h

theorem readDigits_all {s : Bytes} {acc n : Nat} (h : readDigits 10 acc s = (n, [])) :
    s.all lightIsdigit = true ∧ n = s.foldl (fun n c => 10 * n + (c.toNat - 48)) acc := by
  induction s generalizing acc with
  | nil =>
    cases h
    exact ⟨rfl, rfl⟩
  | cons c s ih =>
    rw [readDigits] at h
    cases hd : digitVal c with
    | none => simp [hd] at h
    | some d =>
      simp only [hd] at h
      split at h
      · rename_i hlt
        have hdigit := digit_of_digitVal hd hlt
        obtain ⟨hall, hn⟩ := ih h
        refine ⟨by simp [hdigit.1, hall], ?_⟩
        rw [hn, List.foldl_cons, hdigit.2, Nat.mul_comm]
      · simp at h

end Lighttpd
