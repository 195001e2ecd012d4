import Lighttpd.Base.Ascii

/-!
# Buffers (`buffer.c`)

A `buffer` is a heap string that knows its length and its allocated size. `used` counts the terminating NUL, so
`used = 0` is the special empty state and `used = 1` the empty string; `buffer_is_equal` tells them apart. The bytes
before the NUL are `str`. The fields `used_eq` and `used_le` are the invariant that every function of `buffer.c`
keeps, so that no other buffer can be built.
-/

namespace Lighttpd

/-- `buffer`: the string, `used` (with the NUL) and the allocated `size`. -/
structure Buffer where
  str : Bytes
  used : Nat
  size : Nat
  used_eq : (used = 0 ∧ str = []) ∨ used = str.length + 1
  used_le : used ≤ size
deriving DecidableEq, Repr

namespace Buffer

def maxReuseSize : Nat := 4 * 1024

def alignSize (size : Nat) : Nat := size + (64 - size % 64)

theorem le_alignSize (size : Nat) : size ≤ alignSize size := Nat.le_add_right _ _

/-- The allocated size after `buffer_alloc` or `buffer_realloc` to at least `size` bytes. -/
def grow (b : Buffer) (size : Nat) : Nat := if size ≤ b.size then b.size else alignSize size

theorem le_grow (b : Buffer) (size : Nat) : size ≤ b.grow size := by
  unfold grow
  split
  · assumption
  · exact le_alignSize size

def stringLength (b : Buffer) : Nat := if b.used = 0 then 0 else b.used - 1

def stringSpace (b : Buffer) : Nat :=
  if b.size = 0 then 0 else if b.used = 0 then b.size - 1 else b.size - b.used

def stringIsEmpty (b : Buffer) : Bool := b.stringLength == 0

def isEmpty (b : Buffer) : Bool := b.used == 0

/-- `buffer_is_equal` compares `used` as well, so an unset buffer differs from an empty string. -/
def isEqual (a b : Buffer) : Bool := a.used == b.used && a.str == b.str

def init : Buffer := ⟨[], 0, 0, .inl ⟨rfl, rfl⟩, Nat.le_refl 0⟩

/-- `buffer_reset`: a large allocation is given back. -/
def reset (b : Buffer) : Buffer :=
  ⟨[], 0, if b.size > maxReuseSize then 0 else b.size, .inl ⟨rfl, rfl⟩, Nat.zero_le _⟩

def stringPrepareCopy (b : Buffer) (size : Nat) : Buffer :=
  ⟨[], 1, b.grow (size + 1), .inr rfl, Nat.le_trans (Nat.le_add_left 1 size) (b.le_grow _)⟩

def stringPrepareAppend (b : Buffer) (size : Nat) : Buffer :=
  if b.stringIsEmpty then b.stringPrepareCopy size
  else ⟨b.str, b.used, b.grow (b.used + size), b.used_eq,
    Nat.le_trans (Nat.le_add_right _ size) (b.le_grow _)⟩

/-- `buffer_commit` of the bytes `s` written behind the string; the assertions on the size may fail. -/
def commit (b : Buffer) (s : Bytes) : Option Buffer :=
  if h : 0 < b.size ∧ max b.used 1 + s.length ≤ b.size then
    some ⟨b.str ++ s, max b.used 1 + s.length, b.size, by
      rcases b.used_eq with ⟨hu, hs⟩ | hu
      · right; simp [hu, hs]; omega
      · right; simp [hu]; omega, h.2⟩
  else none

def copyStringLen (b : Buffer) (s : Bytes) : Buffer :=
  ⟨s, s.length + 1, b.grow (s.length + 1), .inr rfl, b.le_grow _⟩

/-- `buffer_copy_buffer`: the special empty state is copied as such. -/
def copyBuffer (b src : Buffer) : Buffer :=
  if src.used = 0 then ⟨[], 0, b.grow 1, .inl ⟨rfl, rfl⟩, Nat.zero_le _⟩ else b.copyStringLen src.str

/-- `buffer_move`: `b` takes the storage of `src`, and `src` the emptied storage of `b`. -/
def move (b src : Buffer) : Buffer × Buffer := (src, b.reset)

def ofString (s : Bytes) : Buffer := init.copyStringLen s

/-! ## The string of a buffer -/

@[simp] theorem stringLength_eq (b : Buffer) : b.stringLength = b.str.length := by
  unfold stringLength
  rcases b.used_eq with ⟨hu, hs⟩ | hu
  · simp [hu, hs]
  · simp [hu]

@[simp] theorem stringIsEmpty_iff (b : Buffer) : b.stringIsEmpty = true ↔ b.str = [] := by
  simp [stringIsEmpty]

@[simp] theorem reset_str (b : Buffer) : b.reset.str = [] := rfl

@[simp] theorem init_str : init.str = [] := rfl

@[simp] theorem stringPrepareCopy_str (b : Buffer) (n : Nat) : (b.stringPrepareCopy n).str = [] := rfl

@[simp] theorem stringPrepareAppend_str (b : Buffer) (n : Nat) : (b.stringPrepareAppend n).str = b.str := by
  unfold stringPrepareAppend
  split
  · rename_i h; simp [(stringIsEmpty_iff b).mp h]
  · rfl

@[simp] theorem copyStringLen_str (b : Buffer) (s : Bytes) : (b.copyStringLen s).str = s := rfl

theorem commit_str {b b' : Buffer} {s : Bytes} (h : b.commit s = some b') : b'.str = b.str ++ s := by
  unfold commit at h
  split at h
  · cases h; rfl
  · cases h

/-- A commit that fits in the space of the buffer does not fail an assertion. -/
theorem commit_isSome {b : Buffer} {s : Bytes} (hs : 0 < b.size) (h : s.length ≤ b.stringSpace) :
    (b.commit s).isSome := by
  have hu := b.used_le
  have h0 : b.size ≠ 0 := Nat.pos_iff_ne_zero.mp hs
  unfold stringSpace at h
  rw [if_neg h0] at h
  have : max b.used 1 + s.length ≤ b.size := by split at h <;> omega
  simp [commit, hs, this]

theorem stringPrepareCopy_space (b : Buffer) (n : Nat) : n ≤ (b.stringPrepareCopy n).stringSpace := by
  have := b.le_grow (n + 1)
  simp only [stringSpace, stringPrepareCopy, Nat.one_ne_zero, if_false]
  split <;> omega

theorem stringPrepareAppend_space (b : Buffer) (n : Nat) : n ≤ (b.stringPrepareAppend n).stringSpace := by
  unfold stringPrepareAppend
  split
  · exact b.stringPrepareCopy_space n
  · rename_i h
    have hne : b.used ≠ 0 := by
      intro h0
      rcases b.used_eq with ⟨_, hs⟩ | hu
      · exact h (by simp [hs])
      · omega
    have := b.le_grow (b.used + n)
    simp only [stringSpace, if_neg hne]
    split <;> omega

theorem stringPrepareAppend_size_pos (b : Buffer) (n : Nat) : 0 < (b.stringPrepareAppend n).size := by
  unfold stringPrepareAppend
  split
  · exact Nat.lt_of_lt_of_le (Nat.succ_pos n) (b.le_grow (n + 1))
  · rename_i h
    have hne : b.used ≠ 0 := by
      intro h0
      rcases b.used_eq with ⟨_, hs⟩ | hu
      · exact h (by simp [hs])
      · omega
    have := b.le_grow (b.used + n)
    show 0 < b.grow (b.used + n)
    omega

/-- The bytes `s` behind the string, in space that has been made for them: the assertions of `buffer_commit` hold. -/
def prepareCommit (b : Buffer) (s : Bytes) : Buffer :=
  ((b.stringPrepareAppend s.length).commit s).get
    (commit_isSome (b.stringPrepareAppend_size_pos _) (b.stringPrepareAppend_space _))

@[simp] theorem prepareCommit_str (b : Buffer) (s : Bytes) : (b.prepareCommit s).str = b.str ++ s := by
  have h : (b.stringPrepareAppend s.length).commit s = some (b.prepareCommit s) := (Option.some_get _).symm
  rw [commit_str h, stringPrepareAppend_str]

def appendStringLen (b : Buffer) (s : Bytes) : Buffer :=
  if s.length = 0 then b.stringPrepareAppend 0 else b.prepareCommit s

@[simp] theorem appendStringLen_str (b : Buffer) (s : Bytes) : (b.appendStringLen s).str = b.str ++ s := by
  unfold appendStringLen
  split
  · rename_i h
    simp [List.eq_nil_of_length_eq_zero h]
  · exact b.prepareCommit_str s

/-- `buffer_string_set_length` to at most the length of the string. -/
def stringSetLength (b : Buffer) (len : Nat) : Buffer :=
  ⟨b.str.take len, (b.str.take len).length + 1, b.grow ((b.str.take len).length + 1), .inr rfl, b.le_grow _⟩

@[simp] theorem stringSetLength_str (b : Buffer) (len : Nat) : (b.stringSetLength len).str = b.str.take len := rfl

/-! ## Numbers in hexadecimal -/

def hexChar (value shift : Nat) : Byte := (ascii "0123456789abcdef").getD ((value >>> (4 * shift)) &&& 0x0F) 0

/-- The number of digits that `buffer_append_uint_hex` writes: two for each byte of `value`, and at least two. -/
def hexShift : Nat → Nat → Nat
  | 0, _ => 0
  | fuel + 1, value => if value >>> 8 ≠ 0 then hexShift fuel (value >>> 8) + 2 else 2

def hexDigits (value : Nat) : Nat → Bytes
  | 0 => []
  | shift + 1 => hexChar value shift :: hexDigits value shift

def uintHex (value : Nat) : Bytes := hexDigits value (hexShift (value + 1) value)

def appendUintHex (b : Buffer) (value : Nat) : Buffer := b.prepareCommit (uintHex value)

@[simp] theorem appendUintHex_str (b : Buffer) (value : Nat) : (b.appendUintHex value).str = b.str ++ uintHex value :=
  b.prepareCommit_str _

theorem lt_hexShift {fuel value : Nat} (h : value < fuel) : value < 16 ^ hexShift fuel value := by
  induction fuel generalizing value with
  | zero => exact absurd h (Nat.not_lt_zero _)
  | succ fuel ih =>
    have hdiv : value >>> 8 = value / 256 := Nat.shiftRight_eq_div_pow value 8
    unfold hexShift
    split
    · rename_i hne
      rw [hdiv] at hne ⊢
      have hlt := ih (show value / 256 < fuel by omega)
      rw [Nat.pow_add]
      omega
    · rename_i hzero
      rw [Decidable.not_not, hdiv] at hzero
      omega

theorem hexShift_pos {fuel : Nat} (value : Nat) (h : 0 < fuel) : 0 < hexShift fuel value := by
  obtain ⟨fuel, rfl⟩ : ∃ k, fuel = k + 1 := ⟨fuel - 1, by omega⟩
  unfold hexShift
  split <;> omega

end Buffer
end Lighttpd
