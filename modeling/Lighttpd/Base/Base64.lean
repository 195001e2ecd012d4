import Lighttpd.Base.Buffer
import Lighttpd.Lib.Sextets

/-!
# Base64 (`base64.c`)

The encoders write one character for each group of six bits, the decoder collects the groups of a text
(`encodeLoop_eq`, `decodeLoop_ok`); what is between is in `Sextets`. The decoder stops at a padding character or a NUL,
so that a text is only described up to there (`body`).
-/

namespace Lighttpd.Base64
open Sextets

/-! ## The source -/

/-- `base64_charset`. -/
inductive Charset
  | standard
  | url
deriving DecidableEq, Repr

/-- `base64_standard_table` and `base64_url_table`, with the padding character at the end. -/
def table : Charset → Bytes
  | .standard => ascii "ABCDEFGHIJKLMNOPQRSTUVWXYZabcdefghijklmnopqrstuvwxyz0123456789+/="
  | .url => ascii "ABCDEFGHIJKLMNOPQRSTUVWXYZabcdefghijklmnopqrstuvwxyz0123456789-_."

/-- `base64_standard_reverse_table` and `base64_url_reverse_table`: `-1` stands for an invalid character, `-2` for one that
is skipped, `-3` for padding. -/
def reverseTable : Charset → List Int
  | .standard =>
    [-1, -2, -2, -2, -2, -2, -2, -2, -2, -2, -2, -2, -2, -2, -2, -2,
     -2, -2, -2, -2, -2, -2, -2, -2, -2, -2, -2, -2, -2, -2, -2, -2,
     -2, -1, -1, -1, -1, -1, -1, -1, -1, -1, -1, 62, -1, -1, -1, 63,
     52, 53, 54, 55, 56, 57, 58, 59, 60, 61, -1, -1, -1, -3, -1, -1,
     -1,  0,  1,  2,  3,  4,  5,  6,  7,  8,  9, 10, 11, 12, 13, 14,
     15, 16, 17, 18, 19, 20, 21, 22, 23, 24, 25, -1, -1, -1, -1, -1,
     -1, 26, 27, 28, 29, 30, 31, 32, 33, 34, 35, 36, 37, 38, 39, 40,
     41, 42, 43, 44, 45, 46, 47, 48, 49, 50, 51, -1, -1, -1, -1, -1]
  | .url =>
    [-1, -2, -2, -2, -2, -2, -2, -2, -2, -2, -2, -2, -2, -2, -2, -2,
     -2, -2, -2, -2, -2, -2, -2, -2, -2, -2, -2, -2, -2, -2, -2, -2,
     -2, -1, -1, -1, -1, -1, -1, -1, -1, -1, -1, -1, -1, 62, -3, -1,
     52, 53, 54, 55, 56, 57, 58, 59, 60, 61, -1, -1, -1, -1, -1, -1,
     -1,  0,  1,  2,  3,  4,  5,  6,  7,  8,  9, 10, 11, 12, 13, 14,
     15, 16, 17, 18, 19, 20, 21, 22, 23, 24, 25, -1, -1, -1, -1, 63,
     -1, 26, 27, 28, 29, 30, 31, 32, 33, 34, 35, 36, 37, 38, 39, 40,
     41, 42, 43, 44, 45, 46, 47, 48, 49, 50, 51, -1, -1, -1, -1, -1]

/-- `base64_reverse_table[c]`, for the characters of seven bits. -/
def reverse (charset : Charset) (c : Byte) : Int := (reverseTable charset).getD c.toNat (-1)

/-- What is decoded: `result` up to `out_pos`, `result[out_pos]`, and `group`. -/
structure Decoding where
  done : Bytes
  cur : Byte
  group : Nat
deriving DecidableEq, Repr

/-- `switch(group)` for one digit. Behind a full group `result[out_pos]` is written before it is read. -/
def Decoding.add (d : Decoding) (ch : Nat) : Decoding :=
  match d.group with
  | 0 => ⟨d.done, UInt8.ofNat (ch <<< 2), 1⟩
  | 1 => ⟨d.done ++ [d.cur ||| UInt8.ofNat (ch >>> 4)], UInt8.ofNat ((ch &&& 0x0f) <<< 4), 2⟩
  | 2 => ⟨d.done ++ [d.cur ||| UInt8.ofNat (ch >>> 2)], UInt8.ofNat ((ch &&& 0x03) <<< 6), 3⟩
  | _ => ⟨d.done ++ [d.cur ||| UInt8.ofNat ch], d.cur, 0⟩

/-- The loop of `buffer_append_base64_decode`; `error` is `return NULL`. -/
def decodeLoop (charset : Charset) : Decoding → Bytes → Except Decoding Decoding
  | d, [] => .ok d
  | d, c :: s =>
    if c = 0 then .ok d
    else if 128 ≤ c then .error d
    else if reverse charset c = -3 then
      -- pad character; can only come after 2 base64 digits in a group
      if d.group < 2 then .error d else .ok d
    else if reverse charset c = -2 then decodeLoop charset d s
    else if reverse charset c < 0 then .error d
    else decodeLoop charset (d.add (reverse charset c).toNat) s

/-- The end of the last group. -/
def Decoding.finish (d : Decoding) : Except Decoding Bytes :=
  match d.group with
  | 0 => .ok d.done
  | 1 => .error d
  | _ => if d.cur ≠ 0 then .error d else .ok d.done

def Decoding.written (d : Decoding) : Bytes := if d.group = 0 then d.done else d.done ++ [d.cur]

/-- `buffer_append_base64_decode`: whether it returns a pointer, the buffer, and the byte behind its string. -/
structure Decoded where
  ok : Bool
  out : Buffer
  terminator : Byte

/-- `buffer_append_base64_decode`, `none` when an assertion fails. `result` starts at the terminating NUL. -/
def bufferAppendBase64Decode (out : Buffer) (s : Bytes) (charset : Charset) : Option Decoded :=
  let out := out.stringPrepareAppend (3 * (s.length / 4) + 3)
  match (decodeLoop charset ⟨[], 0, 0⟩ s).bind Decoding.finish with
  | .ok result => (out.commit result).map fun out => ⟨true, out, 0⟩
  | .error d => some ⟨false, out, d.written.headD 0⟩

/-- `base64_table[v & 0x3f]`. -/
def encodeChar (charset : Charset) (v : Nat) : Byte := (table charset).getD (v &&& 0x3f) 0

/-- The loop and the rest of `li_to_base64_no_padding`. -/
def encodeLoop (charset : Charset) : Bytes → Bytes
  | x :: y :: z :: s =>
    let v := (x.toNat <<< 16) ||| (y.toNat <<< 8) ||| z.toNat
    encodeChar charset (v >>> 6 >>> 6 >>> 6) :: encodeChar charset (v >>> 6 >>> 6) :: encodeChar charset (v >>> 6) ::
      encodeChar charset v :: encodeLoop charset s
  | [x, y] =>
    let v := (x.toNat <<< 10) ||| (y.toNat <<< 2)
    [encodeChar charset (v >>> 6 >>> 6), encodeChar charset (v >>> 6), encodeChar charset v]
  | [x] =>
    let v := x.toNat <<< 4
    [encodeChar charset (v >>> 6), encodeChar charset v]
  | [] => []

def requireSpace (inLength : Nat) : Nat :=
  let fullTuples := inLength / 3
  let inTupleRemainder := inLength % 3
  4 * fullTuples + if inTupleRemainder = 0 then 0 else 1 + inTupleRemainder

/-- `li_to_base64_no_padding`: what it writes, `none` when an assertion fails. -/
def liToBase64NoPadding (outLength : Nat) (s : Bytes) (charset : Charset) : Option Bytes :=
  if requireSpace s.length ≤ outLength ∧ (encodeLoop charset s).length ≤ outLength then some (encodeLoop charset s)
  else none

def paddingLength (inLength : Nat) : Nat := if inLength % 3 = 0 then 0 else 3 - inLength % 3

def padding (charset : Charset) : Byte := (table charset).getD 64 0

def liToBase64 (outLength : Nat) (s : Bytes) (charset : Charset) : Option Bytes :=
  if paddingLength s.length ≤ outLength then
    (liToBase64NoPadding (outLength - paddingLength s.length) s charset).bind fun out =>
      let out := out ++ List.replicate (paddingLength s.length) (padding charset)
      if out.length ≤ outLength then some out else none
  else none

def bufferAppendBase64EncodeNoPadding (out : Buffer) (s : Bytes) (charset : Charset) : Option Buffer :=
  let reserve := 4 * (s.length / 3) + 4
  (liToBase64NoPadding reserve s charset).bind (out.stringPrepareAppend reserve).commit

def bufferAppendBase64Encode (out : Buffer) (s : Bytes) (charset : Charset) : Option Buffer :=
  let reserve := 4 * (s.length / 3) + 4
  (liToBase64 reserve s charset).bind (out.stringPrepareAppend reserve).commit

/-! ## The tables -/

/-- The characters that stand for a group. -/
def alphabet (charset : Charset) : Bytes := (table charset).take 64

def char (charset : Charset) (d : Nat) : Byte := (table charset).getD d 0

def digit (charset : Charset) (c : Byte) : Nat := (reverse charset c).toNat

theorem length_table (charset : Charset) : (table charset).length = 65 := by
  cases charset <;> rw [table, ascii_ofList] <;> rfl

theorem digit_char (charset : Charset) : ∀ d < 64, reverse charset (char charset d) = d := by
  unfold char
  cases charset <;> rw [table, ascii_ofList] <;> decide

/-- An entry of the reverse table is negative, or the place of its character in the other table. -/
theorem reverseTable_entries (charset : Charset) : ((reverseTable charset).zipIdx.all fun p =>
    p.1 < 0 || p.1 < 64 && p.2 != 0 && p.2 < 128 && (table charset).getD p.1.toNat 0 == UInt8.ofNat p.2) = true := by
  cases charset <;> rw [table, ascii_ofList] <;> decide

theorem char_digit (charset : Charset) (c : Byte) (h : 0 ≤ reverse charset c) :
    digit charset c < 64 ∧ char charset (digit charset c) = c ∧ c ≠ 0 ∧ ¬ 128 ≤ c := by
  have hmem : (reverse charset c, c.toNat) ∈ (reverseTable charset).zipIdx := by
    rw [List.mk_mem_zipIdx_iff_getElem?]
    unfold reverse at h ⊢
    rw [List.getD_eq_getElem?_getD] at h ⊢
    cases hc : (reverseTable charset)[c.toNat]? with
    | none => simp [hc] at h
    | some r => rfl
  have hentry := List.all_eq_true.mp (reverseTable_entries charset) _ hmem
  simp only [Bool.or_eq_true, Bool.and_eq_true, decide_eq_true_eq, bne_iff_ne, beq_iff_eq, UInt8.ofNat_toNat] at hentry
  obtain hneg | ⟨⟨⟨hlt, hzero⟩, hseven⟩, hchar⟩ := hentry
  · exact absurd h (by omega)
  · refine ⟨by unfold digit; omega, hchar, ?_, ?_⟩
    · rintro rfl
      exact hzero rfl
    · rw [UInt8.le_iff_toNat_le]
      exact Nat.not_le.mpr hseven

theorem char_eq_getElem (charset : Charset) {d : Nat} (hd : d < (alphabet charset).length) :
    char charset d = (alphabet charset)[d] := by
  have hlt : d < (table charset).length := by
    rw [alphabet, List.length_take] at hd
    omega
  rw [char, List.getD_eq_getElem _ _ hlt]
  exact List.getElem_take.symm

theorem mem_alphabet (charset : Charset) (c : Byte) : c ∈ alphabet charset ↔ 0 ≤ reverse charset c := by
  have hlen : (alphabet charset).length = 64 := by
    rw [alphabet, List.length_take, length_table]
    rfl
  constructor
  · intro h
    obtain ⟨d, hd, rfl⟩ := List.getElem_of_mem h
    rw [← char_eq_getElem charset hd, digit_char charset d (hlen ▸ hd)]
    exact Int.natCast_nonneg d
  · intro h
    obtain ⟨hlt, hchar, -⟩ := char_digit charset c h
    have hd : digit charset c < (alphabet charset).length := by rwa [hlen]
    rw [← hchar, char_eq_getElem charset hd]
    exact List.getElem_mem hd

theorem reverse_padding (charset : Charset) : reverse charset (padding charset) = -3 ∧ padding charset ≠ 0 ∧
    ¬ 128 ≤ padding charset := by
  unfold padding
  cases charset <;> rw [table, ascii_ofList] <;> decide

/-! ## The encoder writes the groups -/

theorem encodeChar_eq (charset : Charset) (v : Nat) : encodeChar charset v = char charset (v % 64) := by
  rw [encodeChar, char, show (0x3f : Nat) = 2 ^ 6 - 1 from rfl, Nat.and_two_pow_sub_one_eq_mod]

/-- `(x << i) | y`, when `y` has `i` bits. -/
theorem shiftLeft_or (x : Nat) {y i : Nat} (h : y < 2 ^ i) : x <<< i ||| y = 2 ^ i * x + y := by
  rw [← Nat.shiftLeft_add_eq_or_of_lt h, Nat.shiftLeft_eq, Nat.mul_comm]

theorem encodeLoop_eq (charset : Charset) (s : Bytes) : encodeLoop charset s = (toSextets s).map (char charset) := by
  fun_induction encodeLoop charset s with
  | case1 x y z s v ih =>
    have hx := x.toNat_lt
    have hy := y.toNat_lt
    have hz := z.toNat_lt
    have hv : v = 65536 * x.toNat + 256 * y.toNat + z.toNat := by
      simp only [v]
      rw [Nat.or_assoc, shiftLeft_or y.toNat (i := 8) (by omega), shiftLeft_or x.toNat (i := 16) (by omega)]
      omega
    simp only [encodeChar_eq, Nat.shiftRight_eq_div_pow, toSextets, List.map_cons, ih]
    congr 1
    · congr 1; omega
    · congr 1
      · congr 1; omega
      · congr 1
        · congr 1; omega
        · congr 2; omega
  | case2 x y v =>
    have hx := x.toNat_lt
    have hy := y.toNat_lt
    have hv : v = 1024 * x.toNat + 4 * y.toNat := by
      simp only [v]
      rw [shiftLeft_or x.toNat (i := 10) (by rw [Nat.shiftLeft_eq]; omega), Nat.shiftLeft_eq]
      omega
    simp only [encodeChar_eq, Nat.shiftRight_eq_div_pow, toSextets, List.map_cons, List.map_nil]
    congr 1
    · congr 1; omega
    · congr 1
      · congr 1; omega
      · congr 2; omega
  | case3 x v =>
    have hx := x.toNat_lt
    have hv : v = 16 * x.toNat := by
      simp only [v, Nat.shiftLeft_eq]
      omega
    simp only [encodeChar_eq, Nat.shiftRight_eq_div_pow, toSextets, List.map_cons, List.map_nil]
    congr 1
    · congr 1; omega
    · congr 2; omega
  | case4 => rfl

theorem length_encodeLoop (charset : Charset) (s : Bytes) : (encodeLoop charset s).length = requireSpace s.length := by
  rw [encodeLoop_eq, List.length_map, length_toSextets, requireSpace]

/-! ## The decoder collects the groups -/

theorem ofNat_or (m n : Nat) : UInt8.ofNat m ||| UInt8.ofNat n = UInt8.ofNat (m ||| n) := by
  simp

/-- The bytes that the cases of `switch(group)` complete. -/
theorem or_eq_byte {a b c d : Nat} (hb : b < 64) (hc : c < 64) (hd : d < 64) :
    UInt8.ofNat (a <<< 2) ||| UInt8.ofNat (b >>> 4) = firstByte a b ∧
    UInt8.ofNat ((b &&& 0x0f) <<< 4) ||| UInt8.ofNat (c >>> 2) = secondByte b c ∧
    UInt8.ofNat ((c &&& 0x03) <<< 6) ||| UInt8.ofNat d = thirdByte c d := by
  refine ⟨?_, ?_, ?_⟩
  · rw [ofNat_or, shiftLeft_or a (i := 2) (by rw [Nat.shiftRight_eq_div_pow]; omega), Nat.shiftRight_eq_div_pow,
      firstByte]
    rfl
  · rw [ofNat_or, shiftLeft_or _ (i := 4) (by rw [Nat.shiftRight_eq_div_pow]; omega), Nat.shiftRight_eq_div_pow,
      show (0x0f : Nat) = 2 ^ 4 - 1 from rfl, Nat.and_two_pow_sub_one_eq_mod, secondByte]
    rfl
  · rw [ofNat_or, shiftLeft_or _ (i := 6) hd, show (0x03 : Nat) = 2 ^ 2 - 1 from rfl,
      Nat.and_two_pow_sub_one_eq_mod, thirdByte]
    rfl

/-- The byte behind the last group is zero when the group has no bits there. -/
theorem rest_eq_zero {i : Nat} (n : Nat) (h : n * 2 ^ i < 256) : UInt8.ofNat (n <<< i) = 0 ↔ n = 0 := by
  rw [Nat.shiftLeft_eq]
  constructor
  · intro hz
    have hnat := congrArg UInt8.toNat hz
    rw [toNat_ofNat h] at hnat
    simpa using hnat
  · rintro rfl
    simp

theorem rest_four (b : Nat) : UInt8.ofNat ((b &&& 0x0f) <<< 4) = 0 ↔ b % 16 = 0 := by
  rw [show (0x0f : Nat) = 2 ^ 4 - 1 from rfl, Nat.and_two_pow_sub_one_eq_mod]
  apply rest_eq_zero
  omega

theorem rest_two (c : Nat) : UInt8.ofNat ((c &&& 0x03) <<< 6) = 0 ↔ c % 4 = 0 := by
  rw [show (0x03 : Nat) = 2 ^ 2 - 1 from rfl, Nat.and_two_pow_sub_one_eq_mod]
  apply rest_eq_zero
  omega

/-- **The groups of a text are accepted when they end at the end of a byte**, which has zero bits behind it. -/
theorem finish_ok_iff {ds : List Nat} (hlt : ∀ d ∈ ds, d < 64) (done : Bytes) (cur : Byte) (r : Bytes) :
    (ds.foldl Decoding.add ⟨done, cur, 0⟩).finish = .ok r ↔ ∃ b, ofSextets ds = some b ∧ r = done ++ b := by
  fun_induction ofSextets ds generalizing done cur with
  | case1 a b c d ds ih =>
    simp only [List.mem_cons, forall_eq_or_imp] at hlt
    obtain ⟨ha, hb, hc, hd, hds⟩ := hlt
    obtain ⟨h1, h2, h3⟩ := or_eq_byte (a := a) hb hc hd
    simp only [List.foldl_cons, Decoding.add, h1, h2, h3]
    rw [ih hds]
    constructor
    · rintro ⟨s, hs, rfl⟩
      exact ⟨_, by rw [hs]; rfl, by simp⟩
    · rintro ⟨s, hs, rfl⟩
      obtain ⟨t, ht, rfl⟩ := Option.map_eq_some_iff.mp hs
      exact ⟨t, ht, by simp⟩
  | case2 a b c hzero =>
    simp only [List.mem_cons, List.not_mem_nil, or_false, forall_eq_or_imp, forall_eq] at hlt
    obtain ⟨ha, hb, hc⟩ := hlt
    obtain ⟨h1, h2, -⟩ := or_eq_byte (a := a) hb hc hc
    simp only [List.foldl_cons, List.foldl_nil, Decoding.add, Decoding.finish, h1, h2]
    simp [(rest_two c).mpr hzero, eq_comm]
  | case3 a b c hzero =>
    simp only [List.mem_cons, List.not_mem_nil, or_false, forall_eq_or_imp, forall_eq] at hlt
    simp only [List.foldl_cons, List.foldl_nil, Decoding.add, Decoding.finish]
    simp only [ne_eq, mt (rest_two c).mp hzero, not_false_eq_true, if_true]
    simp
  | case4 a b hzero =>
    simp only [List.mem_cons, List.not_mem_nil, or_false, forall_eq_or_imp, forall_eq] at hlt
    obtain ⟨ha, hb⟩ := hlt
    obtain ⟨h1, -, -⟩ := or_eq_byte (a := a) hb hb hb
    simp only [List.foldl_cons, List.foldl_nil, Decoding.add, Decoding.finish, h1]
    simp [(rest_four b).mpr hzero, eq_comm]
  | case5 a b hzero =>
    simp only [List.mem_cons, List.not_mem_nil, or_false, forall_eq_or_imp, forall_eq] at hlt
    simp only [List.foldl_cons, List.foldl_nil, Decoding.add, Decoding.finish]
    simp only [ne_eq, mt (rest_four b).mp hzero, not_false_eq_true, if_true]
    simp
  | case6 a => simp [Decoding.add, Decoding.finish]
  | case7 => simp [Decoding.finish, eq_comm]

/-- What the decoder reads: the text in front of a NUL or a padding character. -/
def body (charset : Charset) (s : Bytes) : Bytes := s.takeWhile fun c => c != 0 && reverse charset c != -3

/-- The groups that the decoder reads. -/
def digits (charset : Charset) (s : Bytes) : List Nat :=
  ((body charset s).filter fun c => decide (0 ≤ reverse charset c)).map (digit charset)

theorem digits_lt (charset : Charset) (s : Bytes) : ∀ d ∈ digits charset s, d < 64 := by
  intro d hd
  obtain ⟨c, hc, rfl⟩ := List.mem_map.mp hd
  exact (char_digit charset c (by simpa using (List.mem_filter.mp hc).2)).1

theorem map_char_digits (charset : Charset) (s : Bytes) :
    (digits charset s).map (char charset) = (body charset s).filter fun c => decide (c ∈ alphabet charset) := by
  rw [digits, List.map_map]
  simp only [mem_alphabet]
  rw [List.map_congr_left (g := id), List.map_id]
  intro c hc
  exact (char_digit charset c (by simpa using (List.mem_filter.mp hc).2)).2.1

theorem length_digits_le (charset : Charset) (s : Bytes) : (digits charset s).length ≤ s.length := by
  rw [digits, List.length_map]
  exact Nat.le_trans (List.length_filter_le _ _) (List.takeWhile_prefix _).length_le

variable {charset : Charset} {s : Bytes}

theorem decodeLoop_ok {d d' : Decoding} (h : decodeLoop charset d s = .ok d') :
    d' = (digits charset s).foldl Decoding.add d := by
  fun_induction decodeLoop charset d s with
  | case1 d => cases h; rfl
  | case2 d s => cases h; simp [digits, body]
  | case3 d c s hzero hhigh => cases h
  | case4 d c s hzero hhigh hpad hgroup => cases h
  | case5 d c s hzero hhigh hpad hgroup => cases h; simp [digits, body, hpad]
  | case6 d c s hzero hhigh hpad hskip ih =>
    rw [ih h]
    simp [digits, body, hzero, hskip]
  | case7 d c s hzero hhigh hpad hskip hneg => cases h
  | case8 d c s hzero hhigh hpad hskip hneg ih =>
    rw [ih h]
    have hle : 0 ≤ reverse charset c := by omega
    simp [digits, body, hzero, hpad, hle, digit]

theorem decodeLoop_map_char {ds : List Nat} (hlt : ∀ d ∈ ds, d < 64) (d : Decoding) (s : Bytes) :
    decodeLoop charset d (ds.map (char charset) ++ s) = decodeLoop charset (ds.foldl Decoding.add d) s := by
  induction ds generalizing d with
  | nil => rfl
  | cons n ds ih =>
    simp only [List.mem_cons, forall_eq_or_imp] at hlt
    have hrev := digit_char charset n hlt.1
    have hle : 0 ≤ reverse charset (char charset n) := by omega
    obtain ⟨-, -, hzero, hhigh⟩ := char_digit charset _ hle
    have hpad : reverse charset (char charset n) ≠ -3 := by omega
    have hskip : reverse charset (char charset n) ≠ -2 := by omega
    have hneg : ¬ reverse charset (char charset n) < 0 := by omega
    rw [List.map_cons, List.cons_append, decodeLoop, if_neg hzero, if_neg hhigh, if_neg hpad, if_neg hskip,
      if_neg hneg, ih hlt.2, hrev, List.foldl_cons]
    rfl

theorem group_foldl (ds : List Nat) (d : Decoding) (h : d.group < 4) :
    (ds.foldl Decoding.add d).group = (d.group + ds.length) % 4 := by
  induction ds generalizing d with
  | nil => simp [Nat.mod_eq_of_lt h]
  | cons n ds ih =>
    have hadd : (d.add n).group = (d.group + 1) % 4 := by
      obtain hg | hg | hg | hg : d.group = 0 ∨ d.group = 1 ∨ d.group = 2 ∨ d.group = 3 := by omega
      · simp [Decoding.add, hg]
      · simp [Decoding.add, hg]
      · simp [Decoding.add, hg]
      · simp [Decoding.add, hg]
    have hlt : (d.add n).group < 4 := by omega
    rw [List.foldl_cons, ih _ hlt, hadd, List.length_cons]
    omega

theorem decodeLoop_padding {d : Decoding} {n : Nat} (h : n = 0 ∨ 2 ≤ d.group) :
    decodeLoop charset d (List.replicate n (padding charset)) = .ok d := by
  cases n with
  | zero => rfl
  | succ n =>
    obtain ⟨hrev, hzero, hhigh⟩ := reverse_padding charset
    have hgroup : ¬ d.group < 2 := by omega
    rw [List.replicate_succ, decodeLoop, if_neg hzero, if_neg hhigh, if_pos hrev, if_neg hgroup]

/-! ## The functions on buffers -/

theorem liToBase64NoPadding_eq (n : Nat) (s : Bytes) (charset : Charset) : liToBase64NoPadding n s charset =
    if requireSpace s.length ≤ n then some (encodeLoop charset s) else none := by
  simp [liToBase64NoPadding, length_encodeLoop]

theorem liToBase64_eq (n : Nat) (s : Bytes) (charset : Charset) : liToBase64 n s charset =
    if requireSpace s.length + paddingLength s.length ≤ n then
      some (encodeLoop charset s ++ List.replicate (paddingLength s.length) (padding charset)) else none := by
  unfold liToBase64
  rw [liToBase64NoPadding_eq]
  by_cases hn : requireSpace s.length + paddingLength s.length ≤ n
  · have hpad : paddingLength s.length ≤ n := by omega
    have hspace : requireSpace s.length ≤ n - paddingLength s.length := by omega
    simp [hpad, hspace, hn, length_encodeLoop]
  · by_cases hpad : paddingLength s.length ≤ n
    · have hspace : ¬ requireSpace s.length ≤ n - paddingLength s.length := by omega
      simp [hpad, hspace, hn]
    · simp [hpad, hn]

theorem requireSpace_add_paddingLength (n : Nat) : requireSpace n + paddingLength n = 4 * ((n + 2) / 3) := by
  simp only [requireSpace, paddingLength]
  split
  · omega
  · omega

theorem prepareAppend_commit (out : Buffer) {n : Nat} (h : s.length ≤ n) :
    ∃ b, (out.stringPrepareAppend n).commit s = some b ∧ b.str = out.str ++ s := by
  have hspace := Nat.le_trans h (out.stringPrepareAppend_space n)
  obtain ⟨b, hb⟩ := Option.isSome_iff_exists.mp (Buffer.commit_isSome (out.stringPrepareAppend_size_pos n) hspace)
  exact ⟨b, hb, by rw [Buffer.commit_str hb, Buffer.stringPrepareAppend_str]⟩

theorem encodeNoPadding_spec (out : Buffer) (s : Bytes) (charset : Charset) :
    ∃ b, bufferAppendBase64EncodeNoPadding out s charset = some b ∧ b.str = out.str ++ encodeLoop charset s := by
  have hlen := length_encodeLoop charset s
  have hfull := requireSpace_add_paddingLength s.length
  simp only [bufferAppendBase64EncodeNoPadding]
  rw [liToBase64NoPadding_eq, if_pos (by omega), Option.bind_some]
  apply prepareAppend_commit
  omega

theorem encode_spec (out : Buffer) (s : Bytes) (charset : Charset) :
    ∃ b, bufferAppendBase64Encode out s charset = some b ∧
      b.str = out.str ++ (encodeLoop charset s ++ List.replicate (paddingLength s.length) (padding charset)) := by
  have hlen := length_encodeLoop charset s
  have hfull := requireSpace_add_paddingLength s.length
  simp only [bufferAppendBase64Encode]
  rw [liToBase64_eq, if_pos (by omega), Option.bind_some]
  apply prepareAppend_commit
  rw [List.length_append, List.length_replicate]
  omega

theorem decode_rejects {d : Decoding}
    (h : (decodeLoop charset ⟨[], 0, 0⟩ s).bind Decoding.finish = .error d) (out : Buffer) :
    ∃ r, bufferAppendBase64Decode out s charset = some r ∧ r.ok = false ∧ r.out.str = out.str := by
  simp [bufferAppendBase64Decode, h]

theorem decode_accepts {b : Bytes}
    (h : (decodeLoop charset ⟨[], 0, 0⟩ s).bind Decoding.finish = .ok b) (out : Buffer) :
    ofSextets (digits charset s) = some b ∧
    ∃ r, bufferAppendBase64Decode out s charset = some r ∧ r.ok = true ∧ r.out.str = out.str ++ b := by
  have hof : ofSextets (digits charset s) = some b := by
    cases hloop : decodeLoop charset ⟨[], 0, 0⟩ s with
    | error d =>
      rw [hloop] at h
      cases h
    | ok d =>
      rw [hloop] at h
      replace h : d.finish = .ok b := h
      rw [decodeLoop_ok hloop] at h
      obtain ⟨r, hr, rfl⟩ := (finish_ok_iff (digits_lt charset s) [] 0 b).mp h
      simpa using hr
  have hlen := length_ofSextets hof
  have hdigits := length_digits_le charset s
  obtain ⟨o, ho, hstr⟩ := prepareAppend_commit out (n := 3 * (s.length / 4) + 3) (s := b) (by omega)
  exact ⟨hof, ⟨true, o, 0⟩, by simp [bufferAppendBase64Decode, h, ho], rfl, hstr⟩

/-- An encoded text is decoded to its bytes, with the padding or without. -/
theorem decode_encodeLoop {n : Nat} (h : n = 0 ∨ n = paddingLength s.length) (out : Buffer) :
    ∃ r, bufferAppendBase64Decode out (encodeLoop charset s ++ List.replicate n (padding charset)) charset = some r ∧
      r.ok = true ∧ r.out.str = out.str ++ s := by
  have hlt := toSextets_lt s
  have hgroup := group_foldl (toSextets s) ⟨[], 0, 0⟩ (by decide)
  have hpad : n = 0 ∨ 2 ≤ ((toSextets s).foldl Decoding.add ⟨[], 0, 0⟩).group := by
    rw [hgroup, length_toSextets, Nat.zero_add]
    unfold paddingLength at h
    rcases h with h | h
    · exact .inl h
    · split at h
      · exact .inl h
      · right
        rw [if_neg (by assumption)]
        omega
  have hok : (decodeLoop charset ⟨[], 0, 0⟩ (encodeLoop charset s ++ List.replicate n (padding charset))).bind
      Decoding.finish = .ok s := by
    rw [encodeLoop_eq, decodeLoop_map_char hlt, decodeLoop_padding hpad]
    apply (finish_ok_iff hlt [] 0 s).mpr
    exact ⟨s, ofSextets_toSextets s, rfl⟩
  exact (decode_accepts hok out).2

/-- **The encoders and the decoder are inverse to each other.** The encoders fill the space that they ask for, and both
texts are decoded to the bytes. The bytes of an accepted text are encoded as its characters of the alphabet in front of the
padding; a rejected text leaves the string as it was. -/
theorem base64_inverse (charset : Charset) :
    (∀ s : Bytes, ∃ t : Bytes, t.length = requireSpace s.length ∧
      (∀ n, liToBase64NoPadding n s charset = if requireSpace s.length ≤ n then some t else none) ∧
      (∀ n, liToBase64 n s charset = if requireSpace s.length + paddingLength s.length ≤ n then
        some (t ++ List.replicate (paddingLength s.length) (padding charset)) else none) ∧
      ∀ out : Buffer,
        (∃ b, bufferAppendBase64EncodeNoPadding out s charset = some b ∧ b.str = out.str ++ t) ∧
        (∃ b, bufferAppendBase64Encode out s charset = some b ∧
          b.str = out.str ++ (t ++ List.replicate (paddingLength s.length) (padding charset))) ∧
        (∃ r, bufferAppendBase64Decode out t charset = some r ∧ r.ok = true ∧ r.out.str = out.str ++ s) ∧
        ∃ r, bufferAppendBase64Decode out (t ++ List.replicate (paddingLength s.length) (padding charset)) charset =
          some r ∧ r.ok = true ∧ r.out.str = out.str ++ s) ∧
    ∀ (out : Buffer) (s : Bytes), ∃ r, bufferAppendBase64Decode out s charset = some r ∧
      (r.ok = false → r.out.str = out.str) ∧
      (r.ok = true → ∃ b, r.out.str = out.str ++ b ∧ liToBase64NoPadding (requireSpace b.length) b charset =
        some ((body charset s).filter fun c => decide (c ∈ alphabet charset))) := by
  constructor
  · intro s
    refine ⟨encodeLoop charset s, length_encodeLoop charset s, fun n => liToBase64NoPadding_eq n s charset,
      fun n => liToBase64_eq n s charset, fun out => ⟨encodeNoPadding_spec out s charset, encode_spec out s charset, ?_,
        decode_encodeLoop (.inr rfl) out⟩⟩
    have hplain : ∃ r, bufferAppendBase64Decode out (encodeLoop charset s ++ List.replicate 0 (padding charset)) charset =
        some r ∧ r.ok = true ∧ r.out.str = out.str ++ s := decode_encodeLoop (.inl rfl) out
    simpa using hplain
  · intro out s
    cases h : (decodeLoop charset ⟨[], 0, 0⟩ s).bind Decoding.finish with
    | error d =>
      obtain ⟨r, hr, hok, hstr⟩ := decode_rejects h out
      exact ⟨r, hr, fun _ => hstr, fun htrue => by simp [hok] at htrue⟩
    | ok b =>
      obtain ⟨hof, r, hr, hok, hstr⟩ := decode_accepts h out
      refine ⟨r, hr, fun hfalse => by simp [hok] at hfalse, fun _ => ⟨b, hstr, ?_⟩⟩
      rw [liToBase64NoPadding_eq, if_pos (Nat.le_refl _), encodeLoop_eq, toSextets_ofSextets (digits_lt charset s) hof,
        map_char_digits]

/-- Text behind the padding is not read, but its characters are not encoded again. -/
theorem base64_inverse_counterexample :
    ¬ ∀ (charset : Charset) (s : Bytes) (r : Decoded),
      bufferAppendBase64Decode Buffer.init s charset = some r → r.ok = true →
        liToBase64NoPadding (requireSpace r.out.str.length) r.out.str charset =
          some (s.filter fun c => decide (c ∈ alphabet charset)) := by
  intro h
  rcases hr : bufferAppendBase64Decode Buffer.init (ascii "QQ==QUJD") .standard with _ | r
  · exact absurd hr (by decide)
  · have hok : (bufferAppendBase64Decode Buffer.init (ascii "QQ==QUJD") .standard).map (fun r => (r.ok, r.out.str)) =
        some (true, ascii "A") := by decide
    simp only [hr, Option.map_some, Option.some.injEq, Prod.mk.injEq] at hok
    have hbad := h .standard _ r hr hok.1
    rw [hok.2] at hbad
    exact absurd hbad (by decide)

end Lighttpd.Base64
