import Mathlib.Algebra.GroupWithZero.Nat
import Lighttpd.Uri.Simplify

/-!
# Encoded strings (`buffer.c`)

`buffer_append_string_encoded` counts the bytes, makes room for them, and fills the room in a second loop. The decoder
`buffer_urldecode_internal` writes to the block that it reads.

- `appendFilled_spec`: when the two loops agree on each byte, the string gets the bytes of the second one;
- `bufferUrldecode_eq`: in place, the decoder writes what `urldecode` says;
- `encoded_decoded`: a string without control characters is decoded again.
-/

namespace Lighttpd.Uri
open Buffer (hexChar)

/-! ## The source: encoding -/

/-- `buffer_encoding_t`. -/
inductive Encoding
  | relUri
  | relUriPart
  | html
  | minimalXml
  | hex
  | httpHeader
deriving DecidableEq, Repr

/-- The tables `encoded_chars_…`, one number for each row, its first digit for the first entry. -/
def encodedRows : Encoding → List Nat
  | .relUri =>
    [0b1111111111111111, 0b1111111111111111, 0b1011111100011000, 0b0000000000111111,
     0b1000000000000000, 0b0000000000011110, 0b1000000000000000, 0b0000000000011101] ++
    List.replicate 8 0b1111111111111111
  | .relUriPart =>
    [0b1111111111111111, 0b1111111111111111, 0b1011111100011001, 0b0000000000111111,
     0b1000000000000000, 0b0000000000011110, 0b1000000000000000, 0b0000000000011101] ++
    List.replicate 8 0b1111111111111111
  | .html =>
    [0b1111111111111111, 0b1111111111111111, 0b0010001100000000, 0b0000000000001010,
     0b0000000000000000, 0b0000000000000000, 0b1000000000000000, 0b0000000000000001] ++
    List.replicate 8 0b1111111111111111
  | .minimalXml =>
    [0b1111111111111111, 0b1111111111111111, 0b0010001100000000, 0b0000000000001010,
     0b0000000000000000, 0b0000000000000000, 0b1000000000000000, 0b0000000000000001] ++
    List.replicate 8 0b0000000000000000
  | .hex => List.replicate 16 0b1111111111111111
  | .httpHeader => 0b0000000000100000 :: List.replicate 15 0b0000000000000000

/-- `map[c]`. -/
def encodedChars (encoding : Encoding) (c : Byte) : Bool :=
  ((encodedRows encoding).getD (c.toNat / 16) 0).testBit (15 - c.toNat % 16)

/-- What the first loop of `buffer_append_string_encoded` adds for a byte. -/
def encodedCount (encoding : Encoding) (c : Byte) : Nat :=
  if encodedChars encoding c then
    match encoding with
    | .relUri | .relUriPart => 3
    | .html | .minimalXml => 6
    | .httpHeader | .hex => 2
  else 1

/-- What the second loop of `buffer_append_string_encoded` writes for a byte. -/
def encodedText (encoding : Encoding) (c : Byte) : Bytes :=
  if encodedChars encoding c then
    match encoding with
    | .relUri | .relUriPart => [chr '%', hexChar c.toNat 1, hexChar c.toNat 0]
    | .html | .minimalXml => [chr '&', chr '#', chr 'x', hexChar c.toNat 1, hexChar c.toNat 0, chr ';']
    | .hex => [hexChar c.toNat 1, hexChar c.toNat 0]
    | .httpHeader => [c, chr '\t']
  else [c]

/-- What the first loop of `buffer_append_string_c_escaped` adds for a byte. -/
def escapedCount (c : Byte) : Nat :=
  if c < 0x20 ∨ 0x7f ≤ c then
    if c = chr '\t' ∨ c = chr '\r' ∨ c = chr '\n' then 2 else 4
  else 1

/-- What the second loop of `buffer_append_string_c_escaped` writes for a byte. -/
def escapedText (c : Byte) : Bytes :=
  if c < 0x20 ∨ 0x7f ≤ c then
    chr '\\' ::
      (if c = chr '\t' then [chr 't']
      else if c = chr '\r' then [chr 'r']
      else if c = chr '\n' then [chr 'n']
      else [chr 'x', hexChar c.toNat 1, hexChar c.toNat 0])
  else [c]

/-- The first loop: the length, from `dLen` on. -/
def countLoop (count : Byte → Nat) : Nat → Bytes → Nat
  | dLen, [] => dLen
  | dLen, c :: s => countLoop count (dLen + count c) s

/-- The block of the buffer, and `d + d_len`. -/
structure Filling where
  block : Bytes
  pos : Nat
deriving DecidableEq, Repr

/-- `d[d_len++] = c` for some bytes, `none` outside of the block. -/
def Filling.puts : Filling → Bytes → Option Filling
  | f, [] => some f
  | f, c :: s => if f.pos < f.block.length then puts ⟨f.block.set f.pos c, f.pos + 1⟩ s else none

def fillLoop (text : Byte → Bytes) : Filling → Bytes → Option Filling
  | f, [] => some f
  | f, c :: s => (f.puts (text c)).bind fun f => fillLoop text f s

/-- Both loops, with the buffer and the last `d_len`; `none` when an assertion fails or a write is outside of the block. The
bytes are committed before they are written. -/
def appendFilled (count : Byte → Nat) (text : Byte → Bytes) (b : Buffer) (s : Bytes) (junk : Nat → Byte) :
    Option (Buffer × Nat) :=
  if s.length = 0 then some (b, 0)
  else do
    let dLen := countLoop count 0 s
    let prepared := b.stringPrepareAppend dLen
    let d := prepared.stringLength
    let block := blockOf prepared junk
    let committed ← prepared.commit ((block.drop d).take dLen)
    let block := block.set (committed.used - 1) 0
    if block[d]? ≠ some 0 then none
    else do
      let f ← fillLoop text ⟨block, d⟩ s
      some (setLength committed f.block (committed.used - 1), f.pos - d)

def bufferAppendStringEncoded (b : Buffer) (s : Bytes) (encoding : Encoding) (junk : Nat → Byte) :
    Option (Buffer × Nat) :=
  appendFilled (encodedCount encoding) (encodedText encoding) b s junk

def bufferAppendStringCEscaped (b : Buffer) (s : Bytes) (junk : Nat → Byte) : Option (Buffer × Nat) :=
  appendFilled escapedCount escapedText b s junk

/-! ## The source: decoding -/

/-- The variables of `buffer_urldecode_internal`. -/
structure Decode where
  block : Bytes
  src : Nat
  dst : Nat
deriving DecidableEq, Repr

/-- The loop that looks for the first escape, with at most so many turns. -/
def skipLoop (isQuery : Bool) : Nat → Bytes → Nat → Option Decode
  | 0, _, _ => none
  | n + 1, block, src => do
    let c ← block[src]?
    if c = 0 ∨ c = chr '%' then some ⟨block, src, src⟩
    else if isQuery && c == chr '+' then skipLoop isQuery n (block.set src (chr ' ')) (src + 1)
    else skipLoop isQuery n block (src + 1)

/-- One turn of the second loop, at the byte `c`. The `%` is written before the digits are read. -/
def decodeTurn (isQuery : Bool) (s : Decode) (c : Byte) : Option Decode :=
  if isQuery && c == chr '+' then some ⟨s.block.set s.dst (chr ' '), s.src + 1, s.dst + 1⟩
  else if c = chr '%' then do
    let block := s.block.set s.dst (chr '%')
    let high ← block[s.src + 1]?
    if hex2int high ≠ 0xff then
      let low ← block[s.src + 2]?
      if hex2int low ≠ 0xff then
        some ⟨block.set s.dst (hexByte (hex2int high) (hex2int low)), s.src + 3, s.dst + 1⟩
      else some ⟨block, s.src + 1, s.dst + 1⟩
    else some ⟨block, s.src + 1, s.dst + 1⟩
  else some ⟨s.block.set s.dst c, s.src + 1, s.dst + 1⟩

/-- The second loop, with at most so many turns. -/
def decodeLoop (isQuery : Bool) : Nat → Decode → Option Decode
  | 0, _ => none
  | n + 1, s => do
    let c ← s.block[s.src]?
    if c = 0 then some s else (decodeTurn isQuery s c).bind (decodeLoop isQuery n)

/-- `buffer_urldecode_internal`; `none` is an access outside of the block. -/
def bufferUrldecodeInternal (url : Buffer) (isQuery : Bool) (junk : Nat → Byte) : Option Buffer :=
  if url.stringIsEmpty then some url
  else do
    let block := blockOf url junk
    let s ← skipLoop isQuery block.length block 0
    let s ← decodeLoop isQuery block.length s
    some (setLength url s.block s.dst)

def bufferUrldecodePath (url : Buffer) (junk : Nat → Byte) : Option Buffer := bufferUrldecodeInternal url false junk

/-! ## Both loops of an encoder -/

theorem countLoop_eq (count : Byte → Nat) (n : Nat) (s : Bytes) : countLoop count n s = n + (s.map count).sum := by
  induction s generalizing n with
  | nil => rfl
  | cons c s ih =>
    rw [countLoop, ih, List.map_cons, List.sum_cons, Nat.add_assoc]

variable {s o rest : Bytes} {n : Nat}

theorem puts_eq {f : Filling} (h : f.pos + s.length ≤ f.block.length) :
    ∃ f', f.puts s = some f' ∧ f'.pos = f.pos + s.length ∧ f'.block.length = f.block.length ∧
      f'.block.take f'.pos = f.block.take f.pos ++ s := by
  induction s generalizing f with
  | nil => exact ⟨f, rfl, rfl, rfl, by simp⟩
  | cons c s ih =>
    rw [List.length_cons] at h
    have hlt : f.pos < f.block.length := by omega
    have hroom : f.pos + 1 + s.length ≤ (f.block.set f.pos c).length := by
      rw [List.length_set]
      omega
    obtain ⟨f', hf', hpos, hlen, htake⟩ := ih (f := ⟨f.block.set f.pos c, f.pos + 1⟩) hroom
    refine ⟨f', ?_, ?_, ?_, ?_⟩
    · rw [Filling.puts, if_pos hlt, hf']
    · simp only [hpos, List.length_cons]
      omega
    · rw [hlen, List.length_set]
    · rw [htake, take_set_succ hlt, List.append_assoc]
      rfl

theorem fillLoop_eq {text : Byte → Bytes} {f : Filling} (h : f.pos + (s.flatMap text).length ≤ f.block.length) :
    ∃ f', fillLoop text f s = some f' ∧ f'.pos = f.pos + (s.flatMap text).length ∧ f'.block.length = f.block.length ∧
      f'.block.take f'.pos = f.block.take f.pos ++ s.flatMap text := by
  induction s generalizing f with
  | nil => exact ⟨f, rfl, rfl, rfl, by simp⟩
  | cons c s ih =>
    rw [List.flatMap_cons, List.length_append] at h
    obtain ⟨f₁, hputs, hpos₁, hlen₁, htake₁⟩ := puts_eq (f := f) (s := text c) (by omega)
    obtain ⟨f', hfill, hpos, hlen, htake⟩ := ih (f := f₁) (by omega)
    refine ⟨f', ?_, ?_, ?_, ?_⟩
    · rw [fillLoop, hputs, Option.bind_some, hfill]
    · rw [hpos, hpos₁, List.flatMap_cons, List.length_append, Nat.add_assoc]
    · rw [hlen, hlen₁]
    · rw [htake, htake₁, List.flatMap_cons, List.append_assoc]

theorem stringPrepareAppend_used (b : Buffer) (n : Nat) : (b.stringPrepareAppend n).used = b.str.length + 1 := by
  unfold Buffer.stringPrepareAppend
  split
  · rename_i h
    simp [Buffer.stringPrepareCopy, (Buffer.stringIsEmpty_iff b).mp h]
  · rename_i h
    exact b.used_eq.resolve_left fun hu => h ((Buffer.stringIsEmpty_iff b).mpr hu.2)

theorem stringPrepareAppend_room (b : Buffer) (n : Nat) :
    b.str.length + 1 + n ≤ (b.stringPrepareAppend n).size := by
  have hspace := b.stringPrepareAppend_space n
  have hused := stringPrepareAppend_used b n
  have hle := (b.stringPrepareAppend n).used_le
  have hsize : (b.stringPrepareAppend n).size ≠ 0 := by omega
  have hne : (b.stringPrepareAppend n).used ≠ 0 := by omega
  rw [Buffer.stringSpace, if_neg hsize, if_neg hne] at hspace
  omega

/-- The block behind a string with room for `n` bytes. -/
theorem blockOf_prepared (b : Buffer) (n : Nat) (junk : Nat → Byte) :
    ∃ room, blockOf (b.stringPrepareAppend n) junk = b.str ++ 0 :: room ∧ n ≤ room.length := by
  refine ⟨_, by rw [blockOf, Buffer.stringPrepareAppend_str], ?_⟩
  have hroom := stringPrepareAppend_room b n
  rw [List.length_map, List.length_range]
  omega

theorem commit_prepared (b : Buffer) (hs : s.length = n) :
    ∃ c, (b.stringPrepareAppend n).commit s = some c ∧ c.used = b.str.length + 1 + n := by
  have hroom := stringPrepareAppend_room b n
  have hmax : max (b.stringPrepareAppend n).used 1 + s.length = b.str.length + 1 + n := by
    rw [stringPrepareAppend_used]
    omega
  unfold Buffer.commit
  rw [dif_pos ⟨b.stringPrepareAppend_size_pos n, by omega⟩]
  exact ⟨_, rfl, hmax⟩

/-- **The second loop fills the room that the first one counted**, when they agree on each byte. -/
theorem appendFilled_spec {count : Byte → Nat} {text : Byte → Bytes} (h : ∀ c, (text c).length = count c) (b : Buffer)
    (s : Bytes) (junk : Nat → Byte) :
    ∃ r, appendFilled count text b s junk = some (r, countLoop count 0 s) ∧ r.str = b.str ++ s.flatMap text := by
  have hcount : countLoop count 0 s = (s.flatMap text).length := by
    rw [countLoop_eq, Nat.zero_add, List.length_flatMap]
    simp only [h]
  by_cases hs : s.length = 0
  · rw [List.eq_nil_of_length_eq_zero hs]
    exact ⟨b, rfl, by simp⟩
  simp only [appendFilled, if_neg hs, Buffer.stringLength_eq, Buffer.stringPrepareAppend_str]
  generalize countLoop count 0 s = dLen at hcount
  obtain ⟨room, hblock, hroom⟩ := blockOf_prepared b dLen junk
  have hbytes : ((0 :: room).take dLen).length = dLen := by
    rw [List.length_take, List.length_cons]
    omega
  obtain ⟨c, hc, hused⟩ := commit_prepared b hbytes
  have hend : c.used - 1 = b.str.length + dLen := by omega
  have htake : ((b.str ++ 0 :: room).set (b.str.length + dLen) 0).take b.str.length = b.str := by
    rw [List.take_set_of_le (Nat.le_add_right _ _), List.take_left]
  have hnul : ((b.str ++ 0 :: room).set (b.str.length + dLen) 0)[b.str.length]? = some 0 := by
    by_cases hzero : dLen = 0
    · simp [hzero]
    · rw [List.getElem?_set_ne (by omega)]
      simp
  have hfit : b.str.length + (s.flatMap text).length ≤ ((b.str ++ 0 :: room).set (b.str.length + dLen) 0).length := by
    simp only [List.length_set, List.length_append, List.length_cons]
    omega
  obtain ⟨f, hfill, hpos, -, hwritten⟩ := fillLoop_eq (f := ⟨_, b.str.length⟩) hfit
  simp only [htake, ← hcount] at hpos hwritten
  rw [hpos] at hwritten
  refine ⟨setLength c f.block (b.str.length + dLen), ?_, hwritten⟩
  rw [hblock, List.drop_left, hc]
  simp only [Option.bind_eq_bind, Option.bind_some, hend, hnul, ne_eq, not_true_eq_false, if_false, hfill, hpos,
    Nat.add_sub_cancel_left]

theorem length_encodedText (encoding : Encoding) (c : Byte) :
    (encodedText encoding c).length = encodedCount encoding c := by
  unfold encodedText encodedCount
  split
  · cases encoding <;> rfl
  · rfl

theorem length_escapedText (c : Byte) : (escapedText c).length = escapedCount c := by
  unfold escapedText escapedCount
  by_cases hplain : c < 0x20 ∨ 0x7f ≤ c
  · rw [if_pos hplain, if_pos hplain]
    by_cases htab : c = chr '\t'
    · rw [if_pos htab, if_pos (.inl htab)]
      rfl
    by_cases hret : c = chr '\r'
    · rw [if_neg htab, if_pos hret, if_pos (.inr (.inl hret))]
      rfl
    by_cases hnew : c = chr '\n'
    · rw [if_neg htab, if_neg hret, if_pos hnew, if_pos (.inr (.inr hnew))]
      rfl
    · simp [htab, hret, hnew]
  · rw [if_neg hplain, if_neg hplain]
    rfl

/-! ## Decoding in place -/

theorem hex2int_zero : hex2int 0 = 0xff := by decide

theorem urldecode_zero (isQuery : Bool) (s : Bytes) : urldecode isQuery (0 :: s) = [] := by
  rw [urldecode.eq_def]
  rfl

theorem urldecode_plus {isQuery : Bool} {c : Byte} (h : (isQuery && c == chr '+') = true) (s : Bytes) :
    urldecode isQuery (c :: s) = chr ' ' :: urldecode isQuery s := by
  have hc : c ≠ 0 := by
    rintro rfl
    simp [chr] at h
  rw [urldecode.eq_def]
  simp only [hc, h, if_false, if_true]

theorem urldecode_escape (isQuery : Bool) {high low : Byte} (hhigh : hex2int high ≠ 0xff) (hlow : hex2int low ≠ 0xff)
    (s : Bytes) : urldecode isQuery (chr '%' :: high :: low :: s) =
      hexByte (hex2int high) (hex2int low) :: urldecode isQuery s := by
  rw [urldecode]
  simp [hhigh, hlow, chr]

theorem urldecode_percent (isQuery : Bool)
    (h : ∀ high low t, s = high :: low :: t → hex2int high = 0xff ∨ hex2int low = 0xff) :
    urldecode isQuery (chr '%' :: s) = chr '%' :: urldecode isQuery s := by
  rw [urldecode.eq_def]
  have hpercent : chr '%' ≠ 0 := by decide
  have hplus : (isQuery && chr '%' == chr '+') = false := by simp [chr]
  simp only [hpercent, hplus, Bool.false_eq_true, if_false, if_true]
  split
  · rename_i high low t
    have hne := h high low t rfl
    rw [if_neg (by tauto)]
  · rfl

theorem urldecode_plain {isQuery : Bool} {c : Byte} (hc : c ≠ 0) (hplus : (isQuery && c == chr '+') = false)
    (hpercent : c ≠ chr '%') (s : Bytes) : urldecode isQuery (c :: s) = c :: urldecode isQuery s := by
  rw [urldecode.eq_def]
  simp only [hc, hplus, hpercent, Bool.false_eq_true, if_false]

/-- **A state of the second loop follows `urldecode`**: what has been written is `o`, and the unread rest with a NUL in
it is behind. -/
structure Decode.Follows (s : Decode) (o rest : Bytes) : Prop where
  written : s.block.take s.dst = o
  unread : s.block.drop s.src = rest
  dst_le : s.dst ≤ s.src
  nul : 0 ∈ rest

theorem Decode.Follows.write {s : Decode} {d : Byte} (h : s.Follows o (d :: rest)) (c : Byte)
    (hn : 0 < n) (hnul : 0 ∈ (d :: rest).drop n) :
    Follows ⟨s.block.set s.dst c, s.src + n, s.dst + 1⟩ (o ++ [c]) ((d :: rest).drop n) := by
  have hlt : s.src < s.block.length := by
    have hlen := congrArg List.length h.unread
    simp only [List.length_drop, List.length_cons] at hlen
    omega
  have hle := h.dst_le
  refine ⟨?_, ?_, ?_, hnul⟩
  · rw [take_set_succ (by omega), h.written]
  · show (s.block.set s.dst c).drop (s.src + n) = (d :: rest).drop n
    rw [List.drop_set_of_lt (by omega), ← List.drop_drop, h.unread]
  · dsimp only
    omega

theorem Decode.Follows.read {s : Decode} {d : Byte} (h : s.Follows o (d :: rest)) (c : Byte) (n : Nat) :
    (s.block.set s.dst c)[s.src + (n + 1)]? = rest[n]? := by
  have hle := h.dst_le
  rw [List.getElem?_set_ne (by omega), ← List.getElem?_drop, h.unread]
  rfl

/-- **One turn.** -/
theorem decodeTurn_follows (isQuery : Bool) {s : Decode} {c : Byte} (h : s.Follows o (c :: rest)) (hc : c ≠ 0) :
    ∃ s' d rest', decodeTurn isQuery s c = some s' ∧ s'.Follows (o ++ [d]) rest' ∧
      urldecode isQuery (c :: rest) = d :: urldecode isQuery rest' ∧ rest'.length < (c :: rest).length := by
  have hnul : 0 ∈ rest := by simpa [Ne.symm hc] using h.nul
  unfold decodeTurn
  by_cases hplus : (isQuery && c == chr '+') = true
  · rw [if_pos hplus]
    exact ⟨_, _, _, rfl, h.write _ Nat.one_pos hnul, urldecode_plus hplus rest, Nat.lt_succ_self _⟩
  rw [if_neg hplus]
  rw [Bool.not_eq_true] at hplus
  by_cases hpercent : c = chr '%'
  · subst hpercent
    have hkeep : ∀ (hbad : ∀ high low t, rest = high :: low :: t → hex2int high = 0xff ∨ hex2int low = 0xff),
        ∃ s' d rest', some (⟨s.block.set s.dst (chr '%'), s.src + 1, s.dst + 1⟩ : Decode) = some s' ∧
          s'.Follows (o ++ [d]) rest' ∧ urldecode isQuery (chr '%' :: rest) = d :: urldecode isQuery rest' ∧
          rest'.length < (chr '%' :: rest).length := fun hbad =>
      ⟨_, _, _, rfl, h.write _ Nat.one_pos hnul, urldecode_percent isQuery hbad, Nat.lt_succ_self _⟩
    rw [if_pos rfl]
    simp only [h.read (chr '%') 0, h.read (chr '%') 1]
    cases rest with
    | nil => cases hnul
    | cons high rest =>
      simp only [List.getElem?_cons_zero, Option.bind_eq_bind, Option.bind_some]
      by_cases hhigh : hex2int high ≠ 0xff
      · have hne : high ≠ 0 := by
          rintro rfl
          exact hhigh hex2int_zero
        rw [if_pos hhigh]
        cases rest with
        | nil => simp [Ne.symm hne] at hnul
        | cons low rest =>
          simp only [List.getElem?_cons_succ, List.getElem?_cons_zero, Option.bind_some]
          by_cases hlow : hex2int low ≠ 0xff
          · have hne' : low ≠ 0 := by
              rintro rfl
              exact hlow hex2int_zero
            have hnul' : 0 ∈ rest := by simpa [Ne.symm hne, Ne.symm hne'] using hnul
            rw [if_pos hlow, List.set_set]
            exact ⟨_, _, _, rfl, h.write _ (Nat.succ_pos 2) hnul', urldecode_escape isQuery hhigh hlow rest, by
              simp only [List.drop_succ_cons, List.drop_zero, List.length_cons]
              omega⟩
          · rw [if_neg hlow]
            apply hkeep
            rintro a b t ht
            cases ht
            exact .inr (not_not.mp hlow)
      · rw [if_neg hhigh]
        apply hkeep
        rintro a b t ht
        cases ht
        exact .inl (not_not.mp hhigh)
  · rw [if_neg hpercent]
    exact ⟨_, _, _, rfl, h.write _ Nat.one_pos hnul, urldecode_plain hc hplus hpercent rest, Nat.lt_succ_self _⟩

/-- **The second loop ends, and what it has written is the decoded text.** -/
theorem decodeLoop_follows (isQuery : Bool) {s : Decode} (h : s.Follows o rest) (hn : rest.length ≤ n) :
    ∃ s', decodeLoop isQuery n s = some s' ∧ s'.block.take s'.dst = o ++ urldecode isQuery rest := by
  induction n generalizing s o rest with
  | zero =>
    rw [List.eq_nil_of_length_eq_zero (Nat.le_zero.mp hn)] at h
    cases h.nul
  | succ n ih =>
    cases rest with
    | nil => cases h.nul
    | cons c rest =>
      have hread : s.block[s.src]? = some c := by
        rw [← List.head?_drop, h.unread]
        rfl
      simp only [decodeLoop, hread, Option.bind_eq_bind, Option.bind_some]
      by_cases hc : c = 0
      · rw [if_pos hc, hc, urldecode_zero, List.append_nil]
        exact ⟨s, rfl, h.written⟩
      · rw [if_neg hc]
        obtain ⟨s₁, d, rest₁, hturn, hfollows, hdecode, hlt⟩ := decodeTurn_follows isQuery h hc
        obtain ⟨s', hrun, htake⟩ := ih hfollows (by omega)
        refine ⟨s', by rw [hturn, Option.bind_some, hrun], ?_⟩
        rw [htake, hdecode, List.append_assoc]
        rfl

theorem skipLoop_follows (isQuery : Bool) {block : Bytes} {src : Nat} (hnul : 0 ∈ block.drop src)
    (hn : (block.drop src).length ≤ n) :
    ∃ s o rest, skipLoop isQuery n block src = some s ∧ s.Follows o rest ∧ s.block.length = block.length ∧
      block.take src ++ urldecode isQuery (block.drop src) = o ++ urldecode isQuery rest := by
  induction n generalizing block src with
  | zero =>
    rw [List.eq_nil_of_length_eq_zero (Nat.le_zero.mp hn)] at hnul
    cases hnul
  | succ n ih =>
    obtain ⟨c, rest, hrest⟩ : ∃ c rest, block.drop src = c :: rest := List.exists_cons_of_ne_nil (List.ne_nil_of_mem hnul)
    have hlt : src < block.length := by
      have hlen := congrArg List.length hrest
      simp only [List.length_drop, List.length_cons] at hlen
      omega
    have hread : block[src]? = some c := by
      rw [← List.head?_drop, hrest]
      rfl
    have hdrop : block.drop (src + 1) = rest := by
      rw [← List.drop_drop, hrest]
      rfl
    have htake : block.take (src + 1) = block.take src ++ [c] := by
      rw [List.take_add_one, hread]
      rfl
    simp only [skipLoop, hread, Option.bind_eq_bind, Option.bind_some]
    by_cases hstop : c = 0 ∨ c = chr '%'
    · rw [if_pos hstop]
      exact ⟨_, _, _, rfl, ⟨rfl, rfl, Nat.le_refl _, hnul⟩, rfl, rfl⟩
    · rw [if_neg hstop]
      rw [not_or] at hstop
      rw [hrest] at hn hnul
      have hnul' : 0 ∈ rest := by simpa [Ne.symm hstop.1] using hnul
      by_cases hplus : (isQuery && c == chr '+') = true
      · rw [if_pos hplus]
        have hdrop' : (block.set src (chr ' ')).drop (src + 1) = rest := by
          rw [List.drop_set_of_lt (Nat.lt_succ_self _), hdrop]
        have hlength : ((block.set src (chr ' ')).drop (src + 1)).length ≤ n := by
          rw [hdrop']
          simpa using hn
        obtain ⟨s, o, rest', hs, hfollows, hlen, heq⟩ := ih (by rwa [hdrop']) hlength
        refine ⟨s, o, rest', hs, hfollows, by rw [hlen, List.length_set], ?_⟩
        rw [← heq, hrest, urldecode_plus hplus, hdrop', take_set_succ hlt, List.append_assoc]
        rfl
      · rw [if_neg hplus]
        rw [Bool.not_eq_true] at hplus
        have hlength : (block.drop (src + 1)).length ≤ n := by
          rw [hdrop]
          simpa using hn
        obtain ⟨s, o, rest', hs, hfollows, hlen, heq⟩ := ih (by rwa [hdrop]) hlength
        refine ⟨s, o, rest', hs, hfollows, hlen, ?_⟩
        rw [← heq, hrest, urldecode_plain hstop.1 hplus hstop.2, hdrop, htake, List.append_assoc]
        rfl

theorem urldecode_nul (isQuery : Bool) (s junk : Bytes) : urldecode isQuery (s ++ 0 :: junk) = urldecode isQuery s := by
  fun_induction urldecode isQuery s with
  | case1 => exact urldecode_zero isQuery junk
  | case2 s => exact urldecode_zero isQuery _
  | case3 c s hc hplus ih => rw [List.cons_append, urldecode_plus hplus, ih]
  | case4 high low s hdigits hc hplus ih =>
    show urldecode isQuery (chr '%' :: high :: low :: (s ++ 0 :: junk)) = _
    rw [urldecode_escape isQuery hdigits.1 hdigits.2, ih]
  | case5 high low s hdigits hc hplus ih =>
    rw [List.cons_append, urldecode_percent, ih]
    rintro a b t ht
    cases ht
    tauto
  | case6 s hshort hc hplus ih =>
    rw [List.cons_append, urldecode_percent, ih]
    intro a b t ht
    cases s with
    | nil =>
      cases ht
      exact .inl hex2int_zero
    | cons a' s =>
      cases s with
      | nil =>
        cases ht
        exact .inr hex2int_zero
      | cons b' s => exact absurd rfl (hshort a' b' s)
  | case7 c s hc hplus hpercent ih =>
    rw [Bool.not_eq_true] at hplus
    rw [List.cons_append, urldecode_plain hc hplus hpercent, ih]

/-- **In place, the decoder writes what `urldecode` says.** -/
theorem bufferUrldecode_eq (url : Buffer) (isQuery : Bool) (junk : Nat → Byte) :
    ∃ r, bufferUrldecodeInternal url isQuery junk = some r ∧ r.str = urldecode isQuery url.str := by
  unfold bufferUrldecodeInternal
  by_cases hempty : url.stringIsEmpty
  · rw [if_pos hempty]
    refine ⟨url, rfl, ?_⟩
    rw [(Buffer.stringIsEmpty_iff url).mp hempty]
    rfl
  rw [if_neg hempty]
  have hnul : 0 ∈ (blockOf url junk).drop 0 := by simp [blockOf]
  obtain ⟨s, o, rest, hskip, hfollows, hlen, heq⟩ := skipLoop_follows isQuery hnul (Nat.le_refl _)
  have hrest : rest.length ≤ (blockOf url junk).length := by
    rw [← hlen, ← hfollows.unread, List.length_drop]
    omega
  obtain ⟨s', hloop, htake⟩ := decodeLoop_follows isQuery hfollows hrest
  rw [List.drop_zero] at hskip heq
  refine ⟨setLength url s'.block s'.dst, by simp [hskip, hloop], ?_⟩
  show s'.block.take s'.dst = _
  rw [htake, ← heq, blockOf, urldecode_nul]
  rfl

/-! ## The round trip -/

theorem not_encodedChars {encoding : Encoding} (h : encoding = .relUri ∨ encoding = .relUriPart) (c : Byte)
    (hc : encodedChars encoding c = false) : c ≠ 0 ∧ c ≠ chr '%' := by
  have hall : ∀ c : Byte, decide (encodedChars encoding c = false → c ≠ 0 ∧ c ≠ chr '%') = true := by
    apply forall_byte
    rcases h with rfl | rfl
    · decide +kernel
    · decide +kernel
  exact of_decide_eq_true (hall c) hc

theorem hexByte_hexChar (c : Byte) (hc : ¬ IsControl c) :
    hex2int (hexChar c.toNat 1) ≠ 0xff ∧ hex2int (hexChar c.toNat 0) ≠ 0xff ∧
      hexByte (hex2int (hexChar c.toNat 1)) (hex2int (hexChar c.toNat 0)) = c := by
  have hall : ∀ c : Byte, decide (¬ IsControl c → hex2int (hexChar c.toNat 1) ≠ 0xff ∧
      hex2int (hexChar c.toNat 0) ≠ 0xff ∧
      hexByte (hex2int (hexChar c.toNat 1)) (hex2int (hexChar c.toNat 0)) = c) = true := by
    apply forall_byte
    decide +kernel
  exact of_decide_eq_true (hall c) hc

/-- **A string without control characters is decoded again.** -/
theorem urldecode_encoded {encoding : Encoding} (h : encoding = .relUri ∨ encoding = .relUriPart)
    (hs : ∀ c ∈ s, ¬ IsControl c) : urldecodePath (s.flatMap (encodedText encoding)) = s := by
  induction s with
  | nil => rfl
  | cons c s ih =>
    simp only [List.mem_cons, forall_eq_or_imp] at hs
    have ih := ih hs.2
    unfold urldecodePath at ih ⊢
    rw [List.flatMap_cons]
    cases hc : encodedChars encoding c with
    | false =>
      obtain ⟨hzero, hpercent⟩ := not_encodedChars h c hc
      have htext : encodedText encoding c = [c] := by simp [encodedText, hc]
      rw [htext, List.singleton_append, urldecode_plain hzero rfl hpercent, ih]
    | true =>
      obtain ⟨hhigh, hlow, hbyte⟩ := hexByte_hexChar c hs.1
      have htext : encodedText encoding c = [chr '%', hexChar c.toNat 1, hexChar c.toNat 0] := by
        rcases h with rfl | rfl
        · simp [encodedText, hc]
        · simp [encodedText, hc]
      rw [htext]
      show urldecode false (chr '%' :: hexChar c.toNat 1 :: hexChar c.toNat 0 :: s.flatMap (encodedText encoding)) = c :: s
      rw [urldecode_escape false hhigh hlow, hbyte, ih]

/-- **Encoded and decoded.** A string without control characters comes back from both forms of a path, and each encoder
writes as many bytes as it has counted. -/
theorem encoded_decoded :
    (∀ (encoding : Encoding) (s : Bytes), encoding = .relUri ∨ encoding = .relUriPart → (∀ c ∈ s, ¬ IsControl c) →
      ∀ (b : Buffer) (junk junk' : Nat → Byte), b.str = [] →
        ∃ url n r, bufferAppendStringEncoded b s encoding junk = some (url, n) ∧
          bufferUrldecodePath url junk' = some r ∧ r.str = s) ∧
    (∀ (encoding : Encoding) (b : Buffer) (s : Bytes) (junk : Nat → Byte),
      ∃ r, bufferAppendStringEncoded b s encoding junk = some (r, countLoop (encodedCount encoding) 0 s) ∧
        r.str = b.str ++ s.flatMap (encodedText encoding) ∧
        r.str.length = b.str.length + countLoop (encodedCount encoding) 0 s) ∧
    ∀ (b : Buffer) (s : Bytes) (junk : Nat → Byte),
      ∃ r, bufferAppendStringCEscaped b s junk = some (r, countLoop escapedCount 0 s) ∧
        r.str = b.str ++ s.flatMap escapedText ∧ r.str.length = b.str.length + countLoop escapedCount 0 s := by
  have hcount : ∀ (count : Byte → Nat) (text : Byte → Bytes), (∀ c, (text c).length = count c) → ∀ s : Bytes,
      (s.flatMap text).length = countLoop count 0 s := fun count text h s => by
    rw [countLoop_eq, Nat.zero_add, List.length_flatMap]
    simp only [h]
  refine ⟨?_, ?_, ?_⟩
  · intro encoding s hencoding hs b junk junk' hempty
    obtain ⟨url, hurl, hstr⟩ := appendFilled_spec (length_encodedText encoding) b s junk
    obtain ⟨r, hr, hdecoded⟩ := bufferUrldecode_eq url false junk'
    refine ⟨url, _, r, hurl, hr, ?_⟩
    rw [hdecoded, hstr, hempty, List.nil_append]
    exact urldecode_encoded hencoding hs
  · intro encoding b s junk
    obtain ⟨r, hr, hstr⟩ := appendFilled_spec (length_encodedText encoding) b s junk
    exact ⟨r, hr, hstr, by rw [hstr, List.length_append, hcount _ _ (length_encodedText encoding)]⟩
  · intro b s junk
    obtain ⟨r, hr, hstr⟩ := appendFilled_spec length_escapedText b s junk
    exact ⟨r, hr, hstr, by rw [hstr, List.length_append, hcount _ _ length_escapedText]⟩

end Lighttpd.Uri
