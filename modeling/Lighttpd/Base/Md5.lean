import Lighttpd.Base.Buffer
import Lighttpd.Lib.BlockHash

/-!
# MD5 (`md5.c`)

`li_MD5_Update` takes a text in pieces; whole blocks are transformed where they stand, the rest is kept in the buffer of
the context. `md5Of_eq` says that the digest is that of the text at once.
-/

namespace Lighttpd.Md5
open BlockHash

/-! ## The source -/

/-- The four words of the state. -/
structure State where
  a : UInt32
  b : UInt32
  c : UInt32
  d : UInt32
deriving DecidableEq, Repr

def rotateLeft (x n : UInt32) : UInt32 := x <<< n ||| x >>> (32 - n)

/-- `FF`, `GG`, `HH` and `II`, with the word `x[k]`, the rotation and the constant. The registers change places for the
next step. -/
def step (f : UInt32 → UInt32 → UInt32 → UInt32) (x : List UInt32) (r : State) (p : Nat × UInt32 × UInt32) : State :=
  let a := rotateLeft (r.a + f r.b r.c r.d + x.getD p.1 0 + p.2.2) p.2.1 + r.b
  ⟨r.d, a, r.b, r.c⟩

def round1 : List (Nat × UInt32 × UInt32) :=
  [(0, 7, 0xd76aa478), (1, 12, 0xe8c7b756), (2, 17, 0x242070db), (3, 22, 0xc1bdceee),
   (4, 7, 0xf57c0faf), (5, 12, 0x4787c62a), (6, 17, 0xa8304613), (7, 22, 0xfd469501),
   (8, 7, 0x698098d8), (9, 12, 0x8b44f7af), (10, 17, 0xffff5bb1), (11, 22, 0x895cd7be),
   (12, 7, 0x6b901122), (13, 12, 0xfd987193), (14, 17, 0xa679438e), (15, 22, 0x49b40821)]

def round2 : List (Nat × UInt32 × UInt32) :=
  [(1, 5, 0xf61e2562), (6, 9, 0xc040b340), (11, 14, 0x265e5a51), (0, 20, 0xe9b6c7aa),
   (5, 5, 0xd62f105d), (10, 9, 0x2441453), (15, 14, 0xd8a1e681), (4, 20, 0xe7d3fbc8),
   (9, 5, 0x21e1cde6), (14, 9, 0xc33707d6), (3, 14, 0xf4d50d87), (8, 20, 0x455a14ed),
   (13, 5, 0xa9e3e905), (2, 9, 0xfcefa3f8), (7, 14, 0x676f02d9), (12, 20, 0x8d2a4c8a)]

def round3 : List (Nat × UInt32 × UInt32) :=
  [(5, 4, 0xfffa3942), (8, 11, 0x8771f681), (11, 16, 0x6d9d6122), (14, 23, 0xfde5380c),
   (1, 4, 0xa4beea44), (4, 11, 0x4bdecfa9), (7, 16, 0xf6bb4b60), (10, 23, 0xbebfbc70),
   (13, 4, 0x289b7ec6), (0, 11, 0xeaa127fa), (3, 16, 0xd4ef3085), (6, 23, 0x4881d05),
   (9, 4, 0xd9d4d039), (12, 11, 0xe6db99e5), (15, 16, 0x1fa27cf8), (2, 23, 0xc4ac5665)]

def round4 : List (Nat × UInt32 × UInt32) :=
  [(0, 6, 0xf4292244), (7, 10, 0x432aff97), (14, 15, 0xab9423a7), (5, 21, 0xfc93a039),
   (12, 6, 0x655b59c3), (3, 10, 0x8f0ccc92), (10, 15, 0xffeff47d), (1, 21, 0x85845dd1),
   (8, 6, 0x6fa87e4f), (15, 10, 0xfe2ce6e0), (6, 15, 0xa3014314), (13, 21, 0x4e0811a1),
   (4, 6, 0xf7537e82), (11, 10, 0xbd3af235), (2, 15, 0x2ad7d2bb), (9, 21, 0xeb86d391)]

def decode : Bytes → List UInt32
  | w :: x :: y :: z :: s => (w.toUInt32 ||| x.toUInt32 <<< 8 ||| y.toUInt32 <<< 16 ||| z.toUInt32 <<< 24) :: decode s
  | _ => []

def encode (w : UInt32) : Bytes :=
  [(w &&& 0xff).toUInt8, ((w >>> 8) &&& 0xff).toUInt8, ((w >>> 16) &&& 0xff).toUInt8, ((w >>> 24) &&& 0xff).toUInt8]

/-- `li_MD5Transform`. -/
def transform (state : State) (block : Bytes) : State :=
  let x := decode block
  let r := round1.foldl (step (fun x y z => (x &&& y) ||| (~~~x &&& z)) x) state
  let r := round2.foldl (step (fun x y z => (x &&& z) ||| (y &&& ~~~z)) x) r
  let r := round3.foldl (step (fun x y z => x ^^^ y ^^^ z) x) r
  let r := round4.foldl (step (fun x y z => y ^^^ (x ||| ~~~z)) x) r
  ⟨state.a + r.a, state.b + r.b, state.c + r.c, state.d + r.d⟩

/-- `li_MD5_CTX`. -/
structure Context where
  state : State
  count0 : Nat
  count1 : Nat
  buffer : Bytes
deriving DecidableEq, Repr

def initial : State := ⟨0x67452301, 0xefcdab89, 0x98badcfe, 0x10325476⟩

/-- `li_MD5_Init`. What is in the buffer is not read before it is written. -/
def init : Context := ⟨initial, 0, 0, List.replicate 64 0⟩

/-- `MD5_memcpy(&buffer[ndx], s, …)`. -/
def memcpy (buffer : Bytes) (ndx : Nat) (s : Bytes) : Bytes := buffer.take ndx ++ s ++ buffer.drop (ndx + s.length)

/-- The loop over the whole blocks of the input, and what is behind them. -/
def transformLoop : Nat → State → Bytes → State × Bytes
  | 0, state, s => (state, s)
  | fuel + 1, state, s =>
    if 64 ≤ s.length then transformLoop fuel (transform state (s.take 64)) (s.drop 64) else (state, s)

def Context.ndx (ctx : Context) : Nat := (ctx.count0 >>> 3) &&& 0x3f

/-- `li_MD5_Update`. No string of a request is so long that it does not fit in an `unsigned int`. -/
def update (ctx : Context) (input : Bytes) : Context :=
  let ndx := ctx.ndx
  let bits := (input.length <<< 3) % 2 ^ 32
  let count0 := (ctx.count0 + bits) % 2 ^ 32
  let count1 := if count0 < bits then (ctx.count1 + 1) % 2 ^ 32 else ctx.count1
  let count1 := (count1 + (input.length >>> 29)) % 2 ^ 32
  let partLen := 64 - ndx
  if partLen ≤ input.length then
    let block := memcpy ctx.buffer ndx (input.take partLen)
    let (state, rest) := transformLoop input.length (transform ctx.state block) (input.drop partLen)
    ⟨state, count0, count1, memcpy block 0 rest⟩
  else ⟨ctx.state, count0, count1, memcpy ctx.buffer ndx input⟩

def paddingBytes : Bytes := 0x80 :: List.replicate 63 0

def final (ctx : Context) : Bytes :=
  let bits := encode (UInt32.ofNat ctx.count0) ++ encode (UInt32.ofNat ctx.count1)
  let ndx := ctx.ndx
  let padLen := if ndx < 56 then 56 - ndx else 120 - ndx
  let ctx := update ctx (paddingBytes.take padLen)
  let ctx := update ctx bits
  encode ctx.state.a ++ encode ctx.state.b ++ encode ctx.state.c ++ encode ctx.state.d

/-- A digest of a text in pieces. -/
def md5Of (pieces : List Bytes) : Bytes := final (pieces.foldl update init)

def tohex (s : Bytes) : Bytes := s.flatMap fun c => [Buffer.hexChar c.toNat 1, Buffer.hexChar c.toNat 0]

/-! ## The digest of a text -/

/-- The number of bits, modulo 2^64. -/
def lengthBytes (n : Nat) : Bytes :=
  encode (UInt32.ofNat (8 * n % 2 ^ 32)) ++ encode (UInt32.ofNat (8 * n / 2 ^ 32 % 2 ^ 32))

/-- The text is filled up to whole blocks, with its length at the end. -/
def padded (s : Bytes) : Bytes :=
  s ++ paddingBytes.take (if s.length % 64 < 56 then 56 - s.length % 64 else 120 - s.length % 64) ++ lengthBytes s.length

/-- **The digest of a text**: the state when all of it is absorbed. -/
def md5 (s : Bytes) : Bytes :=
  let state := (absorb 64 transform (initial, []) (padded s)).1
  encode state.a ++ encode state.b ++ encode state.c ++ encode state.d

structure Context.Taken (ctx : Context) (s : Bytes) : Prop where
  absorbed : absorb 64 transform (initial, []) s = (ctx.state, ctx.buffer.take (s.length % 64))
  count0 : ctx.count0 = 8 * s.length % 2 ^ 32
  count1 : ctx.count1 = 8 * s.length / 2 ^ 32 % 2 ^ 32
  buffer : ctx.buffer.length = 64

theorem init_taken : init.Taken [] := ⟨rfl, rfl, rfl, rfl⟩

variable {s : Bytes} {ctx : Context}

theorem Context.Taken.ndx (h : ctx.Taken s) : ctx.ndx = s.length % 64 := by
  rw [Context.ndx, h.count0, show (0x3f : Nat) = 2 ^ 6 - 1 from rfl, Nat.and_two_pow_sub_one_eq_mod,
    Nat.shiftRight_eq_div_pow]
  omega

theorem length_memcpy {buffer : Bytes} {ndx : Nat} (h : ndx + s.length ≤ buffer.length) :
    (memcpy buffer ndx s).length = buffer.length := by
  simp only [memcpy, List.length_append, List.length_take, List.length_drop]
  omega

theorem take_memcpy {buffer : Bytes} {ndx : Nat} (h : ndx + s.length ≤ buffer.length) :
    (memcpy buffer ndx s).take (ndx + s.length) = buffer.take ndx ++ s := by
  have hlen : (buffer.take ndx ++ s).length = ndx + s.length := by
    rw [List.length_append, List.length_take]
    omega
  rw [memcpy, ← hlen, List.take_left]

theorem transformLoop_eq {fuel : Nat} (state : State) (h : s.length ≤ fuel) :
    absorb 64 transform (state, []) s = transformLoop fuel state s ∧ (transformLoop fuel state s).2.length = s.length % 64 := by
  induction fuel generalizing state s with
  | zero =>
    obtain rfl : s = [] := List.eq_nil_of_length_eq_zero (by omega)
    exact ⟨rfl, rfl⟩
  | succ fuel ih =>
    unfold transformLoop
    by_cases hfull : 64 ≤ s.length
    · have hblock : (s.take 64).length = 64 := by
        rw [List.length_take]
        omega
      have hrest : (s.drop 64).length = s.length - 64 := List.length_drop
      have hfirst : absorb 64 transform (state, []) (s.take 64) = (transform state (s.take 64), []) :=
        absorb_full (by omega) (by simpa using hblock)
      have happend := absorb_append (f := transform) (n := 64) (state, []) (s.take 64) (s.drop 64)
      rw [List.take_append_drop, hfirst] at happend
      have hfuel : (s.drop 64).length ≤ fuel := by omega
      obtain ⟨habsorb, hlen⟩ := ih (transform state (s.take 64)) hfuel
      rw [if_pos hfull, hlen, happend, habsorb]
      exact ⟨rfl, by omega⟩
    · rw [if_neg hfull]
      constructor
      · rw [absorb_short (by simpa using hfull)]
        rfl
      · dsimp only
        omega

theorem count_add (n m : Nat) :
    (8 * n % 2 ^ 32 + (m <<< 3) % 2 ^ 32) % 2 ^ 32 = 8 * (n + m) % 2 ^ 32 ∧
    ((if (8 * n % 2 ^ 32 + (m <<< 3) % 2 ^ 32) % 2 ^ 32 < (m <<< 3) % 2 ^ 32 then (8 * n / 2 ^ 32 % 2 ^ 32 + 1) % 2 ^ 32
      else 8 * n / 2 ^ 32 % 2 ^ 32) + (m >>> 29)) % 2 ^ 32 = 8 * (n + m) / 2 ^ 32 % 2 ^ 32 := by
  rw [Nat.shiftLeft_eq, Nat.shiftRight_eq_div_pow]
  constructor
  · omega
  · split
    · omega
    · omega

/-- **One more piece.** -/
theorem update_taken (h : ctx.Taken s) (t : Bytes) : (update ctx t).Taken (s ++ t) := by
  obtain ⟨hcount0, hcount1⟩ := count_add s.length t.length
  have hbuffer := h.buffer
  have hkept : (ctx.buffer.take (s.length % 64)).length = s.length % 64 := by
    rw [List.length_take]
    omega
  unfold update
  simp only [h.ndx, h.count0, h.count1, hcount0]
  rw [hcount0] at hcount1
  by_cases hfull : 64 - s.length % 64 ≤ t.length
  · rw [if_pos hfull]
    have hpart : (t.take (64 - s.length % 64)).length = 64 - s.length % 64 := List.length_take_of_le hfull
    have hrest : (t.drop (64 - s.length % 64)).length = t.length - (64 - s.length % 64) := List.length_drop
    have hfit : s.length % 64 + (t.take (64 - s.length % 64)).length ≤ ctx.buffer.length := by omega
    have hblock : memcpy ctx.buffer (s.length % 64) (t.take (64 - s.length % 64)) =
        ctx.buffer.take (s.length % 64) ++ t.take (64 - s.length % 64) := by
      have htake := take_memcpy hfit
      have hlen := length_memcpy hfit
      have hall : s.length % 64 + (t.take (64 - s.length % 64)).length = 64 := by omega
      have hle : (memcpy ctx.buffer (s.length % 64) (t.take (64 - s.length % 64))).length ≤ 64 := by omega
      rw [hall, List.take_of_length_le hle] at htake
      exact htake
    have hpos : 0 < (t.take (64 - s.length % 64)).length := by omega
    have hsum : ((ctx.state, ctx.buffer.take (s.length % 64)) : State × Bytes).2.length +
        (t.take (64 - s.length % 64)).length = 64 := by
      dsimp only
      omega
    have hfill : absorb 64 transform (ctx.state, ctx.buffer.take (s.length % 64)) (t.take (64 - s.length % 64)) =
        (transform ctx.state (ctx.buffer.take (s.length % 64) ++ t.take (64 - s.length % 64)), []) :=
      absorb_full hpos hsum
    rw [hblock]
    generalize transform ctx.state (ctx.buffer.take (s.length % 64) ++ t.take (64 - s.length % 64)) = state at hfill ⊢
    have hfuel : (t.drop (64 - s.length % 64)).length ≤ t.length := by omega
    obtain ⟨hloop, hlen⟩ := transformLoop_eq state hfuel
    generalize transformLoop t.length state (t.drop (64 - s.length % 64)) = r at hloop hlen
    obtain ⟨state', rest⟩ := r
    have hrestlen : rest.length = (s ++ t).length % 64 := by
      rw [List.length_append]
      dsimp only at hlen
      omega
    have hfit' : 0 + rest.length ≤ (ctx.buffer.take (s.length % 64) ++ t.take (64 - s.length % 64)).length := by
      rw [List.length_append]
      omega
    refine ⟨?_, by rw [List.length_append], by rw [List.length_append]; exact hcount1, ?_⟩
    · have htake := take_memcpy hfit'
      rw [Nat.zero_add, hrestlen, List.take_zero, List.nil_append] at htake
      dsimp only
      rw [htake, absorb_append, h.absorbed]
      conv_lhs => rw [← List.take_append_drop (64 - s.length % 64) t]
      rw [absorb_append, hfill, hloop]
    · rw [length_memcpy hfit', List.length_append]
      omega
  · rw [if_neg hfull]
    have hfit : s.length % 64 + t.length ≤ ctx.buffer.length := by omega
    refine ⟨?_, by rw [List.length_append], by rw [List.length_append]; exact hcount1, ?_⟩
    · have htake := take_memcpy hfit
      have hmod : (s ++ t).length % 64 = s.length % 64 + t.length := by
        rw [List.length_append]
        omega
      dsimp only
      rw [hmod, htake, absorb_append, h.absorbed, absorb_short]
      dsimp only
      omega
    · rw [length_memcpy hfit]
      exact hbuffer

theorem final_eq (h : ctx.Taken s) : final ctx = md5 s := by
  have hbits : encode (UInt32.ofNat ctx.count0) ++ encode (UInt32.ofNat ctx.count1) = lengthBytes s.length := by
    rw [h.count0, h.count1, lengthBytes]
  have hpadded := update_taken (update_taken h
    (paddingBytes.take (if s.length % 64 < 56 then 56 - s.length % 64 else 120 - s.length % 64))) (lengthBytes s.length)
  simp only [final, md5, hbits, h.ndx]
  rw [padded, hpadded.absorbed]

/-- **The pieces of a text are hashed as the text.** -/
theorem md5Of_eq (pieces : List Bytes) : md5Of pieces = md5 pieces.flatten := by
  have htaken : ∀ (ctx : Context) (s : Bytes), ctx.Taken s → (pieces.foldl update ctx).Taken (s ++ pieces.flatten) := by
    induction pieces with
    | nil =>
      intro ctx s h
      simpa using h
    | cons t pieces ih =>
      intro ctx s h
      rw [List.foldl_cons, List.flatten_cons, ← List.append_assoc]
      exact ih _ _ (update_taken h t)
  exact final_eq (htaken init [] init_taken)

example : tohex (md5Of [ascii "message ", ascii "digest"]) = ascii "f96b697d7cb7938d525a2f31aaf161d0" := by
  decide +kernel

end Lighttpd.Md5
