import Mathlib.Data.List.TakeWhile

/-!
# The chunked transfer coding (RFC 7230, section 4.1)

`decode` reads a chunked body: chunks, each with its size in hexadecimal digits and optional extensions on a line of
its own, up to the chunk of size zero, and then a trailer. Its result is the data and the bytes behind the body.

`decode_encode_iff` is the main result: for every way to write sizes that the decoder reads back, the encoding of a
list of pieces decodes to all of them, with nothing left, exactly when no piece is empty.
-/

namespace ChunkedCoding

def crlf : List UInt8 := [13, 10]

/-- The first line of `s`, and what follows its CRLF. -/
def takeLine : List UInt8 → Option (List UInt8 × List UInt8)
  | [] => none
  | [_] => none
  | c :: d :: s => if c = 13 ∧ d = 10 then some ([], s) else (takeLine (d :: s)).map fun r => (c :: r.1, r.2)

def hexValue (c : UInt8) : Option Nat :=
  if 48 ≤ c ∧ c ≤ 57 then some (c.toNat - 48)
  else if 65 ≤ c ∧ c ≤ 70 then some (c.toNat - 55)
  else if 97 ≤ c ∧ c ≤ 102 then some (c.toNat - 87)
  else none

/-- The number that hexadecimal digits stand for, `n` being that of the digits before. -/
def hexNumber (n : Nat) : List UInt8 → Option Nat
  | [] => some n
  | c :: cs => (hexValue c).bind fun d => hexNumber (16 * n + d) cs

/-- The size on the line of a chunk: one digit or more, and then nothing or extensions. -/
def chunkSize (line : List UInt8) : Option Nat :=
  let digits := line.takeWhile fun c => (hexValue c).isSome
  let ext := line.dropWhile fun c => (hexValue c).isSome
  if digits ≠ [] ∧ (ext = [] ∨ ext.head? = some 59) then hexNumber 0 digits else none

/-- The trailer ends with an empty line. -/
def skipTrailer : Nat → List UInt8 → Option (List UInt8)
  | 0, _ => none
  | fuel + 1, s => (takeLine s).bind fun r => if r.1 = [] then some r.2 else skipTrailer fuel r.2

/-- The decoder, for at most `fuel` chunks. -/
def decodeFrom : Nat → List UInt8 → Option (List UInt8 × List UInt8)
  | 0, _ => none
  | fuel + 1, s =>
    (takeLine s).bind fun r =>
      (chunkSize r.1).bind fun n =>
        if n = 0 then (skipTrailer (r.2.length + 1) r.2).map fun rest => ([], rest)
        else if (r.2.drop n).take 2 = crlf then
          (decodeFrom fuel (r.2.drop (n + 2))).map fun t => (r.2.take n ++ t.1, t.2)
        else none

/-- **The decoder**: the data of a chunked body and the bytes behind it. -/
def decode (s : List UInt8) : Option (List UInt8 × List UInt8) := decodeFrom (s.length + 1) s

def encodeChunk (size : Nat → List UInt8) (data : List UInt8) : List UInt8 :=
  size data.length ++ crlf ++ data ++ crlf

/-- The chunk of size zero and an empty trailer. -/
def lastChunk : List UInt8 := 48 :: crlf ++ crlf

/-- A way to write sizes that the decoder reads back. -/
structure WritesSize (size : Nat → List UInt8) : Prop where
  chunkSize : ∀ n, chunkSize (size n) = some n
  noCr : ∀ n, 13 ∉ size n

theorem takeLine_append {line : List UInt8} (h : 13 ∉ line) (s : List UInt8) :
    takeLine (line ++ (crlf ++ s)) = some (line, s) := by
  induction line with
  | nil => rfl
  | cons c line ih =>
    have hc : c ≠ 13 := fun hc => h (by simp [hc])
    have hline := ih fun hm => h (List.mem_cons_of_mem c hm)
    obtain ⟨d, t, ht⟩ : ∃ d t, line ++ (crlf ++ s) = d :: t := by
      cases line with
      | nil => exact ⟨13, 10 :: s, rfl⟩
      | cons d line => exact ⟨d, line ++ (crlf ++ s), rfl⟩
    rw [List.cons_append, ht, takeLine, if_neg (fun hcd => hc hcd.1), ← ht, hline]
    rfl

theorem chunkSize_digits {digits : List UInt8} {n : Nat} (hne : digits ≠ []) (h : hexNumber 0 digits = some n)
    (hd : ∀ c ∈ digits, (hexValue c).isSome) : chunkSize digits = some n := by
  have htake : digits.takeWhile (fun c => (hexValue c).isSome) = digits := List.takeWhile_eq_self_iff.mpr hd
  have hdrop : digits.dropWhile (fun c => (hexValue c).isSome) = [] := List.dropWhile_eq_nil_iff.mpr hd
  unfold chunkSize
  rw [htake, hdrop]
  exact (if_pos ⟨hne, .inl rfl⟩).trans h

theorem decodeFrom_mono {fuel fuel' : Nat} {s : List UInt8} {r : List UInt8 × List UInt8} (hle : fuel ≤ fuel')
    (h : decodeFrom fuel s = some r) : decodeFrom fuel' s = some r := by
  induction fuel generalizing fuel' s r with
  | zero => cases h
  | succ fuel ih =>
    obtain ⟨fuel', rfl⟩ : ∃ k, fuel' = k + 1 := ⟨fuel' - 1, by omega⟩
    obtain ⟨line, hline, h⟩ := Option.bind_eq_some_iff.mp h
    obtain ⟨n, hn, h⟩ := Option.bind_eq_some_iff.mp h
    rw [decodeFrom, hline, Option.bind_some, hn, Option.bind_some]
    by_cases h0 : n = 0
    · rw [if_pos h0] at h ⊢
      exact h
    · rw [if_neg h0] at h ⊢
      split at h
      · rename_i hcrlf
        obtain ⟨t, ht, rfl⟩ := Option.map_eq_some_iff.mp h
        rw [if_pos hcrlf, ih (Nat.le_of_succ_le_succ hle) ht]
        rfl
      · cases h

section

variable {size : Nat → List UInt8}

/-- A chunk that is not empty is read, and the decoder goes on behind it. -/
theorem decodeFrom_chunk (hs : WritesSize size) {data : List UInt8} (hd : data ≠ []) (fuel : Nat) (s : List UInt8) :
    decodeFrom (fuel + 1) (encodeChunk size data ++ s) =
      (decodeFrom fuel s).map fun t => (data ++ t.1, t.2) := by
  have hlen : data.length ≠ 0 := fun h0 => hd (List.eq_nil_of_length_eq_zero h0)
  have hsplit : encodeChunk size data ++ s = size data.length ++ (crlf ++ (data ++ (crlf ++ s))) := by
    simp [encodeChunk]
  have htwo : (crlf ++ s).take 2 = crlf := rfl
  have hdrop : (data ++ (crlf ++ s)).drop (data.length + 2) = s := by
    rw [← List.drop_drop, List.drop_left]
    rfl
  rw [hsplit, decodeFrom, takeLine_append (hs.noCr _), Option.bind_some, hs.chunkSize, Option.bind_some, if_neg hlen,
    List.drop_left, if_pos htwo, hdrop, List.take_left]

theorem decodeFrom_empty (hs : WritesSize size) (fuel : Nat) (s : List UInt8) :
    decodeFrom (fuel + 1) (encodeChunk size [] ++ s) = some ([], s) := by
  have hsplit : encodeChunk size [] ++ s = size 0 ++ (crlf ++ ([] ++ (crlf ++ s))) := by simp [encodeChunk]
  rw [hsplit, decodeFrom, takeLine_append (hs.noCr _), Option.bind_some, hs.chunkSize, Option.bind_some, if_pos rfl,
    skipTrailer, takeLine_append (by simp)]
  rfl

theorem decodeFrom_last (fuel : Nat) (s : List UInt8) : decodeFrom (fuel + 1) (lastChunk ++ s) = some ([], s) :=
  rfl

variable {ps : List (List UInt8)}

/-- The encoding of pieces that are not empty is read up to what follows. -/
theorem decodeFrom_pieces (hs : WritesSize size) (hps : ∀ p ∈ ps, p ≠ []) (fuel : Nat) (s : List UInt8) :
    decodeFrom (ps.length + fuel) (ps.flatMap (encodeChunk size) ++ s) =
      (decodeFrom fuel s).map fun t => (ps.flatten ++ t.1, t.2) := by
  induction ps with
  | nil => simp
  | cons p ps ih =>
    have hp := hps p List.mem_cons_self
    have ih := ih fun q hq => hps q (List.mem_cons_of_mem p hq)
    rw [List.length_cons, Nat.add_right_comm, List.flatMap_cons, List.append_assoc, decodeFrom_chunk hs hp, ih,
      Option.map_map, List.flatten_cons]
    simp [Function.comp_def]

theorem length_le_pieces (size : Nat → List UInt8) (ps : List (List UInt8)) : ps.length ≤ (ps.flatMap (encodeChunk size)).length := by
  induction ps with
  | nil => exact Nat.le_refl 0
  | cons p ps ih =>
    have hcrlf : crlf.length = 2 := rfl
    simp only [List.flatMap_cons, encodeChunk, List.length_append, List.length_cons, hcrlf]
    omega

/-- **The coding is exact**: pieces that are not empty are decoded, and the decoder stops behind the last chunk. -/
theorem decode_pieces (hs : WritesSize size) (hps : ∀ p ∈ ps, p ≠ []) (s : List UInt8) :
    decode (ps.flatMap (encodeChunk size) ++ (lastChunk ++ s)) = some (ps.flatten, s) := by
  have h := decodeFrom_pieces hs hps 1 (lastChunk ++ s)
  rw [decodeFrom_last, Option.map_some, List.append_nil] at h
  refine decodeFrom_mono ?_ h
  have := length_le_pieces size ps
  rw [List.length_append]
  omega

theorem decode_empty_piece (hs : WritesSize size) (hps : ∀ p ∈ ps, p ≠ []) (s : List UInt8) :
    decode (ps.flatMap (encodeChunk size) ++ (encodeChunk size [] ++ s)) = some (ps.flatten, s) := by
  have h := decodeFrom_pieces hs hps 1 (encodeChunk size [] ++ s)
  rw [decodeFrom_empty hs, Option.map_some, List.append_nil] at h
  refine decodeFrom_mono ?_ h
  have := length_le_pieces size ps
  have : 0 < (encodeChunk size []).length := by simp [encodeChunk, crlf]
  rw [List.length_append, List.length_append]
  omega

/-- **A list of pieces survives the coding exactly when none of them is empty.** -/
theorem decode_encode_iff (hs : WritesSize size) (ps : List (List UInt8)) :
    decode (ps.flatMap (encodeChunk size) ++ lastChunk) = some (ps.flatten, []) ↔ ∀ p ∈ ps, p ≠ [] := by
  constructor
  · intro h p hp hnil
    subst hnil
    -- the decoder stops at the first empty piece, before the last chunk
    obtain ⟨qs, rs, hsplit, hqs⟩ := List.eq_append_cons_of_mem hp
    have hne : ∀ q ∈ qs, q ≠ [] := fun q hq hnil => hqs (hnil ▸ hq)
    rw [hsplit, List.flatMap_append, List.flatMap_cons, List.append_assoc, List.append_assoc,
      decode_empty_piece hs hne] at h
    have hrest := (Prod.mk.inj (Option.some.inj h)).2
    exact absurd (List.append_eq_nil_iff.mp hrest).2 nofun
  · intro hps
    have h := decode_pieces hs hps []
    rwa [List.append_nil] at h

end

end ChunkedCoding
