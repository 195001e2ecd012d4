import Mathlib.Data.List.Basic

/-!
# The records of the FastCGI protocol

A record is a header of eight bytes, its content and its padding. `decode` takes the first record off a stream,
`decodeN` up to a number of records; `encode` writes a record. A stream of name-value pairs, each with the lengths of
its name and its value in front, is read by `decodePair` and written by `encodePair`.
-/

namespace FcgiRecord

/-- The contents of a record. -/
structure Record where
  version : UInt8
  type : UInt8
  requestId : Nat
  content : List UInt8
  padding : List UInt8
  reserved : UInt8
deriving DecidableEq, Repr

/-- The number of two bytes, the high one first. -/
def number (b1 b0 : UInt8) : Nat := b1.toNat * 256 + b0.toNat

/-- **The first record of a stream, and the rest**; `none` when it is not complete. -/
def decode : List UInt8 → Option (Record × List UInt8)
  | version :: type :: id1 :: id0 :: len1 :: len0 :: pad :: reserved :: s =>
    if number len1 len0 + pad.toNat ≤ s.length then
      some (⟨version, type, number id1 id0, s.take (number len1 len0),
        (s.drop (number len1 len0)).take pad.toNat, reserved⟩, s.drop (number len1 len0 + pad.toNat))
    else none
  | _ => none

/-- Up to `n` records of a stream, and the rest. -/
def decodeN : Nat → List UInt8 → List Record × List UInt8
  | 0, s => ([], s)
  | n + 1, s =>
    match decode s with
    | none => ([], s)
    | some (r, rest) => (r :: (decodeN n rest).1, (decodeN n rest).2)

def Record.size (r : Record) : Nat := 8 + r.content.length + r.padding.length

variable {s : List UInt8} {r : Record} {n : Nat}

theorem decode_short (h : s.length < 8) : decode s = none := by
  match s with
  | [] | [_] | [_, _] | [_, _, _] | [_, _, _, _] | [_, _, _, _, _] | [_, _, _, _, _, _] | [_, _, _, _, _, _, _] => rfl
  | _ :: _ :: _ :: _ :: _ :: _ :: _ :: _ :: s =>
    simp only [List.length_cons] at h
    omega

theorem exists_header (h : ¬ s.length < 8) : ∃ version type id1 id0 len1 len0 pad reserved t,
    s = version :: type :: id1 :: id0 :: len1 :: len0 :: pad :: reserved :: t := by
  match s, h with
  | [], h | [_], h | [_, _], h | [_, _, _], h | [_, _, _, _], h | [_, _, _, _, _], h | [_, _, _, _, _, _], h
  | [_, _, _, _, _, _, _], h => exact absurd (by simp) h
  | version :: type :: id1 :: id0 :: len1 :: len0 :: pad :: reserved :: t, _ =>
    exact ⟨version, type, id1, id0, len1, len0, pad, reserved, t, rfl⟩

theorem decode_size {rest : List UInt8} (h : decode s = some (r, rest)) :
    rest = s.drop r.size ∧ r.size ≤ s.length := by
  unfold decode at h
  split at h
  · rename_i version type id1 id0 len1 len0 pad reserved s
    split at h
    · rename_i hle
      obtain ⟨rfl, rfl⟩ := Prod.mk.inj (Option.some.inj h)
      unfold Record.size
      simp only [List.length_take, List.length_drop, List.length_cons]
      rw [Nat.min_eq_left (by omega), Nat.min_eq_left (by omega)]
      constructor
      · have hdrop : ∀ n, s.drop n =
            (version :: type :: id1 :: id0 :: len1 :: len0 :: pad :: reserved :: s).drop (8 + n) := fun n => by
          rw [Nat.add_comm]
          rfl
        rw [Nat.add_assoc]
        exact hdrop _
      · omega
    · cases h
  · cases h

theorem decode_append {rest : List UInt8} (h : decode s = some (r, rest)) (t : List UInt8) :
    decode (s ++ t) = some (r, rest ++ t) := by
  unfold decode at h
  split at h
  · rename_i version type id1 id0 len1 len0 pad reserved s
    split at h
    · rename_i hle
      obtain ⟨rfl, rfl⟩ := Prod.mk.inj (Option.some.inj h)
      simp only [List.cons_append]
      unfold decode
      dsimp only
      rw [if_pos (by rw [List.length_append]; omega), List.take_append_of_le_length (by omega),
        List.drop_append_of_le_length (by omega), List.drop_append_of_le_length hle,
        List.take_append_of_le_length (by rw [List.length_drop]; omega)]
    · cases h
  · cases h

/-- **`s` consists of the records `rs` and the beginning `rest` of another one.** -/
inductive Decodes : List UInt8 → List Record → List UInt8 → Prop
  | rest {s : List UInt8} (h : decode s = none) : Decodes s [] s
  | record {s t rest : List UInt8} {r : Record} {rs : List Record} (h : decode s = some (r, t)) (ht : Decodes t rs rest) :
    Decodes s (r :: rs) rest

namespace Decodes

variable {t rest rest' : List UInt8} {rs rs' : List Record}

theorem unique (h : Decodes s rs rest) (h' : Decodes s rs' rest') : rs = rs' ∧ rest = rest' := by
  induction h generalizing rs' with
  | rest hs =>
    cases h' with
    | rest => exact ⟨rfl, rfl⟩
    | record hs' => exact absurd (hs.symm.trans hs') nofun
  | record hs ht ih =>
    cases h' with
    | rest hs' => exact absurd (hs'.symm.trans hs) nofun
    | record hs' ht' =>
      obtain ⟨rfl, rfl⟩ := Prod.mk.inj (Option.some.inj (hs.symm.trans hs'))
      obtain ⟨rfl, rfl⟩ := ih ht'
      exact ⟨rfl, rfl⟩

theorem decode_rest (h : Decodes s rs rest) : decode rest = none := by
  induction h with
  | rest hs => exact hs
  | record hs ht ih => exact ih

theorem exists_decodes (s : List UInt8) : ∃ rs rest, Decodes s rs rest := by
  induction hn : s.length using Nat.strongRecOn generalizing s with
  | _ n ih =>
    cases hs : decode s with
    | none => exact ⟨[], s, .rest hs⟩
    | some p =>
      obtain ⟨r, t⟩ := p
      obtain ⟨rfl, hle⟩ := decode_size hs
      have hpos : 8 ≤ r.size := by unfold Record.size; omega
      obtain ⟨rs, rest, h⟩ := ih (s.drop r.size).length (by rw [List.length_drop]; omega) (s.drop r.size) rfl
      exact ⟨r :: rs, rest, .record hs h⟩

theorem append (h : Decodes s rs rest) (h' : Decodes (rest ++ t) rs' rest') : Decodes (s ++ t) (rs ++ rs') rest' := by
  induction h with
  | rest hs => exact h'
  | record hs ht ih => exact .record (decode_append hs t) (ih h')

theorem length_le (h : Decodes s rs rest) : 8 * rs.length + rest.length ≤ s.length := by
  induction h with
  | rest hs =>
    rw [List.length_nil]
    omega
  | record hs ht ih =>
    obtain ⟨rfl, hle⟩ := decode_size hs
    rw [List.length_drop] at ih
    have hpos := hle
    unfold Record.size at ih hpos
    rw [List.length_cons]
    omega

end Decodes

/-! ## Writing records -/

theorem number_toUInt8 (h : n < 65536) : number (n / 256).toUInt8 n.toUInt8 = n := by
  unfold number
  simp only [Nat.toUInt8_eq, UInt8.toNat_ofNat']
  omega

/-- **The bytes of a record.** -/
def encode (r : Record) : List UInt8 :=
  [r.version, r.type, (r.requestId / 256).toUInt8, r.requestId.toUInt8, (r.content.length / 256).toUInt8,
    r.content.length.toUInt8, r.padding.length.toUInt8, r.reserved] ++ (r.content ++ r.padding)

/-- The lengths that a header can announce. -/
structure Record.Fits (r : Record) : Prop where
  requestId : r.requestId < 65536
  content : r.content.length < 65536
  padding : r.padding.length < 256

/-- **A record that is written is read back.** -/
theorem decode_encode (h : r.Fits) (t : List UInt8) : decode (encode r ++ t) = some (r, t) := by
  have hpad : (r.padding.length.toUInt8).toNat = r.padding.length := by
    have := h.padding
    simp only [Nat.toUInt8_eq, UInt8.toNat_ofNat']
    omega
  have hdecode : decode (encode r ++ t) = if r.content.length + r.padding.length ≤ (r.content ++ r.padding ++ t).length
      then some (⟨r.version, r.type, r.requestId, (r.content ++ r.padding ++ t).take r.content.length,
        ((r.content ++ r.padding ++ t).drop r.content.length).take r.padding.length, r.reserved⟩,
        (r.content ++ r.padding ++ t).drop (r.content.length + r.padding.length)) else none := by
    unfold encode
    simp only [List.cons_append, List.nil_append, decode, number_toUInt8 h.requestId, number_toUInt8 h.content, hpad]
  rw [hdecode, if_pos (by simp only [List.length_append]; omega), List.append_assoc, List.take_left, List.drop_left,
    List.take_left, ← List.append_assoc, ← List.length_append, List.drop_left]

theorem decodes_encode {rs : List Record} (h : ∀ r ∈ rs, r.Fits) : Decodes (rs.flatMap encode) rs [] := by
  induction rs with
  | nil => exact .rest rfl
  | cons r rs ih =>
    rw [List.flatMap_cons]
    exact .record (decode_encode (h r List.mem_cons_self) _) (ih fun r' hr => h r' (List.mem_cons_of_mem r hr))

/-! ## Name-value pairs -/

/-- A length of one byte, or of four with the high bit set. -/
def encodeLength (n : Nat) : List UInt8 :=
  if 127 < n then [(n / 16777216).toUInt8 ||| 0x80, (n / 65536).toUInt8, (n / 256).toUInt8, n.toUInt8]
  else [n.toUInt8]

/-- The length at the start of a stream, and the rest. -/
def decodeLength : List UInt8 → Option (Nat × List UInt8)
  | [] => none
  | b :: s =>
    if b < 0x80 then some (b.toNat, s)
    else match s with
      | b2 :: b1 :: b0 :: s =>
        some ((b.toNat % 128) * 16777216 + b2.toNat * 65536 + b1.toNat * 256 + b0.toNat, s)
      | _ => none

/-- A pair: the two lengths, the name and the value. -/
def encodePair (p : List UInt8 × List UInt8) : List UInt8 :=
  encodeLength p.1.length ++ encodeLength p.2.length ++ p.1 ++ p.2

/-- The pair at the start of a stream, and the rest. -/
def decodePair (s : List UInt8) : Option ((List UInt8 × List UInt8) × List UInt8) := do
  let (n, s) ← decodeLength s
  let (m, s) ← decodeLength s
  if n + m ≤ s.length then some ((s.take n, (s.drop n).take m), s.drop (n + m)) else none

/-- The high byte of a length below `2 ^ 31` has room for the mark. -/
theorem toNat_or_mark (h : n < 128) : (n.toUInt8 ||| 0x80).toNat = n + 128 := by
  have hall : ∀ m : Fin 128, (m.val.toUInt8 ||| 0x80).toNat = m.val + 128 := by decide
  exact hall ⟨n, h⟩

theorem decodeLength_encodeLength (h : n < 2147483648) (t : List UInt8) :
    decodeLength (encodeLength n ++ t) = some (n, t) := by
  unfold encodeLength
  split
  · have hhigh : ((n / 16777216).toUInt8 ||| 0x80).toNat = n / 16777216 + 128 := toNat_or_mark (by omega)
    have hnot : ¬ (n / 16777216).toUInt8 ||| 0x80 < 0x80 := by
      rw [UInt8.lt_iff_toNat_lt, hhigh]
      simp
    simp only [List.cons_append, List.nil_append, decodeLength, if_neg hnot, hhigh, Nat.toUInt8_eq,
      UInt8.toNat_ofNat']
    congr 2
    omega
  · rename_i hsmall
    have hnat : (n.toUInt8).toNat = n := by
      simp only [Nat.toUInt8_eq, UInt8.toNat_ofNat']
      omega
    have hlt : n.toUInt8 < 0x80 := by
      rw [UInt8.lt_iff_toNat_lt, hnat]
      simp only [UInt8.reduceToNat]
      omega
    simp only [List.cons_append, List.nil_append, decodeLength, if_pos hlt, hnat]

/-- **A pair that is written is read back.** -/
theorem decodePair_encodePair {p : List UInt8 × List UInt8} (hn : p.1.length < 2147483648)
    (hm : p.2.length < 2147483648) (t : List UInt8) : decodePair (encodePair p ++ t) = some (p, t) := by
  unfold decodePair encodePair
  simp only [List.append_assoc, decodeLength_encodeLength hn, decodeLength_encodeLength hm, Option.bind_eq_bind,
    Option.bind_some]
  rw [if_pos (by simp only [List.length_append]; omega), List.take_left, List.drop_left, List.take_left,
    ← List.append_assoc, ← List.length_append, List.drop_left]

/-- **`s` is a stream of the pairs `ps`.** -/
inductive DecodesPairs : List UInt8 → List (List UInt8 × List UInt8) → Prop
  | nil : DecodesPairs [] []
  | pair {s t : List UInt8} {p : List UInt8 × List UInt8} {ps : List (List UInt8 × List UInt8)}
    (h : decodePair s = some (p, t)) (ht : DecodesPairs t ps) : DecodesPairs s (p :: ps)

theorem decodesPairs_encode {ps : List (List UInt8 × List UInt8)}
    (h : ∀ p ∈ ps, p.1.length < 2147483648 ∧ p.2.length < 2147483648) : DecodesPairs (ps.flatMap encodePair) ps := by
  induction ps with
  | nil => exact .nil
  | cons p ps ih =>
    obtain ⟨hn, hm⟩ := h p List.mem_cons_self
    rw [List.flatMap_cons]
    exact .pair (decodePair_encodePair hn hm _) (ih fun q hq => h q (List.mem_cons_of_mem p hq))

end FcgiRecord
