import Lighttpd.Connection.Framing
import Lighttpd.Lib.FcgiRecord

/-!
# The packets of a FastCGI response (`mod_fastcgi.c`)

`fastcgi_get_packet` takes one record off the queue of what the application has sent. The header may be spread over
several chunks, and the content starts within the chunk in which the header ends.

- `getPacket_spec`: one call is one record of the stream;
- `getPackets_decode`: repeated calls are the records of the stream.
-/

namespace Lighttpd
namespace Fcgi
open Chunkqueue FcgiRecord

/-- `fastcgi_response_packet`. -/
structure Packet where
  b : Bytes
  len : Nat
  type : Nat
  padding : Nat
  requestId : Nat
deriving DecidableEq, Repr

/-- The loop that gets the header: `b`, and the chunks from `c` on with the offset of the data in the first of them
when all bytes are there. -/
def getHeader (b : Bytes) (toread : Nat) : List Chunk → Bytes × Option (List Chunk × Nat)
  | [] => (b, none)
  | c :: cs =>
    let weHave := min (Conn.unread c).length toread
    let b := b ++ (Conn.unread c).take weHave
    if toread - weHave = 0 then (b, some (c :: cs, weHave)) else getHeader b (toread - weHave) cs

def copyContent (len : Nat) (b : Bytes) (offset : Nat) : List Chunk → Bytes
  | [] => b
  | c :: cs =>
    if b.length < len then
      let weWant := len - b.length
      let weHave := min ((Conn.unread c).drop offset).length weWant
      copyContent len (b ++ ((Conn.unread c).drop offset).take weHave) 0 cs
    else b

def packetHeader (b : Bytes) : Packet where
  b := []
  len := ((b.getD 5 0).toNat ||| ((b.getD 4 0).toNat <<< 8)) + (b.getD 6 0).toNat
  type := (b.getD 1 0).toNat
  padding := (b.getD 6 0).toNat
  requestId := (b.getD 3 0).toNat ||| ((b.getD 2 0).toNat <<< 8)

/-- `fastcgi_get_packet`: the packet, or `none` when the function returns `-1`, and `hctx->rb`. -/
def getPacket (rb : Chunkqueue) : Option (Option Packet × Chunkqueue) :=
  if rb.chunks = [] then some (none, rb)
  else
    match getHeader [] 8 rb.chunks with
    | (_, none) => some (none, rb)
    | (header, some (cs, offset)) =>
      let packet := packetHeader header
      let b := if packet.len = 0 then [] else copyContent packet.len [] offset cs
      if b.length < packet.len then some (none, rb)
      else
        let packet := { packet with b := b.take (b.length - packet.padding) }
        (rb.markWritten (packet.len + 8)).map fun rb => (some packet, rb)

def getPackets : Nat → Chunkqueue → Option (List Packet × Chunkqueue)
  | 0, rb => some ([], rb)
  | n + 1, rb => do
    let (packet, rb) ← getPacket rb
    match packet with
    | none => return ([], rb)
    | some packet =>
      let (packets, rb) ← getPackets n rb
      return (packet :: packets, rb)

/-! ## One packet -/

/-- The queue as the read of a response builds it: all in memory. -/
structure Ready (rb : Chunkqueue) : Prop where
  wf : rb.WF
  mem : AllMem rb

theorem getHeader_spec (b : Bytes) {toread : Nat} (hpos : 0 < toread) (cs : List Chunk) :
    if toread ≤ (Conn.stream cs).length then
      ∃ cs' offset, getHeader b toread cs = (b ++ (Conn.stream cs).take toread, some (cs', offset)) ∧
        cs' ≠ [] ∧ ((Conn.unread (cs'.headD Chunk.init)).drop offset ++ Conn.stream cs'.tail) =
          (Conn.stream cs).drop toread
    else (getHeader b toread cs).2 = none := by
  induction cs generalizing b toread with
  | nil =>
    rw [if_neg (by simp [Conn.stream]; omega)]
    rfl
  | cons c cs ih =>
    have hstream : Conn.stream (c :: cs) = Conn.unread c ++ Conn.stream cs := rfl
    rw [hstream, List.length_append]
    unfold getHeader
    dsimp only
    by_cases hc : toread ≤ (Conn.unread c).length
    · rw [if_pos (by omega), Nat.min_eq_right hc, Nat.sub_self, if_pos rfl]
      refine ⟨c :: cs, toread, ?_, by simp, ?_⟩
      · rw [List.take_append_of_le_length hc]
      · rw [List.headD_cons, List.tail_cons, List.drop_append_of_le_length hc]
    · have hlt : (Conn.unread c).length < toread := Nat.lt_of_not_le hc
      rw [Nat.min_eq_left (Nat.le_of_lt hlt), List.take_length]
      have := @ih (b ++ Conn.unread c) (toread - (Conn.unread c).length) (by omega)
      by_cases hle : toread - (Conn.unread c).length ≤ (Conn.stream cs).length
      · rw [if_pos hle] at this
        rw [if_pos (by omega), if_neg (by omega)]
        obtain ⟨cs', offset, heq, hne, hrest⟩ := this
        refine ⟨cs', offset, ?_, hne, ?_⟩
        · rw [heq, List.append_assoc, List.take_append, List.take_of_length_le (Nat.le_of_lt hlt)]
        · rw [hrest, List.drop_append, List.drop_of_length_le (Nat.le_of_lt hlt), List.nil_append]
      · rw [if_neg hle] at this
        rw [if_neg (by omega), if_neg (by omega)]
        exact this

theorem copyContent_spec (len : Nat) (b : Bytes) (hb : b.length ≤ len) (offset : Nat) (c : Chunk) (cs : List Chunk) :
    copyContent len b offset (c :: cs) =
      b ++ ((Conn.unread c).drop offset ++ Conn.stream cs).take (len - b.length) := by
  induction cs generalizing b offset c with
  | nil =>
    unfold copyContent
    by_cases hlt : b.length < len
    · rw [if_pos hlt]
      have hnil : Conn.stream [] = [] := rfl
      rw [hnil, List.append_nil]
      unfold copyContent
      dsimp only
      rw [Nat.min_comm, ← List.take_take, List.take_length]
    · rw [if_neg hlt, show len - b.length = 0 by omega, List.take_zero, List.append_nil]
  | cons d cs ih =>
    rw [copyContent]
    have hstream : Conn.stream (d :: cs) = Conn.unread d ++ Conn.stream cs := rfl
    by_cases hlt : b.length < len
    · rw [if_pos hlt]
      dsimp only
      generalize hdata : (Conn.unread c).drop offset = data
      have hlen : (b ++ data.take (min data.length (len - b.length))).length ≤ len := by
        rw [List.length_append, List.length_take]
        omega
      rw [ih _ hlen, List.drop_zero, hstream, List.append_assoc]
      congr 1
      have hleft : len - (b ++ data.take (min data.length (len - b.length))).length =
          len - b.length - data.length := by
        rw [List.length_append, List.length_take]
        omega
      rw [hleft, Nat.min_comm, ← List.take_take, List.take_length]
      simp only [List.take_append]
    · rw [if_neg hlt, show len - b.length = 0 by omega, List.take_zero, List.append_nil]

/-- What a packet has to do with a record: `len` counts the padding. -/
structure Packet.Is (packet : Packet) (r : Record) : Prop where
  type : packet.type = r.type.toNat
  requestId : packet.requestId = r.requestId
  len : packet.len = r.content.length + r.padding.length
  padding : packet.padding = r.padding.length
  content : packet.b = r.content

theorem or_shift (b1 b0 : UInt8) : b0.toNat ||| (b1.toNat <<< 8) = number b1 b0 := by
  unfold number
  rw [Nat.or_comm, Nat.shiftLeft_eq]
  have := Nat.two_pow_add_eq_or_of_lt (b := b0.toNat) (i := 8) b0.toNat_lt b1.toNat
  rw [Nat.mul_comm (2 ^ 8)] at this
  exact this.symm

/-- What `chunkqueue_mark_written` leaves is in memory. -/
theorem markWritten_go_allMem {cs : List Chunk} {cq cq' : Chunkqueue} {n m : Nat} (h : AllMem cq)
    (hcs : cq.chunks = cs) (heq : markWritten.go cs cq n = some (cq', m)) : AllMem cq' := by
  induction cs generalizing cq n with
  | nil =>
    cases heq
    exact h
  | cons c cs ih =>
    unfold markWritten.go at heq
    obtain ⟨cLen, -, heq⟩ := Option.bind_eq_some_iff.mp heq
    split at heq
    · cases heq
      exact h
    · split at heq
      · exact ih (h.pop _) (by rw [pushUnusedChunk_chunks]; simp [dropFirst, hcs]) heq
      · cases heq
        exact AllMem.setFirst h (h c (by simp [hcs]))

/-- `chunkqueue_mark_written` drops the first bytes of the stream. -/
theorem Ready.markWritten {rb : Chunkqueue} (h : Ready rb) {n : Nat} (hn : n ≤ (Conn.stream rb.chunks).length) :
    ∃ rb', rb.markWritten n = some rb' ∧ Ready rb' ∧ Conn.stream rb'.chunks = (Conn.stream rb.chunks).drop n ∧
      rb'.bytesOut = rb.bytesOut + n := by
  have w : World := ⟨fun _ => none, fun _ => none⟩
  have hlen : (Conn.stream rb.chunks).length = rb.total := by
    rw [← h.mem.content w]
    exact length_content (h.mem.inFiles w)
  obtain ⟨rb', heq, hd, hout⟩ := markWritten_spec h.wf (n := n) (by omega)
  have hmem : AllMem rb' := by
    obtain ⟨⟨cq, m⟩, hgo, heq'⟩ := Option.bind_eq_some_iff.mp heq
    have hall := markWritten_go_allMem h.mem rfl hgo
    dsimp only at heq'
    split at heq'
    · cases heq'
      exact hall
    · cases heq'
  refine ⟨rb', heq, ⟨hd.wf, hmem⟩, ?_, hout⟩
  rw [← hmem.content w, hd.content w (h.mem.inFiles w), h.mem.content]

/-- **One call of `fastcgi_get_packet` is one record of the stream**: without a complete record the queue stays as it
is; otherwise the packet is the record, and its bytes are taken off the queue. -/
theorem getPacket_spec {rb : Chunkqueue} (h : Ready rb) :
    match decode (Conn.stream rb.chunks) with
    | none => getPacket rb = some (none, rb)
    | some (r, rest) => ∃ packet rb', getPacket rb = some (some packet, rb') ∧ packet.Is r ∧
        Conn.stream rb'.chunks = rest ∧ rb'.bytesOut = rb.bytesOut + r.size ∧ Ready rb' := by
  have hheader := getHeader_spec [] (by omega : 0 < 8) rb.chunks
  by_cases hshort : (Conn.stream rb.chunks).length < 8
  · rw [if_neg (by omega)] at hheader
    rw [decode_short hshort]
    dsimp only
    unfold getPacket
    split
    · rfl
    · generalize getHeader [] 8 rb.chunks = r at hheader
      obtain ⟨b, t⟩ := r
      obtain rfl : t = none := hheader
      rfl
  · rw [if_pos (by omega)] at hheader
    obtain ⟨cs', offset, hget, hne, hrest⟩ := hheader
    obtain ⟨c, cs, rfl⟩ := List.exists_cons_of_ne_nil hne
    rw [List.headD_cons, List.tail_cons] at hrest
    have hchunks : rb.chunks ≠ [] := by
      intro hnil
      rw [hnil] at hshort
      exact hshort (by simp [Conn.stream])
    have hmark := h.markWritten (n := (packetHeader ((Conn.stream rb.chunks).take 8)).len + 8)
    unfold getPacket
    rw [if_neg hchunks, hget]
    dsimp only
    rw [List.nil_append]
    generalize Conn.stream rb.chunks = s at hshort hrest hmark
    obtain ⟨version, type, id1, id0, len1, len0, pad, reserved, s, rfl⟩ := exists_header hshort
    generalize hpacket : packetHeader ((version :: type :: id1 :: id0 :: len1 :: len0 :: pad :: reserved :: s).take 8)
      = packet at hmark
    have hlen : packet.len = number len1 len0 + pad.toNat := by
      rw [← hpacket, ← or_shift]
      rfl
    have hpad : packet.padding = pad.toNat := by
      rw [← hpacket]
      rfl
    have hcontent : (if packet.len = 0 then [] else copyContent packet.len [] offset (c :: cs)) = s.take packet.len := by
      split
      · rename_i hz
        rw [hz, List.take_zero]
      · rw [copyContent_spec _ _ (Nat.zero_le _), hrest]
        rfl
    rw [hcontent, List.length_take]
    unfold decode
    dsimp only
    rw [← hlen]
    by_cases hle : packet.len ≤ s.length
    · rw [if_pos hle, if_neg (by omega), Nat.min_eq_left hle]
      obtain ⟨rb', hrb', hready, hstream, hout⟩ := hmark (by simp only [List.length_cons]; omega)
      have hcl : (s.take (number len1 len0)).length = number len1 len0 := by
        rw [List.length_take]
        omega
      have hpl : ((s.drop (number len1 len0)).take pad.toNat).length = pad.toNat := by
        rw [List.length_take, List.length_drop]
        omega
      rw [hrb']
      refine ⟨_, rb', rfl, ⟨?_, ?_, ?_, ?_, ?_⟩, ?_, ?_, hready⟩
      · rw [← hpacket]
        rfl
      · rw [← hpacket, ← or_shift]
        rfl
      · dsimp only
        rw [hcl, hpl, hlen]
      · dsimp only
        rw [hpl, hpad]
      · dsimp only
        rw [List.take_take, Nat.min_eq_left (by omega)]
        congr 1
        omega
      · rw [hstream]
        rfl
      · rw [hout]
        unfold Record.size
        dsimp only
        rw [hcl, hpl, hlen]
        omega
    · rw [if_neg hle, if_pos (by omega)]

/-- **Repeated calls yield the records of the stream.** -/
theorem getPackets_decode {rb : Chunkqueue} (h : Ready rb) (n : Nat) :
    ∃ packets rb', getPackets n rb = some (packets, rb') ∧ Ready rb' ∧
      List.Forall₂ Packet.Is packets (decodeN n (Conn.stream rb.chunks)).1 ∧
      Conn.stream rb'.chunks = (decodeN n (Conn.stream rb.chunks)).2 := by
  induction n generalizing rb with
  | zero => exact ⟨[], rb, rfl, h, .nil, rfl⟩
  | succ n ih =>
    have hone := getPacket_spec h
    unfold decodeN
    cases hdec : decode (Conn.stream rb.chunks) with
    | none =>
      rw [hdec] at hone
      dsimp only at hone
      exact ⟨[], rb, by simp [getPackets, hone], h, .nil, rfl⟩
    | some r =>
      obtain ⟨r, rest⟩ := r
      rw [hdec] at hone
      obtain ⟨packet, rb', heq, his, rfl, -, hready⟩ := hone
      obtain ⟨packets, rb'', heq', hready', hall, hrest⟩ := ih hready
      exact ⟨packet :: packets, rb'', by simp [getPackets, heq, heq'], hready', .cons his hall, hrest⟩

/-- **Decoding a FastCGI response does not depend on the chunks.** One call takes the first record of the stream, or
nothing when it is not complete; repeated calls take the records one after the other. -/
theorem packets_are_records (rb : Chunkqueue) (h : Ready rb) :
    (match decode (Conn.stream rb.chunks) with
    | none => getPacket rb = some (none, rb)
    | some (r, rest) => ∃ packet rb', getPacket rb = some (some packet, rb') ∧ packet.Is r ∧
        Conn.stream rb'.chunks = rest ∧ rb'.bytesOut = rb.bytesOut + r.size ∧ Ready rb') ∧
    ∀ n, ∃ packets rb', getPackets n rb = some (packets, rb') ∧
      List.Forall₂ Packet.Is packets (decodeN n (Conn.stream rb.chunks)).1 ∧
      Conn.stream rb'.chunks = (decodeN n (Conn.stream rb.chunks)).2 := by
  refine ⟨getPacket_spec h, fun n => ?_⟩
  obtain ⟨packets, rb', heq, -, hall, hrest⟩ := getPackets_decode h n
  exact ⟨packets, rb', heq, hall, hrest⟩

/-- A record in three chunks, with an empty chunk in between and the first byte of another record behind it. -/
def sampleRb : Chunkqueue :=
  ⟨[⟨.memChunk, .ofString [0, 1, 6, 0, 1, 0], Chunk.noFile, 1⟩, ⟨.memChunk, .ofString [], Chunk.noFile, 0⟩,
    ⟨.memChunk, .ofString ([2, 1, 0] ++ ascii "h"), Chunk.noFile, 0⟩,
    ⟨.memChunk, .ofString (ascii "i" ++ [0, 1]), Chunk.noFile, 0⟩], [], 13, 1, none, 1024, 0⟩

theorem sampleRb_ready : Ready sampleRb := ⟨⟨by decide, nofun⟩, by unfold AllMem; decide⟩

example : (getPackets 2 sampleRb).map (fun r => (r.1.map Packet.b, Conn.stream r.2.chunks)) =
    some ([ascii "hi"], [1]) := by decide

theorem packets_are_records_sample :
    (match decode (Conn.stream sampleRb.chunks) with
    | none => getPacket sampleRb = some (none, sampleRb)
    | some (r, rest) => ∃ packet rb', getPacket sampleRb = some (some packet, rb') ∧ packet.Is r ∧
        Conn.stream rb'.chunks = rest ∧ rb'.bytesOut = sampleRb.bytesOut + r.size ∧ Ready rb') ∧
    ∀ n, ∃ packets rb', getPackets n sampleRb = some (packets, rb') ∧
      List.Forall₂ Packet.Is packets (decodeN n (Conn.stream sampleRb.chunks)).1 ∧
      Conn.stream rb'.chunks = (decodeN n (Conn.stream sampleRb.chunks)).2 :=
  packets_are_records sampleRb sampleRb_ready

end Fcgi
end Lighttpd
