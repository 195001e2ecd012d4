import Lighttpd.Connection.Read
import Lighttpd.Chunk.Content
import Lighttpd.Lib.Occurrence

/-!
# The search for the end of the header

The loops of `connection_handle_read_state` work on chunks; `stream` is the concatenation of the chunks. The search
finds the first end of a header in the stream (`searchHeader_some`, `searchHeader_none`), wherever the chunks begin and
end, and the copy takes exactly the bytes up to there (`copyHeader_spec`).
-/

namespace Lighttpd
namespace Conn
open Occurrence

def stream (cs : List Chunk) : Bytes := cs.flatMap unread

@[simp] theorem stream_cons (c : Chunk) (cs : List Chunk) : stream (c :: cs) = unread c ++ stream cs :=
  List.flatMap_cons

/-- The position in the stream of `lastOffset` in the chunk `lastChunk`. -/
def place : List Chunk → Nat × Nat → Nat
  | [], r => r.2
  | _ :: _, (0, lastOffset) => lastOffset
  | c :: cs, (lastChunk + 1, lastOffset) => (unread c).length + place cs (lastChunk, lastOffset)

/-- The offset lies in the chunk. -/
def Within : List Chunk → Nat × Nat → Prop
  | [], _ => False
  | c :: _, (0, lastOffset) => lastOffset ≤ (unread c).length
  | _ :: cs, (lastChunk + 1, lastOffset) => Within cs (lastChunk, lastOffset)

theorem place_next (c : Chunk) (cs : List Chunk) (r : Nat × Nat) :
    place (c :: cs) (next r) = (unread c).length + place cs r := rfl

variable {cs : List Chunk} {pos : Nat}

/-- What is left of `header_end` is its next byte and the bytes behind it. -/
theorem headerEnd_drop (h : pos < 4) : headerEnd.drop pos = headerEnd.getD pos 0 :: headerEnd.drop (pos + 1) := by
  revert pos
  decide

/-- Matching in one chunk: `pos` bytes of `header_end` have been matched, and `bb` is the rest of the chunk. -/
theorem scanBytes_spec (h : pos < 4) (j : Nat) (bb : Bytes) : match scanBytes pos j bb with
    | .found o => headerEnd.drop pos <+: bb ∧ o + pos = j + 4
    | .reset => ∀ t, ¬ headerEnd.drop pos <+: bb ++ t
    | .more p => p < 4 ∧ headerEnd.drop pos = bb ++ headerEnd.drop p := by
  induction bb generalizing pos j with
  | nil => exact ⟨h, rfl⟩
  | cons ch bb ih =>
    unfold scanBytes
    rw [headerEnd_drop h]
    by_cases hch : ch = headerEnd.getD pos 0
    · rw [if_pos hch]
      by_cases hlast : pos + 1 = 4
      · rw [if_pos hlast]
        have hnil : headerEnd.drop (pos + 1) = [] := by rw [hlast]; rfl
        refine ⟨?_, by omega⟩
        rw [hnil, hch]
        exact List.cons_prefix_cons.mpr ⟨rfl, List.nil_prefix⟩
      · rw [if_neg hlast]
        have ih := ih (show pos + 1 < 4 by omega) (j + 1)
        cases hscan : scanBytes (pos + 1) (j + 1) bb with
        | found o =>
          rw [hscan] at ih
          exact ⟨List.cons_prefix_cons.mpr ⟨hch.symm, ih.1⟩, by have := ih.2; omega⟩
        | reset =>
          rw [hscan] at ih
          exact fun t ht => ih t (List.cons_prefix_cons.mp ht).2
        | more p =>
          rw [hscan] at ih
          exact ⟨ih.1, by rw [ih.2, hch]; rfl⟩
    · rw [if_neg hch]
      exact fun t ht => hch (List.cons_prefix_cons.mp ht).1.symm

theorem scanChunks_spec (h : pos < 4) (cs : List Chunk) : match scanChunks pos cs with
    | some r => headerEnd.drop pos <+: stream cs ∧ place cs r + pos = 4 ∧ Within cs r
    | none => ¬ headerEnd.drop pos <+: stream cs := by
  induction cs generalizing pos with
  | nil =>
    intro hp
    rw [headerEnd_drop h] at hp
    exact absurd (List.prefix_nil.mp hp) (List.cons_ne_nil _ _)
  | cons c cs ih =>
    have hscan := scanBytes_spec h 0 (unread c)
    unfold scanChunks
    rw [stream_cons]
    cases hres : scanBytes pos 0 (unread c) with
    | found o =>
      rw [hres] at hscan
      obtain ⟨hpre, ho⟩ := hscan
      have hlen := hpre.length_le
      rw [List.length_drop] at hlen
      have hfour : headerEnd.length = 4 := rfl
      refine ⟨hpre.trans (List.prefix_append _ _), by simp only [place]; omega, ?_⟩
      show o ≤ (unread c).length
      omega
    | reset =>
      rw [hres] at hscan
      exact hscan _
    | more p =>
      rw [hres] at hscan
      obtain ⟨hp, heq⟩ := hscan
      have hlen := congrArg List.length heq
      rw [List.length_append, List.length_drop, List.length_drop] at hlen
      have hfour : headerEnd.length = 4 := rfl
      have ih := ih hp
      dsimp only
      cases hrest : scanChunks p cs with
      | some r =>
        rw [hrest] at ih
        obtain ⟨hpre, hplace, hwithin⟩ := ih
        refine ⟨?_, ?_, hwithin⟩
        · rw [heq, List.prefix_append_right_inj]
          exact hpre
        · rw [place_next]
          omega
      | none =>
        rw [hrest] at ih
        show ¬ headerEnd.drop pos <+: unread c ++ stream cs
        rw [heq, List.prefix_append_right_inj]
        exact ih

/-- What follows the CR at `i` of the chunk `c`. -/
theorem matchEnd_spec {c : Chunk} {u b : Bytes} {i : Nat} (hu : unread c = u ++ 13 :: b) (hi : u.length = i) :
    match matchEnd cs i b with
    | some r => headerEnd <+: 13 :: b ++ stream cs ∧ place (c :: cs) r = i + 4 ∧ Within (c :: cs) r
    | none => ¬ headerEnd <+: 13 :: b ++ stream cs := by
  have hcons : ∀ s, headerEnd <+: 13 :: s ↔ headerEnd.drop 1 <+: s := fun s =>
    ⟨fun h => (List.cons_prefix_cons.mp h).2, fun h => List.cons_prefix_cons.mpr ⟨rfl, h⟩⟩
  have hlenc : (unread c).length = i + 1 + b.length := by rw [hu, List.length_append, List.length_cons, hi]; omega
  have hfour : headerEnd.length = 4 := rfl
  have hscan := scanBytes_spec (show 1 < 4 by decide) (i + 1) b
  unfold matchEnd
  rw [List.cons_append, hcons]
  cases hres : scanBytes 1 (i + 1) b with
  | found o =>
    rw [hres] at hscan
    obtain ⟨hpre, ho⟩ := hscan
    have hlen := hpre.length_le
    rw [List.length_drop] at hlen
    refine ⟨hpre.trans (List.prefix_append _ _), by simp only [place]; omega, ?_⟩
    show o ≤ (unread c).length
    omega
  | reset =>
    rw [hres] at hscan
    exact hscan _
  | more p =>
    rw [hres] at hscan
    obtain ⟨hp, heq⟩ := hscan
    have hlen := congrArg List.length heq
    rw [List.length_append, List.length_drop, List.length_drop] at hlen
    have hrest := scanChunks_spec hp cs
    dsimp only
    cases hr : scanChunks p cs with
    | some r =>
      rw [hr] at hrest
      obtain ⟨hpre, hplace, hwithin⟩ := hrest
      refine ⟨?_, ?_, hwithin⟩
      · rw [heq, List.prefix_append_right_inj]
        exact hpre
      · rw [place_next]
        omega
    | none =>
      rw [hr] at hrest
      show ¬ headerEnd.drop 1 <+: b ++ stream cs
      rw [heq, List.prefix_append_right_inj]
      exact hrest

/-- The search in the rest `b` of the chunk `c`, of which the bytes `u` have been passed. -/
theorem searchChunk_spec (c : Chunk) (cs : List Chunk) {u b : Bytes} {i : Nat} (hu : unread c = u ++ b)
    (hi : u.length = i) :
    match searchChunk cs i b with
    | some r => ∃ n, firstEnd headerEnd (b ++ stream cs) = some n ∧ place (c :: cs) r = i + n ∧ Within (c :: cs) r
    | none => firstEnd headerEnd (b ++ stream cs) = (firstEnd headerEnd (stream cs)).map (· + b.length) := by
  induction b generalizing u i with
  | nil =>
    show firstEnd headerEnd (stream cs) = (firstEnd headerEnd (stream cs)).map (· + 0)
    simp
  | cons ch b ih =>
    have ih := ih (u := u ++ [ch]) (i := i + 1) (by rw [hu]; simp) (by simp [hi])
    unfold searchChunk
    -- the header ends here if and only if a CR is followed by the rest of `header_end`
    have hhere : match if ch = 13 then matchEnd cs i b else none with
        | some r => headerEnd <+: ch :: b ++ stream cs ∧ place (c :: cs) r = i + 4 ∧ Within (c :: cs) r
        | none => ¬ headerEnd <+: ch :: b ++ stream cs := by
      by_cases hch : ch = 13
      · subst hch
        rw [if_pos rfl]
        exact matchEnd_spec hu hi
      · rw [if_neg hch]
        exact fun h => hch (List.cons_prefix_cons.mp h).1.symm
    cases hres : (if ch = 13 then matchEnd cs i b else none) with
    | some r =>
      rw [hres] at hhere
      obtain ⟨hpre, hplace, hwithin⟩ := hhere
      exact ⟨4, firstEnd_cons_pos hpre, hplace, hwithin⟩
    | none =>
      rw [hres] at hhere
      have hcons : firstEnd headerEnd (ch :: b ++ stream cs) = (firstEnd headerEnd (b ++ stream cs)).map (· + 1) :=
        firstEnd_cons_neg hhere
      simp only
      rw [hcons]
      cases hrest : searchChunk cs (i + 1) b with
      | some r =>
        rw [hrest] at ih
        obtain ⟨n, hn, hplace, hwithin⟩ := ih
        exact ⟨n + 1, by rw [hn]; rfl, by omega, hwithin⟩
      | none =>
        rw [hrest] at ih
        rw [ih, Option.map_map]
        rfl

theorem searchHeader_spec (cs : List Chunk) :
    match searchHeader cs with
    | some r => firstEnd headerEnd (stream cs) = some (place cs r) ∧ Within cs r
    | none => firstEnd headerEnd (stream cs) = none := by
  induction cs with
  | nil => rfl
  | cons c cs ih =>
    have hchunk := searchChunk_spec c cs (u := []) (i := 0) (List.nil_append (unread c)).symm rfl
    unfold searchHeader
    rw [stream_cons]
    cases hres : searchChunk cs 0 (unread c) with
    | some r =>
      rw [hres] at hchunk
      obtain ⟨n, hn, hplace, hwithin⟩ := hchunk
      exact ⟨by rw [hn, hplace, Nat.zero_add], hwithin⟩
    | none =>
      rw [hres] at hchunk
      simp only
      cases hrest : searchHeader cs with
      | some r =>
        rw [hrest] at ih
        refine ⟨?_, ih.2⟩
        rw [hchunk, ih.1, place_next, Option.map_some, Nat.add_comm]
      | none =>
        rw [hrest] at ih
        rw [hchunk, ih]
        rfl

/-- **The search finds the first end of a header in the stream**, however the stream is cut into chunks. -/
theorem searchHeader_some {r : Nat × Nat} (h : searchHeader cs = some r) :
    EndsFirst headerEnd (stream cs) ((stream cs).take (place cs r)) ∧ place cs r ≤ (stream cs).length ∧
      Within cs r := by
  have hs := searchHeader_spec cs
  rw [h] at hs
  obtain ⟨hfirst, hle⟩ := firstEnd_some hs.1
  exact ⟨hfirst, hle, hs.2⟩

theorem searchHeader_none (h : searchHeader cs = none) (p : Bytes) : ¬ EndsFirst headerEnd (stream cs) p := by
  have hs := searchHeader_spec cs
  rw [h] at hs
  exact firstEnd_none hs p

theorem unread_advance (c : Chunk) (n : Nat) : unread (c.advance n) = (unread c).drop n := by
  simp [unread, List.drop_drop]

/-- The chunks that the copy leaves: the same ones, with larger offsets. -/
structure Advanced (cs cs' : List Chunk) : Prop where
  types : ∀ d ∈ cs', ∃ c ∈ cs, d.type = c.type ∧ d.mem = c.mem
  offset : (∀ c ∈ cs, c.offset ≤ c.mem.str.length) → ∀ d ∈ cs', d.offset ≤ d.mem.str.length

theorem offset_advance {c : Chunk} {n : Nat} (h : c.offset ≤ c.mem.str.length) (hn : n ≤ (unread c).length) :
    (c.advance n).offset ≤ (c.advance n).mem.str.length := by
  rw [unread, List.length_drop] at hn
  rw [Chunk.advance_offset, Chunk.advance_mem]
  omega

/-- **The copy takes the header off the stream** and counts its bytes. -/
theorem copyHeader_spec {cs' : List Chunk} {r : Nat × Nat} {request request' : Buffer} {bytesOut bytesOut' : Int}
    (h : Within cs r) (heq : copyHeader cs r.1 r.2 request bytesOut = (cs', request', bytesOut')) :
    stream cs' = (stream cs).drop (place cs r) ∧ request'.str = request.str ++ (stream cs).take (place cs r) ∧
      bytesOut' = bytesOut + place cs r ∧ Advanced cs cs' := by
  induction cs generalizing cs' r request bytesOut with
  | nil => exact absurd h id
  | cons c cs ih =>
    obtain ⟨k, o⟩ := r
    cases k with
    | zero =>
      have ho : o ≤ (unread c).length := h
      obtain ⟨rfl, htail⟩ := Prod.mk.inj heq
      obtain ⟨rfl, rfl⟩ := Prod.mk.inj htail
      refine ⟨?_, ?_, rfl, ?_, ?_⟩
      · rw [stream_cons, stream_cons, unread_advance, place, List.drop_append_of_le_length ho]
      · rw [Buffer.appendStringLen_str, stream_cons, place, List.take_append_of_le_length ho]
      · intro d hd
        rcases List.mem_cons.mp hd with rfl | hd
        · exact ⟨c, List.mem_cons_self, rfl, rfl⟩
        · exact ⟨d, List.mem_cons_of_mem c hd, rfl, rfl⟩
      · intro hoff d hd
        rcases List.mem_cons.mp hd with rfl | hd
        · exact offset_advance (hoff c List.mem_cons_self) ho
        · exact hoff d (List.mem_cons_of_mem c hd)
    | succ k =>
      have hw : Within cs (k, o) := h
      generalize hrec : copyHeader cs k o (request.appendStringLen (unread c)) (bytesOut + (unread c).length) = t
      obtain ⟨ds, request₁, bytesOut₁⟩ := t
      simp only [copyHeader, hrec] at heq
      obtain ⟨rfl, htail⟩ := Prod.mk.inj heq
      obtain ⟨rfl, rfl⟩ := Prod.mk.inj htail
      obtain ⟨hstream, hreq, hout, htypes, hoffs⟩ := ih (r := (k, o)) hw hrec
      have hplace : place (c :: cs) (k + 1, o) = (unread c).length + place cs (k, o) := rfl
      refine ⟨?_, ?_, ?_, ?_, ?_⟩
      · rw [hplace, stream_cons, stream_cons, unread_advance, List.drop_length, List.nil_append, hstream,
          ← List.drop_drop, List.drop_left]
      · rw [hreq, Buffer.appendStringLen_str, hplace, stream_cons, List.take_length_add_append, List.append_assoc]
      · rw [hout, hplace]
        omega
      · intro d hd
        rcases List.mem_cons.mp hd with rfl | hd
        · exact ⟨c, List.mem_cons_self, rfl, rfl⟩
        · obtain ⟨e, he, ht⟩ := htypes d hd
          exact ⟨e, List.mem_cons_of_mem c he, ht⟩
      · intro hoff d hd
        rcases List.mem_cons.mp hd with rfl | hd
        · exact offset_advance (hoff c List.mem_cons_self) (Nat.le_refl _)
        · exact hoffs (fun e he => hoff e (List.mem_cons_of_mem c he)) d hd

end Conn
end Lighttpd
