import Lighttpd.Http.Chunk
import Lighttpd.Chunk.Tempfile
import Lighttpd.Lib.ChunkedCoding
import Mathlib.Tactic.Ring

/-!
# The body that a client decodes

Every step of a handler appends to the stream of the connection (`Appends`): the bytes of its piece as they are, or,
in a chunked response, a chunk with these bytes. The size lines are read back (`uintHex_writesSize`), so that a run
queues the chunked encoding of its pieces, and `chunked_roundtrip_iff` says when a decoder gives them back: exactly
when no explicit range of length zero has been appended to the chunked response. Such a range is written as a chunk
of size zero, which ends the body; the other functions of the chunk API leave out what is empty.
-/

namespace Lighttpd
open Chunkqueue ChunkedCoding

/-! ## Size lines -/

namespace Buffer

theorem hexChar_value (value shift : Nat) : hexValue (hexChar value shift) = some (value / 16 ^ shift % 16) := by
  have hpow : 2 ^ (4 * shift) = 16 ^ shift := by rw [Nat.pow_mul]
  have hnibble : (value >>> (4 * shift)) &&& 0x0F = value / 16 ^ shift % 16 := by
    rw [Nat.and_two_pow_sub_one_eq_mod _ 4, Nat.shiftRight_eq_div_pow, hpow]
  unfold hexChar
  rw [hnibble]
  have hlt : value / 16 ^ shift % 16 < 16 := Nat.mod_lt _ (by decide)
  generalize value / 16 ^ shift % 16 = d at hlt
  revert d
  decide

theorem hexDigits_number (value n shift : Nat) :
    hexNumber n (hexDigits value shift) = some (n * 16 ^ shift + value % 16 ^ shift) := by
  induction shift generalizing n with
  | zero => simp [hexDigits, hexNumber, Nat.mod_one]
  | succ shift ih =>
    rw [hexDigits, hexNumber, hexChar_value, Option.bind_some, ih, Nat.mod_pow_succ, Nat.pow_succ]
    congr 1
    ring

theorem hexDigits_isHex (value shift : Nat) : ∀ c ∈ hexDigits value shift, (hexValue c).isSome := by
  induction shift with
  | zero => nofun
  | succ shift ih =>
    intro c hc
    rcases List.mem_cons.mp hc with rfl | hc
    · rw [hexChar_value]
      rfl
    · exact ih c hc

/-- **The digits of `buffer_append_uint_hex` are read back as the size.** -/
theorem uintHex_writesSize : WritesSize uintHex where
  chunkSize := fun n => by
    have hpos := hexShift_pos n (show 0 < n + 1 from Nat.succ_pos n)
    apply chunkSize_digits
    · unfold uintHex
      obtain ⟨k, hk⟩ : ∃ k, hexShift (n + 1) n = k + 1 := ⟨hexShift (n + 1) n - 1, by omega⟩
      rw [hk]
      exact List.cons_ne_nil _ _
    · rw [uintHex, hexDigits_number, Nat.zero_mul, Nat.zero_add, Nat.mod_eq_of_lt (lt_hexShift (Nat.lt_succ_self n))]
    · exact hexDigits_isHex n _
  noCr := fun n h => by
    have hcr : hexValue 13 = none := by decide
    have := hexDigits_isHex n _ 13 h
    rw [hcr] at this
    cases this

end Buffer

/-! ## Appending to a queue -/

namespace Chunkqueue

/-- The queue and its temp files are as they should be. -/
structure Sound (w : World) (cq : Chunkqueue) : Prop where
  wf : cq.WF
  coherent : Coherent w cq.chunks

variable {w : World} {cq cq' : Chunkqueue}

theorem Sound.inFiles (h : Sound w cq) : cq.InFiles w := h.coherent.inFile

structure Extended (w : World) (cq : Chunkqueue) (w' : World) (cq' : Chunkqueue) (data : Bytes) : Prop where
  sound : Sound w' cq'
  content : cq'.content w' = cq.content w ++ data

theorem Extended.trans {w' w'' : World} {cq'' : Chunkqueue} {data data' : Bytes}
    (h : Extended w cq w' cq' data) (h' : Extended w' cq' w'' cq'' data') :
    Extended w cq w'' cq'' (data ++ data') where
  sound := h'.sound
  content := by rw [h'.content, h.content, List.append_assoc]

theorem Extended.refl (h : Sound w cq) : Extended w cq w cq [] :=
  ⟨h, (List.append_nil _).symm⟩

theorem Pushed.extended {c : Chunk} (hp : Pushed cq cq' c) (h : Sound w cq)
    (hc : c.OffsetOk) (hin : c.InFile w) (ha : ¬ Appendable c) : Extended w cq w cq' (c.bytes w) where
  sound := by
    refine ⟨hp.wf h.wf hc, ?_⟩
    have hcoh : Coherent w (cq.chunks ++ []) := (List.append_nil cq.chunks).symm ▸ h.coherent
    rw [hp.chunks]
    exact hcoh.insert hin ha
  content := hp.content w

theorem appendMem_extended {mem : Bytes} (h : Sound w cq)
    (heq : cq.appendMem mem = some cq') : Extended w cq w cq' mem := by
  by_cases hm : mem = []
  · subst hm
    cases heq
    exact .refl h
  · obtain ⟨c, cq₁, heq₁, hp, hc, hstr, hoff⟩ := appendMem_spec h.wf hm
    obtain rfl : cq' = cq₁ := Option.some.inj (heq.symm.trans heq₁)
    have hb : c.bytes w = mem := by rw [Chunk.bytes_mem hc, hstr, hoff, List.drop_zero]
    rw [← hb]
    exact hp.extended h (Chunk.offsetOk_of_offset_eq_zero hoff) (Chunk.inFile_mem hc) (not_appendable_mem hc)

theorem appendBuffer_extended {mem b : Buffer} (h : Sound w cq)
    (heq : cq.appendBuffer mem = some (cq', b)) : Extended w cq w cq' mem.str := by
  by_cases hm : mem.str = []
  · rw [appendBuffer, if_pos (by simpa using hm)] at heq
    cases heq
    rw [hm]
    exact .refl h
  · obtain ⟨c, cq₁, b₁, heq₁, hp, hc, hstr, hoff, -⟩ := appendBuffer_spec h.wf hm
    obtain ⟨rfl, rfl⟩ := Prod.mk.inj (Option.some.inj (heq.symm.trans heq₁))
    have hb : c.bytes w = mem.str := by rw [Chunk.bytes_mem hc, hstr, hoff, List.drop_zero]
    rw [← hb]
    exact hp.extended h (Chunk.offsetOk_of_offset_eq_zero hoff) (Chunk.inFile_mem hc) (not_appendable_mem hc)

theorem appendFileFd_extended {fn : Path} {fd : Fd} {offset len : Nat}
    (h : Sound w cq) (hle : offset + len ≤ (w.content fn).length) (heq : cq.appendFileFd fn fd offset len = some cq') :
    Extended w cq w cq' (((w.content fn).drop offset).take len) := by
  by_cases hl : len = 0
  · rw [appendFileFd, if_pos hl] at heq
    cases heq
    rw [hl, List.take_zero]
    exact .refl h
  · obtain ⟨c, cq₁, heq₁, hp, hc, hfile, hoff⟩ := appendFileFd_spec h.wf fn fd offset hl
    obtain rfl : cq' = cq₁ := Option.some.inj (heq.symm.trans heq₁)
    have hb : c.bytes w = ((w.content fn).drop offset).take len := by
      rw [Chunk.bytes_file hc, hfile, hoff, List.drop_zero]
    have hin : c.InFile w := fun _ => by rw [hfile]; exact hle
    have ha : ¬ Appendable c := fun ha => by
      have htemp := ha.2.1
      rw [hfile] at htemp
      cases htemp
    rw [← hb]
    exact hp.extended h (Chunk.offsetOk_of_offset_eq_zero hoff) hin ha

theorem appendMemToTempfile_extended {mem : Bytes} {ios ios' : List Attempt}
    {t : TempResult} (h : Sound w cq) (heq : appendMemToTempfile ios cq w mem = some (t, ios')) (hok : t.ok = true) :
    Extended w cq t.world t.cq mem := by
  obtain ⟨data, -, hdata, hstep⟩ := appendMemToTempfile_spec h.wf heq
  have hcoh : Coherent w (cq.chunks ++ []) := (List.append_nil cq.chunks).symm ▸ h.coherent
  refine ⟨⟨hstep.wf, ?_⟩, ?_⟩
  · have := hstep.coherent [] hcoh
    rwa [List.append_nil] at this
  · rw [hstep.content [] hcoh, hdata hok]

theorem opened_extended {fd : Fd} (h : Sound w cq) (hfd : w.fdpos fd = none) : Extended w cq (w.opened fd) cq [] where
  sound := by
    refine ⟨h.wf, fun c hc => Chunk.inFile_congr rfl (h.coherent.inFile c hc), fun c hc ha => ?_, h.coherent.names,
      h.coherent.fds⟩
    obtain ⟨hstart, hfile, fd', hfd', hpos⟩ := h.coherent.temp c hc ha
    refine ⟨hstart, hfile, fd', hfd', ?_⟩
    have hne : fd' ≠ fd := by
      rintro rfl
      rw [hfd] at hpos
      cases hpos
    exact (if_neg hne).trans hpos
  content := by
    rw [List.append_nil]
    exact content_congr rfl cq

theorem markWritten_go_coherent {cs : List Chunk} {n m : Nat}
    (hcs : cq.chunks = cs) (hcoh : Coherent w cs) (h : markWritten.go cs cq n = some (cq', m)) :
    Coherent w cq'.chunks := by
  induction cs generalizing cq n with
  | nil =>
    cases h
    rw [hcs]
    exact hcoh
  | cons c cs ih =>
    simp only [markWritten.go, Option.bind_eq_bind, Option.bind_eq_some_iff] at h
    obtain ⟨k, hk, h⟩ := h
    obtain ⟨-, rfl⟩ := Chunk.remainingLength_some hk
    split at h
    · cases h
      rw [hcs]
      exact hcoh
    · rename_i hstop
      split at h
      · exact ih (by simp [dropFirst, hcs]) (hcoh.sublist (List.sublist_cons_self c cs)) h
      · cases h
        have hchunks : (cq.setFirst (c.advance n)).chunks = [] ++ c.advance n :: cs := by simp [setFirst, hcs]
        rw [hchunks]
        have hcoh' : Coherent w ([] ++ c :: cs) := hcoh
        exact hcoh'.replace (hcoh.inFile c List.mem_cons_self)
          (not_appendable_of_offset (by rw [Chunk.advance_offset]; omega))

theorem markWritten_sound {n : Nat} (h : Sound w cq) (heq : cq.markWritten n = some cq') :
    Sound w cq' ∧ cq'.content w = (cq.content w).drop n := by
  have hle := markWritten_le h.wf heq
  obtain ⟨cq₁, heq₁, hd, -⟩ := markWritten_spec h.wf hle
  obtain rfl : cq' = cq₁ := Option.some.inj (heq.symm.trans heq₁)
  obtain ⟨cq₂, hgo, -, -⟩ := markWritten_go_spec h.wf rfl hle
  have hchunks : cq'.chunks = cq₂.chunks := by
    simp only [markWritten, hgo] at heq
    cases heq
    rfl
  refine ⟨⟨hd.wf, ?_⟩, hd.content w h.inFiles⟩
  rw [hchunks]
  exact markWritten_go_coherent rfl h.coherent hgo

theorem sound_nil (h : cq.WF) (hc : cq.chunks = []) : Sound w cq := by
  refine ⟨h, ?_⟩
  rw [hc]
  exact .nil w

theorem prependBuffer_sound {mem b : Buffer} (h : Sound w cq)
    (heq : cq.prependBuffer mem = some (cq', b)) : Sound w cq' ∧ cq'.content w = mem.str ++ cq.content w := by
  obtain ⟨cq₁, b₁, heq₁, hp, -⟩ := prependBuffer_prefixed h.wf mem
  obtain ⟨rfl, rfl⟩ := Prod.mk.inj (Option.some.inj (heq.symm.trans heq₁))
  refine ⟨⟨hp.wf, ?_⟩, hp.content w⟩
  unfold prependBuffer at heq
  split at heq
  · cases heq
    exact h.coherent
  · obtain ⟨cq₂, hpre, heq⟩ := Option.bind_eq_some_iff.mp heq
    obtain ⟨rfl, -⟩ := Prod.mk.inj (Option.some.inj heq)
    obtain ⟨cq₃, heq₃, hchunks, -⟩ := prepend_unused_spec h.wf
      (fun c => { c with type := .memChunk, mem := (c.mem.move mem).1 })
      (fun c hc => Chunk.offsetOk_of_offset_eq_zero hc.offset)
    obtain rfl : cq₂ = cq₃ := Option.some.inj (hpre.symm.trans heq₃)
    have hcoh : Coherent w ([] ++ cq.chunks) := h.coherent
    rw [hchunks]
    exact hcoh.insert (Chunk.inFile_mem rfl) (not_appendable_mem rfl)

end Chunkqueue

/-! ## Steps of a handler -/

namespace Response

/-- The bytes that stand for the pieces `ps` in a response. -/
def coded (chunked : Bool) (ps : List Bytes) : Bytes :=
  if chunked then ps.flatMap (encodeChunk Buffer.uintHex) else ps.flatten

theorem coded_append (chunked : Bool) (ps qs : List Bytes) :
    coded chunked (ps ++ qs) = coded chunked ps ++ coded chunked qs := by
  cases chunked <;> simp [coded]

theorem coded_nil (chunked : Bool) : coded chunked [] = [] := by cases chunked <;> rfl

/-- A response whose queue is sound and whose bytes go to the network only after the header. -/
structure Good (r : Response) : Prop where
  sound : Sound r.world r.writeQueue
  sent : r.headerWritten = false → r.sent = []

/-- **The law of the chunk API**: `r'` is `r` with the pieces `ps` behind its stream, each as a chunk if the response
is chunked. -/
structure Appends (r r' : Response) (ps : List Bytes) : Prop where
  good : Good r'
  stream : r'.stream = r.stream ++ coded r.chunked ps
  chunked : r'.chunked = r.chunked
  headerWritten : r'.headerWritten = r.headerWritten

/-- Parts of a response that an append to the queue leaves as they are. -/
structure Keeps (r r' : Response) : Prop where
  chunked : r'.chunked = r.chunked
  headerWritten : r'.headerWritten = r.headerWritten
  sent : r'.sent = r.sent

variable {r r' : Response} {mem : Bytes} {fn : Path}
variable {r'' : Response} {data : Bytes} {ios : List Attempt} {fd : Option Fd}

theorem Keeps.trans (h : Keeps r r') (h' : Keeps r' r'') : Keeps r r'' :=
  ⟨h'.chunked.trans h.chunked, h'.headerWritten.trans h.headerWritten, h'.sent.trans h.sent⟩

/-- The queue of `r'` is that of `r` with `data` behind it. -/
structure Queues (r r' : Response) (data : Bytes) : Prop where
  keeps : Keeps r r'
  extended : Extended r.world r.writeQueue r'.world r'.writeQueue data

theorem Queues.trans {data' : Bytes} (h : Queues r r' data) (h' : Queues r' r'' data') :
    Queues r r'' (data ++ data') :=
  ⟨h.keeps.trans h'.keeps, h.extended.trans h'.extended⟩

theorem Queues.refl (h : Good r) : Queues r r [] := ⟨⟨rfl, rfl, rfl⟩, .refl h.sound⟩

theorem Queues.appends {ps : List Bytes} (h : Queues r r' data) (hg : Good r)
    (hps : data = coded r.chunked ps) : Appends r r' ps where
  good := ⟨h.extended.sound, fun hw => h.keeps.sent.trans (hg.sent (h.keeps.headerWritten ▸ hw))⟩
  stream := by rw [stream, stream, h.keeps.sent, h.extended.content, hps, List.append_assoc]
  chunked := h.keeps.chunked
  headerWritten := h.keeps.headerWritten

theorem Appends.trans {ps qs : List Bytes} (h : Appends r r' ps) (h' : Appends r' r'' qs) :
    Appends r r'' (ps ++ qs) where
  good := h'.good
  stream := by rw [h'.stream, h.stream, h.chunked, coded_append, List.append_assoc]
  chunked := h'.chunked.trans h.chunked
  headerWritten := h'.headerWritten.trans h.headerWritten

theorem Appends.refl (h : Good r) : Appends r r [] :=
  (Queues.refl h).appends h (coded_nil _).symm

@[simp] theorem chunkLen_str (b : Buffer) (len : Nat) : (chunkLen b len).str = Buffer.uintHex len ++ crlf := by
  have hcrlf : ascii "\r\n" = crlf := by decide
  simp [chunkLen, hcrlf]

theorem queueMem_queues (h : Sound r.world r.writeQueue) (heq : r.queueMem mem = some r') : Queues r r' mem := by
  obtain ⟨cq, hcq, heq⟩ := Option.bind_eq_some_iff.mp heq
  cases heq
  exact ⟨⟨rfl, rfl, rfl⟩, appendMem_extended h hcq⟩

theorem beginChunk_queues {len : Nat} (h : Sound r.world r.writeQueue) (heq : r.beginChunk len = some r') :
    Queues r r' (if r.chunked then Buffer.uintHex len ++ crlf else []) := by
  unfold beginChunk at heq
  split at heq
  · rename_i hc
    obtain ⟨⟨cq, b⟩, hcq, heq⟩ := Option.bind_eq_some_iff.mp heq
    cases heq
    rw [if_pos hc, ← chunkLen_str r.tmpChunkLen]
    exact ⟨⟨rfl, rfl, rfl⟩, appendBuffer_extended h hcq⟩
  · rename_i hc
    cases heq
    rw [if_neg hc]
    exact ⟨⟨rfl, rfl, rfl⟩, .refl h⟩

theorem endChunk_queues (h : Sound r.world r.writeQueue) (heq : r.endChunk = some r') :
    Queues r r' (if r.chunked then crlf else []) := by
  unfold endChunk at heq
  split at heq
  · rename_i hc
    have hcrlf : ascii "\r\n" = crlf := by decide
    rw [if_pos hc, ← hcrlf]
    exact queueMem_queues h heq
  · rename_i hc
    cases heq
    rw [if_neg hc]
    exact ⟨⟨rfl, rfl, rfl⟩, .refl h⟩

theorem coded_singleton (chunked : Bool) (data : Bytes) :
    (if chunked then Buffer.uintHex data.length ++ crlf else []) ++ data ++ (if chunked then crlf else []) =
      coded chunked [data] := by
  cases chunked <;> simp [coded, encodeChunk]

/-- Between the size line and the CRLF, `data` goes to the end of the queue. -/
theorem chunk_appends {r₁ r₂ : Response} (hg : Good r)
    (h₁ : r.beginChunk data.length = some r₁) (h₂ : Queues r₁ r₂ data) (h₃ : r₂.endChunk = some r') :
    Appends r r' [data] := by
  have hbegin := beginChunk_queues hg.sound h₁
  have hend := endChunk_queues h₂.extended.sound h₃
  rw [h₂.keeps.chunked, hbegin.keeps.chunked] at hend
  exact ((hbegin.trans h₂).trans hend).appends hg (coded_singleton _ _)

theorem httpChunkAppendFileFdRange_appends {fd : Fd} {offset len : Nat} (hg : Good r)
    (hle : offset + len ≤ (r.world.content fn).length)
    (heq : r.httpChunkAppendFileFdRange fn fd offset len = some r') :
    Appends r r' [((r.world.content fn).drop offset).take len] := by
  obtain ⟨r₁, h₁, heq⟩ := Option.bind_eq_some_iff.mp heq
  obtain ⟨cq, h₂, h₃⟩ := Option.bind_eq_some_iff.mp heq
  have hbegin := beginChunk_queues hg.sound h₁
  have hworld : r₁.world = r.world := by
    unfold beginChunk httpChunkAppendLen at h₁
    split at h₁
    · obtain ⟨⟨cq, b⟩, -, h₁⟩ := Option.bind_eq_some_iff.mp h₁
      cases h₁
      rfl
    · cases h₁
      rfl
  have hlen : (((r.world.content fn).drop offset).take len).length = len := by
    rw [List.length_take, List.length_drop]
    omega
  have hfile : Extended r₁.world r₁.writeQueue r₁.world cq (((r₁.world.content fn).drop offset).take len) :=
    appendFileFd_extended hbegin.extended.sound (hworld ▸ hle) h₂
  have hcontent : r₁.world.content fn = r.world.content fn := by rw [hworld]
  rw [hcontent] at hfile
  have hq : Queues r₁ { r₁ with writeQueue := cq } (((r.world.content fn).drop offset).take len) :=
    ⟨⟨rfl, rfl, rfl⟩, hfile⟩
  exact chunk_appends hg (hlen.symm ▸ h₁) hq h₃

theorem queueTempfile_queues {ios' : List Attempt}
    (h : Sound r.world r.writeQueue) (heq : r.queueTempfile ios mem = some (true, r', ios')) : Queues r r' mem := by
  obtain ⟨⟨t, ios₁⟩, ht, heq⟩ := Option.bind_eq_some_iff.mp heq
  obtain ⟨hok, heq⟩ := Prod.mk.inj (Option.some.inj heq)
  obtain ⟨rfl, rfl⟩ := Prod.mk.inj heq
  exact ⟨⟨rfl, rfl, rfl⟩, appendMemToTempfile_extended h ht hok⟩

theorem httpChunkAppendToTempfile_appends (hg : Good r)
    (heq : r.httpChunkAppendToTempfile ios mem = some (true, r')) : Appends r r' [mem] := by
  unfold httpChunkAppendToTempfile at heq
  cases hc : r.chunked with
  | true =>
    rw [if_pos hc] at heq
    obtain ⟨⟨ok₁, r₁, ios₁⟩, h₁, heq⟩ := Option.bind_eq_some_iff.mp heq
    cases ok₁ with
    | false => cases heq
    | true =>
      obtain ⟨⟨ok₂, r₂, ios₂⟩, h₂, heq⟩ := Option.bind_eq_some_iff.mp heq
      cases ok₂ with
      | false => cases heq
      | true =>
        obtain ⟨⟨ok₃, r₃, ios₃⟩, h₃, heq⟩ := Option.bind_eq_some_iff.mp heq
        obtain ⟨rfl, rfl⟩ := Prod.mk.inj (Option.some.inj heq)
        have hlen : Queues r { r with tmpChunkLen := chunkLen r.tmpChunkLen mem.length } [] :=
          ⟨⟨rfl, rfl, rfl⟩, .refl hg.sound⟩
        have hq₁ := queueTempfile_queues hlen.extended.sound h₁
        have hq₂ := queueTempfile_queues hq₁.extended.sound h₂
        have hq₃ := queueTempfile_queues hq₂.extended.sound h₃
        have hcrlf : ascii "\r\n" = crlf := by decide
        apply (((hlen.trans hq₁).trans hq₂).trans hq₃).appends hg
        rw [← coded_singleton, hc, chunkLen_str, hcrlf]
        rfl
  | false =>
    rw [if_neg (by simp [hc])] at heq
    obtain ⟨⟨ok₁, r₁, ios₁⟩, h₁, heq⟩ := Option.bind_eq_some_iff.mp heq
    obtain ⟨rfl, rfl⟩ := Prod.mk.inj (Option.some.inj heq)
    exact (queueTempfile_queues hg.sound h₁).appends hg (by simp [coded, hc])

theorem queueData_queues {b : Option Buffer} (h : Sound r.world r.writeQueue)
    (heq : r.queueData b mem = some r') : Queues r r' (dataOf b mem) := by
  cases b with
  | some b =>
    obtain ⟨⟨cq, b'⟩, hb, rfl⟩ := Option.map_eq_some_iff.mp heq
    exact ⟨⟨rfl, rfl, rfl⟩, appendBuffer_extended h hb⟩
  | none => exact queueMem_queues h heq

theorem httpChunkAppendData_appends {b : Option Buffer}
    (hg : Good r) (heq : r.httpChunkAppendData ios b mem = some (true, r')) :
    ∃ ps, Appends r r' ps ∧ ps.flatten = dataOf b mem ∧ ∀ p ∈ ps, p ≠ [] := by
  unfold httpChunkAppendData at heq
  dsimp only at heq
  split at heq
  · rename_i h0
    cases heq
    refine ⟨[], .refl hg, ?_, nofun⟩
    exact (List.eq_nil_of_length_eq_zero h0).symm
  · rename_i h0
    have hne : ∀ p ∈ [dataOf b mem], p ≠ [] := by
      intro p hp hnil
      rw [List.mem_singleton.mp hp] at hnil
      exact h0 (by rw [hnil]; rfl)
    refine ⟨[dataOf b mem], ?_, by simp, hne⟩
    split at heq
    · exact httpChunkAppendToTempfile_appends hg heq
    · obtain ⟨r₁, h₁, heq⟩ := Option.bind_eq_some_iff.mp heq
      obtain ⟨r₂, h₂, heq⟩ := Option.bind_eq_some_iff.mp heq
      obtain ⟨r₃, h₃, heq⟩ := Option.bind_eq_some_iff.mp heq
      obtain ⟨-, rfl⟩ := Prod.mk.inj (Option.some.inj heq)
      have hsound := (beginChunk_queues hg.sound h₁).extended.sound
      exact chunk_appends hg h₁ (queueData_queues hsound h₂) h₃

theorem openedFile_appends {fd' : Fd} (hg : Good r)
    (h : opens r.world fn fd = some fd') : Appends r (r.openedFile fd') [] := by
  have hfd : r.world.fdpos fd' = none := by
    cases fd with
    | none => cases h
    | some fd =>
      simp only [opens] at h
      split at h
      · rename_i hopen
        cases h
        exact hopen.2
      · cases h
  have hq : Queues r (r.openedFile fd') [] := ⟨⟨rfl, rfl, rfl⟩, opened_extended hg.sound hfd⟩
  exact hq.appends hg (coded_nil _).symm

theorem httpChunkAppendFile_appends {ok : Bool} (hg : Good r) (heq : r.httpChunkAppendFile fn fd = some (ok, r')) :
    ∃ ps, Appends r r' ps ∧ ps.flatten = (if (opens r.world fn fd).isSome then r.world.content fn else []) ∧
      ∀ p ∈ ps, p ≠ [] := by
  unfold httpChunkAppendFile at heq
  cases hopen : opens r.world fn fd with
  | none =>
    rw [hopen] at heq
    cases heq
    exact ⟨[], .refl hg, rfl, nofun⟩
  | some fd' =>
    have ho := openedFile_appends hg hopen
    simp only [hopen] at heq
    split at heq
    · rename_i hsize
      obtain ⟨r₁, h₁, heq⟩ := Option.map_eq_some_iff.mp heq
      cases heq
      have happ := httpChunkAppendFileFdRange_appends ho.good (Nat.le_of_eq (Nat.zero_add _)) h₁
      have hall : ((r.world.content fn).drop 0).take (fileSize r.world fn) = r.world.content fn := by
        rw [List.drop_zero]
        exact List.take_length
      refine ⟨_, ho.trans happ, ?_, fun p hp hnil => hsize ?_⟩
      · exact (List.append_nil _).trans hall
      · rw [List.nil_append, List.mem_singleton] at hp
        have : r.world.content fn = [] := hall.symm.trans (hp.symm.trans hnil)
        simp [fileSize, this]
    · rename_i hsize
      cases heq
      refine ⟨[], ho, ?_, nofun⟩
      have hnil : r.world.content fn = [] := List.eq_nil_of_length_eq_zero (Decidable.not_not.mp hsize).symm
      simp [hnil]

theorem httpChunkAppendFileRange_appends {offset : Nat}
    {len : Option Nat} {ok : Bool} (hg : Good r) (heq : r.httpChunkAppendFileRange fn fd offset len = some (ok, r')) :
    ∃ ps, Appends r r' ps ∧ ps.flatten = (BodyStep.appendFileRange fn fd offset len).piece r.world ∧
      ((∀ p ∈ ps, p ≠ []) ↔ ¬ (BodyStep.appendFileRange fn fd offset len).ZeroRange r.world) := by
  unfold httpChunkAppendFileRange at heq
  cases hopen : opens r.world fn fd with
  | none =>
    rw [hopen] at heq
    cases heq
    refine ⟨[], .refl hg, ?_, iff_of_true nofun ?_⟩
    · cases len <;> simp [BodyStep.piece, hopen]
    · rcases len with _ | _ | len <;> simp [BodyStep.ZeroRange, hopen]
  | some fd' =>
    have ho := openedFile_appends hg hopen
    simp only [hopen] at heq
    cases len with
    | none =>
      have hpiece : (BodyStep.appendFileRange fn fd offset none).piece r.world = (r.world.content fn).drop offset := by
        simp [BodyStep.piece, hopen]
      simp only at heq
      split at heq
      · rename_i hge
        cases heq
        refine ⟨[], ho, ?_, iff_of_true nofun id⟩
        rw [hpiece, List.drop_eq_nil_of_le hge]
        rfl
      · rename_i hlt
        obtain ⟨r₁, h₁, heq⟩ := Option.map_eq_some_iff.mp heq
        cases heq
        have hsize : fileSize r.world fn = (r.world.content fn).length := rfl
        have happ := httpChunkAppendFileFdRange_appends ho.good (show offset + (fileSize r.world fn - offset) ≤
          (r.world.content fn).length by omega) h₁
        have hall : ((r.world.content fn).drop offset).take (fileSize r.world fn - offset) =
            (r.world.content fn).drop offset := List.take_of_length_le (by rw [List.length_drop, hsize])
        refine ⟨_, ho.trans happ, ?_, iff_of_true (fun p hp hnil => ?_) id⟩
        · rw [hpiece]
          exact (List.append_nil _).trans hall
        · rw [List.nil_append, List.mem_singleton] at hp
          have hnil' : (r.world.content fn).drop offset = [] := hall.symm.trans (hp.symm.trans hnil)
          have := List.drop_eq_nil_iff.mp hnil'
          omega
    | some len =>
      have hsize : fileSize r.world fn = (r.world.content fn).length := rfl
      simp only at heq
      split at heq
      · rename_i hlt
        cases heq
        refine ⟨[], ho, ?_, iff_of_true nofun ?_⟩
        · have : ¬ offset + len ≤ (r.world.content fn).length := by omega
          simp [BodyStep.piece, this]
        · cases len with
          | zero =>
            rintro ⟨-, hle⟩
            omega
          | succ len => exact id
      · rename_i hge
        obtain ⟨r₁, h₁, heq⟩ := Option.map_eq_some_iff.mp heq
        cases heq
        have hle : offset + len ≤ (r.world.content fn).length := by omega
        have happ := httpChunkAppendFileFdRange_appends ho.good hle h₁
        refine ⟨_, ho.trans happ, ?_, ?_⟩
        · simp only [BodyStep.piece, hopen, Option.isSome_some, true_and, if_pos hle]
          exact List.append_nil _
        · have hlen : (((r.world.content fn).drop offset).take len).length = len := by
            rw [List.length_take, List.length_drop]
            omega
          cases len with
          | zero =>
            refine iff_of_false (fun h => h [] ?_ rfl) (not_not_intro ⟨by rw [hopen]; rfl, by omega⟩)
            rw [List.take_zero]
            exact List.mem_singleton.mpr rfl
          | succ len =>
            refine iff_of_true (fun p hp hnil => ?_) id
            rw [List.nil_append, List.mem_singleton] at hp
            have : p.length = len + 1 := (congrArg List.length hp).trans hlen
            rw [hnil] at this
            cases this

theorem written_appends {n : Nat} (hg : Good r) (heq : r.written n = some r') : Appends r r' [] := by
  unfold written at heq
  split at heq
  · rename_i hw
    obtain ⟨cq, hcq, heq⟩ := Option.bind_eq_some_iff.mp heq
    cases heq
    obtain ⟨hsound, hcont⟩ := markWritten_sound hg.sound hcq
    refine ⟨⟨hsound, fun hf => ?_⟩, ?_, rfl, rfl⟩
    · exact absurd (hw.symm.trans hf) nofun
    · rw [coded_nil, List.append_nil, stream, stream, hcont, List.append_assoc, List.take_append_drop]
  · cases heq

end Response

/-- **One step of a handler** appends its piece to the stream, and only an explicit range of length zero appends an
empty piece. -/
theorem BodyStep.run_appends {s : BodyStep} {r r' : Response} (hg : r.Good) (heq : s.run r = some r') :
    ∃ ps, r.Appends r' ps ∧ ps.flatten = s.piece r.world ∧ ((∀ p ∈ ps, p ≠ []) ↔ ¬ s.ZeroRange r.world) := by
  cases s with
  | appendBuffer mem ios =>
    obtain ⟨⟨ok, r₁⟩, h₁, heq⟩ := Option.bind_eq_some_iff.mp heq
    cases ok with
    | false => cases heq
    | true =>
      cases heq
      obtain ⟨ps, happ, hflat, hne⟩ := Response.httpChunkAppendData_appends hg h₁
      exact ⟨ps, happ, hflat, iff_of_true hne id⟩
  | appendMem mem ios =>
    obtain ⟨⟨ok, r₁⟩, h₁, heq⟩ := Option.bind_eq_some_iff.mp heq
    cases ok with
    | false => cases heq
    | true =>
      cases heq
      obtain ⟨ps, happ, hflat, hne⟩ := Response.httpChunkAppendData_appends hg h₁
      exact ⟨ps, happ, hflat, iff_of_true hne id⟩
  | appendFile fn fd =>
    obtain ⟨⟨ok, r₁⟩, h₁, rfl⟩ := Option.map_eq_some_iff.mp heq
    obtain ⟨ps, happ, hflat, hne⟩ := Response.httpChunkAppendFile_appends hg h₁
    exact ⟨ps, happ, hflat, iff_of_true hne id⟩
  | appendFileRange fn fd offset len =>
    obtain ⟨⟨ok, r₁⟩, h₁, rfl⟩ := Option.map_eq_some_iff.mp heq
    exact Response.httpChunkAppendFileRange_appends hg h₁
  | written n => exact ⟨[], Response.written_appends hg heq, rfl, iff_of_true nofun id⟩

namespace Response

/-! ## Runs -/

variable {r r' : Response}

/-- **A run of a handler** appends its pieces to the stream; all of them have bytes exactly when no explicit range of
length zero is among the steps. -/
theorem run_appends {ss : List BodyStep} {data : Bytes} (hg : Good r) (heq : run ss r = some (r', data)) :
    ∃ ps, Appends r r' ps ∧ ps.flatten = data ∧ ((∀ p ∈ ps, p ≠ []) ↔ NoZeroRange ss r) := by
  induction ss generalizing r data with
  | nil =>
    cases heq
    exact ⟨[], .refl hg, rfl, iff_of_true nofun trivial⟩
  | cons s ss ih =>
    obtain ⟨r₁, h₁, heq⟩ := Option.bind_eq_some_iff.mp heq
    obtain ⟨⟨r₂, data₂⟩, h₂, heq⟩ := Option.bind_eq_some_iff.mp heq
    cases heq
    obtain ⟨ps, happ, hflat, hne⟩ := s.run_appends hg h₁
    obtain ⟨qs, happ', hflat', hne'⟩ := ih happ.good h₂
    refine ⟨ps ++ qs, happ.trans happ', by rw [List.flatten_append, hflat, hflat'], ?_⟩
    rw [List.forall_mem_append, hne, hne', NoZeroRange]
    refine and_congr_right fun _ => ⟨fun h r₃ h₃ => ?_, fun h => h r₁ h₁⟩
    rwa [Option.some.inj (h₃.symm.trans h₁)]

theorem Fresh.good (h : Fresh r) : Good r where
  sound := by
    refine sound_nil ⟨fun c hc => ?_, h.unused⟩ h.chunks
    rw [h.chunks] at hc
    cases hc
  sent := fun _ => h.sent

theorem Fresh.stream (h : Fresh r) : r.stream = [] := by
  rw [Response.stream, h.sent, content, h.chunks]
  rfl

theorem initialChunk_spec (hg : Good r) (heq : r.initialChunk = some r') :
    ∃ ps, Sound r'.world r'.writeQueue ∧ r'.writeQueue.content r'.world = coded true ps ∧
      ps.flatten = r.writeQueue.content r.world ∧ (∀ p ∈ ps, p ≠ []) ∧ r'.sent = r.sent := by
  obtain ⟨qlen, hlen, heq⟩ := Option.bind_eq_some_iff.mp heq
  rw [length_eq hg.sound.wf] at hlen
  obtain rfl := Option.some.inj hlen
  have htotal := length_content hg.sound.inFiles
  split at heq
  · rename_i hne
    obtain ⟨⟨cq, b⟩, hcq, hmem⟩ := Option.bind_eq_some_iff.mp heq
    obtain ⟨hsound, hcont⟩ := prependBuffer_sound hg.sound hcq
    have hq := queueMem_queues hsound hmem
    refine ⟨[r.writeQueue.content r.world], hq.extended.sound, ?_, by simp, ?_, hq.keeps.sent⟩
    · have hcrlf : ascii "\r\n" = crlf := by decide
      rw [hq.extended.content, ← coded_singleton, htotal, hcrlf]
      show cq.content r.world ++ crlf = _
      rw [hcont, chunkLen_str]
      rfl
    · intro p hp hnil
      rw [List.mem_singleton.mp hp] at hnil
      rw [hnil] at htotal
      exact hne htotal.symm
  · rename_i hzero
    cases heq
    have hnil : r.writeQueue.content r.world = [] :=
      List.eq_nil_of_length_eq_zero (htotal.trans (Decidable.not_not.mp hzero))
    exact ⟨[], hg.sound, hnil, hnil.symm, nofun, rfl⟩

theorem connectionHandleWritePrepare_good {header : Buffer} (hg : Good r)
    (heq : r.connectionHandleWritePrepare header = some r') : Good r' := by
  obtain ⟨r₁, h₁, heq⟩ := Option.bind_eq_some_iff.mp heq
  obtain ⟨⟨cq, b⟩, hcq, heq⟩ := Option.bind_eq_some_iff.mp heq
  cases heq
  have hsound : Sound r₁.world r₁.writeQueue := by
    unfold chooseTransferEncoding at h₁
    split at h₁
    · split at h₁
      · obtain ⟨ps, hsound, -⟩ := initialChunk_spec hg h₁
        exact hsound
      · cases h₁
        exact hg.sound
    · cases h₁
      exact hg.sound
  refine ⟨?_, nofun⟩
  cases hhead : r₁.head with
  | true =>
    simp only [hhead, if_true] at hcq ⊢
    obtain ⟨hwf, hempty⟩ := reset_spec hsound.wf
    exact (prependBuffer_sound (sound_nil hwf hempty) hcq).1
  | false =>
    simp only [hhead, Bool.false_eq_true, if_false] at hcq ⊢
    exact (prependBuffer_sound hsound hcq).1

/-- When the response becomes a chunked one, its stream is the header and the chunk of what was in the queue. -/
theorem connectionHandleWritePrepare_spec {header : Buffer} (hg : Good r) (hc : r.chunked = false)
    (hw : r.headerWritten = false) (heq : r.connectionHandleWritePrepare header = some r') (hc' : r'.chunked = true) :
    Good r' ∧ ∃ ps, r'.stream = header.str ++ coded true ps ∧ ps.flatten = r.stream ∧ ∀ p ∈ ps, p ≠ [] := by
  unfold connectionHandleWritePrepare at heq
  obtain ⟨r₁, h₁, heq⟩ := Option.bind_eq_some_iff.mp heq
  obtain ⟨⟨cq, b⟩, hcq, heq⟩ := Option.bind_eq_some_iff.mp heq
  cases heq
  cases hhead : r₁.head with
  | true =>
    rw [hhead] at hc'
    cases hc'
  | false =>
    simp only [hhead, Bool.false_eq_true, if_false] at hcq hc' ⊢
    have hstream : r.stream = r.writeQueue.content r.world := by rw [stream, hg.sent hw, List.nil_append]
    have hinit : r.initialChunk = some r₁ := by
      unfold chooseTransferEncoding at h₁
      split at h₁
      · split at h₁
        · exact h₁
        · cases h₁
          rw [hc] at hc'
          cases hc'
      · cases h₁
        rw [hc] at hc'
        cases hc'
    obtain ⟨ps, hsound, hcont, hflat, hne, hsent⟩ := initialChunk_spec hg hinit
    obtain ⟨hsound', hcont'⟩ := prependBuffer_sound hsound hcq
    refine ⟨⟨hsound', nofun⟩, ps, ?_, hflat.trans hstream.symm, hne⟩
    show r₁.sent ++ cq.content r₁.world = _
    rw [hcont', hcont, hsent, hg.sent hw, List.nil_append]

theorem httpChunkClose_stream (hg : Good r) (heq : r.httpChunkClose = some r') :
    r'.chunked = r.chunked ∧ r'.stream = r.stream ++ (if r.chunked then lastChunk else []) := by
  unfold httpChunkClose at heq
  split at heq
  · rename_i hc
    have hq := queueMem_queues hg.sound heq
    have hbytes : ascii "0\r\n\r\n" = lastChunk := by decide
    refine ⟨hq.keeps.chunked, ?_⟩
    rw [if_pos hc, stream, stream, hq.keeps.sent, hq.extended.content, hbytes, List.append_assoc]
  · rename_i hc
    cases heq
    rw [if_neg hc, List.append_nil]
    exact ⟨rfl, rfl⟩

/-- **The chunked coding of a whole response.** A handler appends pieces to a new response, the header is written, and
the handler goes on until it closes the response, which is now a chunked one. A decoder that is given what is queued
behind the header finds exactly the pieces and stops at the end of the last chunk, if and only if no explicit range
of length zero has been appended behind the header. -/
theorem chunked_roundtrip_iff {r r' : Response} {before after : List BodyStep} {header : Buffer} {data : Bytes}
    (hfresh : Fresh r) (h : respond before header after r = some (r', data)) (hchunked : r'.chunked = true) :
    decode (r'.stream.drop header.str.length) = some (data, []) ↔ NoZeroRangeBehind before header after r := by
  obtain ⟨⟨r₁, data₁⟩, hbefore, h⟩ := Option.bind_eq_some_iff.mp h
  obtain ⟨r₂, hprepare, h⟩ := Option.bind_eq_some_iff.mp h
  obtain ⟨⟨r₃, data₂⟩, hafter, h⟩ := Option.bind_eq_some_iff.mp h
  obtain ⟨r₄, hclose, h⟩ := Option.bind_eq_some_iff.mp h
  obtain ⟨rfl, rfl⟩ := Prod.mk.inj (Option.some.inj h)
  have hcond : NoZeroRangeBehind before header after r ↔ NoZeroRange after r₂ := by
    constructor
    · exact fun hz => hz r₁ data₁ r₂ hbefore hprepare
    · intro hz s₁ d s₂ hs₁ hs₂
      obtain ⟨rfl, -⟩ := Prod.mk.inj (Option.some.inj (hbefore.symm.trans hs₁))
      rwa [← Option.some.inj (hprepare.symm.trans hs₂)]
  obtain ⟨ps, happ, hflat, -⟩ := run_appends hfresh.good hbefore
  have hc : r₁.chunked = false := happ.chunked.trans hfresh.chunked
  have hw : r₁.headerWritten = false := happ.headerWritten.trans hfresh.headerWritten
  have hstream : r₁.stream = data₁ := by
    rw [happ.stream, hfresh.stream, hfresh.chunked, ← hflat]
    rfl
  have hc₂ : r₂.chunked = true := by
    have hkeep := connectionHandleWritePrepare_good happ.good hprepare
    obtain ⟨ps', happ', -⟩ := run_appends hkeep hafter
    exact happ'.chunked.symm.trans ((httpChunkClose_stream happ'.good hclose).1.symm.trans hchunked)
  obtain ⟨hg₂, qs, hstream₂, hflat₂, hne₂⟩ := connectionHandleWritePrepare_spec happ.good hc hw hprepare hc₂
  obtain ⟨ps', happ', hflat', hne'⟩ := run_appends hg₂ hafter
  have hlast := (httpChunkClose_stream happ'.good hclose).2
  rw [happ'.chunked, hc₂] at hlast
  have hbody : r₄.stream.drop header.str.length = (qs ++ ps').flatMap (encodeChunk Buffer.uintHex) ++ lastChunk := by
    rw [hlast, happ'.stream, hstream₂, hc₂, List.append_assoc, List.append_assoc, List.drop_left,
      List.flatMap_append, List.append_assoc]
    rfl
  have hdata : data₁ ++ data₂ = (qs ++ ps').flatten := by
    rw [List.flatten_append, hflat₂, hstream, hflat']
  rw [hcond, hbody, hdata, decode_encode_iff Buffer.uintHex_writesSize, List.forall_mem_append, ← hne']
  exact and_iff_right hne₂

/-- A new HTTP/1.1 response of unknown length, and a file `a` of three bytes. -/
def sampleResponse : Response where
  writeQueue := .init none 1024
  world := ⟨fun p => if p = ascii "a" then some [1, 2, 3] else none, fun _ => none⟩
  chunked := false
  bufmin := false
  tmpChunkLen := .init
  fileFinished := false
  contentLength := false
  http11 := true
  head := false
  keepAlive := true
  headerWritten := false
  sent := []

theorem sampleResponse_fresh : Fresh sampleResponse := ⟨rfl, nofun, rfl, rfl, rfl⟩

/-- A byte before the header, a byte and a range of the file behind it; the network takes a byte in between. -/
theorem chunked_roundtrip_iff_sample : ∃ r' data,
    respond [.appendMem [120] []] (.ofString [72])
      [.appendMem [121] [], .written 1, .appendFileRange (ascii "a") (some 5) 1 (some 2)] sampleResponse =
        some (r', data) ∧ r'.chunked = true ∧
    (decode (r'.stream.drop 1) = some (data, []) ↔
      NoZeroRangeBehind [.appendMem [120] []] (.ofString [72])
        [.appendMem [121] [], .written 1, .appendFileRange (ascii "a") (some 5) 1 (some 2)] sampleResponse) := by
  have hrun : (respond [.appendMem [120] []] (.ofString [72])
      [.appendMem [121] [], .written 1, .appendFileRange (ascii "a") (some 5) 1 (some 2)] sampleResponse).map
        (fun t => t.1.chunked) = some true := by decide
  obtain ⟨⟨r', data⟩, h, hc⟩ := Option.map_eq_some_iff.mp hrun
  exact ⟨r', data, h, hc, chunked_roundtrip_iff sampleResponse_fresh h hc⟩

/-- Behind an explicit range of length zero, the bytes `xy` are lost. -/
theorem chunked_roundtrip_zeroRange : Fresh sampleResponse ∧
    (respond [] (.ofString [72]) [.appendFileRange (ascii "a") (some 5) 1 (some 0), .appendMem (ascii "xy") []]
      sampleResponse).map (fun t => (t.1.chunked, t.2, decode (t.1.stream.drop 1))) =
        some (true, ascii "xy", some ([], ascii "02\r\nxy\r\n0\r\n\r\n")) :=
  ⟨sampleResponse_fresh, by decide⟩

end Response
end Lighttpd
