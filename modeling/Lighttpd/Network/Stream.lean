import Lighttpd.Network.Backend

/-!
# Every write backend sends a prefix of the queue

One law (`Sent`) holds of every function of `Network/Backend.lean`: what is new on the wire is a prefix of the content
of the queue, exactly this prefix has left the queue, and `bytes_out` has grown by its length. It composes, so it holds
of the write loops and of every sequence of them (`writes_sent`).

No chunk is assumed to lie in its file: a chunk is only sent when it is in memory or when `network_open_file_chunk`
has compared its range with the file.
-/

namespace Lighttpd
open Chunkqueue

/-! ## Consuming a prefix of the chunks -/

namespace Chunkqueue

/-- `chunkqueue_remove_finished_chunks` keeps the content, and takes an empty first chunk away. -/
theorem removeFinishedChunks_go_content (w : World) {cs : List Chunk} {cq cq' : Chunkqueue} (hcs : cq.chunks = cs)
    (h : removeFinishedChunks.go cs cq = some cq') : cq'.content w = cq.content w := by
  induction cs generalizing cq with
  | nil => cases h; rfl
  | cons c cs ih =>
    simp only [removeFinishedChunks.go, Option.bind_eq_bind, Option.bind_eq_some_iff] at h
    obtain ⟨n, hn, h⟩ := h
    obtain ⟨-, rfl⟩ := Chunk.remainingLength_some hn
    split at h
    · cases h; rfl
    · rename_i hzero
      have hnil := Chunk.bytes_eq_nil (Decidable.not_not.mp hzero) w
      rw [ih (by simp [dropFirst, hcs]) h]
      simp [content, dropFirst, hcs, hnil]

/-- When the bytes that have been written lie in chunks whose ranges are in their files, `chunkqueue_mark_written`
drops exactly these bytes. -/
theorem markWritten_go_content (w : World) {cs pre rest : List Chunk} {cq cq' : Chunkqueue} {n m : Nat}
    (hcs : cq.chunks = cs) (hpre : cs = pre ++ rest) (hin : ∀ c ∈ pre, c.InFile w) (hn : n ≤ totalOf pre)
    (h : markWritten.go cs cq n = some (cq', m)) :
    cq'.content w = (cq.content w).drop n ∧ cq'.chunks.length ≤ cq.chunks.length := by
  induction cs generalizing cq n pre rest with
  | nil =>
    obtain ⟨rfl, rfl⟩ := List.append_eq_nil_iff.mp hpre.symm
    have h0 : n = 0 := Nat.le_zero.mp hn
    cases h
    simp [h0]
  | cons c cs ih =>
    simp only [markWritten.go, Option.bind_eq_bind, Option.bind_eq_some_iff] at h
    obtain ⟨k, hk, h⟩ := h
    obtain ⟨-, rfl⟩ := Chunk.remainingLength_some hk
    split at h
    · rename_i hstop
      cases h
      simp [hstop.1]
    · rename_i hstop
      split at h
      · rename_i hge
        have hcs' : (cq.dropFirst.pushUnusedChunk (c.advance (c.size - c.offset))).chunks = cs := by
          simp [dropFirst, hcs]
        have hcont : (cq.dropFirst.pushUnusedChunk (c.advance (c.size - c.offset))).content w =
            cs.flatMap (Chunk.bytes w) := by rw [content, hcs']
        cases pre with
        | nil =>
          have h0 : n = 0 := Nat.le_zero.mp hn
          have hnil := Chunk.bytes_eq_nil (c := c) (by omega) w
          obtain ⟨hc, hl⟩ := ih hcs' (List.nil_append cs).symm (by simp) (by simp [h0]) h
          rw [hcs'] at hl
          rw [hc, hcont]
          simp [content, hcs, hnil, h0]
          omega
        | cons d pre =>
          obtain ⟨rfl, hrest⟩ := List.cons_eq_cons.mp hpre
          have hlen := Chunk.length_bytes (hin c List.mem_cons_self)
          rw [totalOf_cons] at hn
          obtain ⟨hc, hl⟩ := ih hcs' hrest (fun d hd => hin d (List.mem_cons_of_mem c hd)) (by omega) h
          rw [hcs'] at hl
          have hnil : (c.bytes w).drop n = [] := List.drop_eq_nil_of_le (by omega)
          constructor
          · rw [hc, hcont, content, hcs, List.flatMap_cons, List.drop_append, hlen, hnil, List.nil_append]
          · rw [hcs]
            exact Nat.le_succ_of_le hl
      · rename_i hge
        cases h
        cases pre with
        | nil => exact absurd hn (by simp; omega)
        | cons d pre =>
          obtain ⟨rfl, hrest⟩ := List.cons_eq_cons.mp hpre
          have hlen := Chunk.length_bytes (hin c List.mem_cons_self)
          have h0 : n - (c.bytes w).length = 0 := by omega
          constructor
          · simp only [content, setFirst, hcs, List.tail_cons, List.flatMap_cons, Chunk.bytes_advance]
            rw [List.drop_append, h0, List.drop_zero]
          · simp [setFirst, hcs]

end Chunkqueue

/-! ## The law of the backends -/

/-- **`net'` is `net` after the bytes `data` have been sent.** -/
structure Sent (net net' : Net) (data : Bytes) : Prop where
  wire : net'.wire = net.wire ++ data
  content : net.cq.content net.world = data ++ net'.cq.content net'.world
  bytesOut : net'.cq.bytesOut = net.cq.bytesOut + data.length
  bytesIn : net'.cq.bytesIn = net.cq.bytesIn
  maxBytes : net'.maxBytes = net.maxBytes - data.length
  files : net'.world.files = net.world.files
  wf : net'.cq.WF

namespace Sent

variable {net net' net'' : Net} {data data' : Bytes}

theorem refl (h : net.cq.WF) : Sent net net [] where
  wire := (List.append_nil _).symm
  content := rfl
  bytesOut := (Int.add_zero _).symm
  bytesIn := rfl
  maxBytes := (Int.sub_zero _).symm
  files := rfl
  wf := h

theorem trans (h : Sent net net' data) (h' : Sent net' net'' data') : Sent net net'' (data ++ data') where
  wire := by rw [h'.wire, h.wire, List.append_assoc]
  content := by rw [h.content, h'.content, List.append_assoc]
  bytesOut := by rw [h'.bytesOut, h.bytesOut, List.length_append]; omega
  bytesIn := h'.bytesIn.trans h.bytesIn
  maxBytes := by rw [h'.maxBytes, h.maxBytes, List.length_append]; omega
  files := h'.files.trans h.files
  wf := h'.wf

end Sent

namespace Network

/-- What a function that writes the next chunks does: it fails no assertion, sends a prefix of the queue, and leaves
less work when the loop goes on. -/
def Sends (net : Net) (r : Option (Ret × Net)) : Prop :=
  ∃ ret net' data, r = some (ret, net') ∧ Sent net net' data ∧ (ret = .done → work net' < work net)

variable {c : Chunk} {cs : List Chunk} {net : Net} {toSend : Nat}

theorem assertFirst_some {type : ChunkType} {cq : Chunkqueue} (h : cq.WF)
    (hcs : cq.chunks = c :: cs) (ht : c.type = type) : assertFirst type cq = some c := by
  have hc : c.OffsetOk := h.offset c (by simp [hcs])
  simp only [assertFirst, hcs]
  exact if_pos ⟨ht, hc⟩

variable {n : Nat} {maxBytes : Int}

/-- Nothing is to be sent of the first chunk only when nothing is left of it. -/
theorem clamp_eq_zero (hm : 0 < maxBytes) (h : clamp n maxBytes = 0) : n = 0 := by
  unfold clamp at h
  split at h <;> omega

theorem clamp_le : clamp n maxBytes ≤ n := by
  unfold clamp
  split <;> omega

theorem removeFinished_sends (h : net.cq.WF) (hcs : net.cq.chunks = c :: cs)
    (hempty : c.size - c.offset = 0) : Sends net (removeFinished net) := by
  obtain ⟨cq', heq, hd, hout, hsuf⟩ := removeFinishedChunks_spec h
  have hcont := removeFinishedChunks_go_content net.world rfl heq
  have hp := pop_drained h hcs c
  have hrem := Chunk.remainingLength_eq (h.offset c (by simp [hcs]))
  have hgo : removeFinishedChunks (net.cq.dropFirst.pushUnusedChunk c) = some cq' := by
    simp only [removeFinishedChunks, hcs, removeFinishedChunks.go, hrem, hempty] at heq
    simpa [removeFinishedChunks, dropFirst, hcs] using heq
  obtain ⟨cq₁, heq₁, -, -, hsuf₁⟩ := removeFinishedChunks_spec hp.wf
  obtain rfl : cq' = cq₁ := Option.some.inj (hgo.symm.trans heq₁)
  have hlen : cq'.chunks.length ≤ cs.length := by
    have := hsuf₁.length_le
    simpa [dropFirst, hcs] using this
  refine ⟨.done, { net with cq := cq' }, [], by simp [removeFinished, heq], ?_, fun _ => ?_⟩
  · exact ⟨(List.append_nil _).symm, by simp [hcont], by simp [hout], hd.bytesIn, by simp, rfl, hd.wf⟩
  · have := hd.total
    simp only [work, hcs, List.length_cons]
    omega

/-- **The end of every function**: the bytes given to the system call are those at the front of the queue, in chunks
that are in memory or in their files. -/
theorem afterWrite_sends (pre : List Chunk) {rest : List Chunk} {data : Bytes} (h : net.cq.WF)
    (hcs : net.cq.chunks = pre ++ rest) (hin : ∀ c ∈ pre, c.InFile net.world)
    (hdata : data <+: pre.flatMap (Chunk.bytes net.world)) (r : WriteResult) :
    Sends net (afterWrite net data toSend r) := by
  have stay : ∀ ret, ret ≠ .done → Sends net (some (ret, net)) := fun ret hret =>
    ⟨ret, net, [], rfl, .refl h, fun hd => absurd hd hret⟩
  cases r with
  | error e => cases e <;> exact stay _ nofun
  | wrote n =>
    have hle : min n data.length ≤ totalOf pre := by
      have := hdata.length_le
      rw [length_flatMap_bytes hin] at this
      omega
    have hle' : min n data.length ≤ net.cq.total := by
      rw [total, hcs, totalOf_append]
      omega
    obtain ⟨cq', heq, hd, hout⟩ := markWritten_spec h hle'
    obtain ⟨cq₁, hgo, -, -⟩ := markWritten_go_spec h rfl hle'
    obtain ⟨hcont, hlen⟩ := markWritten_go_content net.world rfl hcs hin hle hgo
    have hchunks : cq'.chunks = cq₁.chunks := by
      simp only [markWritten, hgo] at heq
      cases heq; rfl
    have hcont' : cq'.content net.world = (net.cq.content net.world).drop (min n data.length) := by
      rw [content, hchunks]; exact hcont
    have htake : (net.cq.content net.world).take (min n data.length) = data.take n := by
      obtain ⟨t, ht⟩ := hdata
      rw [content, hcs, List.flatMap_append, ← ht, List.append_assoc, List.take_append_of_le_length (by omega)]
      simp [List.take_eq_take_iff]
    have hmin : data.take (min n data.length) = data.take n := by simp [List.take_eq_take_iff]
    let net' : Net := ⟨cq', net.maxBytes - (min n data.length : Nat), net.world, net.wire ++ data.take n⟩
    refine ⟨if min n data.length > 0 ∧ min n data.length = toSend then .done else .tryAgain, net', data.take n, ?_,
      ⟨rfl, ?_, ?_, hd.bytesIn, ?_, rfl, hd.wf⟩, ?_⟩
    · simp only [afterWrite, heq, net', ← hmin]
      rfl
    · rw [← htake, hcont']
      exact (List.take_append_drop _ _).symm
    · rw [List.length_take]
      exact hout
    · rw [List.length_take]
    · intro hret
      split at hret
      · rename_i hr
        have htotal := hd.total
        show cq'.total + cq'.chunks.length < net.cq.total + net.cq.chunks.length
        rw [hchunks]
        omega
      · cases hret

/-! ## Chunks in memory -/

theorem networkWriteMemChunk_sends (h : net.cq.WF)
    (hcs : net.cq.chunks = c :: cs) (ht : c.type = .memChunk) (hm : 0 < net.maxBytes) (io : Round) :
    Sends net (networkWriteMemChunk io net) := by
  have hsize : c.mem.stringLength = c.size := by simp [Chunk.size, ht]
  simp only [networkWriteMemChunk, assertFirst_some h hcs ht, Option.bind_eq_bind, Option.bind_some]
  split
  · rename_i h0
    exact removeFinished_sends h hcs (hsize ▸ clamp_eq_zero hm h0)
  · apply afterWrite_sends [c] h hcs
    · intro d hd
      rw [List.mem_singleton.mp hd]
      exact Chunk.inFile_mem ht
    · rw [List.flatMap_singleton, Chunk.bytes_mem ht]
      exact List.take_prefix _ _

theorem maxChunks_pos (b : Build) : 0 < maxChunks b := by
  have := b.sysMaxChunks_pos
  unfold maxChunks
  split <;> omega

/-- The chunks that are gathered are the first ones of the queue, and all of them are in memory. -/
theorem gather_spec (b : Build) (maxBytes : Int) (w : World) (h : ∀ c ∈ cs, c.OffsetOk)
    (iov : List Bytes) (toSend : Nat) :
    ∃ pre rest data, cs = pre ++ rest ∧ (∀ c ∈ pre, c.type = .memChunk) ∧
      gather b maxBytes cs iov toSend = some (iov ++ data, toSend + totalOf pre) ∧
      data.flatten = pre.flatMap (Chunk.bytes w) := by
  induction cs generalizing iov toSend with
  | nil => exact ⟨[], [], [], rfl, by simp, by simp [gather], rfl⟩
  | cons c cs ih =>
    have hc : c.OffsetOk := h c List.mem_cons_self
    have ih := ih fun d hd => h d (List.mem_cons_of_mem c hd)
    by_cases hg : c.type = .memChunk ∧ iov.length < maxChunks b ∧ (toSend : Int) < maxBytes
    · have hsize : c.mem.stringLength = c.size := by simp [Chunk.size, hg.1]
      have hall : ∀ pre : List Chunk, (∀ d ∈ pre, d.type = .memChunk) → ∀ d ∈ c :: pre, d.type = .memChunk := by
        intro pre hpre d hd
        rcases List.mem_cons.mp hd with rfl | hd
        · exact hg.1
        · exact hpre d hd
      have hbytes : (c.mem.str.drop c.offset).take (c.size - c.offset) = c.bytes w := by
        rw [Chunk.bytes_mem hg.1, ← hsize, Buffer.stringLength_eq]
        exact List.take_of_length_le (by simp)
      simp only [gather, if_pos hg, hsize, if_pos (show c.offset ≤ c.size from hc)]
      split
      · obtain ⟨pre, rest, data, rfl, hmem, heq, hflat⟩ := ih (iov ++ [c.bytes w]) (toSend + (c.size - c.offset))
        refine ⟨c :: pre, rest, c.bytes w :: data, rfl, hall pre hmem, ?_, ?_⟩
        · rw [hbytes, heq, List.append_assoc, totalOf_cons, Nat.add_assoc]
          rfl
        · rw [List.flatten_cons, hflat, List.flatMap_cons]
      · rename_i h0
        obtain ⟨pre, rest, data, rfl, hmem, heq, hflat⟩ := ih iov toSend
        have hz : c.size - c.offset = 0 := by omega
        refine ⟨c :: pre, rest, data, rfl, hall pre hmem, ?_, ?_⟩
        · rw [heq, totalOf_cons, hz, Nat.zero_add]
        · rw [hflat, List.flatMap_cons, Chunk.bytes_eq_nil hz, List.nil_append]
    · refine ⟨[], c :: cs, [], rfl, by simp, ?_, rfl⟩
      simp [gather, if_neg hg]

theorem gather_nil {b : Build} (h : ∀ d ∈ c :: cs, d.OffsetOk) (ht : c.type = .memChunk) (hm : 0 < maxBytes)
    (heq : gather b maxBytes (c :: cs) [] 0 = some ([], toSend)) : c.size - c.offset = 0 := by
  have hc : c.OffsetOk := h c List.mem_cons_self
  have hg : c.type = .memChunk ∧ ([] : List Bytes).length < maxChunks b ∧ ((0 : Nat) : Int) < maxBytes :=
    ⟨ht, maxChunks_pos b, hm⟩
  have hsize : c.mem.stringLength = c.size := by simp [Chunk.size, ht]
  simp only [gather, if_pos hg, hsize, if_pos (show c.offset ≤ c.size from hc)] at heq
  split at heq
  · obtain ⟨pre, rest, data, -, -, heq', -⟩ := gather_spec b maxBytes ⟨fun _ => none, fun _ => none⟩
      (fun d hd => h d (List.mem_cons_of_mem c hd)) ([] ++ [(c.mem.str.drop c.offset).take (c.size - c.offset)])
      (0 + (c.size - c.offset))
    rw [heq'] at heq
    cases heq
  · omega

theorem networkWritevMemChunks_sends (h : net.cq.WF)
    (hcs : net.cq.chunks = c :: cs) (ht : c.type = .memChunk) (hm : 0 < net.maxBytes) (b : Build) (io : Round) :
    Sends net (networkWritevMemChunks b io net) := by
  unfold networkWritevMemChunks
  split
  · have hoff : ∀ d ∈ c :: cs, d.OffsetOk := hcs ▸ h.offset
    obtain ⟨pre, rest, data, hpre, hmem, heq, hflat⟩ := gather_spec b net.maxBytes net.world hoff [] 0
    simp only [hcs, if_pos ht, heq, List.nil_append, Option.bind_eq_bind, Option.bind_some]
    split
    · rename_i hnil
      rw [List.length_eq_zero_iff] at hnil
      rw [hnil] at heq
      exact removeFinished_sends h hcs (gather_nil hoff ht hm heq)
    · apply afterWrite_sends pre h (hcs.trans hpre)
      · exact fun d hd => Chunk.inFile_mem (hmem d hd)
      · exact hflat ▸ List.prefix_rfl
  · exact networkWriteMemChunk_sends h hcs ht hm io

/-! ## File chunks -/

/-- A change of the first chunk that keeps its range and its consumed bytes sends nothing. -/
theorem setFirst_sent (net : Net) {d : Chunk} (h : net.cq.WF) (hcs : net.cq.chunks = c :: cs)
    (hd : d.bytes net.world = c.bytes net.world) (hs : d.size = c.size) (ho : d.offset = c.offset) :
    Sent net (net.setFirst d) [] ∧ work (net.setFirst d) = work net ∧ (net.setFirst d).cq.chunks = d :: cs := by
  have hchunks : (net.setFirst d).cq.chunks = d :: cs := by simp [Net.setFirst, Chunkqueue.setFirst, hcs]
  refine ⟨⟨(List.append_nil _).symm, ?_, (Int.add_zero _).symm, rfl, (Int.sub_zero _).symm, rfl, ?_, h.idle⟩, ?_,
    hchunks⟩
  · rw [content, content, hchunks, hcs, List.flatMap_cons, List.flatMap_cons, List.nil_append]
    show c.bytes net.world ++ _ = d.bytes net.world ++ _
    rw [hd]
    rfl
  · intro e he
    rw [hchunks] at he
    rcases List.mem_cons.mp he with rfl | he
    · rw [Chunk.OffsetOk, ho, hs]
      exact h.offset c (by simp [hcs])
    · exact h.offset e (by simp [hcs, he])
  · simp [work, total, hchunks, hcs, hs, ho]

theorem fdpos_sent (h : net.cq.WF) {w : World} (hw : w.files = net.world.files) :
    Sent net { net with world := w } [] where
  wire := (List.append_nil _).symm
  content := (content_congr hw net.cq).symm
  bytesOut := (Int.add_zero _).symm
  bytesIn := rfl
  maxBytes := (Int.sub_zero _).symm
  files := hw
  wf := h

theorem Sends.after {net' : Net} {r : Option (Ret × Net)} (hs : Sent net net' []) (hw : work net' = work net)
    (h : Sends net' r) : Sends net r := by
  obtain ⟨ret, net'', data, heq, hsent, hless⟩ := h
  exact ⟨ret, net'', data, heq, hs.trans hsent, fun hd => hw ▸ hless hd⟩

theorem sends_failed {net' : Net} (h : Sent net net' []) : Sends net (some (.failed, net')) :=
  ⟨.failed, net', [], rfl, h, nofun⟩

theorem notShrinked_inFile {w : World} (hc : c.OffsetOk) (ht : c.type = .fileChunk)
    (h : notShrinked c (w.content c.file.name).length = true) : c.InFile w := by
  intro _
  have hs : c.offset ≤ c.file.length := by
    rw [← Chunk.size_file ht]
    exact hc
  simp only [notShrinked, gt_iff_lt, Bool.not_eq_true', Bool.or_eq_false_iff, decide_eq_false_iff_not,
    Nat.not_lt] at h
  omega

/-- The result of `network_open_file_chunk`: nothing has been sent, and when it returns `0` the first chunk is still
the same range of its file, which is open and not shorter. -/
structure Opened (net net' : Net) (c : Chunk) (cs : List Chunk) (ok : Bool) : Prop where
  sent : Sent net net' []
  work : work net' = work net
  maxBytes : net'.maxBytes = net.maxBytes
  first : ok = true → ∃ d, net'.cq.chunks = d :: cs ∧ d.type = .fileChunk ∧ d.file.name = c.file.name ∧
    d.file.start = c.file.start ∧ d.file.length = c.file.length ∧ d.offset = c.offset ∧ d.file.fd.isSome ∧
    d.InFile net'.world

theorem networkOpenFileChunk_spec (h : net.cq.WF)
    (hcs : net.cq.chunks = c :: cs) (ht : c.type = .fileChunk) (io : Round) :
    ∃ ok net', networkOpenFileChunk io net = some (ok, net') ∧ Opened net net' c cs ok := by
  have hc : c.OffsetOk := h.offset c (by simp [hcs])
  have failed : Opened net net c cs false := ⟨.refl h, rfl, rfl, nofun⟩
  simp only [networkOpenFileChunk, assertFirst_some h hcs ht, Option.bind_eq_bind, Option.bind_some]
  cases hfd : c.file.fd with
  | some fd =>
    refine ⟨_, net, rfl, .refl h, rfl, rfl, fun hok => ⟨c, hcs, ht, rfl, rfl, rfl, rfl, by simp [hfd], ?_⟩⟩
    exact notShrinked_inFile hc ht (Bool.and_eq_true_iff.mp hok).2
  | none =>
    dsimp only
    split
    · cases io.openFile with
      | none => exact ⟨false, net, rfl, failed⟩
      | some fd =>
        dsimp only
        split
        · have hw : (net.world.opened fd).files = net.world.files := rfl
          have hsent := fdpos_sent h hw
          have hd : ({ c with file := { c.file with fd := some fd } } : Chunk).bytes (net.world.opened fd) =
              c.bytes (net.world.opened fd) := rfl
          obtain ⟨hfirst, hwork, hchunks⟩ :=
            setFirst_sent { net with world := net.world.opened fd } h hcs hd rfl rfl
          refine ⟨_, _, rfl, hsent.trans hfirst, hwork, rfl, fun hok => ⟨_, hchunks, ht, rfl, rfl, rfl, rfl, rfl, ?_⟩⟩
          exact Chunk.inFile_congr hw (notShrinked_inFile hc ht hok)
        · exact ⟨false, net, rfl, failed⟩
    · exact ⟨false, net, rfl, failed⟩

theorem bytes_range (ht : c.type = .fileChunk) (w : World) :
    c.bytes w = ((w.content c.file.name).drop (c.file.start + c.offset)).take (c.file.length - c.offset) := by
  rw [Chunk.bytes_file ht, List.drop_take, List.drop_drop]

/-- The bytes that a system call reads at the offset of a chunk are at its front. -/
theorem range_prefix (ht : c.type = .fileChunk) (w : World) (hn : n ≤ c.file.length - c.offset) :
    ((w.content c.file.name).drop (c.file.start + c.offset)).take n <+: c.bytes w := by
  rw [bytes_range ht]
  exact List.take_prefix_take_left hn

/-- A write from the first chunk `c`, which lies in its file. -/
theorem afterWrite_first_sends {data : Bytes} (h : net.cq.WF)
    (hcs : net.cq.chunks = c :: cs) (hin : c.InFile net.world) (hdata : data <+: c.bytes net.world) (r : WriteResult) :
    Sends net (afterWrite net data toSend r) := by
  apply afterWrite_sends [c] h hcs
  · intro d hd
    rw [List.mem_singleton.mp hd]
    exact hin
  · rw [List.flatMap_singleton]
    exact hdata

/-- The window that is mapped starts at a page and holds the next byte to be sent. -/
theorem mmapWindow_spec (b : Build) {offset fileEnd : Nat} (h : offset < fileEnd) :
    ∃ m, mmapWindow b offset fileEnd = some m ∧ m.offset ≤ offset ∧ offset < m.offset + m.length := by
  have hlt := b.pagesize_lt
  have hmod := Nat.mod_lt offset b.pagesize_pos
  have hle := Nat.mod_le offset b.pagesize
  have halign : mmapAlignOffset b offset = some (offset - offset % b.pagesize) := if_pos ⟨hlt, hle⟩
  have hsize : mmapChunkSize = 512 * 1024 := rfl
  simp only [mmapWindow, halign, Option.bind_eq_bind, Option.bind_some]
  refine ⟨_, rfl, Nat.sub_le _ _, ?_⟩
  dsimp only
  split <;> omega

theorem writeMapped_sends (h : net.cq.WF) (hcs : net.cq.chunks = c :: cs)
    (ht : c.type = .fileChunk) (hin : c.InFile net.world) (hlo : c.file.mmap.offset ≤ c.file.start + c.offset)
    (hhi : c.file.start + c.offset < c.file.mmap.offset + c.file.mmap.length)
    (hto : toSend ≤ c.file.length - c.offset) (io : Round) :
    Sends net (writeMapped io net c (c.file.start + c.offset) toSend) := by
  unfold writeMapped
  have havail : c.file.mmap.length > c.file.start + c.offset - c.file.mmap.offset := by omega
  have hdrop : c.file.mmap.offset + (c.file.start + c.offset - c.file.mmap.offset) = c.file.start + c.offset := by omega
  simp only [if_pos hlo, if_pos havail, windowBytes, List.drop_take, List.drop_drop, hdrop, List.take_take, ge_iff_le]
  apply afterWrite_first_sends h hcs hin
  apply range_prefix ht
  split <;> omega

theorem writeFileChunkMmap_sends (h : net.cq.WF)
    (hcs : net.cq.chunks = c :: cs) (ht : c.type = .fileChunk) (hm : 0 < net.maxBytes) (b : Build) (io : Round) :
    Sends net (writeFileChunkMmap b io net) := by
  have hsize := Chunk.size_file ht
  have hoff : c.offset ≤ c.file.length := hsize ▸ h.offset c (by simp [hcs])
  simp only [writeFileChunkMmap, assertFirst_some h hcs ht, Option.bind_eq_bind, Option.bind_some]
  split
  · rename_i h0
    exact removeFinished_sends h hcs (hsize ▸ clamp_eq_zero hm h0)
  · rename_i h0
    have hto : clamp (c.file.length - c.offset) net.maxBytes ≤ c.file.length - c.offset := clamp_le
    obtain ⟨ok, net', heq, hopen⟩ := networkOpenFileChunk_spec h hcs ht io
    simp only [heq, Option.bind_some]
    cases ok with
    | false => exact sends_failed hopen.sent
    | true =>
      obtain ⟨d, hd, htype, hname, hstart, hlength, hoffset, -, hin⟩ := hopen.first rfl
      have hwf := hopen.sent.wf
      apply Sends.after hopen.sent hopen.work
      simp only [hd, List.head?_cons, Option.bind_some, Bool.not_true, Bool.false_eq_true, if_false, ← hstart, ← hlength,
        ← hoffset]
      rw [← hlength, ← hoffset] at hto h0 hoff
      split
      · obtain ⟨m, hmeq, hlo, hhi⟩ := mmapWindow_spec b
          (show d.file.start + d.offset < d.file.start + d.file.length by omega)
        simp only [hmeq, Option.bind_some]
        have hbytes : ({ d with file := { d.file with mmap := { m with mapped := io.mmap } } } : Chunk).bytes net'.world =
            d.bytes net'.world := rfl
        obtain ⟨hfirst, hwork, hchunks⟩ := setFirst_sent net' hwf hd hbytes rfl rfl
        split
        · exact sends_failed hfirst
        · exact Sends.after hfirst hwork (writeMapped_sends hfirst.wf hchunks htype hin hlo hhi hto io)
      · rename_i hmapped
        simp only [Bool.or_eq_true, Bool.not_eq_true', decide_eq_true_eq, not_or, Nat.not_lt, Bool.not_eq_false,
          ge_iff_le, Nat.not_le] at hmapped
        exact writeMapped_sends hwf hd htype hin hmapped.1.2 hmapped.2 hto io

theorem networkWriteFileChunkNoMmap_sends (h : net.cq.WF)
    (hcs : net.cq.chunks = c :: cs) (ht : c.type = .fileChunk) (hm : 0 < net.maxBytes) (io : Round) :
    Sends net (networkWriteFileChunkNoMmap io net) := by
  have hsize := Chunk.size_file ht
  have hoff : c.offset ≤ c.file.length := hsize ▸ h.offset c (by simp [hcs])
  simp only [networkWriteFileChunkNoMmap, assertFirst_some h hcs ht, Option.bind_eq_bind, Option.bind_some]
  generalize hcl : clamp _ net.maxBytes = toSend
  have hto : toSend ≤ c.file.length - c.offset := by
    rw [← hcl]
    apply Nat.le_trans clamp_le
    split <;> omega
  split
  · rename_i h0
    have hzero := clamp_eq_zero hm (hcl.trans h0)
    apply removeFinished_sends h hcs
    split at hzero <;> omega
  · obtain ⟨ok, net', heq, hopen⟩ := networkOpenFileChunk_spec h hcs ht io
    simp only [heq, Option.bind_some]
    cases ok with
    | false => exact sends_failed hopen.sent
    | true =>
      obtain ⟨d, hd, htype, hname, hstart, hlength, hoffset, hfd, hin⟩ := hopen.first rfl
      obtain ⟨fd, hfd⟩ := Option.isSome_iff_exists.mp hfd
      have hwf := hopen.sent.wf
      apply Sends.after hopen.sent hopen.work
      simp only [hd, List.head?_cons, hfd, Option.bind_some, Bool.not_true, Bool.false_eq_true, if_false, ← hstart,
        ← hoffset]
      rw [← hlength, ← hoffset] at hto
      split
      · exact sends_failed (.refl hwf)
      · cases io.read with
        | none => exact sends_failed (fdpos_sent hwf rfl)
        | some n =>
          dsimp only
          generalize d.file.start + d.offset + List.length _ = pos
          have hseek : Sent net' { net' with world := net'.world.lseek fd pos } [] := fdpos_sent hwf rfl
          apply Sends.after hseek rfl
          apply afterWrite_first_sends hseek.wf hd (Chunk.inFile_congr rfl hin)
          exact range_prefix htype _ (Nat.le_trans (Nat.min_le_right n toSend) hto)

theorem networkWriteFileChunkMmap_sends (h : net.cq.WF)
    (hcs : net.cq.chunks = c :: cs) (ht : c.type = .fileChunk) (hm : 0 < net.maxBytes) (b : Build) (io : Round) :
    Sends net (networkWriteFileChunkMmap b io net) := by
  unfold networkWriteFileChunkMmap
  split
  · exact writeFileChunkMmap_sends h hcs ht hm b io
  · exact networkWriteFileChunkNoMmap_sends h hcs ht hm io

theorem networkWriteFileChunkSendfile_sends (h : net.cq.WF)
    (hcs : net.cq.chunks = c :: cs) (ht : c.type = .fileChunk) (hm : 0 < net.maxBytes) (b : Build) (io : Round) :
    Sends net (networkWriteFileChunkSendfile b io net) := by
  have hsize := Chunk.size_file ht
  simp only [networkWriteFileChunkSendfile, assertFirst_some h hcs ht, Option.bind_eq_bind, Option.bind_some]
  split
  · rename_i h0
    exact removeFinished_sends h hcs (hsize ▸ clamp_eq_zero hm h0)
  · obtain ⟨ok, net', heq, hopen⟩ := networkOpenFileChunk_spec h hcs ht io
    simp only [heq, Option.bind_some]
    cases ok with
    | false => exact sends_failed hopen.sent
    | true =>
      obtain ⟨d, hd, htype, hname, hstart, hlength, hoffset, -, hin⟩ := hopen.first rfl
      have hwf := hopen.sent.wf
      apply Sends.after hopen.sent hopen.work
      simp only [Bool.not_true, Bool.false_eq_true, if_false]
      split
      · exact networkWriteFileChunkMmap_sends hwf hd htype (hopen.maxBytes ▸ hm) b _
      · apply afterWrite_first_sends hwf hd hin
        rw [← hname, ← hstart, ← hoffset, ← hlength]
        exact range_prefix htype _ clamp_le

/-! ## The write loops -/

/-- **One round of a backend**, with any kind of chunk at the front of the queue. -/
theorem writeFirst_sends (h : net.cq.WF) (hcs : net.cq.chunks = c :: cs)
    (hm : 0 < net.maxBytes) (be : Backend) (b : Build) (io : Round) : Sends net (be.writeFirst b c.type io net) := by
  cases ht : c.type with
  | memChunk =>
    cases be with
    | write => exact networkWriteMemChunk_sends h hcs ht hm io
    | writev => exact networkWritevMemChunks_sends h hcs ht hm b io
    | sendfile => exact networkWritevMemChunks_sends h hcs ht hm b io
  | fileChunk =>
    cases be with
    | write => exact networkWriteFileChunkMmap_sends h hcs ht hm b io
    | writev => exact networkWriteFileChunkMmap_sends h hcs ht hm b io
    | sendfile => exact networkWriteFileChunkSendfile_sends h hcs ht hm b io

/-- A write loop ends, fails no assertion and sends a prefix of the queue. -/
theorem loop_sends (be : Backend) (b : Build) {fuel : Nat} (ios : Nat → Round) (net : Net) (h : net.cq.WF)
    (hfuel : work net < fuel) :
    ∃ ret net' data, be.loop b fuel ios net = some (ret, net') ∧ Sent net net' data := by
  induction fuel generalizing ios net with
  | zero => exact absurd hfuel (Nat.not_lt_zero _)
  | succ fuel ih =>
    unfold Backend.loop
    cases hcs : net.cq.chunks with
    | nil => exact ⟨.done, net, [], rfl, .refl h⟩
    | cons c cs =>
      dsimp only
      split
      · rename_i hm
        obtain ⟨ret, net', data, heq, hsent, hless⟩ := writeFirst_sends h hcs hm be b (ios 0)
        simp only [heq, Option.bind_eq_bind, Option.bind_some]
        cases ret with
        | done =>
          have hlt := hless rfl
          obtain ⟨ret', net'', data', heq', hsent'⟩ := ih (fun i => ios (i + 1)) net' hsent.wf (by omega)
          exact ⟨ret', net'', data ++ data', heq', hsent.trans hsent'⟩
        | failed => exact ⟨.failed, net', data, rfl, hsent⟩
        | remoteClose => exact ⟨.remoteClose, net', data, rfl, hsent⟩
        | tryAgain => exact ⟨.done, net', data, rfl, hsent⟩
      · exact ⟨.done, net, [], rfl, .refl h⟩

/-- A call of one of the backends, with its budget and the results of its system calls. -/
structure Call where
  backend : Backend
  maxBytes : Int
  ios : Nat → Round

/-- Calls of the backends one after another, as the server makes them whenever the socket is writable. -/
def calls (b : Build) : List Call → Net → Option (List Ret × Net)
  | [], net => some ([], net)
  | k :: ks, net => do
    let (ret, net) ← k.backend.networkWriteChunkqueue b k.ios { net with maxBytes := k.maxBytes }
    let (rets, net) ← calls b ks net
    return (ret :: rets, net)

/-- **Every write backend refines the stream.** Whatever the queue holds, whatever the budgets are and whatever the
system calls return, no call fails an assertion, and together they put a prefix `data` of the content of the queue on
the wire, in order and each byte once; exactly `data` has left the queue, and `bytes_out` has grown by its length. -/
theorem calls_sent (b : Build) (ks : List Call) (net : Net) (h : net.cq.WF) :
    ∃ rets net' data, calls b ks net = some (rets, net') ∧ net'.wire = net.wire ++ data ∧
      net.cq.content net.world = data ++ net'.cq.content net'.world ∧
      net'.cq.bytesOut = net.cq.bytesOut + data.length ∧ net'.cq.bytesIn = net.cq.bytesIn ∧
      net'.world.files = net.world.files ∧ net'.cq.WF := by
  induction ks generalizing net with
  | nil => exact ⟨[], net, [], rfl, by simp, by simp, by simp, rfl, rfl, h⟩
  | cons k ks ih =>
    obtain ⟨ret, net', data, heq, hs⟩ :=
      loop_sends k.backend b k.ios { net with maxBytes := k.maxBytes } h (Nat.lt_succ_self _)
    obtain ⟨rets, net'', data', heq', hwire, hcont, hout, hin, hfiles, hwf⟩ := ih net' hs.wf
    refine ⟨ret :: rets, net'', data ++ data', ?_, ?_, ?_, ?_, hin.trans hs.bytesIn, hfiles.trans hs.files, hwf⟩
    · simp only [calls, Backend.networkWriteChunkqueue, Option.bind_eq_bind]
      rw [heq, Option.bind_some, heq', Option.bind_some]
      rfl
    · rw [hwire, hs.wire, List.append_assoc]
    · rw [show net.cq.content net.world = data ++ net'.cq.content net'.world from hs.content, hcont, List.append_assoc]
    · rw [hout, show net'.cq.bytesOut = net.cq.bytesOut + data.length from hs.bytesOut, List.length_append]
      omega

def sampleBuild : Build := ⟨true, true, 1024, 4096, by decide, by decide, by decide⟩

def sampleFiles : World := ⟨fun p => if p = ascii "a" then some [1, 2, 3, 4, 5] else none, fun _ => none⟩

/-- A partly sent chunk in memory, an empty one, and a range of the file. -/
def sampleNet : Net where
  cq := ⟨[⟨.memChunk, .ofString [10, 11, 12], Chunk.noFile, 1⟩, ⟨.memChunk, .ofString [], Chunk.noFile, 0⟩,
    ⟨.fileChunk, .init, ⟨ascii "a", 1, 3, none, ⟨false, 0, 0⟩, false⟩, 0⟩], [], 6, 1, none, 1024, 0⟩
  maxBytes := 0
  world := sampleFiles
  wire := []

/-- A short `writev`, then a `sendfile` that is not supported, then a short `write`. -/
def sampleCalls : List Call :=
  [⟨.writev, 100, fun _ => ⟨true, some 5, true, true, true, true, some 9, .wrote 1, .wrote 9⟩⟩,
    ⟨.sendfile, 100, fun i => ⟨true, some 5, true, true, true, true, some 9, .wrote (2 - i), .error .einval⟩⟩]

example : (calls sampleBuild sampleCalls sampleNet).map (fun r => (r.1, r.2.wire, r.2.cq.bytesOut)) =
    some ([.done, .done], [11, 12, 2], 4) := by decide

theorem calls_sent_sample : ∃ rets net' data, calls sampleBuild sampleCalls sampleNet = some (rets, net') ∧
    net'.wire = sampleNet.wire ++ data ∧
    sampleNet.cq.content sampleNet.world = data ++ net'.cq.content net'.world ∧
    net'.cq.bytesOut = sampleNet.cq.bytesOut + data.length ∧ net'.cq.bytesIn = sampleNet.cq.bytesIn ∧
    net'.world.files = sampleNet.world.files ∧ net'.cq.WF :=
  calls_sent sampleBuild sampleCalls sampleNet ⟨by decide, nofun⟩

end Network
end Lighttpd
