import Mathlib.Algebra.GroupWithZero.Nat
import Lighttpd.Chunk.Queue

/-!
# What the queue operations do to the bytes of a queue

`Chunkqueue.content` is the byte stream that a queue stands for, `Chunkqueue.total` its length as the chunks announce
it, and `Chunkqueue.WF` the part of the representation invariant that speaks of single chunks. Every operation gets
one lemma here that says which chunks it puts where (`Pushed`, `Popped`), and one that says what this does to the
content.
-/

namespace Lighttpd

/-- An idle chunk, as `chunk_init` and `chunk_reset` leave it. -/
structure Chunk.Idle (c : Chunk) : Prop where
  type : c.type = .memChunk
  str : c.mem.str = []
  file : c.file = Chunk.noFile
  offset : c.offset = 0

namespace Chunk

theorem idle_init : Chunk.init.Idle := ⟨rfl, rfl, rfl, rfl⟩

theorem idle_reset (c : Chunk) : c.reset.Idle := ⟨rfl, rfl, rfl, rfl⟩

variable {c : Chunk}

theorem offsetOk_of_offset_eq_zero (h : c.offset = 0) : c.OffsetOk := by
  rw [OffsetOk, h]
  exact Nat.zero_le _

theorem size_mem (h : c.type = .memChunk) : c.size = c.mem.str.length := by
  simp [size, h]

theorem size_file (h : c.type = .fileChunk) : c.size = c.file.length := by
  simp [size, h]

theorem bytes_mem (h : c.type = .memChunk) (w : World) : c.bytes w = c.mem.str.drop c.offset := by
  simp [bytes, allBytes, h]

theorem bytes_file (h : c.type = .fileChunk) (w : World) :
    c.bytes w = (((w.content c.file.name).drop c.file.start).take c.file.length).drop c.offset := by
  simp [bytes, allBytes, h]

theorem bytes_eq_nil (h : c.size - c.offset = 0) (w : World) : c.bytes w = [] := by
  have hs : c.size ≤ c.offset := Nat.le_of_sub_eq_zero h
  apply List.drop_eq_nil_of_le
  refine Nat.le_trans ?_ hs
  cases ht : c.type with
  | memChunk => simp [allBytes, size, ht]
  | fileChunk => simp only [allBytes, size, ht, List.length_take]; exact Nat.min_le_left _ _

end Chunk

namespace Chunkqueue

/-- **The content of a queue**: the bytes that are still to be sent, in order. -/
def content (w : World) (cq : Chunkqueue) : Bytes := cq.chunks.flatMap (Chunk.bytes w)

def totalOf (cs : List Chunk) : Nat := (cs.map fun c => c.size - c.offset).sum

def total (cq : Chunkqueue) : Nat := totalOf cq.chunks

@[simp] theorem totalOf_nil : totalOf [] = 0 := rfl

@[simp] theorem totalOf_cons (c : Chunk) (cs : List Chunk) : totalOf (c :: cs) = c.size - c.offset + totalOf cs :=
  List.sum_cons

@[simp] theorem totalOf_append (cs ds : List Chunk) : totalOf (cs ++ ds) = totalOf cs + totalOf ds := by
  simp [totalOf]

/-- The chunks of a queue are not consumed beyond their ends, and its idle chunks are empty. -/
structure WF (cq : Chunkqueue) : Prop where
  offset : ∀ c ∈ cq.chunks, c.OffsetOk
  idle : ∀ c ∈ cq.unused, c.Idle

/-- The ranges of the file chunks lie in their files. -/
def InFiles (w : World) (cq : Chunkqueue) : Prop := ∀ c ∈ cq.chunks, c.InFile w

theorem length_flatMap_bytes {w : World} : ∀ {cs : List Chunk}, (∀ c ∈ cs, c.InFile w) →
    (cs.flatMap (Chunk.bytes w)).length = totalOf cs
  | [], _ => rfl
  | c :: cs, h => by
    have ih : (cs.flatMap (Chunk.bytes w)).length = totalOf cs :=
      length_flatMap_bytes fun d hd => h d (List.mem_cons_of_mem c hd)
    rw [List.flatMap_cons, List.length_append, ih, totalOf_cons, Chunk.length_bytes (h c List.mem_cons_self)]

theorem content_congr {w w' : World} (h : w'.files = w.files) (cq : Chunkqueue) : cq.content w' = cq.content w := by
  rw [content, content, funext (Chunk.bytes_congr h)]

variable {cq cq' : Chunkqueue} {c : Chunk} {n : Nat} {cs : List Chunk}

theorem length_content {w : World} (h : cq.InFiles w) : (cq.content w).length = cq.total :=
  length_flatMap_bytes h

/-- `chunkqueue_length` fails no assertion. -/
theorem length_eq (h : cq.WF) : cq.length = some cq.total := by
  obtain ⟨hoff, -⟩ := h
  unfold length total
  generalize cq.chunks = cs at hoff
  induction cs with
  | nil => rfl
  | cons c cs ih =>
    have hc := Chunk.remainingLength_eq (hoff c List.mem_cons_self)
    have hcs := ih fun d hd => hoff d (List.mem_cons_of_mem c hd)
    simp [length.go, hc, hcs]

/-! ## Chunks put into a queue -/

structure Pushed (cq cq' : Chunkqueue) (c : Chunk) : Prop where
  chunks : cq'.chunks = cq.chunks ++ [c]
  unused : cq'.unused ⊆ cq.unused
  bytesIn : cq'.bytesIn = cq.bytesIn + (c.size - c.offset : Nat)
  bytesOut : cq'.bytesOut = cq.bytesOut

namespace Pushed

theorem wf (h : Pushed cq cq' c) (hq : cq.WF) (hc : c.OffsetOk) : cq'.WF := by
  refine ⟨fun d hd => ?_, fun d hd => hq.idle d (h.unused hd)⟩
  rw [h.chunks] at hd
  rcases List.mem_append.mp hd with hd | hd
  · exact hq.offset d hd
  · rw [List.mem_singleton.mp hd]; exact hc

theorem content (h : Pushed cq cq' c) (w : World) : cq'.content w = cq.content w ++ c.bytes w := by
  simp [Chunkqueue.content, h.chunks]

theorem total (h : Pushed cq cq' c) : cq'.total = cq.total + (c.size - c.offset) := by
  simp [Chunkqueue.total, h.chunks]

theorem inFiles {w : World} (h : Pushed cq cq' c) (hq : cq.InFiles w) (hc : c.InFile w) : cq'.InFiles w := by
  intro d hd
  rw [h.chunks] at hd
  rcases List.mem_append.mp hd with hd | hd
  · exact hq d hd
  · rw [List.mem_singleton.mp hd]; exact hc

end Pushed

/-- The chunk that `chunkqueue_get_unused_chunk` gives is idle, and the queue only loses it. -/
theorem getUnusedChunk_spec (h : cq.WF) :
    cq.getUnusedChunk.1.Idle ∧ ∃ us, us ⊆ cq.unused ∧ cq.getUnusedChunk.2 = { cq with unused := us } := by
  unfold getUnusedChunk
  cases hu : cq.unused with
  | nil => exact ⟨Chunk.idle_init, cq.unused, by rw [hu]; exact List.Subset.refl _, rfl⟩
  | cons c us => exact ⟨h.idle c (by simp [hu]), us, List.subset_cons_self c us, rfl⟩

theorem appendChunk_eq (cq : Chunkqueue) (h : c.OffsetOk) : cq.appendChunk c =
      some { cq with chunks := cq.chunks ++ [c], bytesIn := cq.bytesIn + (c.size - c.offset : Nat) } := by
  simp [appendChunk, Chunk.remainingLength_eq h]

theorem prependChunk_eq (cq : Chunkqueue) (h : c.OffsetOk) : cq.prependChunk c =
      some { cq with chunks := c :: cq.chunks, bytesIn := cq.bytesIn + (c.size - c.offset : Nat) } := by
  simp [prependChunk, Chunk.remainingLength_eq h]

theorem appendChunk_spec (cq : Chunkqueue) (h : c.OffsetOk) : ∃ cq', cq.appendChunk c = some cq' ∧ Pushed cq cq' c :=
  ⟨_, cq.appendChunk_eq h, rfl, List.Subset.refl _, rfl, rfl⟩

theorem append_unused_spec (h : cq.WF) (f : Chunk → Chunk) (hf : ∀ c, c.Idle → (f c).OffsetOk) :
    cq.getUnusedChunk.1.Idle ∧ ∃ cq', cq.getUnusedChunk.2.appendChunk (f cq.getUnusedChunk.1) = some cq' ∧
      Pushed cq cq' (f cq.getUnusedChunk.1) := by
  obtain ⟨hidle, us, hus, heq⟩ := getUnusedChunk_spec h
  refine ⟨hidle, _, appendChunk_eq _ (hf _ hidle), ?_⟩
  rw [heq]
  exact ⟨rfl, hus, rfl, rfl⟩

/-- `chunkqueue_append_mem` puts the bytes into one chunk in memory. -/
theorem appendMem_spec (h : cq.WF) {mem : Bytes} (hm : mem ≠ []) :
    ∃ c cq', cq.appendMem mem = some cq' ∧ Pushed cq cq' c ∧ c.type = .memChunk ∧ c.mem.str = mem ∧ c.offset = 0 := by
  obtain ⟨hc, cq', happ, hp⟩ := append_unused_spec h
    (fun c => { c with type := .memChunk, mem := c.mem.copyStringLen mem })
    (fun c hc => Chunk.offsetOk_of_offset_eq_zero hc.offset)
  refine ⟨_, cq', ?_, hp, rfl, rfl, hc.offset⟩
  unfold appendMem
  rw [if_neg (by simpa using hm)]
  exact happ

/-- `chunkqueue_append_file` puts the range into one file chunk. -/
theorem appendFile_spec (h : cq.WF) (fn : Path) (offset : Nat) {len : Nat} (hl : len ≠ 0) :
    ∃ c cq', cq.appendFile fn offset len = some cq' ∧ Pushed cq cq' c ∧ c.type = .fileChunk ∧
      c.file = { Chunk.noFile with name := fn, start := offset, length := len } ∧ c.offset = 0 := by
  obtain ⟨hc, cq', happ, hp⟩ := append_unused_spec h
    (fun c => { c with
      type := .fileChunk
      file := { c.file with name := fn, start := offset, length := len }
      offset := 0 })
    (fun c _ => Chunk.offsetOk_of_offset_eq_zero rfl)
  refine ⟨_, cq', ?_, hp, rfl, by simp only [hc.file], rfl⟩
  unfold appendFile
  rw [if_neg hl]
  exact happ

/-- `chunkqueue_append_file_fd` puts the range and its open descriptor into one file chunk. -/
theorem appendFileFd_spec (h : cq.WF) (fn : Path) (fd : Fd) (offset : Nat) {len : Nat} (hl : len ≠ 0) :
    ∃ c cq', cq.appendFileFd fn fd offset len = some cq' ∧ Pushed cq cq' c ∧ c.type = .fileChunk ∧
      c.file = { Chunk.noFile with name := fn, start := offset, length := len, fd := some fd } ∧ c.offset = 0 := by
  obtain ⟨hc, cq', happ, hp⟩ := append_unused_spec h
    (fun c => { c with
      type := .fileChunk
      file := { c.file with name := fn, start := offset, length := len, fd := some fd }
      offset := 0 })
    (fun c _ => Chunk.offsetOk_of_offset_eq_zero rfl)
  refine ⟨_, cq', ?_, hp, rfl, by simp only [hc.file], rfl⟩
  unfold appendFileFd
  rw [if_neg hl]
  exact happ

/-- `chunkqueue_append_buffer` moves the string into one chunk in memory and leaves an empty buffer. -/
theorem appendBuffer_spec (h : cq.WF) {mem : Buffer} (hm : mem.str ≠ []) :
    ∃ c cq' b, cq.appendBuffer mem = some (cq', b) ∧ Pushed cq cq' c ∧ c.type = .memChunk ∧ c.mem.str = mem.str ∧
      c.offset = 0 ∧ b.str = [] := by
  obtain ⟨hc, cq', happ, hp⟩ := append_unused_spec h
    (fun c => { c with type := .memChunk, mem := (c.mem.move mem).1 })
    (fun c hc => Chunk.offsetOk_of_offset_eq_zero hc.offset)
  refine ⟨_, cq', (cq.getUnusedChunk.1.mem.move mem).2, ?_, hp, rfl, rfl, hc.offset, rfl⟩
  unfold appendBuffer
  rw [if_neg (by simpa using hm)]
  exact congrArg (Option.bind · _) happ

/-! ## Chunks taken out of a queue -/

/-- A chunk that is pushed to the idle ones leaves the chunks of the queue alone. -/
@[simp] theorem pushUnusedChunk_chunks (cq : Chunkqueue) (c : Chunk) : (cq.pushUnusedChunk c).chunks = cq.chunks := by
  unfold pushUnusedChunk
  split <;> rfl

@[simp] theorem pushUnusedChunk_bytesIn (cq : Chunkqueue) (c : Chunk) :
    (cq.pushUnusedChunk c).bytesIn = cq.bytesIn := by
  unfold pushUnusedChunk
  split <;> rfl

@[simp] theorem pushUnusedChunk_bytesOut (cq : Chunkqueue) (c : Chunk) :
    (cq.pushUnusedChunk c).bytesOut = cq.bytesOut := by
  unfold pushUnusedChunk
  split <;> rfl

theorem pushUnusedChunk_idle (h : ∀ d ∈ cq.unused, d.Idle) (c : Chunk) :
    ∀ d ∈ (cq.pushUnusedChunk c).unused, d.Idle := by
  unfold pushUnusedChunk
  split
  · exact h
  · intro d hd
    rcases List.mem_cons.mp hd with rfl | hd
    · exact c.idle_reset
    · exact h d hd

structure Drained (cq cq' : Chunkqueue) (n : Nat) : Prop where
  wf : cq'.WF
  total : cq'.total + n = cq.total
  bytesIn : cq'.bytesIn = cq.bytesIn
  inFiles : ∀ w, cq.InFiles w → cq'.InFiles w
  content : ∀ w, cq.InFiles w → cq'.content w = (cq.content w).drop n

namespace Drained

variable {cq'' : Chunkqueue} {m : Nat}

theorem refl (h : cq.WF) : Drained cq cq 0 := ⟨h, rfl, rfl, fun _ => id, fun _ _ => rfl⟩

theorem trans (h : Drained cq cq' n) (h' : Drained cq' cq'' m) : Drained cq cq'' (n + m) where
  wf := h'.wf
  total := by have := h.total; have := h'.total; omega
  bytesIn := h'.bytesIn.trans h.bytesIn
  inFiles := fun w hw => h'.inFiles w (h.inFiles w hw)
  content := fun w hw => by rw [h'.content w (h.inFiles w hw), h.content w hw, List.drop_drop]

/-- Only the chunks, the idle chunks and `bytes_in` count. -/
theorem congr (h : Drained cq cq' n) (hc : cq''.chunks = cq'.chunks) (hu : cq''.unused = cq'.unused)
    (hin : cq''.bytesIn = cq'.bytesIn) : Drained cq cq'' n where
  wf := ⟨fun c hm => h.wf.offset c (hc ▸ hm), fun c hm => h.wf.idle c (hu ▸ hm)⟩
  total := by rw [Chunkqueue.total, hc]; exact h.total
  bytesIn := hin.trans h.bytesIn
  inFiles := fun w hw c hm => h.inFiles w hw c (hc ▸ hm)
  content := fun w hw => by rw [Chunkqueue.content, hc]; exact h.content w hw

end Drained

theorem dropFirst_drained (h : cq.WF) (hcs : cq.chunks = c :: cs) : Drained cq cq.dropFirst (c.size - c.offset) where
  wf := ⟨fun d hd => h.offset d (List.mem_of_mem_tail hd), h.idle⟩
  total := by simp [total, dropFirst, hcs, Nat.add_comm]
  bytesIn := rfl
  inFiles := fun w hw d hd => hw d (List.mem_of_mem_tail hd)
  content := fun w hw => by
    have hl := Chunk.length_bytes (hw c (by simp [hcs]))
    simp [content, dropFirst, hcs, ← hl]

theorem pop_drained (h : cq.WF) (hcs : cq.chunks = c :: cs)
    (d : Chunk) : Drained cq (cq.dropFirst.pushUnusedChunk d) (c.size - c.offset) := by
  have hd := dropFirst_drained h hcs
  refine ⟨⟨?_, pushUnusedChunk_idle hd.wf.idle d⟩, ?_, ?_, ?_, ?_⟩
  · intro e he
    rw [pushUnusedChunk_chunks] at he
    exact hd.wf.offset e he
  · rw [total, pushUnusedChunk_chunks]; exact hd.total
  · rw [pushUnusedChunk_bytesIn]; exact hd.bytesIn
  · intro w hw e he
    rw [pushUnusedChunk_chunks] at he
    exact hd.inFiles w hw e he
  · intro w hw
    rw [content, pushUnusedChunk_chunks]
    exact hd.content w hw

theorem setFirst_drained (h : cq.WF) (hcs : cq.chunks = c :: cs)
    (hn : n ≤ c.size - c.offset) : Drained cq (cq.setFirst (c.advance n)) n := by
  have hc : c.OffsetOk := h.offset c (by simp [hcs])
  have hoff : c.offset + n ≤ c.size := by rw [Chunk.OffsetOk] at hc; omega
  refine ⟨⟨?_, h.idle⟩, ?_, rfl, ?_, ?_⟩
  · intro d hd
    rcases List.mem_cons.mp hd with rfl | hd
    · exact hoff
    · exact h.offset d (List.mem_of_mem_tail hd)
  · simp only [total, setFirst, hcs, List.tail_cons, totalOf_cons, Chunk.advance_size, Chunk.advance_offset]
    omega
  · intro w hw d hd
    rcases List.mem_cons.mp hd with rfl | hd
    · exact hw c (by simp [hcs])
    · exact hw d (List.mem_of_mem_tail hd)
  · intro w hw
    have hl := Chunk.length_bytes (hw c (by simp [hcs]))
    have h0 : n - (c.bytes w).length = 0 := by omega
    simp only [content, setFirst, hcs, List.tail_cons, List.flatMap_cons, Chunk.bytes_advance]
    rw [List.drop_append, h0, List.drop_zero]

/-- `chunkqueue_remove_finished_chunks` fails no assertion, and keeps the content and the counters. -/
theorem removeFinishedChunks_spec (h : cq.WF) :
    ∃ cq', cq.removeFinishedChunks = some cq' ∧ Drained cq cq' 0 ∧ cq'.bytesOut = cq.bytesOut ∧
      cq'.chunks <:+ cq.chunks := by
  unfold removeFinishedChunks
  generalize hcs : cq.chunks = cs
  induction cs generalizing cq with
  | nil => exact ⟨cq, rfl, .refl h, rfl, hcs ▸ List.suffix_refl _⟩
  | cons c cs ih =>
    have hc := Chunk.remainingLength_eq (h.offset c (by simp [hcs]))
    by_cases hn : c.size - c.offset = 0
    · have hp := pop_drained h hcs c
      obtain ⟨cq', heq, hd, hout, hsuf⟩ := ih hp.wf (by simp [dropFirst, hcs])
      refine ⟨cq', ?_, ?_, ?_, hsuf.trans (List.suffix_cons c cs)⟩
      · simp [removeFinishedChunks.go, hc, hn, heq]
      · have ht := hp.trans hd
        rwa [hn] at ht
      · simpa [dropFirst] using hout
    · refine ⟨cq, ?_, .refl h, rfl, hcs ▸ List.suffix_refl _⟩
      simp [removeFinishedChunks.go, hc, hn]

/-- The loop of `chunkqueue_mark_written` consumes exactly what has been written. -/
theorem markWritten_go_spec (h : cq.WF) (hcs : cq.chunks = cs) (hn : n ≤ cq.total) :
    ∃ cq', markWritten.go cs cq n = some (cq', 0) ∧ Drained cq cq' n ∧ cq'.bytesOut = cq.bytesOut := by
  induction cs generalizing cq n with
  | nil =>
    have h0 : n = 0 := by simpa [total, hcs] using hn
    subst h0
    exact ⟨cq, rfl, .refl h, rfl⟩
  | cons c cs ih =>
    have hc := Chunk.remainingLength_eq (h.offset c (by simp [hcs]))
    by_cases hstop : n = 0 ∧ c.size - c.offset ≠ 0
    · obtain ⟨rfl, hne⟩ := hstop
      exact ⟨cq, by simp [markWritten.go, hc, hne], .refl h, rfl⟩
    · by_cases hge : c.size - c.offset ≤ n
      · have hp := pop_drained h hcs (c.advance (c.size - c.offset))
        have hle : n - (c.size - c.offset) ≤
            total (cq.dropFirst.pushUnusedChunk (c.advance (c.size - c.offset))) := by
          have := hp.total
          omega
        obtain ⟨cq', heq, hd, hout⟩ := ih hp.wf (by simp [dropFirst, hcs]) hle
        refine ⟨cq', ?_, ?_, ?_⟩
        · simp [markWritten.go, hc, hge, hstop, heq]
        · have ht := hp.trans hd
          rwa [Nat.add_sub_cancel' hge] at ht
        · simpa [dropFirst] using hout
      · refine ⟨cq.setFirst (c.advance n), ?_, ?_, rfl⟩
        · simp [markWritten.go, hc, hge, hstop]
        · exact setFirst_drained h hcs (by omega)

/-- **`chunkqueue_mark_written` of at most what is queued fails no assertion and drops exactly these bytes.** -/
theorem markWritten_spec (h : cq.WF) (hn : n ≤ cq.total) :
    ∃ cq', cq.markWritten n = some cq' ∧ Drained cq cq' n ∧ cq'.bytesOut = cq.bytesOut + n := by
  obtain ⟨cq', heq, hd, hout⟩ := markWritten_go_spec h rfl hn
  refine ⟨{ cq' with bytesOut := cq'.bytesOut + n }, ?_, hd.congr rfl rfl rfl, by simp [hout]⟩
  simp [markWritten, heq]

/-- `chunkqueue_mark_written` changes only the offset of a chunk. -/
theorem markWritten_go_files {k : Nat} (hcs : cq.chunks = cs)
    (h : markWritten.go cs cq n = some (cq', k)) : ∀ d ∈ cq'.chunks, ∃ c ∈ cs, d.type = c.type ∧ d.file = c.file := by
  induction cs generalizing cq n with
  | nil =>
    cases h
    intro d hd
    exact ⟨d, hcs ▸ hd, rfl, rfl⟩
  | cons c cs ih =>
    simp only [markWritten.go, Option.bind_eq_bind, Option.bind_eq_some_iff] at h
    obtain ⟨rem, -, h⟩ := h
    split at h
    · cases h
      intro d hd
      exact ⟨d, hcs ▸ hd, rfl, rfl⟩
    · split at h
      · intro d hd
        obtain ⟨e, he, hsame⟩ := ih (by simp [dropFirst, hcs]) h d hd
        exact ⟨e, List.mem_cons_of_mem c he, hsame⟩
      · cases h
        intro d hd
        rw [show (cq.setFirst (c.advance n)).chunks = c.advance n :: cs by simp [setFirst, hcs]] at hd
        rcases List.mem_cons.mp hd with rfl | hd
        · exact ⟨c, List.mem_cons_self, rfl, rfl⟩
        · exact ⟨d, List.mem_cons_of_mem c hd, rfl, rfl⟩

theorem markWritten_files (h : cq.markWritten n = some cq') :
    ∀ d ∈ cq'.chunks, ∃ c ∈ cq.chunks, d.type = c.type ∧ d.file = c.file := by
  unfold markWritten at h
  obtain ⟨⟨cq₁, k⟩, hgo, h⟩ := Option.bind_eq_some_iff.mp h
  dsimp only at h
  split at h
  · cases h
    intro d hd
    have hd₁ : d ∈ cq₁.chunks := hd
    exact markWritten_go_files rfl hgo d hd₁
  · cases h

/-- When more has been written than is queued, the loop ends with the rest. -/
theorem markWritten_go_over (h : cq.WF) (hcs : cq.chunks = cs)
    (hn : cq.total < n) : ∃ cq', markWritten.go cs cq n = some (cq', n - cq.total) := by
  induction cs generalizing cq n with
  | nil => exact ⟨cq, by rw [total, hcs]; rfl⟩
  | cons c cs ih =>
    have hc := Chunk.remainingLength_eq (h.offset c (by simp [hcs]))
    have hp := pop_drained h hcs (c.advance (c.size - c.offset))
    have ht := hp.total
    obtain ⟨cq', heq⟩ := ih hp.wf (by simp [dropFirst, hcs]) (n := n - (c.size - c.offset)) (by omega)
    have hge : c.size - c.offset ≤ n := by omega
    have hne : ¬ (n = 0 ∧ c.size - c.offset ≠ 0) := by omega
    refine ⟨cq', ?_⟩
    have hrest : n - (c.size - c.offset) -
        total (cq.dropFirst.pushUnusedChunk (c.advance (c.size - c.offset))) = n - cq.total := by omega
    rw [← hrest, ← heq]
    simp [markWritten.go, hc, hge, hne]

/-- `chunkqueue_mark_written` returns only if no more is written than is queued. -/
theorem markWritten_le (h : cq.WF) (heq : cq.markWritten n = some cq') : n ≤ cq.total := by
  by_contra hn
  obtain ⟨cq₁, hgo⟩ := markWritten_go_over h rfl (Nat.lt_of_not_le hn)
  have hne : n - cq.total ≠ 0 := by omega
  simp [markWritten, hgo, hne] at heq

/-! ## The other operations -/

theorem foldl_pushUnusedChunk (hc : cq.chunks = []) (hi : ∀ c ∈ cq.unused, c.Idle) :
    (cs.foldl pushUnusedChunk cq).chunks = [] ∧ ∀ c ∈ (cs.foldl pushUnusedChunk cq).unused, c.Idle := by
  induction cs generalizing cq with
  | nil => exact ⟨hc, hi⟩
  | cons c cs ih => exact ih (by rw [pushUnusedChunk_chunks, hc]) (pushUnusedChunk_idle hi c)

/-- `chunkqueue_reset` leaves an empty queue. -/
theorem reset_spec (h : cq.WF) : cq.reset.WF ∧ cq.reset.chunks = [] := by
  have hgo : (cq.chunks.foldl pushUnusedChunk { cq with chunks := [] }).chunks = [] ∧
      ∀ c ∈ (cq.chunks.foldl pushUnusedChunk { cq with chunks := [] }).unused, c.Idle :=
    foldl_pushUnusedChunk rfl h.idle
  obtain ⟨hc, hi⟩ := hgo
  refine ⟨⟨fun c hm => ?_, hi⟩, hc⟩
  rw [show cq.reset.chunks = [] from hc] at hm
  cases hm

/-- `chunkqueue_append_chunkqueue` moves the whole content of `src` to the end of `cq`. -/
theorem appendChunkqueue_spec (cq src : Chunkqueue) :
    (cq.appendChunkqueue src).1.chunks = cq.chunks ++ src.chunks ∧ (cq.appendChunkqueue src).2.chunks = [] ∧
      (cq.appendChunkqueue src).1.unused = cq.unused ∧ (cq.appendChunkqueue src).2.unused = src.unused := by
  unfold appendChunkqueue
  split
  · rename_i he
    have hnil : src.chunks = [] := List.isEmpty_iff.mp he
    simp [hnil]
  · exact ⟨rfl, rfl, rfl, rfl⟩

theorem reuseMemory_str (b : Buffer) (minSize allocSize : Nat) : (reuseMemory b minSize allocSize).str = b.str := by
  unfold reuseMemory
  split
  · rename_i h
    simp [(Buffer.stringIsEmpty_iff b).mp h]
  · split
    · dsimp only
      split
      · exact b.stringPrepareAppend_str _
      · rfl
    · rfl

/-- `cq'` has the bytes of `cq`, and ends with a chunk in memory that has `space` bytes of space. -/
structure HasMemory (cq cq' : Chunkqueue) (space : Nat) : Prop where
  wf : cq'.WF
  total : cq'.total = cq.total
  bytesIn : cq'.bytesIn = cq.bytesIn
  bytesOut : cq'.bytesOut = cq.bytesOut
  content : ∀ w, cq'.content w = cq.content w
  inFiles : ∀ w, cq.InFiles w → cq'.InFiles w
  last : ∃ c, cq'.chunks.getLast? = some c ∧ c.type = .memChunk ∧ c.mem.stringSpace = space

/-- A chunk in memory whose string stays the same can be replaced at the end of the queue. -/
theorem setLast_mem_spec {d : Chunk} (h : cq.WF) (hlast : cq.chunks.getLast? = some c)
    (hc : c.type = .memChunk) (hd : d.type = .memChunk) (hstr : d.mem.str = c.mem.str) (hoff : d.offset = c.offset) :
    HasMemory cq (cq.setLast d) d.mem.stringSpace := by
  have hl : cq.chunks.dropLast ++ [c] = cq.chunks := List.dropLast_append_getLast? c hlast
  have hsize : d.size = c.size := by rw [Chunk.size_mem hc, Chunk.size_mem hd, hstr]
  have hmem : c ∈ cq.chunks := by rw [← hl]; simp
  refine ⟨⟨?_, h.idle⟩, ?_, rfl, rfl, ?_, ?_, d, by simp [setLast], hd, rfl⟩
  · intro e he
    rcases List.mem_append.mp he with he | he
    · exact h.offset e (List.dropLast_subset _ he)
    · rw [List.mem_singleton.mp he, Chunk.OffsetOk, hoff, hsize]
      exact h.offset c hmem
  · rw [total, total, ← hl]
    simp [setLast, hsize, hoff]
  · intro w
    have hb : d.bytes w = c.bytes w := by rw [Chunk.bytes_mem hc, Chunk.bytes_mem hd, hstr, hoff]
    rw [content, content, ← hl]
    simp [setLast, hb]
  · intro w hw e he
    rcases List.mem_append.mp he with he | he
    · exact hw e (List.dropLast_subset _ he)
    · rw [List.mem_singleton.mp he]; exact Chunk.inFile_mem hd

theorem HasMemory.trans {cq'' : Chunkqueue} {m : Nat} (h : HasMemory cq cq' n) (h' : HasMemory cq' cq'' m) :
    HasMemory cq cq'' m where
  wf := h'.wf
  total := h'.total.trans h.total
  bytesIn := h'.bytesIn.trans h.bytesIn
  bytesOut := h'.bytesOut.trans h.bytesOut
  content := fun w => (h'.content w).trans (h.content w)
  inFiles := fun w hw => h'.inFiles w (h.inFiles w hw)
  last := h'.last

theorem Pushed.hasMemory (hp : Pushed cq cq' c) (h : cq.WF)
    (hc : c.type = .memChunk) (hstr : c.mem.str = []) (hoff : c.offset = 0) : HasMemory cq cq' c.mem.stringSpace := by
  have hsize : c.size = 0 := by rw [Chunk.size_mem hc, hstr]; rfl
  refine ⟨hp.wf h (Chunk.offsetOk_of_offset_eq_zero hoff), ?_, ?_, hp.bytesOut, ?_, ?_, c, ?_, hc, rfl⟩
  · rw [hp.total, hsize, Nat.zero_sub, Nat.add_zero]
  · rw [hp.bytesIn, hsize, Nat.zero_sub, Int.natCast_zero, Int.add_zero]
  · intro w
    rw [hp.content, Chunk.bytes_mem hc, hstr, List.drop_nil, List.append_nil]
  · exact fun w hw => hp.inFiles hw (Chunk.inFile_mem hc)
  · rw [hp.chunks]; simp

/-- The new chunk of `chunkqueue_get_memory`. -/
theorem getMemory_fresh_spec (h : cq.WF) (allocSize : Nat) :
    ∃ cq' space, getMemory.fresh allocSize cq = some (cq', space) ∧ HasMemory cq cq' space ∧ allocSize ≤ space := by
  obtain ⟨hc, cq', happ, hp⟩ := append_unused_spec h (fun c => { c with type := .memChunk })
    (fun c hc => Chunk.offsetOk_of_offset_eq_zero hc.offset)
  have hm := hp.hasMemory h rfl hc.str hc.offset
  have hlast : cq'.chunks.getLast? = some { cq.getUnusedChunk.1 with type := .memChunk } := by
    rw [hp.chunks]; simp
  have hs := setLast_mem_spec (d := { cq.getUnusedChunk.1 with
    type := .memChunk, mem := cq.getUnusedChunk.1.mem.stringPrepareAppend allocSize }) hm.wf hlast rfl rfl
    (Buffer.stringPrepareAppend_str _ _) rfl
  refine ⟨_, _, ?_, hm.trans hs, Buffer.stringPrepareAppend_space _ _⟩
  exact congrArg (Option.bind · _) happ

/-- **`chunkqueue_get_memory` fails no assertion, gives at least the space asked for and adds no bytes.** -/
theorem getMemory_spec (h : cq.WF) (minSize allocSize : Nat) :
    ∃ cq' space, cq.getMemory minSize allocSize = some (cq', space) ∧ HasMemory cq cq' space ∧
      (if minSize = 0 then 1024 else minSize) ≤ space := by
  obtain ⟨minSize', hmin⟩ : ∃ m, m = if minSize = 0 then 1024 else minSize := ⟨_, rfl⟩
  obtain ⟨allocSize', halloc⟩ : ∃ a, a = if (if allocSize = 0 then 4096 else allocSize) < minSize' then minSize'
    else if allocSize = 0 then 4096 else allocSize := ⟨_, rfl⟩
  have hle : minSize' ≤ allocSize' := by rw [halloc]; split_ifs <;> omega
  have hfresh : ∃ cq' space, getMemory.fresh allocSize' cq = some (cq', space) ∧ HasMemory cq cq' space ∧
      minSize' ≤ space := by
    obtain ⟨cq', space, heq, hm, hs⟩ := getMemory_fresh_spec h allocSize'
    exact ⟨cq', space, heq, hm, Nat.le_trans hle hs⟩
  unfold getMemory
  simp only [← hmin, ← halloc]
  cases hlast : cq.chunks.getLast? with
  | none => exact hfresh
  | some c =>
    dsimp only
    by_cases hc : c.type = .memChunk
    · rw [if_pos hc]
      have hs := setLast_mem_spec (d := { c with mem := reuseMemory c.mem minSize' allocSize' }) h hlast hc hc
        (reuseMemory_str _ _ _) rfl
      by_cases hspace : (reuseMemory c.mem minSize' allocSize').stringSpace ≥ minSize'
      · rw [if_pos hspace]
        exact ⟨_, _, rfl, hs, hspace⟩
      · rw [if_neg hspace]
        obtain ⟨cq', space, heq, hm, hsp⟩ := getMemory_fresh_spec hs.wf allocSize'
        exact ⟨cq', space, heq, hs.trans hm, Nat.le_trans hle hsp⟩
    · rw [if_neg hc]
      exact hfresh

structure Grown (cq cq' : Chunkqueue) (data : Bytes) : Prop where
  wf : cq'.WF
  total : cq'.total = cq.total + data.length
  bytesIn : cq'.bytesIn = cq.bytesIn + data.length
  bytesOut : cq'.bytesOut = cq.bytesOut
  content : ∀ w, cq'.content w = cq.content w ++ data
  inFiles : ∀ w, cq.InFiles w → cq'.InFiles w

theorem Grown.refl (h : cq.WF) : Grown cq cq [] :=
  ⟨h, rfl, (Int.add_zero _).symm, rfl, fun _ => (List.append_nil _).symm, fun _ => id⟩

theorem Pushed.grown (hp : Pushed cq cq' c) (h : cq.WF) (hc : c.type = .memChunk)
    (hoff : c.offset = 0) : Grown cq cq' c.mem.str where
  wf := hp.wf h (Chunk.offsetOk_of_offset_eq_zero hoff)
  total := by rw [hp.total, hoff, Chunk.size_mem hc, Nat.sub_zero]
  bytesIn := by rw [hp.bytesIn, hoff, Chunk.size_mem hc, Nat.sub_zero]
  bytesOut := hp.bytesOut
  content := fun w => by rw [hp.content, Chunk.bytes_mem hc, hoff, List.drop_zero]
  inFiles := fun _ hw => hp.inFiles hw (Chunk.inFile_mem hc)

/-- `chunkqueue_append_mem` puts its bytes at the end. -/
theorem appendMem_grown (h : cq.WF) (mem : Bytes) : ∃ cq', cq.appendMem mem = some cq' ∧ Grown cq cq' mem := by
  by_cases hm : mem = []
  · subst hm
    exact ⟨cq, rfl, .refl h⟩
  · obtain ⟨c, cq', heq, hp, hc, hstr, hoff⟩ := appendMem_spec h hm
    exact ⟨cq', heq, hstr ▸ hp.grown h hc hoff⟩

/-- `chunkqueue_append_buffer` puts the string of the buffer at the end. -/
theorem appendBuffer_grown (h : cq.WF) (mem : Buffer) :
    ∃ cq' b, cq.appendBuffer mem = some (cq', b) ∧ Grown cq cq' mem.str ∧ b.str = [] := by
  by_cases hm : mem.str = []
  · refine ⟨cq, mem, ?_, hm ▸ .refl h, hm⟩
    rw [appendBuffer, if_pos (by simpa using hm)]
  · obtain ⟨c, cq', b, heq, hp, hc, hstr, hoff, hb⟩ := appendBuffer_spec h hm
    exact ⟨cq', b, heq, hstr ▸ hp.grown h hc hoff, hb⟩

structure Prefixed (cq cq' : Chunkqueue) (data : Bytes) : Prop where
  wf : cq'.WF
  total : cq'.total = data.length + cq.total
  bytesIn : cq'.bytesIn = cq.bytesIn + data.length
  bytesOut : cq'.bytesOut = cq.bytesOut
  content : ∀ w, cq'.content w = data ++ cq.content w
  inFiles : ∀ w, cq.InFiles w → cq'.InFiles w

theorem prepend_unused_spec (h : cq.WF) (f : Chunk → Chunk) (hf : ∀ c, c.Idle → (f c).OffsetOk) :
    ∃ cq', cq.getUnusedChunk.2.prependChunk (f cq.getUnusedChunk.1) = some cq' ∧
      cq'.chunks = f cq.getUnusedChunk.1 :: cq.chunks ∧ cq'.unused ⊆ cq.unused ∧
      cq'.bytesIn = cq.bytesIn + ((f cq.getUnusedChunk.1).size - (f cq.getUnusedChunk.1).offset : Nat) ∧
      cq'.bytesOut = cq.bytesOut := by
  obtain ⟨hidle, us, hus, heq⟩ := getUnusedChunk_spec h
  refine ⟨_, prependChunk_eq _ (hf _ hidle), ?_⟩
  rw [heq]
  exact ⟨rfl, hus, rfl, rfl⟩

/-- `chunkqueue_prepend_buffer` puts the string of the buffer in front. -/
theorem prependBuffer_prefixed (h : cq.WF) (mem : Buffer) :
    ∃ cq' b, cq.prependBuffer mem = some (cq', b) ∧ Prefixed cq cq' mem.str ∧ b.str = [] := by
  by_cases hm : mem.str = []
  · refine ⟨cq, mem, ?_, ⟨h, by simp [hm], by simp [hm], rfl, by simp [hm], fun _ => id⟩, hm⟩
    rw [prependBuffer, if_pos (by simpa using hm)]
  · obtain ⟨cq', hpre, hcs, hus, hin, hout⟩ := prepend_unused_spec h
      (fun c => { c with type := .memChunk, mem := (c.mem.move mem).1 })
      (fun c hc => Chunk.offsetOk_of_offset_eq_zero hc.offset)
    obtain ⟨d, hd⟩ : ∃ d, d = { cq.getUnusedChunk.1 with type := ChunkType.memChunk, mem := mem } := ⟨_, rfl⟩
    have hoff : d.offset = 0 := by rw [hd]; exact (getUnusedChunk_spec h).1.offset
    have htype : d.type = .memChunk := by rw [hd]
    have hstr : d.mem.str = mem.str := by rw [hd]
    have hsize : d.size - d.offset = mem.str.length := by rw [Chunk.size_mem htype, hstr, hoff, Nat.sub_zero]
    replace hcs : cq'.chunks = d :: cq.chunks := by rw [hcs, hd]; rfl
    replace hin : cq'.bytesIn = cq.bytesIn + mem.str.length := by rw [← hsize, hd]; exact hin
    refine ⟨cq', (cq.getUnusedChunk.1.mem.move mem).2, ?_, ⟨⟨?_, fun e he => h.idle e (hus he)⟩, ?_, hin, hout, ?_, ?_⟩,
      rfl⟩
    · unfold prependBuffer
      rw [if_neg (by simpa using hm)]
      exact congrArg (Option.bind · _) hpre
    · intro e he
      rw [hcs] at he
      rcases List.mem_cons.mp he with rfl | he
      · exact Chunk.offsetOk_of_offset_eq_zero hoff
      · exact h.offset e he
    · rw [total, hcs, totalOf_cons, hsize]; rfl
    · intro w
      simp [content, hcs, Chunk.bytes_mem htype, hstr, hoff]
    · intro w hw e he
      rw [hcs] at he
      rcases List.mem_cons.mp he with rfl | he
      · exact Chunk.inFile_mem htype
      · exact hw e he

/-- **`chunkqueue_use_memory` puts its bytes at the end.** -/
theorem useMemory_grown (h : cq.WF) {mem : Bytes} (heq : cq.useMemory mem = some cq') : Grown cq cq' mem := by
  unfold useMemory at heq
  obtain ⟨c, hlast, heq⟩ := Option.bind_eq_some_iff.mp heq
  have hl : cq.chunks.dropLast ++ [c] = cq.chunks := List.dropLast_append_getLast? c hlast
  have hcm : c ∈ cq.chunks := by rw [← hl]; simp
  by_cases hc : c.type = .memChunk
  · rw [if_pos hc] at heq
    by_cases h0 : mem.length > 0
    · rw [if_pos h0] at heq
      obtain ⟨b, hb, heq⟩ := Option.bind_eq_some_iff.mp heq
      obtain rfl := Option.some.inj heq
      have hstr := Buffer.commit_str hb
      have hoff : c.offset ≤ c.mem.str.length := by
        have := h.offset c hcm
        rwa [Chunk.OffsetOk, Chunk.size_mem hc] at this
      have hsz : { c with mem := b }.size = c.mem.str.length + mem.length := by
        rw [Chunk.size_mem (c := { c with mem := b }) hc, hstr, List.length_append]
      refine ⟨⟨?_, h.idle⟩, ?_, rfl, rfl, ?_, ?_⟩
      · intro d hd
        rcases List.mem_append.mp hd with hd | hd
        · exact h.offset d (List.dropLast_subset _ hd)
        · rw [List.mem_singleton.mp hd, Chunk.OffsetOk, hsz]
          exact Nat.le_trans hoff (Nat.le_add_right _ _)
      · have hcs := Chunk.size_mem hc
        have ht : cq.total = totalOf cq.chunks.dropLast + (c.mem.str.length - c.offset) := by
          rw [total, ← hl]
          simp [hcs]
        simp only [total, setLast, totalOf_append, totalOf_cons, totalOf_nil, hsz]
        rw [total] at ht
        omega
      · intro w
        have hb : { c with mem := b }.bytes w = c.bytes w ++ mem := by
          rw [Chunk.bytes_mem hc, Chunk.bytes_mem (c := { c with mem := b }) hc, hstr,
            List.drop_append_of_le_length hoff]
        have ht : cq.content w = (cq.chunks.dropLast).flatMap (Chunk.bytes w) ++ c.bytes w := by
          rw [content, ← hl]
          simp
        rw [ht, List.append_assoc, ← hb]
        simp [content, setLast]
      · intro w hw d hd
        rcases List.mem_append.mp hd with hd | hd
        · exact hw d (List.dropLast_subset _ hd)
        · rw [List.mem_singleton.mp hd]; exact Chunk.inFile_mem hc
    · have hnil : mem = [] := List.eq_nil_of_length_eq_zero (Nat.eq_zero_of_not_pos h0)
      subst hnil
      rw [if_neg h0] at heq
      by_cases he : c.mem.stringIsEmpty = true
      · have hstr : c.mem.str = [] := (Buffer.stringIsEmpty_iff _).mp he
        have hset := setLast_mem_spec (d := { c with mem := c.mem.reset }) h hlast hc hc (by simp [hstr]) rfl
        rw [if_pos he] at heq
        obtain rfl := Option.some.inj heq
        exact ⟨hset.wf, hset.total, hset.bytesIn.trans (Int.add_zero _).symm, rfl,
          fun w => (hset.content w).trans (List.append_nil _).symm, hset.inFiles⟩
      · rw [if_neg he] at heq
        obtain rfl := Option.some.inj heq
        exact .refl h
  · rw [if_neg hc] at heq
    cases heq

theorem useMemory_isSome (hlast : cq.chunks.getLast? = some c)
    (hc : c.type = .memChunk) {mem : Bytes} (hs : 0 < c.mem.stringSpace) (hm : mem.length ≤ c.mem.stringSpace) :
    (cq.useMemory mem).isSome := by
  simp only [useMemory, hlast, Option.bind_eq_bind, Option.bind_some, if_pos hc]
  split
  · have hsize : 0 < c.mem.size := by
      by_contra hz
      simp [Buffer.stringSpace, Nat.eq_zero_of_not_pos hz] at hs
    obtain ⟨b, hb⟩ := Option.isSome_iff_exists.mp (Buffer.commit_isSome hsize hm)
    rw [hb]
    rfl
  · split <;> rfl

end Chunkqueue
end Lighttpd
