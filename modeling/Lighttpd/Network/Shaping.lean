import Mathlib.Algebra.GroupWithZero.Nat
import Mathlib.Algebra.Order.BigOperators.Group.List
import Mathlib.Algebra.Order.Group.Nat
import Lighttpd.Network.Stream

/-!
# Traffic shaping (`network.c`)

`network_write_chunkqueue` cuts `max_bytes` to what is left of `server.kbytes-per-second` and
`connection.kbytes-per-second`, and gives it to a backend as its budget. `writev` takes whole chunks, so its budget may
end inside a chunk in memory (`EndsInMem`).

- `Takes`: what a function of a backend takes of its budget;
- `loop_bounded`: a budget that does not end inside a chunk in memory is kept;
- `loop_exceeds`: the others are exceeded when the socket takes all;
- `networkWriteChunkqueue_bounded_iff`: when the limits are kept, for every outcome of the system calls.
-/

namespace Lighttpd
open Chunkqueue

/-- What `network_write_chunkqueue` reads and writes of a connection. `globalBytesPerSecondCnt` is the counter behind
`conf.global_bytes_per_second_cnt_ptr`. -/
structure Shaping where
  globalKbytesPerSecond : Nat
  globalBytesPerSecondCnt : Int
  kbytesPerSecond : Nat
  bytesWrittenCurSecond : Int
  bytesWritten : Int
  trafficLimitReached : Bool
  isSsl : Bool

namespace Network

/-- What is left of a limit bounds `max_bytes`; `none` when the limit is reached. -/
def limitTo (kbytesPerSecond : Nat) (count maxBytes : Int) : Option Int :=
  if kbytesPerSecond ≠ 0 then
    let limit := (kbytesPerSecond : Int) * 1024 - count
    if limit ≤ 0 then none else some (if maxBytes > limit then limit else maxBytes)
  else some maxBytes

def returnValue : Ret → Int
  | .done => 0
  | .failed => -1
  | .remoteClose => -2
  | .tryAgain => -3

/-- The end of `network_write_chunkqueue`: its return value. -/
def finish (ret : Ret) (net : Net) : Option (Int × Net) :=
  if returnValue ret ≥ 0 then
    net.cq.removeFinishedChunks.map fun cq => (if cq.isEmpty then 0 else 1, { net with cq := cq })
  else some (returnValue ret, net)

/-- The counters after `written` more bytes. -/
def count (con : Shaping) (written : Int) : Shaping :=
  { con with
    bytesWritten := con.bytesWritten + written
    bytesWrittenCurSecond := con.bytesWrittenCurSecond + written
    globalBytesPerSecondCnt := con.globalBytesPerSecondCnt + written }

/-- `network_write_chunkqueue`. A build without `USE_OPENSSL` has no backend for an SSL socket. -/
def networkWriteChunkqueue (be : Backend) (b : Build) (ios : Nat → Round) (con : Shaping) (net : Net) (maxBytes : Int) :
    Option (Int × Shaping × Net) :=
  match (limitTo con.globalKbytesPerSecond con.globalBytesPerSecondCnt maxBytes).bind
      (limitTo con.kbytesPerSecond con.bytesWrittenCurSecond) with
  | none => some (1, { con with trafficLimitReached := true }, net)
  | some maxBytes => do
    let (ret, net') ←
      if con.isSsl then some (.failed, net) else be.networkWriteChunkqueue b ios { net with maxBytes := maxBytes }
    let (ret, net') ← finish ret net'
    return (ret, count con (net'.cq.bytesOut - net.cq.bytesOut), net')

/-- **The traffic allowed**: the minimum of the bound of the caller and of what is left of the two limits. -/
def allowance (con : Shaping) (maxBytes : Int) : Int :=
  let ofGlobal := if con.globalKbytesPerSecond = 0 then maxBytes
    else min maxBytes ((con.globalKbytesPerSecond : Int) * 1024 - con.globalBytesPerSecondCnt)
  if con.kbytesPerSecond = 0 then ofGlobal
  else min ofGlobal ((con.kbytesPerSecond : Int) * 1024 - con.bytesWrittenCurSecond)

/-! ## Where a budget ends -/

/-- **The budget ends inside a chunk in memory.** -/
def EndsInMem (maxBytes : Int) (cs : List Chunk) : Prop :=
  ∃ pre c post, cs = pre ++ c :: post ∧ c.type = .memChunk ∧ (totalOf pre : Int) < maxBytes ∧
    maxBytes < totalOf pre + (c.size - c.offset : Nat)

variable {m : Int} {c d : Chunk} {cs : List Chunk} {n : Nat}

theorem not_endsInMem_nil : ¬EndsInMem m [] := by
  rintro ⟨pre, c, post, h, -⟩
  simp at h

theorem EndsInMem.pos (h : EndsInMem m cs) : 0 < m := by
  obtain ⟨pre, c, post, -, -, hlt, -⟩ := h
  omega

theorem endsInMem_cons : EndsInMem m (c :: cs) ↔
    (c.type = .memChunk ∧ 0 < m ∧ m < (c.size - c.offset : Nat)) ∨ EndsInMem (m - (c.size - c.offset : Nat)) cs := by
  constructor
  · rintro ⟨pre, d, post, h, ht, hlo, hhi⟩
    cases pre with
    | nil =>
      obtain ⟨rfl, -⟩ := List.cons_eq_cons.mp h
      exact Or.inl ⟨ht, by simpa using hlo, by simpa using hhi⟩
    | cons e pre =>
      obtain ⟨rfl, rfl⟩ := List.cons_eq_cons.mp h
      rw [totalOf_cons] at hlo hhi
      exact Or.inr ⟨pre, d, post, rfl, ht, by omega, by omega⟩
  · rintro (⟨ht, hlo, hhi⟩ | ⟨pre, d, post, rfl, ht, hlo, hhi⟩)
    · exact ⟨[], c, cs, rfl, ht, by simpa using hlo, by simpa using hhi⟩
    · refine ⟨c :: pre, d, post, rfl, ht, ?_, ?_⟩ <;> rw [totalOf_cons] <;> omega

theorem endsInMem_append {pre rest : List Chunk} (h : (totalOf pre : Int) ≤ m) :
    EndsInMem m (pre ++ rest) ↔ EndsInMem (m - totalOf pre) rest := by
  induction pre generalizing m with
  | nil => simp
  | cons c pre ih =>
    rw [totalOf_cons] at h ⊢
    have hne : ¬(c.type = .memChunk ∧ 0 < m ∧ m < (c.size - c.offset : Nat)) := by omega
    have hrest : m - (c.size - c.offset : Nat) - totalOf pre = m - (c.size - c.offset + totalOf pre : Nat) := by omega
    rw [List.cons_append, endsInMem_cons, ih (by omega), hrest]
    simp only [hne, false_or]

/-- The first chunk changes, but neither its type nor what is left of it. -/
theorem endsInMem_congr (ht : d.type = c.type) (hsize : d.size - d.offset = c.size - c.offset) :
    EndsInMem m (d :: cs) ↔ EndsInMem m (c :: cs) := by
  rw [endsInMem_cons, endsInMem_cons, ht, hsize]

variable {b : Build} {io : Round} {k toSend : Nat} {fd : Fd} {be : Backend}
variable {cq cq' : Chunkqueue} {iov : List Bytes} {fuel : Nat}

/-- What `chunkqueue_mark_written` takes from the queue is taken from the budget. -/
theorem markWritten_go_endsInMem (hcs : cq.chunks = cs) (hlt : (n : Int) < m)
    (h : markWritten.go cs cq n = some (cq', k)) (hk : k = 0) :
    EndsInMem (m - n) cq'.chunks ↔ EndsInMem m cs := by
  induction cs generalizing cq n m with
  | nil =>
    cases h
    rw [hcs]
    exact iff_of_false not_endsInMem_nil not_endsInMem_nil
  | cons c cs ih =>
    simp only [markWritten.go, Option.bind_eq_bind, Option.bind_eq_some_iff] at h
    obtain ⟨rem, hrem, h⟩ := h
    obtain ⟨-, rfl⟩ := Chunk.remainingLength_some hrem
    split at h
    · rename_i hstop
      cases h
      rw [hcs, hstop.1]
      simp
    · split at h
      · rename_i hge
        have hne : ¬(c.type = .memChunk ∧ 0 < m ∧ m < (c.size - c.offset : Nat)) := by omega
        have hsub : m - (c.size - c.offset : Nat) - (n - (c.size - c.offset) : Nat) = m - n := by omega
        rw [endsInMem_cons, ← ih (by simp [dropFirst, hcs]) (show _ < m - (c.size - c.offset : Nat) by omega) h, hsub]
        simp only [hne, false_or]
      · rename_i hge
        cases h
        have hsub : m - n - (c.size - (c.offset + n) : Nat) = m - (c.size - c.offset : Nat) := by omega
        have hfirst : (cq.setFirst (c.advance n)).chunks = c.advance n :: cs := by simp [setFirst, hcs]
        rw [hfirst, endsInMem_cons, endsInMem_cons, Chunk.advance_type, Chunk.advance_size, Chunk.advance_offset, hsub]
        refine or_congr_left (and_congr_right fun _ => ?_)
        omega

theorem markWritten_endsInMem (h : cq.markWritten n = some cq') (hlt : (n : Int) < m) :
    EndsInMem (m - n) cq'.chunks ↔ EndsInMem m cq.chunks := by
  unfold markWritten at h
  obtain ⟨⟨cq₁, k⟩, hgo, h⟩ := Option.bind_eq_some_iff.mp h
  dsimp only at h
  split at h
  · rename_i hk
    cases h
    have hends : EndsInMem (m - n) cq₁.chunks ↔ _ := markWritten_go_endsInMem rfl hlt hgo hk
    exact hends
  · cases h

theorem removeFinishedChunks_endsInMem (hcs : cq.chunks = cs)
    (h : removeFinishedChunks.go cs cq = some cq') : EndsInMem m cq'.chunks ↔ EndsInMem m cs := by
  induction cs generalizing cq with
  | nil =>
    cases h
    rw [hcs]
  | cons c cs ih =>
    simp only [removeFinishedChunks.go, Option.bind_eq_bind, Option.bind_eq_some_iff] at h
    obtain ⟨rem, hrem, h⟩ := h
    obtain ⟨-, rfl⟩ := Chunk.remainingLength_some hrem
    split at h
    · cases h
      rw [hcs]
    · rename_i hzero
      have hzero : c.size - c.offset = 0 := Decidable.not_not.mp hzero
      have hne : ¬(c.type = .memChunk ∧ 0 < m ∧ m < (c.size - c.offset : Nat)) := by omega
      rw [ih (by simp [dropFirst, hcs]) h, endsInMem_cons, or_iff_right hne, hzero]
      simp

/-! ## What a backend takes of its budget -/

/-- **What a function of a backend takes**: at most `bound` bytes of the budget and of the queue. -/
def Takes (bound : Nat) (net : Net) (r : Option (Ret × Net)) : Prop :=
  ∀ ret net', r = some (ret, net') → ∃ n : Nat, n ≤ bound ∧ net'.maxBytes = net.maxBytes - n ∧
    ∀ m : Int, n < m → (EndsInMem (m - n) net'.cq.chunks ↔ EndsInMem m net.cq.chunks)

variable {bound : Nat} {net net' : Net} {r : Option (Ret × Net)}

/-- Nothing is taken, and the first chunk is the same as far as its type and its length go. -/
theorem takes_stay {ret : Ret} (hm : net'.maxBytes = net.maxBytes)
    (hcs : ∀ m, EndsInMem m net'.cq.chunks ↔ EndsInMem m net.cq.chunks) : Takes bound net (some (ret, net')) := by
  rintro _ _ h
  cases h
  exact ⟨0, Nat.zero_le _, by simp [hm], fun m _ => by simpa using hcs m⟩

theorem Takes.after (hm : net'.maxBytes = net.maxBytes)
    (hcs : ∀ m, EndsInMem m net'.cq.chunks ↔ EndsInMem m net.cq.chunks) (h : Takes bound net' r) :
    Takes bound net r := by
  intro ret net'' hr
  obtain ⟨n, hn, hmax, hends⟩ := h ret net'' hr
  exact ⟨n, hn, by rw [hmax, hm], fun m hlt => (hends m hlt).trans (hcs m)⟩

theorem removeFinished_takes : Takes bound net (removeFinished net) := by
  intro ret net' h
  simp only [removeFinished, Option.bind_eq_bind, Option.bind_eq_some_iff, Option.pure_def] at h
  obtain ⟨cq, hcq, h⟩ := h
  cases h
  exact ⟨0, Nat.zero_le _, by simp, fun m _ => by simpa using removeFinishedChunks_endsInMem rfl hcq⟩

theorem afterWrite_takes {data : Bytes} (h : data.length ≤ bound) (r : WriteResult) :
    Takes bound net (afterWrite net data toSend r) := by
  cases r with
  | error e => cases e <;> exact takes_stay rfl fun _ => Iff.rfl
  | wrote n =>
    intro ret net' h'
    simp only [afterWrite, Option.bind_eq_bind, Option.bind_eq_some_iff, Option.pure_def] at h'
    obtain ⟨cq, hcq, h'⟩ := h'
    cases h'
    exact ⟨min n data.length, by omega, rfl, fun m hlt => markWritten_endsInMem hcq hlt⟩

theorem clamp_le_maxBytes {maxBytes : Int} (h : 0 < maxBytes) : (clamp toSend maxBytes : Int) ≤ maxBytes := by
  unfold clamp
  split <;> omega

/-! ### Chunks in memory -/

theorem networkWriteMemChunk_takes (hcs : net.cq.chunks = c :: cs) (ht : c.type = .memChunk) :
    Takes (clamp (c.size - c.offset) net.maxBytes) net (networkWriteMemChunk io net) := by
  intro ret net' h
  have hsize : c.mem.stringLength = c.size := by simp [Chunk.size, ht]
  simp only [networkWriteMemChunk, assertFirst, hcs] at h
  split at h
  · rw [Option.bind_eq_bind, Option.bind_some, hsize] at h
    split at h
    · exact removeFinished_takes ret net' h
    · exact afterWrite_takes (List.length_take_le _ _) _ ret net' h
  · cases h

/-- What is gathered, for a budget that does not end inside a chunk in memory. -/
theorem gather_le {iov' : List Bytes} {k' : Nat}
    (h : gather b m cs iov k = some (iov', k')) (hk : (k : Int) ≤ m) (hends : ¬EndsInMem (m - k) cs) :
    (k' : Int) ≤ m := by
  induction cs generalizing iov k with
  | nil =>
    cases h
    exact hk
  | cons c cs ih =>
    unfold gather at h
    split at h
    · rename_i hg
      have hsize : c.mem.stringLength = c.size := by simp [Chunk.size, hg.1]
      rw [endsInMem_cons, not_or] at hends
      have hle : ¬(m - k < (c.size - c.offset : Nat)) := fun hlt => hends.1 ⟨hg.1, by omega, hlt⟩
      split at h
      · simp only [hsize] at h
        split at h
        · have hsub : m - (k + (c.size - c.offset) : Nat) = m - k - (c.size - c.offset : Nat) := by omega
          exact ih h (by omega) (hsub ▸ hends.2)
        · rename_i hzero
          have hsub : m - k = m - k - (c.size - c.offset : Nat) := by omega
          exact ih h hk (hsub ▸ hends.2)
      · cases h
    · cases h
      exact hk

theorem networkWritevMemChunks_takes (io : Round) (h : net.cq.WF)
    (hwritev : b.useWritev = true) (hcs : net.cq.chunks = c :: cs) (ht : c.type = .memChunk)
    (hgather : gather b net.maxBytes net.cq.chunks [] 0 = some (iov, k)) :
    Takes k net (networkWritevMemChunks b io net) := by
  obtain ⟨pre, rest, data, -, hmem, heq, hflat⟩ := gather_spec b net.maxBytes net.world h.offset [] 0
  rw [hgather, List.nil_append, Nat.zero_add] at heq
  cases heq
  have hlen : iov.flatten.length = totalOf pre := by
    rw [hflat]
    exact length_flatMap_bytes fun d hd => Chunk.inFile_mem (hmem d hd)
  intro ret net' hr
  simp only [networkWritevMemChunks, hwritev, if_true, hcs, ht] at hr
  rw [← hcs, hgather, Option.bind_eq_bind, Option.bind_some] at hr
  split at hr
  · exact removeFinished_takes ret net' hr
  · exact afterWrite_takes (Nat.le_of_eq hlen) _ ret net' hr

/-! ### File chunks -/

/-- `network_open_file_chunk` does not change the range of the first chunk. -/
structure SameRange (c d : Chunk) : Prop where
  type : d.type = c.type
  name : d.file.name = c.file.name
  start : d.file.start = c.file.start
  length : d.file.length = c.file.length
  offset : d.offset = c.offset

theorem SameRange.refl : SameRange c c := ⟨rfl, rfl, rfl, rfl, rfl⟩

/-- The queue begins with a range that is the same as that of `c`, before `cs`. -/
def Begins (net : Net) (c : Chunk) (cs : List Chunk) : Prop := ∃ d, net.cq.chunks = d :: cs ∧ SameRange c d

theorem Begins.endsInMem (h : Begins net c cs) (ht : c.type = .fileChunk) (m : Int) :
    EndsInMem m net.cq.chunks ↔ EndsInMem m (c :: cs) := by
  obtain ⟨d, hd, hrange⟩ := h
  have hsize : d.size = c.size := by
    rw [Chunk.size_file ht, Chunk.size_file (hrange.type.trans ht), hrange.length]
  rw [hd]
  exact endsInMem_congr hrange.type (by rw [hsize, hrange.offset])

theorem networkOpenFileChunk_begins {ok : Bool} (hcs : net.cq.chunks = c :: cs)
    (h : networkOpenFileChunk io net = some (ok, net')) : net'.maxBytes = net.maxBytes ∧ Begins net' c cs := by
  have hsame : Begins net c cs := ⟨c, hcs, .refl⟩
  simp only [networkOpenFileChunk, assertFirst, hcs] at h
  split at h
  · rw [Option.bind_eq_bind, Option.bind_some] at h
    split at h
    · split at h
      · split at h
        · split at h
          · cases h
            rename_i fd _ _
            exact ⟨rfl, { c with file := { c.file with fd := some fd } }, by simp [Net.setFirst, setFirst, hcs],
              rfl, rfl, rfl, rfl, rfl⟩
          · cases h
            exact ⟨rfl, hsame⟩
        · cases h
          exact ⟨rfl, hsame⟩
      · cases h
        exact ⟨rfl, hsame⟩
    · cases h
      exact ⟨rfl, hsame⟩
  · cases h

/-- The end of a function that writes from a file, behind `network_open_file_chunk`. -/
theorem Takes.afterOpen {f : Bool × Net → Option (Ret × Net)} (hcs : net.cq.chunks = c :: cs)
    (ht : c.type = .fileChunk)
    (h : ∀ ok net', net'.maxBytes = net.maxBytes → Begins net' c cs → Takes bound net' (f (ok, net'))) :
    Takes bound net ((networkOpenFileChunk io net).bind f) := by
  intro ret net₂ hr
  obtain ⟨⟨ok, net₁⟩, hopen, hr⟩ := Option.bind_eq_some_iff.mp hr
  obtain ⟨hm, hbegins⟩ := networkOpenFileChunk_begins hcs hopen
  have hends : ∀ m, EndsInMem m net₁.cq.chunks ↔ EndsInMem m net.cq.chunks := by
    intro m
    rw [hbegins.endsInMem ht, hcs]
  exact Takes.after hm hends (h ok net₁ hm hbegins) ret net₂ hr

theorem writeMapped_takes {offset : Nat} : Takes toSend net (writeMapped io net c offset toSend) := by
  unfold writeMapped
  dsimp only
  split
  · split
    · refine afterWrite_takes (Nat.le_trans (List.length_take_le _ _) ?_) _
      split <;> omega
    · intro _ _ h
      cases h
  · intro _ _ h
    cases h

theorem Begins.setFirst {e : Chunk} (h : Begins net c cs) (he : SameRange c e) : Begins (net.setFirst e) c cs := by
  obtain ⟨d, hd, -⟩ := h
  exact ⟨e, by simp [Net.setFirst, Chunkqueue.setFirst, hd], he⟩

theorem Begins.congr (h : Begins net c cs) (h' : Begins net' c cs) (ht : c.type = .fileChunk) (m : Int) :
    EndsInMem m net'.cq.chunks ↔ EndsInMem m net.cq.chunks :=
  (h'.endsInMem ht m).trans (h.endsInMem ht m).symm

theorem Takes.afterAssert {type : ChunkType} {f : Chunk → Option (Ret × Net)} (hcs : net.cq.chunks = c :: cs)
    (h : Takes bound net (f c)) : Takes bound net ((assertFirst type net.cq).bind f) := by
  unfold assertFirst
  rw [hcs]
  dsimp only
  split
  · exact h
  · intro _ _ h
    cases h

theorem writeFileChunkMmap_takes (hcs : net.cq.chunks = c :: cs) (ht : c.type = .fileChunk) :
    Takes (clamp (c.file.length - c.offset) net.maxBytes) net (writeFileChunkMmap b io net) := by
  apply Takes.afterAssert hcs
  dsimp only
  split
  · exact removeFinished_takes
  · refine Takes.afterOpen hcs ht fun ok net₁ hm hbegins => ?_
    dsimp only
    split
    · exact takes_stay rfl fun _ => Iff.rfl
    · obtain ⟨d, hd, hrange⟩ := id hbegins
      rw [hd, List.head?_cons, Option.bind_eq_bind, Option.bind_some]
      split
      · cases mmapWindow b (c.file.start + c.offset) (c.file.start + c.file.length) with
        | none =>
          intro _ _ h
          cases h
        | some w =>
          have hrange' : SameRange c { d with file := { d.file with mmap := { w with mapped := io.mmap } } } :=
            ⟨hrange.type, hrange.name, hrange.start, hrange.length, hrange.offset⟩
          have hends := hbegins.congr (hbegins.setFirst hrange') ht
          rw [Option.bind_eq_bind, Option.bind_some]
          split
          · exact takes_stay rfl hends
          · refine Takes.after ?_ hends writeMapped_takes
            rfl
      · exact writeMapped_takes

theorem Takes.mono {bound' : Nat} (h : Takes bound net r) (hle : bound ≤ bound') : Takes bound' net r := by
  intro ret net' hr
  obtain ⟨n, hn, hrest⟩ := h ret net' hr
  exact ⟨n, Nat.le_trans hn hle, hrest⟩

theorem clamp_mono {n : Nat} {maxBytes : Int} (h : n ≤ k) : clamp n maxBytes ≤ clamp k maxBytes := by
  unfold clamp
  split <;> split <;> omega

theorem networkWriteFileChunkNoMmap_takes (hcs : net.cq.chunks = c :: cs) (ht : c.type = .fileChunk) :
    Takes (clamp (c.file.length - c.offset) net.maxBytes) net (networkWriteFileChunkNoMmap io net) := by
  have hle : (if c.file.length - c.offset > 64 * 1024 then 64 * 1024 else c.file.length - c.offset) ≤
      c.file.length - c.offset := by
    split <;> omega
  refine Takes.mono (Takes.afterAssert hcs ?_) (clamp_mono hle)
  dsimp only
  generalize (if c.file.length - c.offset > 64 * 1024 then 64 * 1024 else c.file.length - c.offset) = toSend
  split
  · exact removeFinished_takes
  · refine Takes.afterOpen hcs ht fun ok net₁ hm hbegins => ?_
    dsimp only
    split
    · exact takes_stay rfl fun _ => Iff.rfl
    · obtain ⟨d, hd, -⟩ := hbegins
      rw [hd, List.head?_cons, Option.bind_eq_bind, Option.bind_some]
      cases d.file.fd with
      | none =>
        intro _ _ h
        cases h
      | some fd =>
        rw [Option.bind_eq_bind, Option.bind_some]
        split
        · exact takes_stay rfl fun _ => Iff.rfl
        · split
          · exact takes_stay rfl fun _ => Iff.rfl
          · refine Takes.after rfl (fun _ => Iff.rfl) (afterWrite_takes ?_ _)
            exact Nat.le_trans (List.length_take_le _ _) (Nat.min_le_right _ _)

theorem networkWriteFileChunkMmap_takes (b : Build) (io : Round) (hcs : net.cq.chunks = c :: cs)
    (ht : c.type = .fileChunk) :
    Takes (clamp (c.file.length - c.offset) net.maxBytes) net (networkWriteFileChunkMmap b io net) := by
  unfold networkWriteFileChunkMmap
  split
  · exact writeFileChunkMmap_takes hcs ht
  · exact networkWriteFileChunkNoMmap_takes hcs ht

theorem networkWriteFileChunkSendfile_takes (hcs : net.cq.chunks = c :: cs) (ht : c.type = .fileChunk) :
    Takes (clamp (c.file.length - c.offset) net.maxBytes) net (networkWriteFileChunkSendfile b io net) := by
  apply Takes.afterAssert hcs
  dsimp only
  split
  · exact removeFinished_takes
  · refine Takes.afterOpen hcs ht fun ok net₁ hm hbegins => ?_
    dsimp only
    split
    · exact takes_stay rfl fun _ => Iff.rfl
    · split
      · obtain ⟨d, hd, hrange⟩ := hbegins
        have htakes := networkWriteFileChunkMmap_takes b { io with fstat := io.fstatAgain } hd
          (hrange.type.trans ht)
        rwa [hrange.length, hrange.offset, hm] at htakes
      · exact afterWrite_takes (List.length_take_le _ _) _

/-! ## The budget is kept -/

def usesWritev (be : Backend) (b : Build) : Prop := be ≠ .write ∧ b.useWritev = true

/-- **One round** of a backend keeps a budget that does not end inside a chunk in memory, or any if it does not use
`writev`. -/
theorem writeFirst_bounded (io : Round) (h : net.cq.WF) (hcs : net.cq.chunks = c :: cs)
    (hm : 0 < net.maxBytes) (hends : usesWritev be b → ¬EndsInMem net.maxBytes net.cq.chunks) :
    ∃ bound : Nat, (bound : Int) ≤ net.maxBytes ∧ Takes bound net (be.writeFirst b c.type io net) := by
  have hfile : (c.type = .fileChunk) → (clamp (c.file.length - c.offset) net.maxBytes : Int) ≤ net.maxBytes :=
    fun _ => clamp_le_maxBytes hm
  have hwritev : c.type = .memChunk → be ≠ .write →
      ∃ bound : Nat, (bound : Int) ≤ net.maxBytes ∧ Takes bound net (networkWritevMemChunks b io net) := by
    intro ht hbe
    by_cases hb : b.useWritev = true
    · obtain ⟨pre, rest, data, -, -, hgather, -⟩ := gather_spec b net.maxBytes net.world h.offset [] 0
      have hle := gather_le hgather (Int.le_of_lt hm) (by simpa using hends ⟨hbe, hb⟩)
      exact ⟨_, hle, networkWritevMemChunks_takes io h hb hcs ht hgather⟩
    · refine ⟨clamp (c.size - c.offset) net.maxBytes, clamp_le_maxBytes hm, ?_⟩
      simp only [networkWritevMemChunks, hb]
      exact networkWriteMemChunk_takes hcs ht
  cases ht : c.type with
  | memChunk =>
    cases be with
    | write => exact ⟨_, clamp_le_maxBytes hm, networkWriteMemChunk_takes hcs ht⟩
    | writev => exact hwritev ht (by decide)
    | sendfile => exact hwritev ht (by decide)
  | fileChunk =>
    refine ⟨_, hfile ht, ?_⟩
    cases be with
    | write => exact networkWriteFileChunkMmap_takes b io hcs ht
    | writev => exact networkWriteFileChunkMmap_takes b io hcs ht
    | sendfile => exact networkWriteFileChunkSendfile_takes hcs ht

/-- **The loop of a backend** keeps its budget. -/
theorem loop_bounded {ios : Nat → Round} {ret : Ret} (net : Net)
    (h : net.cq.WF) (hends : usesWritev be b → ¬EndsInMem net.maxBytes net.cq.chunks)
    (hloop : be.loop b fuel ios net = some (ret, net')) : min 0 net.maxBytes ≤ net'.maxBytes := by
  induction fuel generalizing ios net with
  | zero => cases hloop
  | succ fuel ih =>
    unfold Backend.loop at hloop
    cases hcs : net.cq.chunks with
    | nil =>
      simp only [hcs] at hloop
      cases hloop
      omega
    | cons c cs =>
      simp only [hcs] at hloop
      split at hloop
      · rename_i hm
        obtain ⟨bound, hbound, htakes⟩ := writeFirst_bounded (ios 0) h hcs hm hends
        obtain ⟨ret₁, net₁, data, heq, hsent, -⟩ := writeFirst_sends h hcs hm be b (ios 0)
        obtain ⟨n, hn, hmax, hchunks⟩ := htakes ret₁ net₁ heq
        rw [heq, Option.bind_eq_bind, Option.bind_some] at hloop
        have hends₁ : usesWritev be b → ¬EndsInMem net₁.maxBytes net₁.cq.chunks := by
          intro hwritev hnot
          have hpos := hnot.pos
          rw [hmax] at hnot hpos
          exact hends hwritev ((hchunks net.maxBytes (by omega)).mp hnot)
        cases ret₁ with
        | done =>
          have := ih net₁ hsent.wf hends₁ hloop
          omega
        | failed | remoteClose | tryAgain =>
          cases hloop
          show min 0 net.maxBytes ≤ net₁.maxBytes
          omega
      · cases hloop
        omega

/-! ## The budget is exceeded -/

/-- A round in which every system call succeeds and the socket takes up to `n` bytes. -/
def goodRound (fd : Fd) (n : Nat) : Round := ⟨true, some fd, true, true, true, true, some n, .wrote n, .wrote n⟩

/-- The files of the chunks can be sent: their ranges and their mapped windows lie in them, and a descriptor is
free. -/
structure Ready (w : World) (cs : List Chunk) : Prop where
  exist : ∀ c ∈ cs, c.type = .fileChunk → (w.files c.file.name).isSome = true
  inFile : ∀ c ∈ cs, c.InFile w
  window : ∀ c ∈ cs, c.type = .fileChunk → c.file.mmap.offset + c.file.mmap.length ≤ (w.content c.file.name).length
  fds : ∃ k : Nat, ∀ fd : Nat, k ≤ fd → w.fdpos fd = none

variable {w w' : World} {cs' : List Chunk}

theorem Ready.sublist (h : Ready w cs) (hcs : ∀ d ∈ cs', ∃ c ∈ cs, d.type = c.type ∧ d.file = c.file) : Ready w cs' where
  exist := by
    intro d hd ht
    obtain ⟨c, hc, htype, hfile⟩ := hcs d hd
    rw [hfile]
    exact h.exist c hc (htype ▸ ht)
  inFile := by
    intro d hd ht
    obtain ⟨c, hc, htype, hfile⟩ := hcs d hd
    rw [hfile]
    exact h.inFile c hc (htype ▸ ht)
  window := by
    intro d hd ht
    obtain ⟨c, hc, htype, hfile⟩ := hcs d hd
    rw [hfile]
    exact h.window c hc (htype ▸ ht)
  fds := h.fds

theorem Ready.fdpos (h : Ready w cs) (fd : Nat) (pos : Nat) : Ready (w.lseek fd pos) cs := by
  obtain ⟨k, hk⟩ := h.fds
  refine ⟨h.exist, h.inFile, h.window, max k (fd + 1), fun fd' hfd' => ?_⟩
  have hne : fd' ≠ fd := by omega
  simpa [World.lseek, hne] using hk fd' (by omega)

/-- **A write that takes all** goes on with the loop. -/
theorem afterWrite_taken (net : Net) {data : Bytes} (h : net.cq.WF) (hready : Ready net.world net.cq.chunks)
    (hdata : data.length = toSend) (hpos : 0 < toSend) (hk : toSend ≤ k) (htotal : toSend ≤ net.cq.total) :
    ∃ net', afterWrite net data toSend (.wrote k) = some (.done, net') ∧ Ready net'.world net'.cq.chunks ∧
      net'.maxBytes = net.maxBytes - toSend := by
  have hmin : min k data.length = toSend := by omega
  obtain ⟨cq₁, hgo, -⟩ := markWritten_go_spec h rfl htotal
  have hmark : net.cq.markWritten toSend = some { cq₁ with bytesOut := cq₁.bytesOut + toSend } := by
    simp [markWritten, hgo]
  refine ⟨{ net with
    cq := { cq₁ with bytesOut := cq₁.bytesOut + toSend }
    maxBytes := net.maxBytes - toSend
    wire := net.wire ++ data.take toSend }, ?_, ?_⟩
  · simp only [afterWrite, hmin, hmark, hpos, and_self, if_true, Option.bind_eq_bind, Option.bind_some, Option.pure_def]
  · exact ⟨hready.sublist (markWritten_files hmark), rfl⟩

theorem removeFinished_ready (h : net.cq.WF) (hready : Ready net.world net.cq.chunks) :
    ∃ net', removeFinished net = some (.done, net') ∧ Ready net'.world net'.cq.chunks := by
  obtain ⟨cq, hcq, -, -, hsuffix⟩ := removeFinishedChunks_spec h
  refine ⟨{ net with cq := cq }, by simp [removeFinished, hcq], ?_⟩
  exact hready.sublist fun d hd => ⟨d, hsuffix.subset hd, rfl, rfl⟩

/-- What `network_open_file_chunk` leaves when it succeeds. -/
structure OpenedFirst (net net' : Net) (c d : Chunk) (cs : List Chunk) : Prop where
  wf : net'.cq.WF
  ready : Ready net'.world net'.cq.chunks
  chunks : net'.cq.chunks = d :: cs
  range : SameRange c d
  fd : d.file.fd.isSome = true
  maxBytes : net'.maxBytes = net.maxBytes

theorem Ready.setFile {e : Chunk} (h : Ready w (c :: cs)) (htype : e.type = c.type) (hname : e.file.name = c.file.name)
    (hstart : e.file.start = c.file.start) (hlength : e.file.length = c.file.length)
    (hwindow : e.type = .fileChunk → e.file.mmap.offset + e.file.mmap.length ≤ (w.content e.file.name).length) :
    Ready w (e :: cs) where
  exist := by
    intro d hd ht
    rcases List.mem_cons.mp hd with rfl | hd
    · rw [hname]
      exact h.exist c List.mem_cons_self (htype ▸ ht)
    · exact h.exist d (List.mem_cons_of_mem c hd) ht
  inFile := by
    intro d hd ht
    rcases List.mem_cons.mp hd with rfl | hd
    · rw [hname, hstart, hlength]
      exact h.inFile c List.mem_cons_self (htype ▸ ht)
    · exact h.inFile d (List.mem_cons_of_mem c hd) ht
  window := by
    intro d hd ht
    rcases List.mem_cons.mp hd with rfl | hd
    · exact hwindow ht
    · exact h.window d (List.mem_cons_of_mem c hd) ht
  fds := h.fds

theorem inFile_notShrinked (hc : c.OffsetOk) (ht : c.type = .fileChunk) (h : c.InFile w) :
    notShrinked c (w.content c.file.name).length = true := by
  have hin := h ht
  have hs : c.offset ≤ c.file.length := by
    rw [← Chunk.size_file ht]
    exact hc
  simp only [notShrinked, gt_iff_lt, Bool.not_eq_true', Bool.or_eq_false_iff, decide_eq_false_iff_not, Nat.not_lt]
  omega

theorem networkOpenFileChunk_ready (n : Nat) (h : net.cq.WF) (hready : Ready net.world net.cq.chunks)
    (hcs : net.cq.chunks = c :: cs) (ht : c.type = .fileChunk) (hfd : net.world.fdpos fd = none) :
    ∃ net' d, networkOpenFileChunk (goodRound fd n) net = some (true, net') ∧ OpenedFirst net net' c d cs := by
  have hc : c.OffsetOk := h.offset c (by simp [hcs])
  have hexist := hready.exist c (by simp [hcs]) ht
  have hin := inFile_notShrinked hc ht (hready.inFile c (by simp [hcs]))
  simp only [networkOpenFileChunk, assertFirst_some h hcs ht, Option.bind_eq_bind, Option.bind_some]
  cases hcfd : c.file.fd with
  | some fd₀ =>
    refine ⟨net, c, ?_, h, hready, hcs, .refl, by simp [hcfd], rfl⟩
    simp [goodRound, hin]
  | none =>
    have hw : (net.world.opened fd).files = net.world.files := rfl
    have hd : ({ c with file := { c.file with fd := some fd } } : Chunk).bytes (net.world.opened fd) =
        c.bytes (net.world.opened fd) := rfl
    obtain ⟨hfirst, -, hchunks⟩ := setFirst_sent { net with world := net.world.opened fd } h hcs hd rfl rfl
    refine ⟨_, _, ?_, hfirst.wf, ?_, hchunks, ⟨rfl, rfl, rfl, rfl, rfl⟩, rfl, rfl⟩
    · simp [goodRound, hexist, hfd, hin]
    · rw [hchunks]
      have hready' : Ready (net.world.opened fd) (c :: cs) := hcs ▸ hready.fdpos fd 0
      exact hready'.setFile rfl rfl rfl rfl (hready'.window c List.mem_cons_self)

theorem toSend_le_total (hcs : net.cq.chunks = d :: cs) (hrange : SameRange c d) (ht : c.type = .fileChunk)
    (hto : toSend ≤ c.file.length - c.offset) : toSend ≤ net.cq.total := by
  rw [total, hcs, totalOf_cons, Chunk.size_file (hrange.type.trans ht), hrange.length, hrange.offset]
  omega

theorem writeMapped_taken (h : net.cq.WF) (hready : Ready net.world net.cq.chunks)
    (hcs : net.cq.chunks = d :: cs) (hrange : SameRange c d) (ht : c.type = .fileChunk)
    (hlo : d.file.mmap.offset ≤ c.file.start + c.offset)
    (hhi : c.file.start + c.offset < d.file.mmap.offset + d.file.mmap.length)
    (hto : toSend ≤ c.file.length - c.offset) (hpos : 0 < toSend) :
    ∃ net', writeMapped (goodRound fd c.file.length) net d (c.file.start + c.offset) toSend = some (.done, net') ∧
      Ready net'.world net'.cq.chunks := by
  have hwindow := hready.window d (by simp [hcs]) (hrange.type.trans ht)
  have havail : d.file.mmap.length > c.file.start + c.offset - d.file.mmap.offset := by omega
  unfold writeMapped
  dsimp only
  rw [if_pos hlo, if_pos havail]
  generalize hn : (if toSend > d.file.mmap.length - (c.file.start + c.offset - d.file.mmap.offset) then
    d.file.mmap.length - (c.file.start + c.offset - d.file.mmap.offset) else toSend) = n
  have hn' : 0 < n ∧ n ≤ toSend ∧ n ≤ d.file.mmap.length - (c.file.start + c.offset - d.file.mmap.offset) := by
    split at hn <;> omega
  have hlen : (((windowBytes net.world d.file.name d.file.mmap).drop
      (c.file.start + c.offset - d.file.mmap.offset)).take n).length = n := by
    simp only [windowBytes, List.length_take, List.length_drop]
    omega
  obtain ⟨net', heq, hready', -⟩ := afterWrite_taken net h hready hlen hn'.1
    (show n ≤ c.file.length by omega) (toSend_le_total hcs hrange ht (by omega))
  exact ⟨net', heq, hready'⟩

theorem mmapWindow_le {offset fileEnd : Nat} {v : Mmap} (h : mmapWindow b offset fileEnd = some v)
    (hlt : offset ≤ fileEnd) : v.offset + v.length ≤ fileEnd := by
  have hmod := Nat.mod_le offset b.pagesize
  simp only [mmapWindow, mmapAlignOffset, Option.bind_eq_bind, Option.bind_eq_some_iff] at h
  obtain ⟨aligned, halign, h⟩ := h
  split at halign
  · cases halign
    cases h
    dsimp only
    split <;> omega
  · cases halign

theorem writeFileChunkMmap_taken (h : net.cq.WF) (hready : Ready net.world net.cq.chunks)
    (hcs : net.cq.chunks = c :: cs) (ht : c.type = .fileChunk)
    (hfd : net.world.fdpos fd = none) : ∃ net', writeFileChunkMmap b (goodRound fd c.file.length) net =
      some (.done, net') ∧ Ready net'.world net'.cq.chunks := by
  simp only [writeFileChunkMmap, assertFirst_some h hcs ht, Option.bind_eq_bind, Option.bind_some]
  have hle : clamp (c.file.length - c.offset) net.maxBytes ≤ c.file.length - c.offset := clamp_le
  split
  · exact removeFinished_ready h hready
  · rename_i hne
    obtain ⟨net₁, d, hopen, hd⟩ := networkOpenFileChunk_ready c.file.length h hready hcs ht hfd
    have hin := hd.ready.inFile d (by simp [hd.chunks]) (hd.range.type.trans ht)
    rw [hd.range.start, hd.range.length] at hin
    simp only [hopen, hd.chunks, List.head?_cons, Option.bind_some, Bool.not_true, Bool.false_eq_true, if_false]
    split
    · obtain ⟨v, hv, hlo, hhi⟩ := mmapWindow_spec b
        (show c.file.start + c.offset < c.file.start + c.file.length by omega)
      have hv' := mmapWindow_le hv (by omega)
      have hrange : SameRange c { d with file := { d.file with mmap := { v with mapped := true } } } :=
        ⟨hd.range.type, hd.range.name, hd.range.start, hd.range.length, hd.range.offset⟩
      obtain ⟨hsent, -, hchunks⟩ := setFirst_sent net₁ hd.wf hd.chunks
        (show ({ d with file := { d.file with mmap := { v with mapped := true } } } : Chunk).bytes net₁.world =
          d.bytes net₁.world from rfl) rfl rfl
      have hready₁ : Ready net₁.world (d :: cs) := hd.chunks ▸ hd.ready
      rw [hv, Option.bind_some]
      refine writeMapped_taken hsent.wf ?_ hchunks hrange ht hlo hhi hle (by omega)
      apply (congrArg (Ready net₁.world) hchunks).mpr
      exact hready₁.setFile rfl rfl rfl rfl fun _ => Nat.le_trans hv' hin
    · rename_i hmapped
      simp only [Bool.or_eq_true, Bool.not_eq_true', decide_eq_true_eq, not_or, Nat.not_lt, Bool.not_eq_false,
        ge_iff_le, Nat.not_le] at hmapped
      exact writeMapped_taken hd.wf hd.ready hd.chunks hd.range ht hmapped.1.2 hmapped.2 hle (by omega)

theorem networkWriteFileChunkNoMmap_taken (h : net.cq.WF) (hready : Ready net.world net.cq.chunks)
    (hcs : net.cq.chunks = c :: cs) (ht : c.type = .fileChunk)
    (hfd : net.world.fdpos fd = none) : ∃ net', networkWriteFileChunkNoMmap (goodRound fd c.file.length) net =
      some (.done, net') ∧ Ready net'.world net'.cq.chunks := by
  simp only [networkWriteFileChunkNoMmap, assertFirst_some h hcs ht, Option.bind_eq_bind, Option.bind_some]
  generalize hto : clamp (if c.file.length - c.offset > 64 * 1024 then 64 * 1024 else c.file.length - c.offset)
    net.maxBytes = toSend
  have hle : toSend ≤ c.file.length - c.offset := by
    rw [← hto]
    apply Nat.le_trans clamp_le
    split <;> omega
  split
  · exact removeFinished_ready h hready
  · rename_i hne
    obtain ⟨net₁, d, hopen, hd⟩ := networkOpenFileChunk_ready c.file.length h hready hcs ht hfd
    obtain ⟨fd', hfd'⟩ := Option.isSome_iff_exists.mp hd.fd
    have hin := hd.ready.inFile d (by simp [hd.chunks]) (hd.range.type.trans ht)
    rw [hd.range.start, hd.range.length] at hin
    rw [hopen]
    simp only [hd.chunks, hfd', goodRound, List.head?_cons, Option.bind_some, Bool.not_true, Bool.false_eq_true, if_false]
    have hlen : (((net₁.world.content d.file.name).drop (c.file.start + c.offset)).take
        (min c.file.length toSend)).length = toSend := by
      simp only [List.length_take, List.length_drop]
      omega
    rw [hlen]
    obtain ⟨net', heq, hready', -⟩ := afterWrite_taken
      { net₁ with world := net₁.world.lseek fd' (c.file.start + c.offset + toSend) } hd.wf (hd.ready.fdpos fd' _) hlen
      (by omega) (show toSend ≤ c.file.length by omega) (toSend_le_total hd.chunks hd.range ht hle)
    exact ⟨net', heq, hready'⟩

theorem networkWriteFileChunkMmap_taken (h : net.cq.WF) (hready : Ready net.world net.cq.chunks)
    (hcs : net.cq.chunks = c :: cs) (ht : c.type = .fileChunk)
    (hfd : net.world.fdpos fd = none) : ∃ net', networkWriteFileChunkMmap b (goodRound fd c.file.length) net =
      some (.done, net') ∧ Ready net'.world net'.cq.chunks := by
  unfold networkWriteFileChunkMmap
  split
  · exact writeFileChunkMmap_taken h hready hcs ht hfd
  · exact networkWriteFileChunkNoMmap_taken h hready hcs ht hfd

theorem networkWriteFileChunkSendfile_taken (h : net.cq.WF)
    (hready : Ready net.world net.cq.chunks) (hcs : net.cq.chunks = c :: cs) (ht : c.type = .fileChunk)
    (hfd : net.world.fdpos fd = none) : ∃ net', networkWriteFileChunkSendfile b (goodRound fd c.file.length) net =
      some (.done, net') ∧ Ready net'.world net'.cq.chunks := by
  simp only [networkWriteFileChunkSendfile, assertFirst_some h hcs ht, Option.bind_eq_bind, Option.bind_some]
  have hle : clamp (c.file.length - c.offset) net.maxBytes ≤ c.file.length - c.offset := clamp_le
  split
  · exact removeFinished_ready h hready
  · rename_i hne
    obtain ⟨net₁, d, hopen, hd⟩ := networkOpenFileChunk_ready c.file.length h hready hcs ht hfd
    have hin := hd.ready.inFile d (by simp [hd.chunks]) (hd.range.type.trans ht)
    have hname : (net₁.world.content d.file.name).length ≥ c.file.start + c.file.length := by
      rwa [hd.range.start, hd.range.length] at hin
    rw [hd.range.name] at hname
    rw [hopen]
    simp only [goodRound, notSupported, Option.bind_some, Bool.not_true, Bool.false_eq_true, if_false]
    have hlen : (((net₁.world.content c.file.name).drop (c.file.start + c.offset)).take
        (clamp (c.file.length - c.offset) net.maxBytes)).length = clamp (c.file.length - c.offset) net.maxBytes := by
      simp only [List.length_take, List.length_drop]
      omega
    obtain ⟨net', heq, hready', -⟩ := afterWrite_taken net₁ hd.wf hd.ready hlen (by omega)
      (show _ ≤ c.file.length by omega) (toSend_le_total hd.chunks hd.range ht hle)
    exact ⟨net', heq, hready'⟩

theorem gather_grows {iov' : List Bytes} {k' : Nat} (h : gather b m cs iov k = some (iov', k')) :
    iov' = iov ∧ k' = k ∨ k < k' := by
  induction cs generalizing iov k with
  | nil =>
    cases h
    exact Or.inl ⟨rfl, rfl⟩
  | cons c cs ih =>
    unfold gather at h
    split at h
    · split at h
      · dsimp only at h
        split at h
        · have := ih h
          omega
        · exact ih h
      · cases h
    · cases h
      exact Or.inl ⟨rfl, rfl⟩

/-- **A `writev` that takes all** reaches over the end of the budget, or over whole chunks before it. -/
theorem networkWritevMemChunks_taken (fd : Fd) (h : net.cq.WF) (hready : Ready net.world net.cq.chunks)
    (hwritev : b.useWritev = true) (hcs : net.cq.chunks = c :: cs) (ht : c.type = .memChunk)
    (hends : EndsInMem net.maxBytes net.cq.chunks) :
    ∃ net', networkWritevMemChunks b (goodRound fd net.cq.total) net = some (.done, net') ∧
      Ready net'.world net'.cq.chunks ∧ (net'.maxBytes < 0 ∨ EndsInMem net'.maxBytes net'.cq.chunks) := by
  obtain ⟨pre, rest, data, hpre, hmem, hgather, hflat⟩ := gather_spec b net.maxBytes net.world h.offset [] 0
  rw [List.nil_append, Nat.zero_add] at hgather
  have htakes := networkWritevMemChunks_takes (goodRound fd net.cq.total) h hwritev hcs ht hgather
  have hrun : networkWritevMemChunks b (goodRound fd net.cq.total) net =
      if data.length = 0 then removeFinished net
      else afterWrite net data.flatten (totalOf pre) (.wrote net.cq.total) := by
    simp only [networkWritevMemChunks, hwritev, if_true, hcs, ht]
    rw [← hcs, hgather]
    rfl
  obtain ⟨net', heq, hready', hmax⟩ : ∃ net', networkWritevMemChunks b (goodRound fd net.cq.total) net =
      some (.done, net') ∧ Ready net'.world net'.cq.chunks ∧
      (net'.maxBytes = net.maxBytes ∨ net'.maxBytes = net.maxBytes - totalOf pre) := by
    rw [hrun]
    split
    · obtain ⟨net', heq, hready'⟩ := removeFinished_ready h hready
      refine ⟨net', heq, hready', Or.inl ?_⟩
      simp only [removeFinished, Option.bind_eq_bind, Option.bind_eq_some_iff, Option.pure_def] at heq
      obtain ⟨cq, -, heq⟩ := heq
      cases heq
      rfl
    · rename_i hne
      have hpos : 0 < totalOf pre := by
        rcases gather_grows hgather with ⟨hnil, -⟩ | hlt
        · exact absurd (by rw [hnil]; rfl) hne
        · exact hlt
      have hlen : data.flatten.length = totalOf pre := by
        rw [hflat]
        exact length_flatMap_bytes fun d hd => Chunk.inFile_mem (hmem d hd)
      have hle : totalOf pre ≤ net.cq.total := by
        rw [total, hpre, totalOf_append]
        omega
      obtain ⟨net', heq, hready', hmax⟩ := afterWrite_taken net h hready hlen hpos hle hle
      exact ⟨net', heq, hready', Or.inr hmax⟩
  refine ⟨net', heq, hready', ?_⟩
  obtain ⟨n, hn, hmax', hchunks⟩ := htakes _ _ heq
  by_cases hover : net.maxBytes < totalOf pre ∧ n = totalOf pre
  · exact Or.inl (by omega)
  · have hlt : (n : Int) < net.maxBytes := by
      by_cases hle : (totalOf pre : Int) ≤ net.maxBytes
      · have hpos := ((endsInMem_append hle).mp (hpre ▸ hends)).pos
        omega
      · have := hends.pos
        omega
    rw [hmax']
    exact Or.inr ((hchunks _ hlt).mpr hends)

/-- **One round** in which all is taken goes on to the end of the budget. -/
theorem writeFirst_taken (hwritev : usesWritev be b) (h : net.cq.WF)
    (hready : Ready net.world net.cq.chunks) (hcs : net.cq.chunks = c :: cs)
    (hends : EndsInMem net.maxBytes net.cq.chunks) : ∃ io net', be.writeFirst b c.type io net = some (.done, net') ∧
      Ready net'.world net'.cq.chunks ∧ (net'.maxBytes < 0 ∨ EndsInMem net'.maxBytes net'.cq.chunks) := by
  obtain ⟨k, hk⟩ := hready.fds
  have hfd := hk k (Nat.le_refl k)
  cases ht : c.type with
  | memChunk =>
    obtain ⟨net', heq, hrest⟩ := networkWritevMemChunks_taken k h hready hwritev.2 hcs ht hends
    refine ⟨goodRound k net.cq.total, net', ?_, hrest⟩
    cases be with
    | write => exact absurd rfl hwritev.1
    | writev | sendfile => exact heq
  | fileChunk =>
    have hlt : ((c.size - c.offset : Nat) : Int) < net.maxBytes := by
      rw [hcs, endsInMem_cons] at hends
      rcases hends with ⟨hmem, -⟩ | hends
      · rw [ht] at hmem
        cases hmem
      · have := hends.pos
        omega
    have hstep : ∀ io net', be.writeFirst b .fileChunk io net = some (.done, net') →
        EndsInMem net'.maxBytes net'.cq.chunks := by
      intro io net' heq
      have htakes : Takes (clamp (c.file.length - c.offset) net.maxBytes) net (be.writeFirst b .fileChunk io net) := by
        cases be with
        | write => exact networkWriteFileChunkMmap_takes b io hcs ht
        | writev => exact networkWriteFileChunkMmap_takes b io hcs ht
        | sendfile => exact networkWriteFileChunkSendfile_takes hcs ht
      obtain ⟨n, hn, hmax, hchunks⟩ := htakes _ _ heq
      have hle : clamp (c.file.length - c.offset) net.maxBytes ≤ c.file.length - c.offset := clamp_le
      rw [Chunk.size_file ht] at hlt
      rw [hmax]
      exact (hchunks _ (by omega)).mpr hends
    obtain ⟨net', heq, hready'⟩ : ∃ net', be.writeFirst b .fileChunk (goodRound k c.file.length) net =
        some (.done, net') ∧ Ready net'.world net'.cq.chunks := by
      cases be with
      | write => exact networkWriteFileChunkMmap_taken h hready hcs ht hfd
      | writev => exact networkWriteFileChunkMmap_taken h hready hcs ht hfd
      | sendfile => exact networkWriteFileChunkSendfile_taken h hready hcs ht hfd
    exact ⟨_, net', heq, hready', Or.inr (hstep _ _ heq)⟩

theorem loop_exhausted {ios : Nat → Round} (hfuel : 0 < fuel)
    (h : net.maxBytes ≤ 0) : be.loop b fuel ios net = some (.done, net) := by
  cases fuel with
  | zero => omega
  | succ fuel =>
    unfold Backend.loop
    cases hcs : net.cq.chunks with
    | nil => rfl
    | cons c cs =>
      dsimp only
      exact if_neg (by omega)

/-- **The loop of a backend** exceeds a budget that ends inside a chunk in memory, if all is taken. -/
theorem loop_exceeds (net : Net) (hwritev : usesWritev be b) (h : net.cq.WF)
    (hready : Ready net.world net.cq.chunks) (hends : EndsInMem net.maxBytes net.cq.chunks) (hfuel : work net < fuel) :
    ∃ ios ret net', be.loop b fuel ios net = some (ret, net') ∧ net'.maxBytes < 0 := by
  induction fuel generalizing net with
  | zero => omega
  | succ fuel ih =>
    cases hcs : net.cq.chunks with
    | nil =>
      rw [hcs] at hends
      exact absurd hends not_endsInMem_nil
    | cons c cs =>
      have hm := hends.pos
      obtain ⟨io, net₁, heq, hready₁, hnext⟩ := writeFirst_taken hwritev h hready hcs hends
      obtain ⟨ret, net₂, data, heq', hsent, hless⟩ := writeFirst_sends h hcs hm be b io
      rw [heq] at heq'
      cases heq'
      have hwork := hless rfl
      have hloop : ∀ ios, be.loop b (fuel + 1) (fun i => if i = 0 then io else ios (i - 1)) net =
          be.loop b fuel ios net₁ := by
        intro ios
        rw [Backend.loop]
        simp only [hcs, gt_iff_lt, hm, if_true, heq, Option.bind_eq_bind, Option.bind_some]
        rfl
      rcases hnext with hneg | hends₁
      · refine ⟨_, .done, net₁, (hloop fun _ => io).trans (loop_exhausted (by omega) (by omega)), hneg⟩
      · obtain ⟨ios, ret, net', hrun, hneg⟩ := ih net₁ hsent.wf hready₁ hends₁ (by omega)
        exact ⟨_, ret, net', (hloop ios).trans hrun, hneg⟩

/-! ## `network_write_chunkqueue` -/

theorem limitTo_allowance (con : Shaping) (maxBytes : Int) :
    match (limitTo con.globalKbytesPerSecond con.globalBytesPerSecondCnt maxBytes).bind
      (limitTo con.kbytesPerSecond con.bytesWrittenCurSecond) with
    | none => allowance con maxBytes ≤ 0
    | some a => a = allowance con maxBytes := by
  unfold limitTo allowance
  by_cases hg : con.globalKbytesPerSecond = 0 <;> by_cases hk : con.kbytesPerSecond = 0 <;>
    simp only [hg, hk, ne_eq, not_true_eq_false, not_false_eq_true, if_true, if_false, Option.bind_some]
  · by_cases hlimit : (con.kbytesPerSecond : Int) * 1024 - con.bytesWrittenCurSecond ≤ 0
    · simp only [hlimit, if_true]
      omega
    · simp only [hlimit, if_false]
      split <;> omega
  · by_cases hlimit : (con.globalKbytesPerSecond : Int) * 1024 - con.globalBytesPerSecondCnt ≤ 0
    · simp only [hlimit, if_true, Option.bind_none]
      omega
    · simp only [hlimit, if_false, Option.bind_some]
      split <;> omega
  · by_cases hlimit : (con.globalKbytesPerSecond : Int) * 1024 - con.globalBytesPerSecondCnt ≤ 0
    · simp only [hlimit, if_true, Option.bind_none]
      omega
    · by_cases hlimit' : (con.kbytesPerSecond : Int) * 1024 - con.bytesWrittenCurSecond ≤ 0
      · simp only [hlimit, hlimit', if_true, if_false, Option.bind_some]
        omega
      · simp only [hlimit, hlimit', if_false, Option.bind_some]
        split <;> split <;> omega

/-- The end of `network_write_chunkqueue` sends nothing. -/
theorem finish_wire (ret : Ret) (h : net.cq.WF) : ∃ r net', finish ret net = some (r, net') ∧ net'.wire = net.wire := by
  unfold finish
  split
  · obtain ⟨cq, hcq, -⟩ := removeFinishedChunks_spec h
    exact ⟨if cq.isEmpty then 0 else 1, { net with cq := cq }, by simp [hcq], rfl⟩
  · exact ⟨_, net, rfl, rfl⟩

/-- **What the call puts on the wire** is what the backend takes of the allowance. -/
theorem networkWriteChunkqueue_spec (be : Backend) (b : Build) (ios : Nat → Round) (con : Shaping) (net : Net)
    (h : net.cq.WF) (maxBytes : Int) : ∃ ret con' net', networkWriteChunkqueue be b ios con net maxBytes = some (ret, con', net') ∧
      (net'.wire = net.wire ∧ (con.isSsl = true ∨ allowance con maxBytes ≤ 0) ∨
        con.isSsl = false ∧ ∃ r net₁, be.networkWriteChunkqueue b ios { net with maxBytes := allowance con maxBytes } =
          some (r, net₁) ∧ (net'.wire.length : Int) = net.wire.length + (allowance con maxBytes - net₁.maxBytes)) := by
  have hlimit := limitTo_allowance con maxBytes
  unfold networkWriteChunkqueue
  split at hlimit
  · exact ⟨_, _, _, rfl, Or.inl ⟨rfl, Or.inr hlimit⟩⟩
  · subst hlimit
    cases hssl : con.isSsl with
    | true =>
      obtain ⟨r, net', hfinish, hwire⟩ := finish_wire .failed h
      refine ⟨r, count con (net'.cq.bytesOut - net.cq.bytesOut), net', ?_, Or.inl ⟨hwire, Or.inl rfl⟩⟩
      · simp only [if_true, Option.bind_eq_bind, Option.bind_some, hfinish]
        rfl
    | false =>
      obtain ⟨r, net₁, data, hloop, hsent⟩ :=
        loop_sends be b ios { net with maxBytes := allowance con maxBytes } h (Nat.lt_succ_self _)
      obtain ⟨r', net', hfinish, hwire⟩ := finish_wire r hsent.wf
      have hrun : be.networkWriteChunkqueue b ios { net with maxBytes := allowance con maxBytes } = some (r, net₁) :=
        hloop
      refine ⟨r', count con (net'.cq.bytesOut - net.cq.bytesOut), net', ?_, Or.inr ⟨rfl, r, net₁, hrun, ?_⟩⟩
      · simp only [Bool.false_eq_true, if_false, hrun, Option.bind_eq_bind, Option.bind_some, hfinish]
        rfl
      · have hmax := hsent.maxBytes
        rw [hwire, hsent.wire, List.length_append]
        dsimp only at hmax ⊢
        omega

/-- A world in which all files of the chunks can be sent. -/
def readyWorld (cs : List Chunk) : World where
  files := fun _ => some (List.replicate
    (cs.map fun c => c.file.start + c.file.length + (c.file.mmap.offset + c.file.mmap.length)).sum 0)
  fdpos := fun _ => none

theorem readyWorld_ready (cs : List Chunk) : Ready (readyWorld cs) cs := by
  have hle : ∀ c ∈ cs, c.file.start + c.file.length + (c.file.mmap.offset + c.file.mmap.length) ≤
      ((readyWorld cs).content c.file.name).length := by
    intro c hc
    simp only [World.content, readyWorld, Option.getD_some, List.length_replicate]
    exact List.le_sum_of_mem (List.mem_map_of_mem hc)
  refine ⟨fun _ _ _ => rfl, fun c hc _ => ?_, fun c hc _ => ?_, 0, fun _ _ => rfl⟩ <;>
    have := hle c hc <;> omega

/-- **The traffic shaping is kept**: whatever the files hold and whatever the system calls return, no more than the
allowance is put on the wire. -/
def Shaped (be : Backend) (b : Build) (con : Shaping) (cq : Chunkqueue) (maxBytes : Int) : Prop :=
  ∀ (net : Net) (ios : Nat → Round), net.cq = cq →
    ∃ ret con' net', networkWriteChunkqueue be b ios con net maxBytes = some (ret, con', net') ∧
      (net'.wire.length : Int) ≤ net.wire.length + max 0 (allowance con maxBytes)

/-- **The traffic shaping is kept if and only if** the allowance does not end inside a chunk in memory, or the backend
does not use `writev`. -/
theorem shaped_iff (be : Backend) (b : Build) (con : Shaping) (cq : Chunkqueue) (maxBytes : Int) (h : cq.WF) :
    Shaped be b con cq maxBytes ↔
      con.isSsl = true ∨ ¬usesWritev be b ∨ ¬EndsInMem (allowance con maxBytes) cq.chunks := by
  constructor
  · intro hshaped
    by_contra hnot
    simp only [not_or, not_not] at hnot
    obtain ⟨hssl, hwritev, hends⟩ := hnot
    have hpos := hends.pos
    obtain ⟨ios, r, net₁, hloop, hneg⟩ := loop_exceeds
      ⟨cq, allowance con maxBytes, readyWorld cq.chunks, []⟩ hwritev h (readyWorld_ready _) hends (Nat.lt_succ_self _)
    obtain ⟨ret, con', net', hrun, hle⟩ := hshaped ⟨cq, 0, readyWorld cq.chunks, []⟩ ios rfl
    obtain ⟨ret', con'', net'', hrun', hspec⟩ :=
      networkWriteChunkqueue_spec be b ios con ⟨cq, 0, readyWorld cq.chunks, []⟩ h maxBytes
    rw [hrun] at hrun'
    cases hrun'
    rcases hspec with ⟨-, hssl' | hle'⟩ | ⟨-, r', net₂, hloop', hlen⟩
    · exact hssl hssl'
    · omega
    · have heq := hloop.symm.trans hloop'
      cases heq
      simp only [List.length_nil] at hle hlen
      omega
  · rintro hcond net ios rfl
    obtain ⟨ret, con', net', hrun, hspec⟩ := networkWriteChunkqueue_spec be b ios con net h maxBytes
    refine ⟨ret, con', net', hrun, ?_⟩
    rcases hspec with ⟨hwire, -⟩ | ⟨hssl, r, net₁, hloop, hlen⟩
    · rw [hwire]
      omega
    · have hends : usesWritev be b → ¬EndsInMem (allowance con maxBytes) net.cq.chunks := by
        intro hwritev
        rcases hcond with hssl' | hnot | hends
        · rw [hssl] at hssl'
          cases hssl'
        · exact absurd hwritev hnot
        · exact hends
      have hbounded := loop_bounded { net with maxBytes := allowance con maxBytes } h hends hloop
      dsimp only at hbounded
      omega

/-- A connection with a limit of 1 kB/s that has written 1020 bytes in this second. -/
def limited : Shaping := ⟨0, 0, 1, 1020, 1020, false, false⟩

def memQueue (n : Nat) : Chunkqueue :=
  ⟨[⟨.memChunk, .ofString (List.replicate n 120), Chunk.noFile, 0⟩], [], n, 0, none, 1024, 0⟩

theorem shaped_iff_sample : Shaped .writev sampleBuild limited (memQueue 4) 262144 := by
  have hwf : (memQueue 4).WF := ⟨by decide, nofun⟩
  refine (shaped_iff .writev sampleBuild limited (memQueue 4) 262144 hwf).mpr (Or.inr (Or.inr ?_))
  unfold memQueue
  rw [endsInMem_cons]
  rintro (⟨-, -, hlt⟩ | hnil)
  · exact absurd hlt (by decide)
  · exact not_endsInMem_nil hnil

/-- `writev` is given five bytes when four are allowed. -/
theorem not_shaped : ¬Shaped .writev sampleBuild limited (memQueue 5) 262144 := by
  intro hshaped
  obtain ⟨ret, con', net', hrun, hle⟩ :=
    hshaped ⟨memQueue 5, 0, sampleFiles, []⟩ (fun _ => goodRound 3 5) rfl
  have hwire : (networkWriteChunkqueue .writev sampleBuild (fun _ => goodRound 3 5) limited
      ⟨memQueue 5, 0, sampleFiles, []⟩ 262144).map (fun r => r.2.2.wire.length) = some 5 := by decide
  rw [hrun, Option.map_some, Option.some.injEq] at hwire
  rw [hwire] at hle
  exact absurd hle (by decide)

end Network
end Lighttpd
