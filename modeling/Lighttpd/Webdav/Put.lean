import Lighttpd.Chunk.Content
import Lighttpd.Webdav.Handler

/-!
# The body of a PUT (`mod_webdav.c`)

The loop that copies `con->request_content_queue` to the file, which `Webdav/Handler.lean` has as the error of the first
`write` that fails. A round gets the bytes of the first chunk from memory, from a mapping or from a `read`, and writes
them; what the system calls answer is a `PutRound`.

* one round that writes consumes what it has written (`Progress.putRound`), and so do all of them (`putReach_progress`);
* the loop always returns (`putLoop_run`);
* no round writes nothing if there is something to write and the system calls take something (`neverStalls_of_io`);
* a body is stored, or the client is told, if and only if no round writes nothing (`put_all_or_error_iff`).
-/

namespace Lighttpd.Webdav

/-! ## The model -/

/-- The answers of the system calls of a round. A successful `write` takes at most so many bytes. -/
structure PutRound where
  openFile : Option Fd
  mmap : Bool
  lseek : Bool
  read : Option Nat
  write : Except Errno Nat

/-- The queue, the contents of the file, and the offset of its descriptor. -/
structure Put where
  cq : Chunkqueue
  file : Bytes
  pos : Nat
deriving DecidableEq

/-- The most that a `write` transfers, so that what it returns fits in the `int r`. -/
def writeMax : Nat := 0x7ffff000

/-- The bytes of the first chunk, which keeps its descriptor and its mapping. -/
def chunkData (w : World) (io : PutRound) (c : Chunk) : Option (Chunk × Bytes) :=
  match c.type with
  | .memChunk => some (c, c.mem.str.drop c.offset)
  | .fileChunk =>
    let content := w.content c.file.name
    let dlen := c.file.length - c.offset
    if c.file.mmap.mapped then some (c, (content.drop (c.file.mmap.offset + c.offset)).take dlen)
    else
      match c.file.fd.or io.openFile with
      | none => none
      | some fd =>
        if io.mmap then
          -- the whole file is mapped, whatever `file.start` is
          let mmap := { c.file.mmap with mapped := true, length := c.file.length }
          some ({ c with file := { c.file with fd := some fd, mmap := mmap } }, (content.drop c.offset).take dlen)
        else if io.lseek then
          io.read.map fun rd =>
            ({ c with file := { c.file with fd := some fd } },
              (content.drop (c.file.start + c.offset)).take (min rd (min dlen 65536)))
        else none

/-- What becomes of a round: another one, the end of the loop, or `HANDLER_ERROR` (or a failed assertion). -/
inductive PutStep where
  | goOn (p : Put)
  | stop (p : Put) (error : Option Errno)
  | broken (p : Put)
deriving DecidableEq

def putRound (w : World) (io : PutRound) (p : Put) (c : Chunk) : PutStep :=
  match chunkData w io c with
  | none => .broken p
  | some (c, data) =>
    let p := { p with cq := p.cq.setFirst c }
    match io.write with
    | .error e => .stop p (some e)
    | .ok n =>
      let r := min n (min data.length writeMax)
      if 0 < r then
        match p.cq.markWritten r with
        | none => .broken p
        | some cq => .goOn ⟨cq, writeAt p.file p.pos (data.take r), p.pos + r⟩
      else .stop p none

/-- How the loop ends. -/
structure PutEnd where
  put : Put
  error : Option Errno
  broken : Bool
deriving DecidableEq

/-- The loop, from round `k` on. It has not returned if there is no fuel left. -/
def putLoop (w : World) (ios : Nat → PutRound) : Nat → Nat → Put → Option PutEnd
  | 0, _, _ => none
  | fuel + 1, k, p =>
    match p.cq.chunks with
    | [] => some ⟨p, none, false⟩
    | c :: _ =>
      match putRound w (ios k) p c with
      | .goOn p => putLoop w ios fuel (k + 1) p
      | .stop p error => some ⟨p, error, false⟩
      | .broken p => some ⟨p, none, true⟩

/-- The body of a PUT, the contents of the file before, and the answers of the system calls. -/
structure PutBody where
  world : World
  cq : Chunkqueue
  old : Bytes
  ios : Nat → PutRound
  closeFails : Bool

/-- What is done before the loop. -/
def putReady (s : State) (r : PutReq) : Except Answer Nat :=
  if r.isReadonly then .error (.finished 403)
  else if r.bytesIn = 0 ∧ hasLock s r.hdrIf (some r.uriPath) = false then .error (.finished 423)
  else if !r.readPostGoOn then .error .other
  else
    match putOpen r with
    | .error status => .error (.finished status)
    | .ok status => .ok status

/-- Where the body goes: the file is truncated if there is no `Content-Range`. -/
def putBase (r : PutReq) (old : Bytes) : Bytes := if r.contentRange.isSome then old else []

/-- The offset where the body goes. -/
def putOffset (r : PutReq) : Nat :=
  match r.contentRange with
  | some value => ((rangeOffset value).getD 0).toNat
  | none => 0

def putInit (r : PutReq) (b : PutBody) : Put := ⟨b.cq, putBase r b.old, putOffset r⟩

def putBody (s : State) (r : PutReq) (b : PutBody) : Option (Answer × Put) :=
  match putReady s r with
  | .error a => some (a, ⟨b.cq, b.old, 0⟩)
  | .ok _ => do
    let out ← putLoop b.world b.ios (b.cq.total + 1) 0 (putInit r b)
    return (put s { r with writeError := out.error, broken := out.broken || b.closeFails }, out.put)

variable {w : World} {io : PutRound} {ios : Nat → PutRound} {c c' : Chunk} {cs : List Chunk} {data : Bytes}
  {p p' : Put}

/-! ## Writes one behind the other -/

/-- The contents of a file after a body is written at an offset. Nothing is written of an empty one. -/
def written (base : Bytes) (pos : Nat) (body : Bytes) : Bytes := if body = [] then base else writeAt base pos body

@[simp] theorem written_nil (base : Bytes) (pos : Nat) : written base pos [] = base := if_pos rfl

theorem length_hole (base : Bytes) (pos : Nat) :
    (base.take pos ++ List.replicate (pos - base.length) (0 : Byte)).length = pos := by
  simp
  omega

theorem writeAt_writeAt (base : Bytes) (pos : Nat) (d e : Bytes) :
    writeAt (writeAt base pos d) (pos + d.length) e = writeAt base pos (d ++ e) := by
  have hlen : (base.take pos ++ List.replicate (pos - base.length) 0 ++ d).length = pos + d.length := by
    rw [List.length_append, length_hole]
  have htake : (writeAt base pos d).take (pos + d.length) =
      base.take pos ++ List.replicate (pos - base.length) 0 ++ d := by
    rw [writeAt, ← hlen, List.take_left']
    rfl
  have hdrop : (writeAt base pos d).drop (pos + d.length + e.length) = base.drop (pos + (d ++ e).length) := by
    rw [← List.drop_drop, writeAt, List.drop_left' hlen, List.drop_drop, List.length_append, Nat.add_assoc]
  have hhole : pos + d.length - (writeAt base pos d).length = 0 := by
    have hle : pos + d.length ≤ (writeAt base pos d).length := by
      rw [writeAt, List.length_append, hlen]
      omega
    omega
  rw [writeAt, htake, hdrop, hhole, writeAt]
  simp

theorem writeAt_written {base d e : Bytes} {pos : Nat} (he : e ≠ []) :
    writeAt (written base pos d) (pos + d.length) e = written base pos (d ++ e) := by
  by_cases hd : d = []
  · simp [hd, written, he]
  · simp [written, hd, writeAt_writeAt]

/-! ## One round -/

/-- The chunks of a temporary file are the whole file, and are mapped from its start. -/
def TempFile (c : Chunk) : Prop := c.type = .fileChunk → c.file.start = 0 ∧ c.file.mmap.offset = 0

/-- A change of the chunk that keeps its range. -/
structure SameData (c c' : Chunk) : Prop where
  size : c'.size = c.size
  offset : c'.offset = c.offset
  bytes : ∀ w, c'.bytes w = c.bytes w
  inFile : ∀ w, c.InFile w → c'.InFile w
  tempFile : TempFile c → TempFile c'

theorem SameData.refl (c : Chunk) : SameData c c := ⟨rfl, rfl, fun _ => rfl, fun _ => id, id⟩

/-- The descriptor and the mapping of a chunk are not a part of its data. -/
theorem sameData_file (c : Chunk) (fd : Option Fd) (mmap : Mmap) (hmmap : mmap.offset = c.file.mmap.offset) :
    SameData c { c with file := { c.file with fd := fd, mmap := mmap } } where
  size := by simp [Chunk.size]
  offset := rfl
  bytes := fun w => by simp [Chunk.bytes, Chunk.allBytes]
  inFile := fun w h => h
  tempFile := fun h ht => ⟨(h ht).1, hmmap.trans (h ht).2⟩

theorem chunkData_spec (htemp : TempFile c) (h : chunkData w io c = some (c', data)) :
    SameData c c' ∧ data <+: c.bytes w ∧ (data = [] → c.bytes w = [] ∨ io.read = some 0) := by
  unfold chunkData at h
  cases ht : c.type with
  | memChunk =>
    simp only [ht, Option.some.injEq, Prod.mk.injEq] at h
    obtain ⟨rfl, rfl⟩ := h
    rw [← Chunk.bytes_mem ht w]
    exact ⟨.refl c, List.prefix_rfl, .inl⟩
  | fileChunk =>
    obtain ⟨hstart, hoffset⟩ := htemp ht
    have hbytes : c.bytes w = ((w.content c.file.name).drop c.offset).take (c.file.length - c.offset) := by
      rw [Chunk.bytes_file ht, hstart, List.drop_zero, List.drop_take]
    rw [hbytes]
    simp only [ht] at h
    split at h
    · obtain ⟨rfl, rfl⟩ : c = c' ∧ _ = data := by simpa using h
      rw [hoffset, Nat.zero_add]
      exact ⟨.refl c, List.prefix_rfl, .inl⟩
    · cases hfd : c.file.fd.or io.openFile with
      | none => simp [hfd] at h
      | some fd =>
        simp only [hfd] at h
        split at h
        · simp only [Option.some.injEq, Prod.mk.injEq] at h
          obtain ⟨rfl, rfl⟩ := h
          have hsame := sameData_file c (some fd) ⟨true, c.file.length, c.file.mmap.offset⟩ rfl
          rw [ht] at hsame
          exact ⟨hsame, List.prefix_rfl, .inl⟩
        · split at h
          · simp only [Option.map_eq_some_iff, Prod.mk.injEq] at h
            obtain ⟨rd, hrd, rfl, rfl⟩ := h
            have hsame := sameData_file c (some fd) c.file.mmap rfl
            rw [ht] at hsame
            have hmin : min rd (min (c.file.length - c.offset) 65536) =
              min (min rd 65536) (c.file.length - c.offset) := by omega
            refine ⟨hsame, ?_⟩
            rw [hstart, Nat.zero_add, hmin, ← List.take_take]
            refine ⟨List.take_prefix _ _, fun h0 => ?_⟩
            rcases List.take_eq_nil_iff.mp h0 with h0 | h0
            · obtain rfl : rd = 0 := by omega
              exact .inr hrd
            · exact .inl h0
          · cases h

theorem setFirst_sameData {cq : Chunkqueue} (h : cq.WF) (hcs : cq.chunks = c :: cs) (hsame : SameData c c') :
    Chunkqueue.Drained cq (cq.setFirst c') 0 where
  wf := by
    refine ⟨fun d hd => ?_, h.idle⟩
    rcases List.mem_cons.mp hd with rfl | hd
    · rw [Chunk.OffsetOk, hsame.offset, hsame.size]
      exact h.offset c (by simp [hcs])
    · exact h.offset d (List.mem_of_mem_tail hd)
  total := by simp [Chunkqueue.total, Chunkqueue.setFirst, hcs, hsame.size, hsame.offset]
  bytesIn := rfl
  inFiles := by
    intro w hw d hd
    rcases List.mem_cons.mp hd with rfl | hd
    · exact hsame.inFile w (hw c (by simp [hcs]))
    · exact hw d (List.mem_of_mem_tail hd)
  content := fun w _ => by simp [Chunkqueue.content, Chunkqueue.setFirst, hcs, hsame.bytes]

/-- The round has no bytes, or `write` takes none. It leaves the loop, and `con->http_status` is what it was. -/
def Stalls (w : World) (io : PutRound) (p : Put) : Prop :=
  ∃ c cs c' data n, p.cq.chunks = c :: cs ∧ chunkData w io c = some (c', data) ∧ io.write = .ok n ∧ (data = [] ∨ n = 0)

/-- The bodies: what has been received, in memory and in temporary files. -/
structure RequestBody (b : PutBody) : Prop where
  wf : b.cq.WF
  inFiles : b.cq.InFiles b.world
  tempFiles : ∀ c ∈ b.cq.chunks, TempFile c

/-- The file has the first `n` bytes of the body, and the queue the others. -/
structure Progress (r : PutReq) (b : PutBody) (p : Put) (n : Nat) : Prop where
  drained : Chunkqueue.Drained b.cq p.cq n
  file : p.file = written (putBase r b.old) (putOffset r) ((b.cq.content b.world).take n)
  pos : p.pos = putOffset r + n
  tempFiles : ∀ c ∈ p.cq.chunks, TempFile c

variable {r : PutReq} {b : PutBody} {n : Nat}

theorem RequestBody.progress (h : RequestBody b) (r : PutReq) : Progress r b (putInit r b) 0 where
  drained := .refl h.wf
  file := by simp [putInit]
  pos := rfl
  tempFiles := h.tempFiles

variable {k : Nat} {s : State}

theorem Progress.nextBytes (h : Progress r b p n) (hb : RequestBody b) (hcs : p.cq.chunks = c :: cs)
    (hdata : data <+: c.bytes b.world) (hk : k ≤ data.length) :
    (b.cq.content b.world).take (n + k) = (b.cq.content b.world).take n ++ data.take k := by
  have hrest : (b.cq.content b.world).drop n = c.bytes b.world ++ cs.flatMap (Chunk.bytes b.world) := by
    rw [← h.drained.content _ hb.inFiles, Chunkqueue.content, hcs, List.flatMap_cons]
  obtain ⟨more, hmore⟩ := hdata
  rw [List.take_add, hrest, ← hmore, List.append_assoc, List.take_append_of_le_length hk]

/-- **A round that writes has consumed what it has written.** -/
theorem Progress.putRound (h : Progress r b p n) (hb : RequestBody b) (hcs : p.cq.chunks = c :: cs)
    (hround : putRound b.world io p c = .goOn p') : ∃ k, 0 < k ∧ Progress r b p' (n + k) := by
  unfold Webdav.putRound at hround
  cases hd : chunkData b.world io c with
  | none => simp [hd] at hround
  | some cd =>
    obtain ⟨c', data⟩ := cd
    obtain ⟨hsame, hdata, -⟩ := chunkData_spec (h.tempFiles c (by simp [hcs])) hd
    have hfirst := setFirst_sameData h.drained.wf hcs hsame
    simp only [hd] at hround
    cases hw : io.write with
    | error e => simp [hw] at hround
    | ok k =>
      simp only [hw] at hround
      split at hround
      · rename_i hpos
        generalize hk : min k (min data.length writeMax) = k at hround hpos
        have hle : k ≤ data.length := by omega
        have hall : k ≤ (p.cq.setFirst c').total := by
          have hlen := hdata.length_le
          rw [Chunk.length_bytes (h.drained.inFiles _ hb.inFiles c (by simp [hcs]))] at hlen
          have htotal : p.cq.total = c.size - c.offset + Chunkqueue.totalOf cs := by simp [Chunkqueue.total, hcs]
          have := hfirst.total
          omega
        obtain ⟨cq, hmark, hdrained, -⟩ := Chunkqueue.markWritten_spec hfirst.wf hall
        simp only [hmark, PutStep.goOn.injEq] at hround
        subst hround
        refine ⟨k, hpos, ?_, ?_, ?_, ?_⟩
        · simpa using h.drained.trans (hfirst.trans hdrained)
        · have htaken : ((b.cq.content b.world).take n).length = n := by
            have := h.drained.total
            simp [Chunkqueue.length_content hb.inFiles]
            omega
          have hne : data.take k ≠ [] := by
            intro h0
            have hlen := congrArg List.length h0
            rw [List.length_take, List.length_nil] at hlen
            omega
          rw [h.nextBytes hb hcs hdata hle, ← writeAt_written hne, htaken, ← h.file, ← h.pos]
        · simp [h.pos, Nat.add_assoc]
        · intro d hmem ht
          obtain ⟨e, he, htype, hfile⟩ := Chunkqueue.markWritten_files hmark d hmem
          rw [htype] at ht
          rw [hfile]
          rcases List.mem_cons.mp he with rfl | he
          · exact hsame.tempFile (h.tempFiles c (by simp [hcs])) ht
          · exact h.tempFiles e (List.mem_of_mem_tail he) ht
      · cases hround

theorem putRound_stop {error : Option Errno} (hcs : p.cq.chunks = c :: cs)
    (hround : putRound w io p c = .stop p' error) : error = none → Stalls w io p := by
  unfold putRound at hround
  cases hd : chunkData w io c with
  | none => simp [hd] at hround
  | some cd =>
    obtain ⟨c', data⟩ := cd
    simp only [hd] at hround
    cases hw : io.write with
    | error e =>
      simp only [hw, PutStep.stop.injEq] at hround
      obtain ⟨rfl, rfl⟩ := hround
      simp
    | ok k =>
      simp only [hw] at hround
      split at hround
      · split at hround <;> cases hround
      · rename_i hzero
        obtain ⟨rfl, rfl⟩ : _ = p' ∧ _ = error := by simpa using hround
        refine fun _ => ⟨c, cs, c', data, k, hcs, hd, hw, ?_⟩
        have hmax : 0 < writeMax := by decide
        rcases Nat.eq_zero_or_pos data.length with h0 | h0
        · exact .inl (List.length_eq_zero_iff.mp h0)
        · exact .inr (by omega)

theorem putRound_stalls (h : Stalls w io p) :
    ∃ c cs p', p.cq.chunks = c :: cs ∧ putRound w io p c = .stop p' none ∧ p'.cq.chunks ≠ [] := by
  obtain ⟨c, cs, c', data, k, hcs, hd, hw, hzero⟩ := h
  have hmin : min k (min data.length writeMax) = 0 := by
    rcases hzero with rfl | rfl <;> simp
  exact ⟨c, cs, { p with cq := p.cq.setFirst c' }, hcs, by simp [putRound, hd, hw, hmin], by simp [Chunkqueue.setFirst]⟩

/-! ## The loop -/

/-- The state after so many rounds that have written something. -/
def putReach (w : World) (ios : Nat → PutRound) (p : Put) : Nat → Option Put
  | 0 => some p
  | k + 1 => do
    let q ← putReach w ios p k
    match q.cq.chunks with
    | [] => none
    | c :: _ =>
      match putRound w (ios k) q c with
      | .goOn q => some q
      | _ => none

variable {q : Put} {status : Nat} {a : Answer}

theorem putReach_succ (h : putReach w ios p (k + 1) = some q) :
    ∃ q₀ c cs, putReach w ios p k = some q₀ ∧ q₀.cq.chunks = c :: cs ∧ putRound w (ios k) q₀ c = .goOn q := by
  obtain ⟨q₀, hreach, h⟩ := Option.bind_eq_some_iff.mp h
  cases hcs : q₀.cq.chunks with
  | nil => simp [hcs] at h
  | cons c cs =>
    simp only [hcs] at h
    split at h
    · rename_i hround
      cases h
      exact ⟨q₀, c, cs, hreach, hcs, hround⟩
    · cases h

/-- **Every round reached has consumed what has been written**, and each one has written at least a byte. -/
theorem putReach_progress (hb : RequestBody b) (r : PutReq)
    (h : putReach b.world b.ios (putInit r b) k = some q) : ∃ n, k ≤ n ∧ Progress r b q n := by
  induction k generalizing q with
  | zero =>
    cases h
    exact ⟨0, Nat.le_refl 0, hb.progress r⟩
  | succ k ih =>
    obtain ⟨q₀, c, cs, hreach, hcs, hround⟩ := putReach_succ h
    obtain ⟨n, hle, hprogress⟩ := ih hreach
    obtain ⟨m, hpos, hprogress'⟩ := hprogress.putRound hb hcs hround
    exact ⟨n + m, by omega, hprogress'⟩

theorem putLoop_reach {fuel : Nat} (h : putReach w ios p k = some q) :
    putLoop w ios (fuel + k) 0 p = putLoop w ios fuel k q := by
  induction k generalizing q fuel with
  | zero =>
    cases h
    rfl
  | succ k ih =>
    obtain ⟨q₀, c, cs, hreach, hcs, hround⟩ := putReach_succ h
    rw [← Nat.succ_add_eq_add_succ, ih hreach]
    simp [putLoop, hcs, hround]

inductive Ends (r : PutReq) (b : PutBody) : PutEnd → Prop
  | done {p : Put} : p.cq.chunks = [] → p.file = written (putBase r b.old) (putOffset r) (b.cq.content b.world) →
      Ends r b ⟨p, none, false⟩
  | failed (p : Put) (e : Errno) : Ends r b ⟨p, some e, false⟩
  | broken (p : Put) : Ends r b ⟨p, none, true⟩
  | stalled (p : Put) {k : Nat} {q : Put} : putReach b.world b.ios (putInit r b) k = some q →
      Stalls b.world (b.ios k) q → Ends r b ⟨p, none, false⟩

theorem Progress.done (h : Progress r b p n) (hb : RequestBody b) (hcs : p.cq.chunks = []) :
    Ends r b ⟨p, none, false⟩ := by
  have htotal : n = b.cq.total := by
    have := h.drained.total
    simpa [Chunkqueue.total, hcs] using this
  refine .done hcs ?_
  rw [h.file, htotal, ← Chunkqueue.length_content hb.inFiles, List.take_length]

/-- **The loop returns**, with the body in the file, with an error, or because a round stalls. -/
theorem putLoop_run (hb : RequestBody b) {fuel : Nat}
    (hreach : putReach b.world b.ios (putInit r b) k = some p) (hfuel : b.cq.total < fuel + k) :
    ∃ out, putLoop b.world b.ios fuel k p = some out ∧ Ends r b out := by
  obtain ⟨n, hle, hprogress⟩ := putReach_progress hb r hreach
  induction fuel generalizing k p n with
  | zero =>
    have := hprogress.drained.total
    omega
  | succ fuel ih =>
    cases hcs : p.cq.chunks with
    | nil => exact ⟨⟨p, none, false⟩, by simp [putLoop, hcs], hprogress.done hb hcs⟩
    | cons c cs =>
      cases hround : putRound b.world (b.ios k) p c with
      | goOn p' =>
        have hreach' : putReach b.world b.ios (putInit r b) (k + 1) = some p' := by
          simp [putReach, hreach, hcs, hround]
        obtain ⟨n', hle', hprogress'⟩ := putReach_progress hb r hreach'
        obtain ⟨out, hout, hends⟩ := ih hreach' (by omega) n' hle' hprogress'
        exact ⟨out, by simp [putLoop, hcs, hround, hout], hends⟩
      | stop p' error =>
        cases error with
        | none =>
          have hstalls := (putRound_stop hcs hround) rfl
          exact ⟨⟨p', none, false⟩, by simp [putLoop, hcs, hround], .stalled p' hreach hstalls⟩
        | some e => exact ⟨⟨p', some e, false⟩, by simp [putLoop, hcs, hround], .failed p' e⟩
      | broken p' => exact ⟨⟨p', none, true⟩, by simp [putLoop, hcs, hround], .broken p'⟩

/-- A round that stalls ends the loop with no error, and with a queue that is not empty. -/
theorem putLoop_stalls (hb : RequestBody b) (hreach : putReach b.world b.ios (putInit r b) k = some p)
    (hstalls : Stalls b.world (b.ios k) p) :
    ∃ p', putLoop b.world b.ios (b.cq.total + 1) 0 (putInit r b) = some ⟨p', none, false⟩ ∧ p'.cq.chunks ≠ [] := by
  obtain ⟨n, hle, hprogress⟩ := putReach_progress hb r hreach
  have htotal := hprogress.drained.total
  obtain ⟨fuel, hfuel⟩ : ∃ fuel, b.cq.total + 1 = fuel + 1 + k := ⟨b.cq.total - k, by omega⟩
  obtain ⟨c, cs, p', hcs, hround, hne⟩ := putRound_stalls hstalls
  refine ⟨p', ?_, hne⟩
  rw [hfuel, putLoop_reach hreach]
  simp [putLoop, hcs, hround]

/-! ## The answer -/

def putStatus (r : PutReq) (status : Nat) : Answer :=
  if r.broken then .other
  else
    match r.writeError with
    | some .enospc => .finished 507
    | some _ => .finished 403
    | none => .finished status

theorem put_eq (s : State) (r : PutReq) :
    put s r = match putReady s r with
      | .error a => a
      | .ok status => putStatus r status := by
  cases hopen : putOpen r with
  | error status =>
    simp only [put, putReady, hopen]
    split_ifs <;> rfl
  | ok status =>
    simp only [put, putReady, hopen]
    split_ifs with h₁ h₂ h₃ h₄
    · rfl
    · rfl
    · rfl
    · simp [putStatus, h₄]
    · cases hw : r.writeError with
      | none => simp [putStatus, h₄, hw]
      | some e => cases e <;> simp [putStatus, h₄, hw]

theorem putReady_ok (h : putReady s r = .ok status) : status = 200 ∨ status = 201 := by
  unfold putReady at h
  split_ifs at h
  cases hopen : putOpen r with
  | error e => simp [hopen] at h
  | ok st =>
    obtain rfl : st = status := by simpa [hopen] using h
    unfold putOpen at hopen
    grind

theorem putReady_error (h : putReady s r = .error a) : a ≠ .finished 200 ∧ a ≠ .finished 201 := by
  unfold putReady at h
  split_ifs at h
  · cases h; simp
  · cases h; simp
  · cases h; simp
  · cases hopen : putOpen r with
    | ok st => simp [hopen] at h
    | error e =>
      obtain rfl : .finished e = a := by simpa [hopen] using h
      unfold putOpen at hopen
      grind

/-- No round that is reached stalls. -/
def NeverStalls (r : PutReq) (b : PutBody) : Prop :=
  ∀ k p, putReach b.world b.ios (putInit r b) k = some p → ¬Stalls b.world (b.ios k) p

/-- An answer that says that the file is not what the body is. -/
def Told (a : Answer) : Prop := a = .finished 403 ∨ a = .finished 507 ∨ a = .other

/-- The file has the body and the queue is empty if the client is told so; it is told else once the file is open and
something is left. -/
def AllOrError (s : State) (r : PutReq) (b : PutBody) : Prop :=
  ∃ a p, putBody s r b = some (a, p) ∧
    (a = .finished 200 ∨ a = .finished 201 →
      p.file = written (putBase r b.old) (putOffset r) (b.cq.content b.world) ∧ p.cq.chunks = []) ∧
    ((∃ status, putReady s r = .ok status) → p.cq.chunks ≠ [] → Told a)

theorem putBody_ready {out : PutEnd} (hready : putReady s r = .ok status)
    (hout : putLoop b.world b.ios (b.cq.total + 1) 0 (putInit r b) = some out) :
    putBody s r b =
      some (putStatus { r with writeError := out.error, broken := out.broken || b.closeFails } status, out.put) := by
  have hready' : putReady s { r with writeError := out.error, broken := out.broken || b.closeFails } = .ok status :=
    hready
  simp [putBody, hready, hout, put_eq, hready']

theorem putStatus_told (h : r.broken = true ∨ r.writeError.isSome) : Told (putStatus r status) := by
  unfold putStatus Told
  cases hbroken : r.broken with
  | true => simp
  | false =>
    obtain ⟨e, he⟩ : ∃ e, r.writeError = some e := Option.isSome_iff_exists.mp (by simpa [hbroken] using h)
    cases e <;> simp [he]

theorem Told.not_stored (h : Told a) : ¬(a = .finished 200 ∨ a = .finished 201) := by
  rcases h with rfl | rfl | rfl <;> simp

theorem allOrError_told (h : putBody s r b = some (a, p)) (ha : Told a) : AllOrError s r b :=
  ⟨a, p, h, fun h' => absurd h' ha.not_stored, fun _ _ => ha⟩

/-! ## Bodies whose rounds do not stall -/

/-- `chunkqueue_mark_written` leaves no chunk at the front that is used up. -/
theorem markWritten_go_head {cq cq' : Chunkqueue} {n : Nat} (hcs : cq.chunks = cs)
    (h : Chunkqueue.markWritten.go cs cq n = some (cq', k)) : ∀ d ∈ cq'.chunks.head?, d.size - d.offset ≠ 0 := by
  induction cs generalizing cq n with
  | nil =>
    obtain ⟨rfl, -⟩ : cq = cq' ∧ n = k := by simpa [Chunkqueue.markWritten.go] using h
    simp [hcs]
  | cons c cs ih =>
    simp only [Chunkqueue.markWritten.go, Option.bind_eq_bind, Option.bind_eq_some_iff] at h
    obtain ⟨rem, hrem, h⟩ := h
    obtain ⟨hok, rfl⟩ := Chunk.remainingLength_some hrem
    rw [Chunk.OffsetOk] at hok
    split at h
    · rename_i hstop
      obtain ⟨rfl, -⟩ : cq = cq' ∧ n = k := by simpa using h
      simpa [hcs] using hstop.2
    · split at h
      · exact ih (by simp [Chunkqueue.dropFirst, hcs]) h
      · obtain ⟨rfl, -⟩ : cq.setFirst (c.advance n) = cq' ∧ 0 = k := by simpa using h
        simp [Chunkqueue.setFirst]
        omega

/-- The first chunk is not used up. -/
def Fresh (p : Put) : Prop := ∀ c ∈ p.cq.chunks.head?, c.size - c.offset ≠ 0

theorem putRound_fresh (hround : putRound w io p c = .goOn p') : Fresh p' := by
  unfold putRound at hround
  cases hd : chunkData w io c with
  | none => simp [hd] at hround
  | some cd =>
    simp only [hd] at hround
    cases hw : io.write with
    | error e => simp [hw] at hround
    | ok k =>
      simp only [hw] at hround
      split at hround
      · split at hround
        · cases hround
        · rename_i cq hmark
          cases hround
          obtain ⟨⟨cq₁, m⟩, hgo, hmark⟩ := Option.bind_eq_some_iff.mp hmark
          have hhead := markWritten_go_head rfl hgo
          dsimp only at hmark
          split at hmark
          · cases hmark
            exact hhead
          · cases hmark
      · cases hround

/-- No round stalls if the queue does not begin with a chunk that is used up, and no system call takes nothing. -/
theorem neverStalls_of_io (hb : RequestBody b) (r : PutReq) (hfresh : Fresh (putInit r b))
    (hio : ∀ k, (b.ios k).read ≠ some 0 ∧ (b.ios k).write ≠ .ok 0) : NeverStalls r b := by
  rintro k p hreach ⟨c, cs, c', data, n, hcs, hd, hw, hzero⟩
  have hhead : c.size - c.offset ≠ 0 := by
    cases k with
    | zero =>
      cases hreach
      exact hfresh c (by simp [hcs])
    | succ k =>
      obtain ⟨_, _, _, -, -, hround⟩ := putReach_succ hreach
      exact putRound_fresh hround c (by simp [hcs])
  obtain ⟨m, -, hprogress⟩ := putReach_progress hb r hreach
  obtain ⟨-, -, hnil⟩ := chunkData_spec (hprogress.tempFiles c (by simp [hcs])) hd
  rcases hzero with rfl | rfl
  · rcases hnil rfl with h0 | h0
    · have hlen := Chunk.length_bytes (hprogress.drained.inFiles _ hb.inFiles c (by simp [hcs]))
      rw [h0] at hlen
      exact hhead hlen.symm
    · exact (hio k).1 h0
  · exact (hio k).2 hw

/-! ## All or an error -/

def newFile : PutReq := ⟨ascii "/f", none, false, 3, true, none, some .enoent, none, false, none, false⟩

def memChunk (s : Bytes) : Chunk := { Chunk.init with mem := Buffer.init.copyStringLen s }

/-- System calls that do what they are asked for. -/
def goodIo : PutRound := ⟨some 0, true, true, some 65536, .ok 65536⟩

/-- A body of three bytes, behind other chunks in memory. -/
def threeBytes (before : List Bytes) : PutBody :=
  ⟨⟨fun _ => none, fun _ => none⟩,
    { Chunkqueue.init none 0 with chunks := (before ++ [ascii "abc"]).map memChunk }, [], fun _ => goodIo, false⟩

theorem threeBytes_body (before : List Bytes) : RequestBody (threeBytes before) where
  wf := by
    refine ⟨fun c hc => ?_, by simp [threeBytes, Chunkqueue.init]⟩
    obtain ⟨s, -, rfl⟩ := List.mem_map.mp hc
    exact Nat.zero_le _
  inFiles := by
    intro c hc
    obtain ⟨s, -, rfl⟩ := List.mem_map.mp hc
    exact Chunk.inFile_mem rfl
  tempFiles := by
    intro c hc ht
    obtain ⟨s, -, rfl⟩ := List.mem_map.mp hc
    cases ht

/-- **A PUT stores the body or tells the client if and only if no round that is reached stalls**, when the file can be
opened and closed. -/
theorem put_all_or_error_iff (s : State) (r : PutReq) (b : PutBody) (hb : RequestBody b) :
    AllOrError s r b ↔ (∃ status, putReady s r = .ok status) → b.closeFails = false → NeverStalls r b := by
  constructor
  · rintro ⟨a, p, hbody, hstored, htold⟩ ⟨status, hready⟩ hclose k q hreach hstalls
    obtain ⟨p', hout, hne⟩ := putLoop_stalls hb hreach hstalls
    rw [putBody_ready hready hout] at hbody
    obtain ⟨rfl, rfl⟩ : putStatus _ status = a ∧ p' = p := by simpa using hbody
    refine hne (hstored ?_).2
    rcases putReady_ok hready with rfl | rfl <;> simp [putStatus, hclose]
  · intro h
    cases hready : putReady s r with
    | error a =>
      have hnot := putReady_error hready
      refine ⟨a, ⟨b.cq, b.old, 0⟩, by simp [putBody, hready], fun h' => ?_, ?_⟩
      · rcases h' with h' | h'
        · exact absurd h' hnot.1
        · exact absurd h' hnot.2
      · rintro ⟨status, hready'⟩
        cases hready.symm.trans hready'
    | ok status =>
      obtain ⟨out, hout, hends⟩ := putLoop_run (r := r) hb (k := 0) rfl (Nat.lt_succ_self _)
      have hbody := putBody_ready hready hout
      cases hclose : b.closeFails with
      | true => exact allOrError_told hbody (putStatus_told (by simp [hclose]))
      | false =>
        cases hends with
        | done hcs hfile => exact ⟨_, _, hbody, fun _ => ⟨hfile, hcs⟩, fun _ hne => absurd hcs hne⟩
        | failed p e => exact allOrError_told hbody (putStatus_told (by simp))
        | broken p => exact allOrError_told hbody (putStatus_told (by simp))
        | stalled p hreach hstalls => exact absurd hstalls (h ⟨status, hready⟩ hclose _ _ hreach)

theorem put_all_or_error_iff_sample : AllOrError .init newFile (threeBytes []) := by
  refine (put_all_or_error_iff .init newFile (threeBytes []) (threeBytes_body [])).mpr fun _ _ => ?_
  apply neverStalls_of_io (threeBytes_body [])
  · intro c hc
    obtain rfl : memChunk (ascii "abc") = c := by simpa [threeBytes, putInit] using hc
    decide
  · simp [threeBytes, goodIo]

/-- The first chunk is empty: the file that has been created stays empty. -/
theorem put_truncated : ¬AllOrError .init newFile (threeBytes [[]]) := by
  rintro ⟨a, p, hbody, hstored, -⟩
  have hput : (putBody .init newFile (threeBytes [[]])).map (fun out => (out.1, out.2.file, out.2.cq.chunks.length)) =
    some (.finished 201, [], 2) := by decide
  rw [hbody] at hput
  obtain ⟨rfl, -, hlen⟩ : a = .finished 201 ∧ p.file = [] ∧ p.cq.chunks.length = 2 := by simpa using hput
  rw [(hstored (.inr rfl)).2] at hlen
  cases hlen

end Lighttpd.Webdav
