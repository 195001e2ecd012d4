import Lighttpd.Chunk.Chunk

/-!
# The chunk queue (`chunk.c`)

The operations of the chunk queue on the list of its chunks. `Chunk/Heap.lean` has the same operations on the linked
representation of the source and shows that they act on the lists as the ones here.

A failed assertion is `none`. The functions that write temp files take the results of their system calls: a loop of
`chunkqueueAppendMemToTempfile` consumes one `Attempt` for each round, and `none` also stands for a call that has not
returned when the results end.
-/

namespace Lighttpd

/-- `chunkqueue`, with the list of its chunks in place of `first` and `last`, and the list of the idle chunks in
place of `unused` and `unused_chunks`. -/
structure Chunkqueue where
  chunks : List Chunk
  unused : List Chunk
  bytesIn : Int
  bytesOut : Int
  tempdirs : Option (List Path)
  uploadTempFileSize : Nat
  tempdirIdx : Nat
deriving DecidableEq, Repr

namespace Chunkqueue

def defaultTempfileSize : Nat := 1 * 1024 * 1024

/-- `chunkqueue_init`, with the defaults set by `chunkqueue_set_tempdirs_default`. -/
def init (tempdirs : Option (List Path)) (size : Nat) : Chunkqueue := ⟨[], [], 0, 0, tempdirs, size, 0⟩

def length (cq : Chunkqueue) : Option Nat := go cq.chunks
where
  go : List Chunk → Option Nat
    | [] => some 0
    | c :: cs => do
      let n ← c.remainingLength
      let m ← go cs
      return n + m

def isEmpty (cq : Chunkqueue) : Bool := cq.chunks.isEmpty

/-- `chunkqueue_push_unused_chunk`: at most five idle chunks are kept. -/
def pushUnusedChunk (cq : Chunkqueue) (c : Chunk) : Chunkqueue :=
  if cq.unused.length > 4 then cq else { cq with unused := c.reset :: cq.unused }

def getUnusedChunk (cq : Chunkqueue) : Chunk × Chunkqueue :=
  match cq.unused with
  | [] => (Chunk.init, cq)
  | c :: us => (c, { cq with unused := us })

def prependChunk (cq : Chunkqueue) (c : Chunk) : Option Chunkqueue := do
  let n ← c.remainingLength
  return { cq with chunks := c :: cq.chunks, bytesIn := cq.bytesIn + n }

def appendChunk (cq : Chunkqueue) (c : Chunk) : Option Chunkqueue := do
  let n ← c.remainingLength
  return { cq with chunks := cq.chunks ++ [c], bytesIn := cq.bytesIn + n }

/-- The first chunk leaves the queue (`cq->first = c->next; if (c == cq->last) cq->last = NULL;`). -/
def dropFirst (cq : Chunkqueue) : Chunkqueue := { cq with chunks := cq.chunks.tail }

/-- The first chunk is replaced; the source changes its fields in place. -/
def setFirst (cq : Chunkqueue) (c : Chunk) : Chunkqueue := { cq with chunks := c :: cq.chunks.tail }

/-- The last chunk is replaced; the source changes its fields in place. -/
def setLast (cq : Chunkqueue) (c : Chunk) : Chunkqueue := { cq with chunks := cq.chunks.dropLast ++ [c] }

def reset (cq : Chunkqueue) : Chunkqueue :=
  { cq.chunks.foldl pushUnusedChunk { cq with chunks := [] } with bytesIn := 0, bytesOut := 0, tempdirIdx := 0 }

def appendFileFd (cq : Chunkqueue) (fn : Path) (fd : Fd) (offset len : Nat) : Option Chunkqueue :=
  if len = 0 then some cq
  else
    let (c, cq) := cq.getUnusedChunk
    cq.appendChunk { c with
      type := .fileChunk
      file := { c.file with name := fn, start := offset, length := len, fd := some fd }
      offset := 0 }

def appendFile (cq : Chunkqueue) (fn : Path) (offset len : Nat) : Option Chunkqueue :=
  if len = 0 then some cq
  else
    let (c, cq) := cq.getUnusedChunk
    cq.appendChunk { c with
      type := .fileChunk
      file := { c.file with name := fn, start := offset, length := len }
      offset := 0 }

/-- `chunkqueue_append_buffer`: the storage of `mem` moves into the chunk; `mem` is left with the chunk's. -/
def appendBuffer (cq : Chunkqueue) (mem : Buffer) : Option (Chunkqueue × Buffer) :=
  if mem.stringIsEmpty then some (cq, mem)
  else do
    let (c, cq) := cq.getUnusedChunk
    let (b, mem) := c.mem.move mem
    let cq ← cq.appendChunk { c with type := .memChunk, mem := b }
    return (cq, mem)

def prependBuffer (cq : Chunkqueue) (mem : Buffer) : Option (Chunkqueue × Buffer) :=
  if mem.stringIsEmpty then some (cq, mem)
  else do
    let (c, cq) := cq.getUnusedChunk
    let (b, mem) := c.mem.move mem
    let cq ← cq.prependChunk { c with type := .memChunk, mem := b }
    return (cq, mem)

def appendMem (cq : Chunkqueue) (mem : Bytes) : Option Chunkqueue :=
  if mem.length = 0 then some cq
  else
    let (c, cq) := cq.getUnusedChunk
    cq.appendChunk { c with type := .memChunk, mem := c.mem.copyStringLen mem }

def appendChunkqueue (cq src : Chunkqueue) : Chunkqueue × Chunkqueue :=
  if src.chunks.isEmpty then (cq, src)
  else
    ({ cq with chunks := cq.chunks ++ src.chunks, bytesIn := cq.bytesIn + (src.bytesIn - src.bytesOut) },
      { src with chunks := [], bytesOut := src.bytesIn })

def reallocMaxSize : Nat := 256

/-- The storage that `chunkqueue_get_memory` makes of the last chunk's buffer. -/
def reuseMemory (b : Buffer) (minSize allocSize : Nat) : Buffer :=
  if b.stringIsEmpty then b.stringPrepareCopy allocSize
  else if b.stringSpace < minSize ∧ b.size ≤ reallocMaxSize then
    let curLen := b.stringLength
    let newSize := max (curLen + minSize) allocSize
    if newSize - curLen ≥ minSize then b.stringPrepareAppend (newSize - curLen) else b
  else b

/-- `chunkqueue_get_memory`: the space returned is behind the string of the last chunk, and `len` bytes long. -/
def getMemory (cq : Chunkqueue) (minSize allocSize : Nat) : Option (Chunkqueue × Nat) :=
  let minSize := if minSize = 0 then 1024 else minSize
  let allocSize := if allocSize = 0 then 4096 else allocSize
  let allocSize := if allocSize < minSize then minSize else allocSize
  match cq.chunks.getLast? with
  | some c =>
    if c.type = .memChunk then
      let b := reuseMemory c.mem minSize allocSize
      let cq := cq.setLast { c with mem := b }
      if b.stringSpace ≥ minSize then some (cq, b.stringSpace) else fresh allocSize cq
    else fresh allocSize cq
  | none => fresh allocSize cq
where
  /-- The space is that of a new chunk. -/
  fresh (allocSize : Nat) (cq : Chunkqueue) : Option (Chunkqueue × Nat) := do
    let (c, cq) := cq.getUnusedChunk
    let cq ← cq.appendChunk { c with type := .memChunk }
    let b := c.mem.stringPrepareAppend allocSize
    return (cq.setLast { c with type := .memChunk, mem := b }, b.stringSpace)

def useMemory (cq : Chunkqueue) (mem : Bytes) : Option Chunkqueue := do
  let c ← cq.chunks.getLast?
  if c.type = .memChunk then
    if mem.length > 0 then
      let b ← c.mem.commit mem
      return { cq.setLast { c with mem := b } with bytesIn := cq.bytesIn + mem.length }
    else if c.mem.stringIsEmpty then
      return cq.setLast { c with mem := c.mem.reset }
    else return cq
  else none

def removeFinishedChunks (cq : Chunkqueue) : Option Chunkqueue := go cq.chunks cq
where
  go : List Chunk → Chunkqueue → Option Chunkqueue
    | [], cq => some cq
    | c :: cs, cq => do
      let n ← c.remainingLength
      if n ≠ 0 then return cq else go cs (cq.dropFirst.pushUnusedChunk c)

def markWritten (cq : Chunkqueue) (len : Nat) : Option Chunkqueue := do
  let (cq, written) ← go cq.chunks cq len
  if written = 0 then return { cq with bytesOut := cq.bytesOut + len } else none
where
  go : List Chunk → Chunkqueue → Nat → Option (Chunkqueue × Nat)
    | [], cq, written => some (cq, written)
    | c :: cs, cq, written => do
      let cLen ← c.remainingLength
      if written = 0 ∧ cLen ≠ 0 then return (cq, written)
      else if written ≥ cLen then
        go cs (cq.dropFirst.pushUnusedChunk (c.advance cLen)) (written - cLen)
      else return (cq.setFirst (c.advance written), 0)

/-- The partial chunk of `chunkqueue_steal`: the next `use` bytes of `c` are copied to the end of the queue. -/
def appendPart (cq : Chunkqueue) (c : Chunk) (use : Nat) : Option Chunkqueue :=
  match c.type with
  | .memChunk => cq.appendMem ((c.mem.str.drop c.offset).take use)
  | .fileChunk => cq.appendFile c.file.name (c.file.start + c.offset) use

def steal (dest src : Chunkqueue) (len : Nat) : Option (Chunkqueue × Chunkqueue) := go src.chunks dest src len
where
  go : List Chunk → Chunkqueue → Chunkqueue → Nat → Option (Chunkqueue × Chunkqueue)
    | [], dest, src, _ => some (dest, src)
    | c :: cs, dest, src, len =>
      if len = 0 then some (dest, src)
      else do
        let clen ← c.remainingLength
        if clen = 0 then go cs dest (src.dropFirst.pushUnusedChunk c) len
        else
          let use := if len ≥ clen then clen else len
          if use = clen then
            let dest ← dest.appendChunk c
            go cs dest { src.dropFirst with bytesOut := src.bytesOut + use } (len - use)
          else
            let dest ← dest.appendPart c use
            return (dest, { src.setFirst (c.advance use) with bytesOut := src.bytesOut + use })

end Chunkqueue

/-! ## Temp files -/

inductive Errno
  | eintr
  | eagain
  | enospc
  | epipe
  | econnreset
  | einval
  | enosys
  | eopnotsupp
  | esocktnosupport
  | eafnosupport
  | eio
deriving DecidableEq, Repr

/-- The result of a `write`: a byte count, or `-1` with an error. -/
inductive WriteResult
  | wrote (n : Nat)
  | error (e : Errno)
deriving DecidableEq, Repr

/-- The result of a `mkstemp`: the characters put in place of `XXXXXX` and the descriptor, or a failure. -/
abbrev MkstempResult := Option (Bytes × Fd)

/-- The results of the system calls in one round of the loop of `chunkqueue_append_mem_to_tempfile`: closing a temp
file that has grown too large, the calls of `mkstemp` in turn, the `write`, and closing a temp file whose disk is
full. -/
structure Attempt where
  closeLarge : Bool
  mkstemp : List MkstempResult
  write : WriteResult
  closeFull : Bool

/-- The outcome of a function that writes temp files: whether it returns `0` (or else `-1`), the queue and the
files. -/
structure TempResult where
  ok : Bool
  cq : Chunkqueue
  world : World

namespace Chunkqueue

/-- The name of a temp file in the directory `dir` (`buffer_append_slash`, then the template). -/
def tempfileName (dir : Path) (suffix : Bytes) : Path :=
  (if dir ≠ [] ∧ dir.getLast? ≠ some 47 then dir ++ [47] else dir) ++ ascii "lighttpd-upload-" ++ suffix

/-- `mkstemp` in the directory `dir`. It never opens a file that exists (`O_EXCL`) and gives an unused descriptor. -/
def mkstemp (w : World) (dir : Path) (r : MkstempResult) : Option (Path × Fd) :=
  match r with
  | some (suffix, fd) =>
    if w.files (tempfileName dir suffix) = none ∧ w.fdpos fd = none then some (tempfileName dir suffix, fd) else none
  | none => none

/-- `mkstemp` in each temp directory from `tempdir_idx` on, until one succeeds. -/
def mkstempLoop (cq : Chunkqueue) (w : World) :
    List Path → List MkstempResult → Option (Option (Path × Fd) × Chunkqueue)
  | [], _ => some (none, cq)
  | _ :: _, [] => none
  | dir :: dirs, r :: rs =>
    match mkstemp w dir r with
    | some f => some (some f, cq)
    | none => mkstempLoop { cq with tempdirIdx := cq.tempdirIdx + 1 } w dirs rs

def openTempfile (cq : Chunkqueue) (w : World) (rs : List MkstempResult) :
    Option (Option (Path × Fd) × Chunkqueue) :=
  match cq.tempdirs with
  | some (d :: ds) => cq.mkstempLoop w ((d :: ds).drop cq.tempdirIdx) rs
  | _ => rs.head?.map fun r => (mkstemp w (ascii "/var/tmp") r, cq)

/-- `chunkqueue_get_append_tempfile`: the new temp file is the last chunk of the queue. -/
def getAppendTempfile (cq : Chunkqueue) (w : World) (rs : List MkstempResult) :
    Option (Option Chunk × Chunkqueue × World) := do
  let (r, cq) ← cq.openTempfile w rs
  match r with
  | none => return (none, cq, w)
  | some (name, fd) =>
    let (c, cq) := cq.getUnusedChunk
    let c := { c with
      type := .fileChunk
      file := { c.file with fd := some fd, isTemp := true, name := name, length := 0 } }
    let cq ← cq.appendChunk c
    return (some c, cq, w.create name fd)

/-- `chunkqueue_remove_empty_chunks`. The loop steps to `c->next` also after it has unlinked the last chunk, and then
reads `next` through `NULL`. -/
def removeEmptyChunks (cq : Chunkqueue) : Option Chunkqueue := do
  let cq ← cq.removeFinishedChunks
  match cq.chunks with
  | [] => return cq
  | c :: cs => go [c] cs cq
where
  /-- `front` ends with the chunk `c` of the source, `cs` are the chunks behind it. -/
  go : List Chunk → List Chunk → Chunkqueue → Option Chunkqueue
    | front, [], cq => some { cq with chunks := front }
    | front, e :: cs, cq => do
      let n ← e.remainingLength
      if n = 0 then
        match cs with
        | [] => none
        | d :: ds => go (front ++ [d]) ds (cq.pushUnusedChunk e)
      else go (front ++ [e]) cs cq

/-- An open temp file from which nothing has been read yet; such a chunk can be appended to. -/
def Appendable (c : Chunk) : Prop :=
  c.type = .fileChunk ∧ c.file.isTemp = true ∧ c.file.fd.isSome = true ∧ c.offset = 0

instance (c : Chunk) : Decidable (Appendable c) := inferInstanceAs (Decidable (_ ∧ _))

/-- The chunk that the next bytes go to: the last one if it can be appended to and is not too large yet, or else a new
temp file. The result is `none` in place of a chunk when closing the last temp file or opening a new one fails. -/
def selectTempfile (cq : Chunkqueue) (w : World) (io : Attempt) : Option (Option Chunk × Chunkqueue × World) :=
  match cq.chunks.getLast? with
  | some c =>
    if Appendable c then
      if c.file.length ≥ cq.uploadTempFileSize then
        let cq := cq.setLast { c with file := { c.file with fd := none } }
        if io.closeLarge then cq.getAppendTempfile w io.mkstemp else some (none, cq, w)
      else some (some c, cq, w)
    else cq.getAppendTempfile w io.mkstemp
  | none => cq.getAppendTempfile w io.mkstemp

def growTempfile (cq : Chunkqueue) (w : World) (c : Chunk) (data : Bytes) : Chunkqueue × World :=
  ({ cq.setLast { c with file := { c.file with length := c.file.length + data.length } } with
      bytesIn := cq.bytesIn + data.length },
    match c.file.fd with
    | some fd => w.write c.file.name fd data
    | none => w)

/-- `tempdir_idx` after a failed write, and whether there is a directory to retry with: the next one is tried after
`ENOSPC`. -/
def nextTempdirIdx (tempdirs : Option (List Path)) (idx : Nat) (e : Errno) : Nat × Bool :=
  match tempdirs with
  | some ds => if e = .enospc then (idx + 1, decide (idx + 1 < ds.length)) else (idx, false)
  | none => (idx, false)

/-- The queue after a failed write, and whether to retry. -/
def nextTempdir (cq : Chunkqueue) (e : Errno) : Chunkqueue × Bool :=
  let (idx, retry) := nextTempdirIdx cq.tempdirs cq.tempdirIdx e
  ({ cq with tempdirIdx := idx }, retry)

/-- The temp file `c`, the last chunk, is given up: an empty one is removed, and another one is closed so that it is
not appended to again. The second component tells whether closing it succeeded. -/
def abandonTempfile (cq : Chunkqueue) (c : Chunk) (closeFull : Bool) : Option (Chunkqueue × Bool) := do
  let left ← c.remainingLength
  if left = 0 then
    let cq ← cq.removeEmptyChunks
    return (cq, true)
  else return (cq.setLast { c with file := { c.file with fd := none } }, closeFull)

def appendMemToTempfile : List Attempt → Chunkqueue → World → Bytes → Option (TempResult × List Attempt)
  | [], _, _, _ => none
  | io :: ios, cq, w, mem => do
    let (c, cq, w) ← cq.selectTempfile w io
    match c with
    | none => return (⟨false, cq, w⟩, ios)
    | some c =>
      match io.write with
      | .wrote n =>
        let (cq, w) := cq.growTempfile w c (mem.take n)
        if n ≥ mem.length then return (⟨true, cq, w⟩, ios)
        else appendMemToTempfile ios cq w (mem.drop n)
      | .error e =>
        if e = .eintr then appendMemToTempfile ios cq w mem
        else
          let (cq, retry) := cq.nextTempdir e
          let (cq, closed) ← cq.abandonTempfile c io.closeFull
          if closed ∧ retry then appendMemToTempfile ios cq w mem
          else return (⟨false, cq, w⟩, ios)

def stealWithTempfiles (dest src : Chunkqueue) (len : Nat) (w : World) (ios : List Attempt) :
    Option (TempResult × Chunkqueue × List Attempt) := go src.chunks dest src len w ios
where
  go : List Chunk → Chunkqueue → Chunkqueue → Nat → World → List Attempt →
      Option (TempResult × Chunkqueue × List Attempt)
    | [], dest, src, _, w, ios => some (⟨true, dest, w⟩, src, ios)
    | c :: cs, dest, src, len, w, ios =>
      if len = 0 then some (⟨true, dest, w⟩, src, ios)
      else do
        let clen ← c.remainingLength
        if clen = 0 then go cs dest (src.dropFirst.pushUnusedChunk c) len w ios
        else
          let use := if len ≥ clen then clen else len
          match c.type with
          | .fileChunk =>
            if use = clen then
              let dest ← dest.appendChunk c
              go cs dest { src.dropFirst with bytesOut := src.bytesOut + use } (len - use) w ios
            else
              let dest ← dest.appendFile c.file.name (c.file.start + c.offset) use
              return (⟨true, dest, w⟩,
                { src.setFirst (c.advance use) with bytesOut := src.bytesOut + use }, ios)
          | .memChunk =>
            let (r, ios) ← appendMemToTempfile ios dest w ((c.mem.str.drop c.offset).take use)
            if !r.ok then return (r, src, ios)
            else if use = clen then
              go cs r.cq { src.dropFirst.pushUnusedChunk c with bytesOut := src.bytesOut + use } (len - use) r.world ios
            else
              return (r, { src.setFirst (c.advance use) with bytesOut := src.bytesOut + use }, ios)

end Chunkqueue
end Lighttpd
