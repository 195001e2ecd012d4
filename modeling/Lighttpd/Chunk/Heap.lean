import Lighttpd.Chunk.Queue
import Lighttpd.Lib.Linked

/-!
# The chunk queue with its pointers (`chunk.c`)

The operations of `Chunk/Queue.lean` once more, now on chunks that are linked by `next` in a heap, with the pointers
`first`, `last` and `unused` of the source. A chunk that is not in the heap (a null or dangling pointer) cannot be
read, written or freed: the result is `none`, as for a failed assertion.

The loops of the source run until a null link; here they also count down from the size of the heap, which is never
reached on a list that ends.
-/

namespace Lighttpd
open Linked

abbrev ChunkHeap := Heap Chunk

/-- `chunkqueue`. -/
structure LinkedQueue where
  first : Option Ptr
  last : Option Ptr
  unused : Option Ptr
  unusedChunks : Nat
  bytesIn : Int
  bytesOut : Int
  tempdirs : Option (List Path)
  uploadTempFileSize : Nat
  tempdirIdx : Nat

namespace LinkedQueue

def init (tempdirs : Option (List Path)) (size : Nat) : LinkedQueue := ⟨none, none, none, 0, 0, 0, tempdirs, size, 0⟩

def setChunk (h : ChunkHeap) (p : Ptr) (f : Chunk → Chunk) : Option ChunkHeap :=
  h.modify p fun n => { n with val := f n.val }

def setNext (h : ChunkHeap) (p : Ptr) (next : Option Ptr) : Option ChunkHeap :=
  h.modify p fun n => { n with next := next }

def pushUnusedChunk (h : ChunkHeap) (q : LinkedQueue) (p : Ptr) : Option (ChunkHeap × LinkedQueue) :=
  if q.unusedChunks > 4 then do
    let h ← h.free p
    return (h, q)
  else do
    let h ← h.modify p fun n => ⟨n.val.reset, q.unused⟩
    return (h, { q with unused := some p, unusedChunks := q.unusedChunks + 1 })

def getUnusedChunk (h : ChunkHeap) (q : LinkedQueue) : Option (Ptr × ChunkHeap × LinkedQueue) :=
  match q.unused with
  | none =>
    let (p, h) := h.alloc ⟨Chunk.init, none⟩
    some (p, h, q)
  | some p => do
    let n ← h.node p
    let h ← setNext h p none
    return (p, h, { q with unused := n.next, unusedChunks := q.unusedChunks - 1 })

def prependChunk (h : ChunkHeap) (q : LinkedQueue) (p : Ptr) : Option (ChunkHeap × LinkedQueue) := do
  let h ← setNext h p q.first
  let n ← h.node p
  let len ← n.val.remainingLength
  return (h, { q with
    first := some p
    last := if q.last = none then some p else q.last
    bytesIn := q.bytesIn + len })

def appendChunk (h : ChunkHeap) (q : LinkedQueue) (p : Ptr) : Option (ChunkHeap × LinkedQueue) := do
  let h ← setNext h p none
  let h ← match q.last with
    | some l => setNext h l (some p)
    | none => some h
  let n ← h.node p
  let len ← n.val.remainingLength
  return (h, { q with
    last := some p
    first := if q.first = none then some p else q.first
    bytesIn := q.bytesIn + len })

/-- The first chunk `p` leaves the queue (`cq->first = c->next; if (c == cq->last) cq->last = NULL;`). -/
def dropFirst (q : LinkedQueue) (p : Ptr) (next : Option Ptr) : LinkedQueue :=
  { q with first := next, last := if q.last = some p then none else q.last }

def reset (h : ChunkHeap) (q : LinkedQueue) : Option (ChunkHeap × LinkedQueue) := do
  let (h, q) ← go (h.fresh + 1) q.first h { q with first := none, last := none }
  return (h, { q with bytesIn := 0, bytesOut := 0, tempdirIdx := 0 })
where
  go : Nat → Option Ptr → ChunkHeap → LinkedQueue → Option (ChunkHeap × LinkedQueue)
    | 0, _, _, _ => none
    | _ + 1, none, h, q => some (h, q)
    | k + 1, some p, h, q => do
      let n ← h.node p
      let (h, q) ← pushUnusedChunk h q p
      go k n.next h q

def appendUnused (h : ChunkHeap) (q : LinkedQueue) (f : Chunk → Chunk) : Option (ChunkHeap × LinkedQueue) := do
  let (p, h, q) ← getUnusedChunk h q
  let h ← setChunk h p f
  appendChunk h q p

def appendFileFd (h : ChunkHeap) (q : LinkedQueue) (fn : Path) (fd : Fd) (offset len : Nat) :
    Option (ChunkHeap × LinkedQueue) :=
  if len = 0 then some (h, q)
  else appendUnused h q fun c => { c with
    type := .fileChunk
    file := { c.file with name := fn, start := offset, length := len, fd := some fd }
    offset := 0 }

def appendFile (h : ChunkHeap) (q : LinkedQueue) (fn : Path) (offset len : Nat) : Option (ChunkHeap × LinkedQueue) :=
  if len = 0 then some (h, q)
  else appendUnused h q fun c => { c with
    type := .fileChunk
    file := { c.file with name := fn, start := offset, length := len }
    offset := 0 }

def appendBuffer (h : ChunkHeap) (q : LinkedQueue) (mem : Buffer) : Option (ChunkHeap × LinkedQueue) :=
  if mem.stringIsEmpty then some (h, q)
  else appendUnused h q fun c => { c with type := .memChunk, mem := (c.mem.move mem).1 }

def prependBuffer (h : ChunkHeap) (q : LinkedQueue) (mem : Buffer) : Option (ChunkHeap × LinkedQueue) :=
  if mem.stringIsEmpty then some (h, q)
  else do
    let (p, h, q) ← getUnusedChunk h q
    let h ← setChunk h p fun c => { c with type := .memChunk, mem := (c.mem.move mem).1 }
    prependChunk h q p

def appendMem (h : ChunkHeap) (q : LinkedQueue) (mem : Bytes) : Option (ChunkHeap × LinkedQueue) :=
  if mem.length = 0 then some (h, q)
  else appendUnused h q fun c => { c with type := .memChunk, mem := c.mem.copyStringLen mem }

/-- The last chunk of the queue is linked to `next`, unless the queue is empty. -/
def linkLast (h : ChunkHeap) (q : LinkedQueue) (next : Option Ptr) : Option ChunkHeap :=
  match q.first with
  | none => some h
  | some _ => q.last.bind fun l => setNext h l next

def appendChunkqueue (h : ChunkHeap) (q src : LinkedQueue) : Option (ChunkHeap × LinkedQueue × LinkedQueue) :=
  match src.first with
  | none => some (h, q, src)
  | some _ => do
    let h ← linkLast h q src.first
    return (h, { q with
        first := if q.first = none then src.first else q.first
        last := src.last
        bytesIn := q.bytesIn + (src.bytesIn - src.bytesOut) },
      { src with first := none, last := none, bytesOut := src.bytesIn })

/-- `chunkqueue_get_memory`; the second component is the length of the space returned. -/
def getMemory (h : ChunkHeap) (q : LinkedQueue) (minSize allocSize : Nat) :
    Option ((ChunkHeap × LinkedQueue) × Nat) :=
  let minSize := if minSize = 0 then 1024 else minSize
  let allocSize := if allocSize = 0 then 4096 else allocSize
  let allocSize := if allocSize < minSize then minSize else allocSize
  match q.last with
  | some l => do
    let n ← h.node l
    if n.val.type = .memChunk then
      let b := Chunkqueue.reuseMemory n.val.mem minSize allocSize
      let h ← setChunk h l fun c => { c with mem := b }
      if b.stringSpace ≥ minSize then some ((h, q), b.stringSpace) else fresh allocSize h q
    else fresh allocSize h q
  | none => fresh allocSize h q
where
  /-- The space is that of a new chunk. -/
  fresh (allocSize : Nat) (h : ChunkHeap) (q : LinkedQueue) : Option ((ChunkHeap × LinkedQueue) × Nat) := do
    let (p, h, q) ← getUnusedChunk h q
    let h ← setChunk h p fun c => { c with type := .memChunk }
    let (h, q) ← appendChunk h q p
    let n ← h.node p
    let b := n.val.mem.stringPrepareAppend allocSize
    let h ← setChunk h p fun c => { c with mem := b }
    return ((h, q), b.stringSpace)

def useMemory (h : ChunkHeap) (q : LinkedQueue) (mem : Bytes) : Option (ChunkHeap × LinkedQueue) := do
  let l ← q.last
  let n ← h.node l
  if n.val.type = .memChunk then
    if mem.length > 0 then
      let b ← n.val.mem.commit mem
      let h ← setChunk h l fun c => { c with mem := b }
      return (h, { q with bytesIn := q.bytesIn + mem.length })
    else if n.val.mem.stringIsEmpty then
      let h ← setChunk h l fun c => { c with mem := c.mem.reset }
      return (h, q)
    else return (h, q)
  else none

def removeFinishedChunks (h : ChunkHeap) (q : LinkedQueue) : Option (ChunkHeap × LinkedQueue) := go (h.fresh + 1) h q
where
  go : Nat → ChunkHeap → LinkedQueue → Option (ChunkHeap × LinkedQueue)
    | 0, _, _ => none
    | k + 1, h, q =>
      match q.first with
      | none => some (h, q)
      | some p => do
        let n ← h.node p
        let len ← n.val.remainingLength
        if len ≠ 0 then return (h, q)
        else
          let (h, q) ← pushUnusedChunk h (q.dropFirst p n.next) p
          go k h q

def markWritten (h : ChunkHeap) (q : LinkedQueue) (len : Nat) : Option (ChunkHeap × LinkedQueue) := do
  let ((h, q), written) ← go (h.fresh + 1) h q len
  if written = 0 then return (h, { q with bytesOut := q.bytesOut + len }) else none
where
  go : Nat → ChunkHeap → LinkedQueue → Nat → Option ((ChunkHeap × LinkedQueue) × Nat)
    | 0, _, _, _ => none
    | k + 1, h, q, written =>
      match q.first with
      | none => some ((h, q), written)
      | some p => do
        let n ← h.node p
        let cLen ← n.val.remainingLength
        if written = 0 ∧ cLen ≠ 0 then return ((h, q), written)
        else if written ≥ cLen then
          let h ← setChunk h p (·.advance cLen)
          let (h, q) ← pushUnusedChunk h (q.dropFirst p n.next) p
          go k h q (written - cLen)
        else
          let h ← setChunk h p (·.advance written)
          return ((h, q), 0)

def appendPart (h : ChunkHeap) (q : LinkedQueue) (c : Chunk) (use : Nat) : Option (ChunkHeap × LinkedQueue) :=
  match c.type with
  | .memChunk => appendMem h q ((c.mem.str.drop c.offset).take use)
  | .fileChunk => appendFile h q c.file.name (c.file.start + c.offset) use

def steal (h : ChunkHeap) (dest src : LinkedQueue) (len : Nat) : Option (ChunkHeap × LinkedQueue × LinkedQueue) :=
  go (h.fresh + 1) h dest src len
where
  go : Nat → ChunkHeap → LinkedQueue → LinkedQueue → Nat → Option (ChunkHeap × LinkedQueue × LinkedQueue)
    | 0, _, _, _, _ => none
    | k + 1, h, dest, src, len =>
      match src.first with
      | none => some (h, dest, src)
      | some p =>
        if len = 0 then some (h, dest, src)
        else do
          let n ← h.node p
          let clen ← n.val.remainingLength
          if clen = 0 then
            let (h, src) ← pushUnusedChunk h (src.dropFirst p n.next) p
            go k h dest src len
          else
            let use := if len ≥ clen then clen else len
            if use = clen then
              let src := src.dropFirst p n.next
              let (h, dest) ← appendChunk h dest p
              go k h dest { src with bytesOut := src.bytesOut + use } (len - use)
            else
              let (h, dest) ← appendPart h dest n.val use
              let h ← setChunk h p (·.advance use)
              return (h, dest, { src with bytesOut := src.bytesOut + use })

/-! ## Temp files -/

/-- The directories tried, as in the list model. -/
def openTempfile (q : LinkedQueue) (w : World) (rs : List MkstempResult) : Option (Option (Path × Fd) × LinkedQueue) :=
  match q.tempdirs with
  | some (d :: ds) => mkstempLoop q ((d :: ds).drop q.tempdirIdx) rs
  | _ => rs.head?.map fun r => (Chunkqueue.mkstemp w (ascii "/var/tmp") r, q)
where
  mkstempLoop : LinkedQueue → List Path → List MkstempResult → Option (Option (Path × Fd) × LinkedQueue)
    | q, [], _ => some (none, q)
    | _, _ :: _, [] => none
    | q, dir :: dirs, r :: rs =>
      match Chunkqueue.mkstemp w dir r with
      | some f => some (some f, q)
      | none => mkstempLoop { q with tempdirIdx := q.tempdirIdx + 1 } dirs rs

def getAppendTempfile (h : ChunkHeap) (q : LinkedQueue) (w : World) (rs : List MkstempResult) :
    Option (Option Ptr × (ChunkHeap × LinkedQueue) × World) := do
  let (r, q) ← openTempfile q w rs
  match r with
  | none => return (none, (h, q), w)
  | some (name, fd) =>
    let (p, h, q) ← getUnusedChunk h q
    let h ← setChunk h p fun c => { c with
      type := .fileChunk
      file := { c.file with fd := some fd, isTemp := true, name := name, length := 0 } }
    let (h, q) ← appendChunk h q p
    return (some p, (h, q), w.create name fd)

def removeEmptyChunks (h : ChunkHeap) (q : LinkedQueue) : Option (ChunkHeap × LinkedQueue) := do
  let (h, q) ← removeFinishedChunks h q
  match q.first with
  | none => return (h, q)
  | some p => go (h.fresh + 1) p h q
where
  go : Nat → Ptr → ChunkHeap → LinkedQueue → Option (ChunkHeap × LinkedQueue)
    | 0, _, _, _ => none
    | k + 1, p, h, q => do
      let n ← h.node p
      match n.next with
      | none => return (h, q)
      | some e =>
        let m ← h.node e
        let len ← m.val.remainingLength
        if len = 0 then
          let h ← setNext h p m.next
          let (h, q) ← pushUnusedChunk h { q with last := if q.last = some e then some p else q.last } e
          let d ← m.next
          go k d h q
        else go k e h q

/-- The chunk that the next bytes go to. -/
def selectTempfile (h : ChunkHeap) (q : LinkedQueue) (w : World) (io : Attempt) :
    Option (Option Ptr × (ChunkHeap × LinkedQueue) × World) :=
  match q.last with
  | some l => do
    let n ← h.node l
    if Chunkqueue.Appendable n.val then
      if n.val.file.length ≥ q.uploadTempFileSize then
        let h ← setChunk h l fun c => { c with file := { c.file with fd := none } }
        if io.closeLarge then getAppendTempfile h q w io.mkstemp else some (none, (h, q), w)
      else some (some l, (h, q), w)
    else getAppendTempfile h q w io.mkstemp
  | none => getAppendTempfile h q w io.mkstemp

def growTempfile (h : ChunkHeap) (q : LinkedQueue) (w : World) (p : Ptr) (data : Bytes) :
    Option ((ChunkHeap × LinkedQueue) × World) := do
  let n ← h.node p
  let h ← setChunk h p fun c => { c with file := { c.file with length := c.file.length + data.length } }
  return ((h, { q with bytesIn := q.bytesIn + data.length }),
    match n.val.file.fd with
    | some fd => w.write n.val.file.name fd data
    | none => w)

/-- The queue after a failed write, and whether to retry. -/
def nextTempdir (q : LinkedQueue) (e : Errno) : LinkedQueue × Bool :=
  let (idx, retry) := Chunkqueue.nextTempdirIdx q.tempdirs q.tempdirIdx e
  ({ q with tempdirIdx := idx }, retry)

def abandonTempfile (h : ChunkHeap) (q : LinkedQueue) (p : Ptr) (closeFull : Bool) :
    Option ((ChunkHeap × LinkedQueue) × Bool) := do
  let n ← h.node p
  let left ← n.val.remainingLength
  if left = 0 then
    let hq ← removeEmptyChunks h q
    return (hq, true)
  else
    let h ← setChunk h p fun c => { c with file := { c.file with fd := none } }
    return ((h, q), closeFull)

/-- `chunkqueue_append_mem_to_tempfile`: whether it returns `0`, the queue and the files. -/
def appendMemToTempfile : List Attempt → ChunkHeap → LinkedQueue → World → Bytes →
    Option ((Bool × (ChunkHeap × LinkedQueue) × World) × List Attempt)
  | [], _, _, _, _ => none
  | io :: ios, h, q, w, mem => do
    let (p, (h, q), w) ← selectTempfile h q w io
    match p with
    | none => return ((false, (h, q), w), ios)
    | some p =>
      match io.write with
      | .wrote n =>
        let ((h, q), w) ← growTempfile h q w p (mem.take n)
        if n ≥ mem.length then return ((true, (h, q), w), ios)
        else appendMemToTempfile ios h q w (mem.drop n)
      | .error e =>
        if e = .eintr then appendMemToTempfile ios h q w mem
        else
          let (q, retry) := q.nextTempdir e
          let ((h, q), closed) ← abandonTempfile h q p io.closeFull
          if closed ∧ retry then appendMemToTempfile ios h q w mem
          else return ((false, (h, q), w), ios)

def stealWithTempfiles (h : ChunkHeap) (dest src : LinkedQueue) (len : Nat) (w : World) (ios : List Attempt) :
    Option ((Bool × (ChunkHeap × LinkedQueue × LinkedQueue) × World) × List Attempt) :=
  go (h.fresh + 1) h dest src len w ios
where
  go : Nat → ChunkHeap → LinkedQueue → LinkedQueue → Nat → World → List Attempt →
      Option ((Bool × (ChunkHeap × LinkedQueue × LinkedQueue) × World) × List Attempt)
    | 0, _, _, _, _, _, _ => none
    | k + 1, h, dest, src, len, w, ios =>
      match src.first with
      | none => some ((true, (h, dest, src), w), ios)
      | some p =>
        if len = 0 then some ((true, (h, dest, src), w), ios)
        else do
          let n ← h.node p
          let clen ← n.val.remainingLength
          if clen = 0 then
            let (h, src) ← pushUnusedChunk h (src.dropFirst p n.next) p
            go k h dest src len w ios
          else
            let use := if len ≥ clen then clen else len
            match n.val.type with
            | .fileChunk =>
              if use = clen then
                let src := src.dropFirst p n.next
                let (h, dest) ← appendChunk h dest p
                go k h dest { src with bytesOut := src.bytesOut + use } (len - use) w ios
              else
                let (h, dest) ← appendFile h dest n.val.file.name (n.val.file.start + n.val.offset) use
                let h ← setChunk h p (·.advance use)
                return ((true, (h, dest, { src with bytesOut := src.bytesOut + use }), w), ios)
            | .memChunk =>
              let ((ok, (h, dest), w), ios) ←
                appendMemToTempfile ios h dest w ((n.val.mem.str.drop n.val.offset).take use)
              if !ok then return ((false, (h, dest, src), w), ios)
              else if use = clen then
                let (h, src) ← pushUnusedChunk h (src.dropFirst p n.next) p
                go k h dest { src with bytesOut := src.bytesOut + use } (len - use) w ios
              else
                let h ← setChunk h p (·.advance use)
                return ((true, (h, dest, { src with bytesOut := src.bytesOut + use }), w), ios)

def length (h : ChunkHeap) (q : LinkedQueue) : Option Nat := go (h.fresh + 1) q.first
where
  go : Nat → Option Ptr → Option Nat
    | 0, _ => none
    | _ + 1, none => some 0
    | k + 1, some p => do
      let n ← h.node p
      let m ← n.val.remainingLength
      let rest ← go k n.next
      return m + rest

end LinkedQueue
end Lighttpd
