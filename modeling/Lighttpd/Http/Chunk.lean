import Lighttpd.Chunk.Content

/-!
# The body of a response (`http_chunk.c`, `connection_handle_write_prepare`)

The handlers append the pieces of a body to the write queue of the connection. As long as the header of the response
is not written, the pieces stand in the queue as they are. When the header is written while the body is not finished
and its length is not known, the response becomes a chunked one: what is in the queue is wrapped into an initial chunk,
and every later piece is written as a chunk of its own.
-/

namespace Lighttpd

/-- What the chunk API reads and writes of a connection: the write queue, `response.transfer_encoding`,
`FDEVENT_STREAM_RESPONSE_BUFMIN`, `srv->tmp_chunk_len`, and what decides on the transfer encoding. `headerWritten` says
that the response is in the state `CON_STATE_WRITE`, and `sent` is what the network has taken from the queue since. -/
structure Response where
  writeQueue : Chunkqueue
  world : World
  chunked : Bool
  bufmin : Bool
  tmpChunkLen : Buffer
  fileFinished : Bool
  contentLength : Bool
  http11 : Bool
  head : Bool
  keepAlive : Bool
  headerWritten : Bool
  sent : Bytes

namespace Response

/-- The size of a chunk and CRLF, in `srv->tmp_chunk_len`. -/
def chunkLen (b : Buffer) (len : Nat) : Buffer :=
  ((b.stringSetLength 0).appendUintHex len).appendStringLen (ascii "\r\n")

def httpChunkAppendLen (r : Response) (len : Nat) : Option Response := do
  let b := chunkLen r.tmpChunkLen len
  let (cq, b) ← r.writeQueue.appendBuffer b
  return { r with writeQueue := cq, tmpChunkLen := b }

/-- `chunkqueue_append_mem` to the write queue. -/
def queueMem (r : Response) (mem : Bytes) : Option Response := do
  let cq ← r.writeQueue.appendMem mem
  return { r with writeQueue := cq }

def beginChunk (r : Response) (len : Nat) : Option Response :=
  if r.chunked then r.httpChunkAppendLen len else some r

def endChunk (r : Response) : Option Response :=
  if r.chunked then r.queueMem (ascii "\r\n") else some r

/-- Whether `http_chunk_append_file_open_fstat` opens the file `fn`; `fd` is the result of `open`. -/
def opens (w : World) (fn : Path) (fd : Option Fd) : Option Fd :=
  match fd with
  | some fd => if (w.files fn).isSome ∧ w.fdpos fd = none then some fd else none
  | none => none

/-- The size that `http_chunk_append_file_open_fstat` finds. -/
def fileSize (w : World) (fn : Path) : Nat := (w.content fn).length

/-- The connection after the descriptor `fd` has been opened; closing it again leaves no trace. -/
def openedFile (r : Response) (fd : Fd) : Response := { r with world := r.world.opened fd }

def httpChunkAppendFileFdRange (r : Response) (fn : Path) (fd : Fd) (offset len : Nat) : Option Response := do
  let r ← r.beginChunk len
  let cq ← r.writeQueue.appendFileFd fn fd offset len
  endChunk { r with writeQueue := cq }

/-- `http_chunk_append_file_range`; `len` is `none` for `-1`, and the result is whether it returns `0`. The callers give
no other negative length and no negative offset. -/
def httpChunkAppendFileRange (r : Response) (fn : Path) (fd : Option Fd) (offset : Nat) (len : Option Nat) :
    Option (Bool × Response) :=
  match opens r.world fn fd with
  | none => some (false, r)
  | some fd =>
    let size := fileSize r.world fn
    let r := r.openedFile fd
    match len with
    | none =>
      if offset ≥ size then some (offset == size, r)
      else (r.httpChunkAppendFileFdRange fn fd offset (size - offset)).map fun r => (true, r)
    | some len =>
      if (size : Int) - offset < len then some (false, r)
      else (r.httpChunkAppendFileFdRange fn fd offset len).map fun r => (true, r)

def httpChunkAppendFile (r : Response) (fn : Path) (fd : Option Fd) : Option (Bool × Response) :=
  match opens r.world fn fd with
  | none => some (false, r)
  | some fd =>
    let size := fileSize r.world fn
    let r := r.openedFile fd
    if 0 ≠ size then (r.httpChunkAppendFileFdRange fn fd 0 size).map fun r => (true, r) else some (true, r)

/-- `chunkqueue_append_mem_to_tempfile` to the write queue; `none` in place of the connection is its `-1`. -/
def queueTempfile (r : Response) (ios : List Attempt) (mem : Bytes) : Option (Bool × Response × List Attempt) := do
  let (t, ios) ← Chunkqueue.appendMemToTempfile ios r.writeQueue r.world mem
  return (t.ok, { r with writeQueue := t.cq, world := t.world }, ios)

def httpChunkAppendToTempfile (r : Response) (ios : List Attempt) (mem : Bytes) : Option (Bool × Response) := do
  if r.chunked then
    let b := chunkLen r.tmpChunkLen mem.length
    let (ok, r, ios) ← queueTempfile { r with tmpChunkLen := b } ios b.str
    if !ok then return (false, r)
    let (ok, r, ios) ← r.queueTempfile ios mem
    if !ok then return (false, r)
    let (ok, r, _) ← r.queueTempfile ios (ascii "\r\n")
    return (ok, r)
  else
    let (ok, r, _) ← r.queueTempfile ios mem
    return (ok, r)

/-- `b ? b->ptr : mem`. -/
def dataOf (b : Option Buffer) (mem : Bytes) : Bytes :=
  match b with
  | some b => b.str
  | none => mem

/-- `b ? chunkqueue_append_buffer(cq, b) : chunkqueue_append_mem(cq, mem, len)`; the storage of `b` may go into the
queue. -/
def queueData (r : Response) (b : Option Buffer) (mem : Bytes) : Option Response :=
  match b with
  | some b => (r.writeQueue.appendBuffer b).map fun q => { r with writeQueue := q.1 }
  | none => r.queueMem mem

def memoryLimit (r : Response) : Int := 1024 * (if r.bufmin then 128 else 64)

def endsInTempfile (r : Response) : Bool :=
  r.writeQueue.chunks.getLast?.any fun c => c.type == .fileChunk && c.file.isTemp

def httpChunkAppendData (r : Response) (ios : List Attempt) (b : Option Buffer) (mem : Bytes) :
    Option (Bool × Response) :=
  let data := dataOf b mem
  if data.length = 0 then some (true, r)
  else if r.endsInTempfile ∨ r.writeQueue.bytesIn - r.writeQueue.bytesOut + data.length > r.memoryLimit then
    r.httpChunkAppendToTempfile ios data
  else do
    let r ← r.beginChunk data.length
    let r ← r.queueData b mem
    let r ← r.endChunk
    return (true, r)

def httpChunkAppendBuffer (r : Response) (ios : List Attempt) (mem : Buffer) : Option (Bool × Response) :=
  r.httpChunkAppendData ios (some mem) []

def httpChunkAppendMem (r : Response) (ios : List Attempt) (mem : Bytes) : Option (Bool × Response) :=
  r.httpChunkAppendData ios none mem

def httpChunkClose (r : Response) : Option Response :=
  if r.chunked then r.queueMem (ascii "0\r\n\r\n") else some r

/-- The initial chunk: the size before what is in the queue, and CRLF behind it. -/
def initialChunk (r : Response) : Option Response := do
  let qlen ← r.writeQueue.length
  let r := { r with chunked := true }
  if qlen ≠ 0 then
    let (cq, b) ← r.writeQueue.prependBuffer (chunkLen r.tmpChunkLen qlen)
    queueMem { r with writeQueue := cq, tmpChunkLen := b } (ascii "\r\n")
  else return r

/-- The transfer encoding of a response that is not finished: without a length, it is chunked in HTTP/1.1, and ends with
the connection in HTTP/1.0. -/
def chooseTransferEncoding (r : Response) : Option Response :=
  if !r.fileFinished && !r.contentLength && !r.chunked then
    if r.http11 then r.initialChunk else some { r with keepAlive := false }
  else some r

/-- The end of `connection_handle_write_prepare`, for a response with a body: the transfer encoding is chosen, and
`http_response_write_header` puts the header before the queue. -/
def connectionHandleWritePrepare (r : Response) (header : Buffer) : Option Response := do
  let r ← r.chooseTransferEncoding
  let r := if r.head then
      { r with fileFinished := true, writeQueue := r.writeQueue.reset, chunked := false }
    else r
  let (cq, _) ← r.writeQueue.prependBuffer header
  return { r with writeQueue := cq, headerWritten := true }

/-- The network takes `n` bytes from the queue, once the header is written. -/
def written (r : Response) (n : Nat) : Option Response :=
  if r.headerWritten then do
    let cq ← r.writeQueue.markWritten n
    return { r with
      writeQueue := cq
      sent := r.sent ++ (r.writeQueue.content r.world).take n }
  else none

end Response

/-! ## Runs of a handler -/

/-- A call of the chunk API with the results of its system calls, or bytes taken by the network in between. -/
inductive BodyStep
  | appendBuffer (mem : Buffer) (ios : List Attempt)
  | appendMem (mem : Bytes) (ios : List Attempt)
  | appendFile (fn : Path) (fd : Option Fd)
  | appendFileRange (fn : Path) (fd : Option Fd) (offset : Nat) (len : Option Nat)
  | written (n : Nat)

namespace BodyStep

/-- After a failed append of data, which may have been written in part, the handlers give the response up: there is no
next step. A file that cannot be appended is left out. -/
def run (s : BodyStep) (r : Response) : Option Response :=
  match s with
  | .appendBuffer mem ios => (r.httpChunkAppendBuffer ios mem).bind fun t => if t.1 then some t.2 else none
  | .appendMem mem ios => (r.httpChunkAppendMem ios mem).bind fun t => if t.1 then some t.2 else none
  | .appendFile fn fd => (r.httpChunkAppendFile fn fd).map Prod.snd
  | .appendFileRange fn fd offset len => (r.httpChunkAppendFileRange fn fd offset len).map Prod.snd
  | .written n => r.written n

def piece (s : BodyStep) (w : World) : Bytes :=
  match s with
  | .appendBuffer mem _ => mem.str
  | .appendMem mem _ => mem
  | .appendFile fn fd => if (Response.opens w fn fd).isSome then w.content fn else []
  | .appendFileRange fn fd offset none =>
    if (Response.opens w fn fd).isSome then (w.content fn).drop offset else []
  | .appendFileRange fn fd offset (some len) =>
    if (Response.opens w fn fd).isSome ∧ offset + len ≤ (w.content fn).length then
      ((w.content fn).drop offset).take len
    else []
  | .written _ => []

/-- An explicit range of length zero of a file that can be opened and is not shorter than the offset. -/
def ZeroRange (s : BodyStep) (w : World) : Prop :=
  match s with
  | .appendFileRange fn fd offset (some 0) => (Response.opens w fn fd).isSome ∧ offset ≤ (w.content fn).length
  | _ => False

end BodyStep

namespace Response

/-- A run of a handler, with the concatenation of the pieces it has appended. -/
def run : List BodyStep → Response → Option (Response × Bytes)
  | [], r => some (r, [])
  | s :: ss, r => do
    let r' ← s.run r
    let (r'', data) ← run ss r'
    return (r'', s.piece r.world ++ data)

/-- No step of a run appends an explicit range of length zero. -/
def NoZeroRange : List BodyStep → Response → Prop
  | [], _ => True
  | s :: ss, r => ¬ s.ZeroRange r.world ∧ ∀ r', s.run r = some r' → NoZeroRange ss r'

/-- A whole response: the header is written between the steps `before` and `after`, and the handler closes it. -/
def respond (before : List BodyStep) (header : Buffer) (after : List BodyStep) (r : Response) :
    Option (Response × Bytes) := do
  let (r, data₁) ← run before r
  let r ← r.connectionHandleWritePrepare header
  let (r, data₂) ← run after r
  let r ← r.httpChunkClose
  return (r, data₁ ++ data₂)

def NoZeroRangeBehind (before : List BodyStep) (header : Buffer) (after : List BodyStep) (r : Response) : Prop :=
  ∀ r₁ data r₂, run before r = some (r₁, data) → r₁.connectionHandleWritePrepare header = some r₂ → NoZeroRange after r₂

/-- All bytes that the network has taken or that are still in the queue. -/
def stream (r : Response) : Bytes := r.sent ++ r.writeQueue.content r.world

/-- A connection whose response has not begun. -/
structure Fresh (r : Response) : Prop where
  chunks : r.writeQueue.chunks = []
  unused : ∀ c ∈ r.writeQueue.unused, c.Idle
  chunked : r.chunked = false
  headerWritten : r.headerWritten = false
  sent : r.sent = []

end Response
end Lighttpd
