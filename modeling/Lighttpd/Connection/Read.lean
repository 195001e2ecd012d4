import Lighttpd.Chunk.Queue

/-!
# Reading a request (`connections.c`, `connections-glue.c`)

`connection_handle_read` reads from the socket into the read queue, `connection_handle_read_state` looks for the end of
the request header there and moves the header into `request.request`, and `connection_handle_read_post_state` moves the
request body into the queue of the request content.

A chunk of a list of chunks is named by its index; `last_chunk` and `last_offset` of the source are such an index and
an offset behind `c->offset`. The socket is the byte stream that the client is going to send. The functions here are
those of connections without TLS.
-/

namespace Lighttpd

/-- `connection_state_t`. -/
inductive ConState
  | connect
  | requestStart
  | read
  | requestEnd
  | readPost
  | handleRequest
  | responseStart
  | write
  | responseEnd
  | error
  | close
deriving DecidableEq, Repr

/-- What the functions here read and write of a connection. `direct` is `mode == DIRECT`, `pollin` and `streamRequest`
are the flags of `conf.stream_request_body`, and `socket` is what the client has yet to deliver. -/
structure Conn where
  isReadable : Bool
  readQueue : Chunkqueue
  contentQueue : Chunkqueue
  writeQueue : Chunkqueue
  world : World
  socket : Bytes
  bytesRead : Nat
  request : Buffer
  contentLength : Nat
  state : ConState
  httpStatus : Nat
  keepAlive : Bool
  direct : Bool
  pollin : Bool
  streamRequest : Bool

/-- The result of a `read`: at most so many bytes, or an error. -/
inductive ReadResult
  | got (n : Nat)
  | error (e : Errno)
deriving DecidableEq, Repr

/-- The results of the system calls of `connection_handle_read`: `FIONREAD`, and the `read`. -/
structure ReadIo where
  fionread : Option Nat
  read : ReadResult

/-- The return values `0`, `-1` and `-2` of `connection_handle_read`. -/
inductive ReadRet
  | ok
  | failed
  | closed
deriving DecidableEq, Repr

/-- `handler_t`, as far as it is returned here. -/
inductive HandlerRet
  | goOn
  | waitForEvent
  | finished
  | error
deriving DecidableEq, Repr

namespace Conn

def maxReadLimit : Nat := 256 * 1024

/-- The size that is asked of `chunkqueue_get_memory`. -/
def toread (fionread : Option Nat) : Nat :=
  match fionread with
  | none => 4096
  | some n => if n ≤ 4 * 1024 then 4096 else if n > maxReadLimit then maxReadLimit else n

def connectionHandleRead (con : Conn) (io : ReadIo) : Option (ReadRet × Conn) := do
  let (cq, memLen) ← con.readQueue.getMemory 0 (toread io.fionread)
  match io.read with
  | .error e =>
    let cq ← cq.useMemory []
    let con := { con with readQueue := cq, isReadable := false }
    if e = .eagain then return (.ok, con)
    else if e = .eintr then return (.ok, { con with isReadable := true })
    else return (.failed, { con with state := .error })
  | .got n =>
    let data := con.socket.take (min n memLen)
    let cq ← cq.useMemory data
    let con := { con with readQueue := cq, socket := con.socket.drop data.length }
    if data.length = 0 then return (.closed, { con with isReadable := false })
    else return (.ok, { con with
      isReadable := if data.length ≠ memLen then false else con.isReadable
      bytesRead := con.bytesRead + data.length })

/-- The read at the start of both functions below. -/
def readIfReadable (con : Conn) (io : ReadIo) : Option (ReadRet × Conn) :=
  if con.isReadable then con.connectionHandleRead io else some (.ok, con)

/-- `connection_handle_fdevent`, when there is an event `FDEVENT_IN`; it is followed by one of the calls below. -/
def connectionHandleFdevent (con : Conn) (event : Bool) : Conn := if event then { con with isReadable := true } else con

/-! ## The end of the header -/

/-- The bytes of a chunk behind `c->offset`; the type of the chunk is not looked at. -/
def unread (c : Chunk) : Bytes := c.mem.str.drop c.offset

def headerEnd : Bytes := [13, 10, 13, 10]

/-- The outcome of matching `header_end` in one chunk. -/
inductive Scan
  | found (lastOffset : Nat)
  | reset
  | more (headerEndMatchPos : Nat)

/-- The inner of the two loops behind a CR: from the byte `j` of a chunk on. -/
def scanBytes : Nat → Nat → Bytes → Scan
  | pos, _, [] => .more pos
  | pos, j, ch :: bb =>
    if ch = headerEnd.getD pos 0 then
      if pos + 1 = 4 then .found (j + 1) else scanBytes (pos + 1) (j + 1) bb
    else .reset

/-- The index of a chunk counted from the chunk before. -/
def next (r : Nat × Nat) : Nat × Nat := (r.1 + 1, r.2)

/-- The outer of the two loops, in the chunks behind the one with the CR. -/
def scanChunks : Nat → List Chunk → Option (Nat × Nat)
  | _, [] => none
  | pos, c :: cs =>
    match scanBytes pos 0 (unread c) with
    | .found lastOffset => some (0, lastOffset)
    | .reset => none
    | .more pos => (scanChunks pos cs).map next

/-- `\n\r\n` behind the CR at `i`: `b` is the rest of its chunk, and `cs` are the chunks behind. -/
def matchEnd (cs : List Chunk) (i : Nat) (b : Bytes) : Option (Nat × Nat) :=
  match scanBytes 1 (i + 1) b with
  | .found lastOffset => some (0, lastOffset)
  | .reset => none
  | .more pos => (scanChunks pos cs).map next

def searchChunk (cs : List Chunk) : Nat → Bytes → Option (Nat × Nat)
  | _, [] => none
  | i, ch :: b =>
    match if ch = 13 then matchEnd cs i b else none with
    | some r => some r
    | none => searchChunk cs (i + 1) b

/-- The loop over the chunks: `last_chunk` and `last_offset`. -/
def searchHeader : List Chunk → Option (Nat × Nat)
  | [] => none
  | c :: cs =>
    match searchChunk cs 0 (unread c) with
    | some r => some r
    | none => (searchHeader cs).map next

/-- The loop that copies the header, up to `last_offset` of the chunk `last_chunk`. -/
def copyHeader : List Chunk → Nat → Nat → Buffer → Int → List Chunk × Buffer × Int
  | [], _, _, request, bytesOut => ([], request, bytesOut)
  | c :: cs, 0, lastOffset, request, bytesOut =>
    (c.advance lastOffset :: cs, request.appendStringLen ((unread c).take lastOffset), bytesOut + lastOffset)
  | c :: cs, lastChunk + 1, lastOffset, request, bytesOut =>
    let len := (unread c).length
    let (cs, request, bytesOut) :=
      copyHeader cs lastChunk lastOffset (request.appendStringLen (unread c)) (bytesOut + len)
    (c.advance len :: cs, request, bytesOut)

def takeHeader (con : Conn) (lastChunk lastOffset : Nat) : Conn :=
  let (cs, request, bytesOut) :=
    copyHeader con.readQueue.chunks lastChunk lastOffset con.request.reset con.readQueue.bytesOut
  { con with
    readQueue := { con.readQueue with chunks := cs, bytesOut := bytesOut }
    request := request
    state := .requestEnd }

def noHeader (con : Conn) (isClosed : Bool) : Option Conn := do
  let len ← con.readQueue.length
  if len > 64 * 1024 then
    return { con with httpStatus := 414, keepAlive := false, state := .handleRequest }
  else if isClosed then return { con with state := .error }
  else return con

/-- `connection_handle_read_state`; the result is whether it returns `0`. -/
def connectionHandleReadState (con : Conn) (io : ReadIo) : Option (Bool × Conn) := do
  let (ret, con) ← con.readIfReadable io
  if ret = .failed then return (false, con)
  let cq ← con.readQueue.removeFinishedChunks
  let con := { con with readQueue := cq }
  let con ← match searchHeader con.readQueue.chunks with
    | some (lastChunk, lastOffset) => some (con.takeHeader lastChunk lastOffset)
    | none => con.noHeader (ret == .closed)
  let cq ← con.readQueue.removeFinishedChunks
  return (true, { con with readQueue := cq })

/-! ## The body -/

/-- What the client has yet to send of the body: `content_length - dst_cq->bytes_in`. -/
def missing (con : Conn) : Int := con.contentLength - con.contentQueue.bytesIn

/-- The body goes to memory up to 64 KiB, and to temp files above; the result is whether this succeeds. A negative
length moves nothing. -/
def stealBody (con : Conn) (ios : List Attempt) : Option (Bool × Conn) :=
  if con.contentLength ≤ 64 * 1024 then
    (con.contentQueue.steal con.readQueue con.missing.toNat).map fun r =>
      (true, { con with contentQueue := r.1, readQueue := r.2 })
  else
    (con.contentQueue.stealWithTempfiles con.readQueue con.missing.toNat con.world ios).map fun r =>
      (r.1.ok, { con with contentQueue := r.1.cq, readQueue := r.2.1, world := r.1.world })

def connectionHandleReadPostState (con : Conn) (io : ReadIo) (ios : List Attempt) : Option (HandlerRet × Conn) := do
  let (ret, con) ← con.readIfReadable io
  if ret = .failed then return (.error, con)
  let cq ← con.readQueue.removeFinishedChunks
  let con := { con with readQueue := cq }
  let (ok, con) ← con.stealBody ios
  if !ok then
    return (.finished, { con with
      httpStatus := 500, keepAlive := false, direct := true, writeQueue := con.writeQueue.reset })
  let cq ← con.readQueue.removeFinishedChunks
  let con := { con with readQueue := cq }
  if con.contentQueue.bytesIn = con.contentLength then
    return (.goOn, { con with
      pollin := false
      state := if con.state = .readPost then .handleRequest else con.state })
  else if ret = .closed then return (.error, con)
  else return (if con.streamRequest then .goOn else .waitForEvent, { con with pollin := true })

/-! ## Runs -/

/-- The server calls `connection_handle_read_state` until the state is no longer `CON_STATE_READ`, each time behind an event
of the socket or without one. -/
def readHeader : List (Bool × ReadIo) → Conn → Option Conn
  | [], con => some con
  | i :: is, con =>
    if con.state = .read then do
      let (_, con) ← (con.connectionHandleFdevent i.1).connectionHandleReadState i.2
      readHeader is con
    else some con

/-- The server calls `connection_handle_read_post_state` again and again; the result is whether the body could be
stored. -/
def readBody : List (Bool × ReadIo × List Attempt) → Conn → Option (Bool × Conn)
  | [], con => some (true, con)
  | i :: is, con => do
    let (ret, con) ← (con.connectionHandleFdevent i.1).connectionHandleReadPostState i.2.1 i.2.2
    if ret = .finished then return (false, con)
    readBody is con

end Conn
end Lighttpd
