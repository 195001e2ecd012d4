import Lighttpd.Chunk.Content

/-!
# The network write backends (`network_write.c`, `network_writev.c`, `network_write_mmap.c`,
`network_write_no_mmap.c`, `network_linux_sendfile.c`)

A backend writes the chunks at the front of a queue to a socket. Its state `Net` is the queue, the byte budget
`max_bytes`, the files, and the bytes that the socket has taken so far (`wire`).

The system calls of one round of a write loop give the results in a `Round`. A call never moves more bytes than it is
given or than the file has, so the counts of a `Round` are cut to that. The files do not change while the backend
runs, so that no `SIGBUS` comes from a mapped window whose range has been checked. A failed assertion is `none`.
-/

namespace Lighttpd

/-- What the build and the system fix: `USE_WRITEV`, `USE_MMAP`, `SYS_MAX_CHUNKS` and the page size. -/
structure Build where
  useWritev : Bool
  useMmap : Bool
  sysMaxChunks : Nat
  pagesize : Nat
  sysMaxChunks_pos : 0 < sysMaxChunks
  pagesize_pos : 0 < pagesize
  pagesize_lt : pagesize < 512 * 1024

/-- The results of the system calls in one round of a write loop. `fstatAgain` is the `fstat` that follows a `sendfile`
that is not supported. -/
structure Round where
  statCache : Bool
  openFile : Option Fd
  fstat : Bool
  fstatAgain : Bool
  mmap : Bool
  lseek : Bool
  read : Option Nat
  write : WriteResult
  sendfile : WriteResult

/-- The state of a write: the queue, `max_bytes`, the files, and the bytes on the wire. -/
structure Net where
  cq : Chunkqueue
  maxBytes : Int
  world : World
  wire : Bytes

def Net.setFirst (net : Net) (c : Chunk) : Net := { net with cq := net.cq.setFirst c }

/-- The return values `0`, `-1`, `-2` and `-3` of the functions that write the next chunks. -/
inductive Ret
  | done
  | failed
  | remoteClose
  | tryAgain
deriving DecidableEq, Repr

namespace Network

/-- The assertions on the first chunk of the queue that start every function here. -/
def assertFirst (type : ChunkType) (cq : Chunkqueue) : Option Chunk :=
  match cq.chunks with
  | [] => none
  | c :: _ => if c.type = type ∧ c.offset ≤ c.size then some c else none

/-- What is left of the budget bounds a write. The loops call with `max_bytes > 0`. -/
def clamp (toSend : Nat) (maxBytes : Int) : Nat := if (toSend : Int) > maxBytes then maxBytes.toNat else toSend

/-- `chunkqueue_remove_finished_chunks(cq); return 0;`, when there is nothing to send. -/
def removeFinished (net : Net) : Option (Ret × Net) := do
  let cq ← net.cq.removeFinishedChunks
  return (.done, { net with cq := cq })

/-- The end of every function: the system call `r` was given the bytes `data` for a request of `toSend` bytes. -/
def afterWrite (net : Net) (data : Bytes) (toSend : Nat) (r : WriteResult) : Option (Ret × Net) :=
  match r with
  | .error .eagain => some (.tryAgain, net)
  | .error .eintr => some (.tryAgain, net)
  | .error .epipe => some (.remoteClose, net)
  | .error .econnreset => some (.remoteClose, net)
  | .error _ => some (.failed, net)
  | .wrote n => do
    let r := min n data.length
    let cq ← net.cq.markWritten r
    return (if r > 0 ∧ r = toSend then .done else .tryAgain,
      { net with cq := cq, maxBytes := net.maxBytes - r, wire := net.wire ++ data.take r })

/-! ## Chunks in memory -/

def networkWriteMemChunk (io : Round) (net : Net) : Option (Ret × Net) := do
  let c ← assertFirst .memChunk net.cq
  let cLen := clamp (c.mem.stringLength - c.offset) net.maxBytes
  if cLen = 0 then removeFinished net
  else afterWrite net ((c.mem.str.drop c.offset).take cLen) cLen io.write

def maxChunks (b : Build) : Nat := if b.sysMaxChunks > 32 then 32 else b.sysMaxChunks

/-- The loop of `network_writev_mem_chunks` that fills `chunks` with whole chunks until `max_bytes` is reached. -/
def gather (b : Build) (maxBytes : Int) : List Chunk → List Bytes → Nat → Option (List Bytes × Nat)
  | [], iov, toSend => some (iov, toSend)
  | c :: cs, iov, toSend =>
    if c.type = .memChunk ∧ iov.length < maxChunks b ∧ (toSend : Int) < maxBytes then
      if c.offset ≤ c.mem.stringLength then
        let cLen := c.mem.stringLength - c.offset
        if cLen > 0 then gather b maxBytes cs (iov ++ [(c.mem.str.drop c.offset).take cLen]) (toSend + cLen)
        else gather b maxBytes cs iov toSend
      else none
    else some (iov, toSend)

/-- `network_writev_mem_chunks`, which is `network_write_mem_chunk` without `USE_WRITEV`. -/
def networkWritevMemChunks (b : Build) (io : Round) (net : Net) : Option (Ret × Net) :=
  if b.useWritev then
    match net.cq.chunks with
    | [] => none
    | c :: _ =>
      if c.type = .memChunk then do
        let (chunks, toSend) ← gather b net.maxBytes net.cq.chunks [] 0
        if chunks.length = 0 then removeFinished net
        else afterWrite net chunks.flatten toSend io.write
      else none
  else networkWriteMemChunk io net

/-! ## File chunks -/

def notShrinked (c : Chunk) (fileSize : Nat) : Bool :=
  let offset := c.file.start + c.offset
  let toSend := c.file.length - c.offset
  !(offset > fileSize || toSend > fileSize || offset > fileSize - toSend)

/-- `network_open_file_chunk`; the result is whether it returns `0`. -/
def networkOpenFileChunk (io : Round) (net : Net) : Option (Bool × Net) := do
  let c ← assertFirst .fileChunk net.cq
  let fileSize := (net.world.content c.file.name).length
  match c.file.fd with
  | none =>
    if io.statCache ∧ (net.world.files c.file.name).isSome then
      match io.openFile with
      | some fd =>
        if net.world.fdpos fd = none then
          let net := { net with world := net.world.opened fd }
          return (notShrinked c fileSize, net.setFirst { c with file := { c.file with fd := some fd } })
        else return (false, net)
      | none => return (false, net)
    else return (false, net)
  | some _ => return (io.fstat && notShrinked c fileSize, net)

def mmapChunkSize : Nat := 512 * 1024

def mmapAlignOffset (b : Build) (start : Nat) : Option Nat :=
  if b.pagesize < mmapChunkSize ∧ start ≥ start % b.pagesize then some (start - start % b.pagesize) else none

def mmapWindow (b : Build) (offset fileEnd : Nat) : Option Mmap := do
  let aligned ← mmapAlignOffset b offset
  let length := if (aligned : Int) > (fileEnd : Int) - mmapChunkSize then fileEnd - aligned else mmapChunkSize
  return ⟨true, length, aligned⟩

def windowBytes (w : World) (name : Path) (m : Mmap) : Bytes := ((w.content name).drop m.offset).take m.length

/-- The end of `network_write_file_chunk_mmap`: the write from the window of the first chunk `c`. -/
def writeMapped (io : Round) (net : Net) (c : Chunk) (offset toSend : Nat) : Option (Ret × Net) :=
  let m := c.file.mmap
  if offset ≥ m.offset then
    let mmapOffset := offset - m.offset
    if m.length > mmapOffset then
      let mmapAvail := m.length - mmapOffset
      let toSend := if toSend > mmapAvail then mmapAvail else toSend
      afterWrite net (((windowBytes net.world c.file.name m).drop mmapOffset).take toSend) toSend io.write
    else none
  else none

def writeFileChunkMmap (b : Build) (io : Round) (net : Net) : Option (Ret × Net) := do
  let c ← assertFirst .fileChunk net.cq
  let offset := c.file.start + c.offset
  let toSend := clamp (c.file.length - c.offset) net.maxBytes
  let fileEnd := c.file.start + c.file.length
  if toSend = 0 then removeFinished net
  else
    let (opened, net) ← networkOpenFileChunk io net
    if !opened then return (.failed, net)
    let c ← net.cq.chunks.head?
    let m := c.file.mmap
    if !m.mapped || offset < m.offset || offset ≥ m.offset + m.length then
      let m' ← mmapWindow b offset fileEnd
      let c := { c with file := { c.file with mmap := { m' with mapped := io.mmap } } }
      let net := net.setFirst c
      if !io.mmap then return (.failed, net) else writeMapped io net c offset toSend
    else writeMapped io net c offset toSend

/-- `network_write_file_chunk_no_mmap`: up to 64 KiB go through `srv->tmp_buf`. -/
def networkWriteFileChunkNoMmap (io : Round) (net : Net) : Option (Ret × Net) := do
  let c ← assertFirst .fileChunk net.cq
  let offset := c.file.start + c.offset
  let toSend := c.file.length - c.offset
  let toSend := clamp (if toSend > 64 * 1024 then 64 * 1024 else toSend) net.maxBytes
  if toSend = 0 then removeFinished net
  else
    let (opened, net) ← networkOpenFileChunk io net
    if !opened then return (.failed, net)
    let c ← net.cq.chunks.head?
    let fd ← c.file.fd
    if !io.lseek then return (.failed, net)
    match io.read with
    | none => return (.failed, { net with world := net.world.lseek fd offset })
    | some n =>
      let tmpBuf := ((net.world.content c.file.name).drop offset).take (min n toSend)
      afterWrite { net with world := net.world.lseek fd (offset + tmpBuf.length) } tmpBuf tmpBuf.length io.write

/-- `network_write_file_chunk_mmap`, which is `network_write_file_chunk_no_mmap` without `USE_MMAP`. -/
def networkWriteFileChunkMmap (b : Build) (io : Round) (net : Net) : Option (Ret × Net) :=
  if b.useMmap then writeFileChunkMmap b io net else networkWriteFileChunkNoMmap io net

/-- The errors of `sendfile` after which the file is written in another way. -/
def notSupported : WriteResult → Bool
  | .error .einval => true
  | .error .enosys => true
  | .error .eopnotsupp => true
  | .error .esocktnosupport => true
  | .error .eafnosupport => true
  | _ => false

/-- `network_write_file_chunk_sendfile` of Linux. -/
def networkWriteFileChunkSendfile (b : Build) (io : Round) (net : Net) : Option (Ret × Net) := do
  let c ← assertFirst .fileChunk net.cq
  let offset := c.file.start + c.offset
  let toSend := clamp (c.file.length - c.offset) net.maxBytes
  if toSend = 0 then removeFinished net
  else
    let (opened, net) ← networkOpenFileChunk io net
    if !opened then return (.failed, net)
    if notSupported io.sendfile then networkWriteFileChunkMmap b { io with fstat := io.fstatAgain } net
    else afterWrite net (((net.world.content c.file.name).drop offset).take toSend) toSend io.sendfile

/-! ## The write loops -/

/-- The backends: `network_write_chunkqueue_write`, `_writev` and `_sendfile`. -/
inductive Backend
  | write
  | writev
  | sendfile
deriving DecidableEq, Repr

def Backend.writeFirst (be : Backend) (b : Build) (type : ChunkType) (io : Round) (net : Net) : Option (Ret × Net) :=
  match be, type with
  | .write, .memChunk => networkWriteMemChunk io net
  | .write, .fileChunk => networkWriteFileChunkMmap b io net
  | .writev, .memChunk => networkWritevMemChunks b io net
  | .writev, .fileChunk => networkWriteFileChunkMmap b io net
  | .sendfile, .memChunk => networkWritevMemChunks b io net
  | .sendfile, .fileChunk => networkWriteFileChunkSendfile b io net

/-- The loop of a backend, for at most `fuel` rounds. Its result is the return value and the state; `.tryAgain` is
turned into `0`. -/
def Backend.loop (be : Backend) (b : Build) : Nat → (Nat → Round) → Net → Option (Ret × Net)
  | 0, _, _ => none
  | fuel + 1, ios, net =>
    match net.cq.chunks with
    | [] => some (.done, net)
    | c :: _ =>
      if net.maxBytes > 0 then do
        let (r, net) ← be.writeFirst b c.type (ios 0) net
        match r with
        | .tryAgain => return (.done, net)
        | .done => be.loop b fuel (fun i => ios (i + 1)) net
        | r => return (r, net)
      else some (.done, net)

/-- The work left in a queue: each round of a write loop that goes on removes a byte or a chunk. -/
def work (net : Net) : Nat := net.cq.total + net.cq.chunks.length

def Backend.networkWriteChunkqueue (be : Backend) (b : Build) (ios : Nat → Round) (net : Net) : Option (Ret × Net) :=
  be.loop b (work net + 1) ios net

end Network
end Lighttpd
