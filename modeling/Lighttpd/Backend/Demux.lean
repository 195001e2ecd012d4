import Lighttpd.Backend.Reply
import Lighttpd.Request.Parse
import Lighttpd.Lib.Splitter

/-!
# The output of a CGI or SCGI program (`mod_cgi.c`, `mod_scgi.c`)

`cgi_demux_response` and `scgi_demux_response` differ in how they scan for the end of the header and in what they do
with it; the loop around the scan is the same. `Demuxer` is what makes the difference, and `cgi` and `scgi` are the two.

A pass of the loop handles one `read`. Between the calls of the function, the connection may write what has been
forwarded.
-/

namespace Lighttpd
namespace Backend
open Request Splitter

def maxHttpRequestHeader : Nat := 32 * 1024

/-- What a redirect to a local path reads and writes of the request. -/
structure LocalRequest where
  uri : Bytes
  httpMethod : Option Method
  contentLength : Nat
  contentQueue : Chunkqueue
  loopsPerRequest : Nat

/-- What the functions read and write of `hctx` and of the connection; `direct` is `mode == DIRECT`. `forwarded` are the
bytes that have been passed on as the body, and `failed` says that passing some on has failed. -/
structure Demux where
  responseHeader : Bytes
  fileStarted : Bool
  reply : Reply
  direct : Bool
  out : Response
  request : LocalRequest
  forwarded : Bytes
  failed : Bool

/-- `FDEVENT_HANDLED_*`; in `mod_scgi.c` they are `0`, `1` and `-1`. -/
inductive Ret
  | notFinished
  | finished
  | comeback
  | error
deriving DecidableEq, Repr

/-- The result of a `read`: some bytes, with the results of writing to temp files when they are passed on; nothing yet;
the end; or an error. `connection` is no read: the write queue has become another one between two calls. -/
inductive Event
  | data (s : Bytes) (ios : List Attempt)
  | wait
  | connection (out : Response)
  | eof
  | error

/-- What happens to a piece of the body: whether it has been taken. -/
def Demux.forward (h : Demux) (s : Bytes) (r : Bool × Response) : Bool × Demux :=
  if r.1 then (true, { h with out := r.2, forwarded := h.forwarded ++ s })
  else (false, { h with out := r.2, failed := true })

def Demux.appendBuffer (h : Demux) (ios : List Attempt) (s : Bytes) : Option (Bool × Demux) :=
  (h.out.httpChunkAppendBuffer ios (.ofString s)).map (h.forward s)

/-- `http_chunk_append_mem`, unless there is nothing. -/
def Demux.appendMem (h : Demux) (ios : List Attempt) (s : Bytes) : Option (Bool × Demux) :=
  if s.length > 0 then (h.out.httpChunkAppendMem ios s).map (h.forward s) else some (true, h)

def Demux.tooLarge (h : Demux) : Demux := { h with reply := { h.reply with httpStatus := 502 }, direct := true }

/-- **What makes the difference between CGI and SCGI.** The scan finds that there is no header, or the end of the
header; `size` is the length up to there. `start` parses the header, which stands in `response_header`. -/
structure Demuxer (β : Type) where
  scanner : Scanner Byte (Option β)
  size : β → Nat
  size_le : ∀ {s v}, scanner.scan s = some (some v) → size v ≤ s.length
  scan_nil : scanner.scan [] = none
  header : Bytes → Bytes
  start : β → Demux → Option (Ret × Demux)
  start_ends : ∀ {v h h'}, start v h = some (.finished, h') → h'.fileStarted = true ∨ h'.reply.httpStatus ≠ 502
  appendFailed : Ret

namespace Demuxer
variable {β : Type} (d : Demuxer β)

/-- The piece `s` of the body has been passed on or not. -/
def forwarded (r : Bool × Demux) : Ret × Demux :=
  if r.1 then (.notFinished, { r.2 with fileStarted := true }) else (d.appendFailed, r.2)

def endOfHeader (h : Demux) (ios : List Attempt) (v : β) : Option (Ret × Demux) := do
  let body := h.responseHeader.drop (d.size v)
  let (ret, h) ← d.start v { h with responseHeader := d.header (h.responseHeader.take (d.size v)) }
  if ret ≠ .notFinished then return (ret, h)
  else return d.forwarded (← h.appendMem ios body)

def pass (h : Demux) : Event → Option (Ret × Demux)
  | .wait => some (.notFinished, h)
  | .connection out => some (.notFinished, if h.fileStarted then { h with out := out } else h)
  | .eof => some (.finished, h)
  | .error => some (.error, h)
  | .data s ios =>
    if h.fileStarted then (h.appendBuffer ios s).map d.forwarded
    else
      let h := { h with responseHeader := h.responseHeader ++ s }
      match d.scanner.scan h.responseHeader with
      | some none => (h.appendBuffer ios h.responseHeader).map d.forwarded
      | some (some v) => d.endOfHeader h ios v
      | none =>
        if h.responseHeader.length > maxHttpRequestHeader then some (.finished, h.tooLarge) else some (.notFinished, h)

/-- The passes of the loop, over all calls of the function, until it returns for the last time. -/
def run : List Event → Demux → Option (Ret × Demux)
  | [], h => some (.notFinished, h)
  | e :: es, h => do
    let (ret, h) ← d.pass h e
    if ret = .notFinished then run es h else return (ret, h)

end Demuxer

/-! ## CGI -/

/-- The scan of `cgi_demux_response`, from position `i` on; `last` is the byte before. The result is whether there is a
header, and the position behind its end. -/
def cgiScanFrom (isHeader : Bool) (lastEol i : Nat) (last : Byte) : Bytes → Option (Bool × Nat)
  | [] => none
  | c :: s =>
    if c = chr ':' then cgiScanFrom true lastEol (i + 1) c s
    else if c = chr '\n' then
      if !isHeader then some (false, i + 1)
      else if 0 < lastEol ∧ (i - lastEol = 1 ∨ (i - lastEol = 2 ∧ last = chr '\r')) then some (true, i + 1)
      else cgiScanFrom isHeader i (i + 1) c s
    else cgiScanFrom isHeader lastEol (i + 1) c s

/-- The scan of all that has accumulated: `none` stands for a body without a header. -/
def cgiScan (s : Bytes) : Option (Option Nat) :=
  (cgiScanFrom (isNph s) 0 0 0 s).map fun r => if r.1 then some r.2 else none

def cgiHeader (head : Bytes) : Bytes := stripCr head.dropLast

/-- What `mod_cgi.c` and `mod_scgi.c` do with `X-Sendfile`, when it is allowed: `http_response_xsendfile`, on the
response, the write queue and `mode == DIRECT`. -/
abbrev Xsendfile := Option (Bytes → Reply × Response × Bool → Reply × Response × Bool)

def Demux.sendFile (h : Demux) (xsendfile : Bytes → Reply × Response × Bool → Reply × Response × Bool)
    (path : Bytes) : Demux :=
  let r := xsendfile path (h.reply, h.out, h.direct)
  { h with fileStarted := true, reply := r.1, out := r.2.1, direct := r.2.2 }

def Demux.checkSendfile (h : Demux) (x : Xsendfile) : Ret × Demux :=
  match x, h.reply.headers.getElement (ascii "X-Sendfile") with
  | some xsendfile, some ds => (.finished, h.sendFile xsendfile ds.value)
  | _, _ => (.notFinished, h)

/-- The body of the request is not available to the redirect. -/
def Demux.dropBody (h : Demux) : Option Demux :=
  if h.request.contentLength ≠ 0 then do
    let len ← h.request.contentQueue.length
    let keepAlive := if toOff h.request.contentLength ≠ len then false else h.out.keepAlive
    return { h with
      out := { h.out with keepAlive := keepAlive }
      request := { h.request with contentLength := 0, contentQueue := h.request.contentQueue.reset } }
  else some h

def Demux.responseReset (h : Demux) : Demux :=
  { h with
    fileStarted := false
    reply := .init
    out := { h.out with
      fileFinished := false, contentLength := false, chunked := false, writeQueue := h.out.writeQueue.reset } }

def Demux.localRedirect (h : Demux) (location : Bytes) : Option (Ret × Demux) :=
  let h := { h with request := { h.request with loopsPerRequest := h.request.loopsPerRequest + 1 } }
  if h.request.loopsPerRequest > 5 then
    some (.finished, { h with reply := { h.reply with httpStatus := 500 }, direct := true })
  else do
    let h ← Demux.dropBody { h with request := { h.request with uri := location } }
    let method := if h.reply.httpStatus ≠ 307 ∧ h.reply.httpStatus ≠ 308 then some Method.get else h.request.httpMethod
    let h := { h with request := { h.request with httpMethod := method } }
    return (.comeback, { h.responseReset with direct := true })

def Reply.localLocation (r : Reply) : Option Bytes :=
  if 300 ≤ r.httpStatus ∧ r.httpStatus < 400 then
    ((r.headers.getElement (ascii "Location")).map DataString.value).filter fun value => value.head? == some (chr '/')
  else none

def cgiStart (x : Xsendfile) (h : Demux) : Option (Ret × Demux) :=
  let h := { h with reply := cgiResponseParse h.reply h.responseHeader }
  match h.reply.localLocation with
  | some location => h.localRedirect location
  | none => some (h.checkSendfile x)

/-! ## SCGI -/

/-- The scan of `scgi_demux_response`, from position `cp` on; `none` stands for a body without a header. -/
def scgiScanFrom (inHeader : Bool) (eol : Option Eol) (cp : Nat) : Bytes → Option (Option (Eol × Nat))
  | [] => none
  | 13 :: 10 :: s =>
    if !inHeader then some none
    else if s.take 2 = [13, 10] then some (some (eol.getD .rn, cp + 4))
    else scgiScanFrom inHeader (some (eol.getD .rn)) (cp + 2) s
  | 10 :: s =>
    if !inHeader then some none
    else if s.head? = some 10 then some (some (eol.getD .n, cp + 2))
    else scgiScanFrom inHeader (some (eol.getD .n)) (cp + 1) s
  | c :: s => scgiScanFrom (inHeader || c == chr ':') eol (cp + 1) s

def scgiScan (s : Bytes) : Option (Option (Eol × Nat)) := scgiScanFrom (isNph s) none 0 s

def scgiStart (x : Xsendfile) (eol : Eol) (h : Demux) : Ret × Demux :=
  Demux.checkSendfile { h with reply := scgiResponseParse h.reply h.responseHeader eol } x

end Backend
end Lighttpd
