import Lighttpd.Backend.Demux
import Lighttpd.Fcgi.Packet
import Lighttpd.Lib.Occurrence

/-!
# The response of a FastCGI application (`fcgi_demux_response`)

A call reads from the application into `hctx->rb` and then takes the packets off it. The contents of the packets of type
`FCGI_STDOUT` are the response: they accumulate in `response_header` until the end of the header is found there.
-/

namespace Lighttpd
namespace Fcgi
open Request Backend Occurrence

/-- What the functions read and write of `hctx` and of the connection; `direct` is `mode == DIRECT`. `parsed` is the
header that has been given to `fcgi_response_parse`, `forwarded` are the bytes that have been passed on as the body, and
`failed` says that passing some on has failed. -/
structure Handler where
  rb : Chunkqueue
  responseHeader : Bytes
  fileStarted : Bool
  sendContentBody : Bool
  reply : Reply
  direct : Bool
  out : Response
  parsed : Option Bytes
  forwarded : Bytes
  failed : Bool

/-- What is looked at of a host: besides the parser, `http_response_xsendfile` on the response, the write queue and
`mode == DIRECT`. -/
structure Host where
  parse : FcgiHost
  xsendfile : Bytes → Reply × Response × Bool → Reply × Response × Bool

def fcgiStdout : Nat := 6

def fcgiEndRequest : Nat := 3

/-- The two ends of a header. -/
def crlfEnd : Bytes := ascii "\r\n\r\n"

def lfEnd : Bytes := ascii "\n\n"

/-- The length of the header: `\r\n\r\n` is searched for in all of the buffer before `\n\n` is. -/
def searchEnd (b : Bytes) : Option Nat :=
  match firstEnd crlfEnd b with
  | some n => some n
  | none => firstEnd lfEnd b

def Handler.tooLarge (h : Handler) : Handler := { h with reply := { h.reply with httpStatus := 502 }, direct := true }

/-- `http_chunk_append_buffer` of the content, if it is wanted; the result is `fin`. -/
def Handler.forward (h : Handler) (ios : List Attempt) (s : Bytes) : Option (Bool × Handler) :=
  if h.sendContentBody ∧ s ≠ [] then
    (h.out.httpChunkAppendBuffer ios (.ofString s)).map fun r =>
      if r.1 then (false, { h with out := r.2, forwarded := h.forwarded ++ s })
      else (true, { h with out := r.2, failed := true })
  else some (false, h)

def sendfileField (r : Reply) : Option DataString :=
  (r.headers.getElement (ascii "X-LIGHTTPD-send-file")).or (r.headers.getElement (ascii "X-Sendfile"))

/-- A file is sent in place of the content. -/
def Handler.sendFile (host : Host) (h : Handler) (path : Bytes) : Bool × Handler :=
  let r := host.xsendfile path (h.reply, h.out, h.direct)
  (r.2.2, { h with reply := r.1, out := r.2.1, direct := r.2.2, sendContentBody := false })

/-- `send_content_body` behind the header: the content of an authorizer that approves a request is ignored. -/
def Handler.keepsContent (host : Host) (h : Handler) : Bool :=
  if host.parse.authorizer ∧ (h.reply.httpStatus = 0 ∨ h.reply.httpStatus = 200) then false else h.sendContentBody

def Handler.parsedHeader (host : Host) (h : Handler) : Bool × Handler :=
  let h := { h with fileStarted := true, sendContentBody := h.keepsContent host }
  match sendfileField h.reply with
  | some ds => if host.parse.xsendfileAllow ∧ h.sendContentBody then h.sendFile host ds.value else (false, h)
  | none => (false, h)

def Handler.parseHeader (host : Host) (h : Handler) (header : Bytes) : Bool × Handler :=
  let r := fcgiResponseParse host.parse h.sendContentBody h.reply h.out header
  let h := { h with responseHeader := header, parsed := some header, reply := r.2.1, out := r.2.2 }
  if r.1 ≠ 0 then
    let h := if r.1 ≠ 200 then { h with reply := { h.reply with httpStatus := r.1 }, direct := true } else h
    (true, { h with fileStarted := true, sendContentBody := false })
  else h.parsedHeader host

/-- The content of a packet of type `FCGI_STDOUT`; the result is `fin`. -/
def Handler.stdout (host : Host) (h : Handler) (ios : List Attempt) (b : Bytes) : Option (Bool × Handler) :=
  if h.fileStarted then h.forward ios b
  else
    let h := { h with responseHeader := h.responseHeader ++ b }
    match searchEnd h.responseHeader with
    | none => if h.responseHeader.length > maxHttpRequestHeader then some (true, h.tooLarge) else some (false, h)
    | some hlen =>
      let content := h.responseHeader.drop hlen
      let r := h.parseHeader host (h.responseHeader.take hlen)
      if r.1 then some r else r.2.forward ios content

/-- The `switch` on the type of a packet. -/
def Handler.packet (host : Host) (h : Handler) (ios : List Attempt) (packet : Packet) : Option (Bool × Handler) :=
  if packet.type = fcgiStdout then
    if packet.len = 0 then some (false, h) else h.stdout host ios packet.b
  else if packet.type = fcgiEndRequest then some (true, h)
  else some (false, h)

/-- The loop over the packets, for up to `n` of them; `ios n` are the results of writing to temp files. -/
def Handler.packets (host : Host) (ios : Nat → List Attempt) : Nat → Handler → Option (Bool × Handler)
  | 0, h => some (false, h)
  | n + 1, h => do
    let (packet, rb) ← getPacket h.rb
    let h := { h with rb := rb }
    match packet with
    | none => return (false, h)
    | some packet =>
      let (fin, h) ← h.packet host (ios n) packet
      if fin then return (true, h) else Handler.packets host ios n h

/-- The size of a read: with `FDEVENT_STREAM_RESPONSE_BUFMIN`, no more than the largest packet is to wait. -/
def readSize (bufmin : Bool) (cqlen toread : Nat) : Nat :=
  if bufmin ∧ cqlen + toread > 65536 + 8 then if cqlen < 65536 + 8 then 65536 + 8 - cqlen else min toread 1024
  else toread

/-- The result of `FIONREAD` and `read`: some bytes, or none at the end; nothing yet; or an error. `connection` is no
read: the write queue has become another one between two calls. -/
inductive Event
  | data (toread : Nat) (s : Bytes) (ios : Nat → List Attempt)
  | wait
  | failed
  | connection (out : Response)

/-- `fcgi_demux_response`. Every packet takes eight bytes at least, so that there are no more of them than bytes. -/
def demuxResponse (host : Host) (bufmin : Bool) (h : Handler) : Event → Option (Backend.Ret × Handler)
  | .wait => some (.notFinished, h)
  | .failed => some (.error, h)
  | .connection out => some (.notFinished, if h.fileStarted then { h with out := out } else h)
  | .data toread s ios => do
    let cqlen ← h.rb.length
    let (rb, _) ← h.rb.getMemory 0 (readSize bufmin cqlen toread)
    let rb ← rb.useMemory s
    if s = [] then return (.error, { h with rb := rb })
    let (fin, h) ← Handler.packets host ios (Conn.stream rb.chunks).length { h with rb := rb }
    return (if fin then .finished else .notFinished, h)

/-- The calls until the function returns something else than `0`. -/
def run (host : Host) (bufmin : Bool) : List Event → Handler → Option (Backend.Ret × Handler)
  | [], h => some (.notFinished, h)
  | e :: es, h => do
    let (ret, h) ← demuxResponse host bufmin h e
    if ret = .notFinished then run host bufmin es h else return (ret, h)

end Fcgi
end Lighttpd
