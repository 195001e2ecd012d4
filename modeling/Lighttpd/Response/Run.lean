import Lighttpd.Response.Prepare
import Lighttpd.Lib.Run

/-!
# The course of a response

The server answers with a file or an error, or a backend takes the request over, answers with a header and goes on with
the body (`http-header-glue.c`, `connections.c`). The handlers of CGI, FastCGI, SCGI and proxy differ in the parser of the
header; all of them end with `http_response_backend_done` or `http_response_backend_error`.
-/

namespace Lighttpd
namespace Respond
open Request Backend

/-! ## Files -/

/-- What the stat cache says of a file. -/
inductive Entry
  | missing
  | denied
  | regular
deriving DecidableEq, Repr

/-- `http_response_handle_cachable`: it returns `HANDLER_GO_ON`, or `HANDLER_FINISHED` with status 304, with 412, or
without one. -/
inductive Cachable
  | goOn
  | notModified
  | preconditionFailed
  | noStatus
deriving DecidableEq, Repr

/-- What `http_response_parse_range` queues. -/
inductive RangePart
  | mem (b : Bytes)
  | file (start len : Nat)
deriving DecidableEq, Repr

/-- The course of `http_response_parse_range`: what it queues, whether it returns `0`, whether it sets the status 416, and
the field that it sets at its end. -/
structure Ranges where
  parts : List RangePart
  ok : Bool
  unsatisfiable : Bool
  field : DataString

/-- What `http_response_send_file` finds: the file and its size in the stat cache, the header fields that it sets, and
the range request, if there is one. -/
structure SendFile where
  entry : Entry
  path : Path
  fd : Option Fd
  size : Nat
  fields : Headers
  cachable : Cachable
  ranges : Option Ranges

namespace Con

/-- A part of a range response. The server looks at the size of the file before. -/
def rangePart (path : Path) (c : Con) : RangePart → Option Con
  | .mem b => (c.out.writeQueue.appendBuffer (.ofString b)).map fun r => { c with out := { c.out with writeQueue := r.1 } }
  | .file start len =>
    if start + len ≤ Response.fileSize c.out.world path then
      (c.out.writeQueue.appendFile path start len).map fun cq => { c with out := { c.out with writeQueue := cq } }
    else none

/-- `http_response_parse_range`, and what depends on its result. -/
def sendRanges (path : Path) (r : Ranges) (c : Con) : Option Con := do
  let c ← r.parts.foldlM (rangePart path) c
  let c := { c with out := { c.out with fileFinished := true } }
  if r.ok then return (c.responseHeaderOverwrite r.field.key r.field.value).setStatus 206
  else return if r.unsatisfiable then c.setStatus 416 else c

def sendWhole (f : SendFile) (c : Con) : Option Con :=
  if f.size = 0 then some { c.setStatus 200 with out := { c.out with fileFinished := true } }
  else
    (c.out.httpChunkAppendFile f.path f.fd).map fun r =>
      if r.1 then { c.setStatus 200 with out := { r.2 with fileFinished := true } }
      else { c.setStatus 403 with out := r.2 }

def httpResponseSendFile (f : SendFile) (c : Con) : Option Con :=
  match f.entry with
  | .missing => some (c.setStatus 404)
  | .denied => some (c.setStatus 403)
  | .regular =>
    let c := f.fields.foldl (fun c ds => c.responseHeaderOverwrite ds.key ds.value) c
    match f.cachable, f.ranges with
    | .notModified, _ => some (c.setStatus 304)
    | .preconditionFailed, _ => some { c.setStatus 412 with direct := true }
    | .noStatus, _ => some c
    | .goOn, some r => c.sendRanges f.path r
    | .goOn, none => c.sendWhole f

def httpResponseRedirectToDirectory (location : Bytes) (c : Con) : Con :=
  let c := (c.responseHeaderInsert (ascii "Location") location).setStatus 301
  { c with out := { c.out with fileFinished := true } }

/-- The length that the backend has announced is not that of the file. -/
def forgetLength (c : Con) : Con :=
  if c.reply.parsed.contentLength then
    let c := c.clearContentLength.resetLengthField
    { c with reply := { c.reply with contentLength := -1 } }
  else c

/-- The file is sent, if its path is below the configured roots. -/
def sendValid (f : SendFile) (valid : Bool) (c : Con) : Option Con :=
  if valid then c.httpResponseSendFile f else some (c.setStatus 403)

def httpResponseXsendfile (f : SendFile) (valid : Bool) (c : Con) : Option Con :=
  (sendValid f valid (Con.forgetLength { c with fileStarted := true })).map fun c' =>
    if 400 ≤ c'.httpStatus ∧ c.httpStatus < 300 then { c' with direct := true }
    else if c.httpStatus ≠ 0 ∧ c.httpStatus ≠ 200 then c'.setStatus c.httpStatus
    else c'

/-! ## Backends -/

def httpResponseBackendError (c : Con) : Con :=
  if c.fileStarted then
    { c with direct := true, out := { c.out with keepAlive := false, fileFinished := true } }
  else c

def httpResponseBackendDone (c : Con) : Option Con :=
  if !c.out.headerWritten && !c.fileStarted then some { c.setStatus 500 with direct := true }
  else if !c.out.fileFinished then
    c.out.httpChunkClose.map fun out => { c with out := { out with fileFinished := true } }
  else some c

/-- `cgi_connection_close`, `fcgi_connection_close`, `scgi_connection_close` and `proxy_connection_close`. -/
def connectionClose (c : Con) : Option Con :=
  let c := { c with hctx := false }
  if c.direct then some c else c.httpResponseBackendDone

end Con

/-- A file that `X-Sendfile2` names: the range of it that is appended, or the status with which the parser gives up. -/
inductive Sendfile2
  | range (fn : Path) (fd : Option Fd) (offset len : Nat)
  | refused (status : Nat)

def sendfile2Files (out : Response) (length : Nat) : List Sendfile2 → Nat × Response × Int
  | [] => (0, out, length)
  | .refused status :: _ => (status, out, length)
  | .range fn fd offset len :: files =>
    if len = 0 then sendfile2Files out length files
    else match out.httpChunkAppendFileRange fn fd offset (some len) with
      | some (true, out) => sendfile2Files out (length + len) files
      | some (false, out) => (502, out, length)
      | none => (502, out, length)

/-- The header of a backend, with the parser that reads it. CGI and SCGI programs may answer without a header; for
FastCGI, `files` are those that the field `X-Sendfile2` names. -/
inductive Header
  | none
  | cgi (header : Bytes)
  | scgi (header : Bytes) (eol : Eol)
  | proxy (header : Bytes)
  | fcgi (authorizer xsendfileAllow : Bool) (files : Bytes → List Sendfile2) (header : Bytes)

namespace Con

/-- The reply of a FastCGI application. -/
def fcgiHeader (authorizer xsendfileAllow : Bool) (files : Bytes → List Sendfile2) (header : Bytes) (c : Con) : Con :=
  let host : FcgiHost := ⟨authorizer, xsendfileAllow, fun value out => sendfile2Files out 0 (files value)⟩
  let (ret, reply, out) := fcgiResponseParse host c.sendContentBody c.reply c.out header
  let c := { c with reply := reply, out := out }
  if ret ≠ 0 then
    let c := if ret ≠ 200 then { c.setStatus ret with direct := true } else c
    { c with sendContentBody := false }
  else if authorizer ∧ (c.httpStatus = 0 ∨ c.httpStatus = 200) then { c with sendContentBody := false }
  else c

def parseHeader (c : Con) : Header → Con
  | .none => c
  | .cgi header => { c with reply := cgiResponseParse c.reply header }
  | .scgi header eol => { c with reply := scgiResponseParse c.reply header eol }
  | .proxy header => { c with reply := proxyResponseParse c.reply header }
  | .fcgi authorizer xsendfileAllow files header => c.fcgiHeader authorizer xsendfileAllow files header

/-- A piece of the body; when it cannot be appended, the handler closes the connection to the backend. -/
def append (ios : List Attempt) (b : Bytes) (c : Con) : Option Con := do
  let (ok, out) ← c.out.httpChunkAppendBuffer ios (.ofString b)
  let c := { c with out := out }
  if ok then return c else c.connectionClose

/-- The header has been received, with the piece `rest` of the body behind it; when this piece cannot be appended, the
response has not started. The handler of FastCGI appends it afterwards, so that there `rest` is empty. -/
def answer (h : Header) (ios : List Attempt) (rest : Bytes) (c : Con) : Option Con := do
  let c := c.parseHeader h
  let (ok, out) ← c.out.httpChunkAppendMem ios rest
  let c := { c with out := out, fileStarted := ok }
  if ok then return c else c.connectionClose

/-- The authorizer has approved the request, which is then answered by the server itself. -/
def authorized (c : Con) : Con := { c.setStatus 0 with direct := true, hctx := false, fileStarted := true }

def connectionResponseReset (c : Con) : Con :=
  Con.resetQueue { c with
    reply := .init, lengthReset := false, fileStarted := false
    out := { c.out with fileFinished := false, chunked := false } }

/-- A redirect to a local path by a CGI program; `bodyLeft` says that the body of the request is not in its queue. -/
def localRedirect (uriPath : Bytes) (bodyLeft : Bool) (c : Con) : Con :=
  let method := if c.httpStatus ≠ 307 ∧ c.httpStatus ≠ 308 then some Method.get else c.httpMethod
  let c := c.connectionResponseReset
  { c with
    httpMethod := method, uriPath := uriPath, direct := true, hctx := false
    out := { c.out with keepAlive := c.out.keepAlive && !bodyLeft } }

/-! ## The state machine -/

/-- `server.error-handler` takes the response over. -/
def errorHandler (uriPath : Bytes) (bodyLeft : Bool) (c : Con) : Con :=
  let c' := { c with
    fileStarted := false
    reply := { Reply.init with httpStatus := c.httpStatus, headers := c.reply.headers }
    errorHandlerSavedStatus := c.httpStatus
    errorHandlerSavedMethod := c.httpMethod
    httpMethod := some .get
    uriPath := uriPath
    out := { c.out with fileFinished := false, chunked := false, keepAlive := c.out.keepAlive && !bodyLeft } }
  c'.connectionHandleErrdocInit.setStatus 0

/-- `server.error-handler-404` takes the response over. -/
def errorHandler404 (uriPath : Bytes) (c : Con) : Con :=
  let c' := { c with errorHandlerSavedStatus := -c.httpStatus, uriPath := uriPath }
  c'.connectionHandleErrdocInit.setStatus 0

/-- The method of the request before an error handler has taken it over. -/
def restoreMethod (c : Con) : Con :=
  if c.errorHandlerSavedStatus > 0 then { c with httpMethod := c.errorHandlerSavedMethod } else c

def handledStatus (c : Con) : Con :=
  if c.direct ∧ c.errorHandlerSavedStatus ≠ 0 then
    if c.errorHandlerSavedStatus > 0 then c.setStatus c.errorHandlerSavedStatus.toNat
    else if c.httpStatus = 404 ∨ c.httpStatus = 403 then c.setStatus (-c.errorHandlerSavedStatus).toNat
    else c
  else c

/-- The response is there: the state before `CON_STATE_RESPONSE_START`. -/
def responseStart (c : Con) : Con :=
  let c := c.restoreMethod.handledStatus
  if c.httpStatus = 0 then c.setStatus 200 else c

/-- The server has an error to report, and no error handler has been called yet. -/
def reportsError (c : Con) : Bool :=
  c.direct && c.restoreMethod.errorHandlerSavedStatus == 0 && decide (400 ≤ c.httpStatus)

/-- All that has been queued is sent. -/
def isEnded (c : Con) : Bool := c.out.headerWritten && c.out.fileFinished && c.out.writeQueue.isEmpty

end Con

/-- What can happen before and behind the header. -/
inductive Step
  | handler
  | sendFile (f : SendFile)
  | redirectToDirectory (location : Bytes)
  | reject (status : Nat)
  | answer (h : Header) (ios : List Attempt) (rest : Bytes)
  | xsendfile (f : SendFile) (valid : Bool)
  | localRedirect (uriPath : Bytes) (bodyLeft : Bool)
  | authorized
  | errorHandler (uriPath : Bytes) (bodyLeft : Bool)
  | errorHandler404 (uriPath : Bytes)
  | append (ios : List Attempt) (b : Bytes)
  | backendDone
  | backendError
  | written (n : Nat)

namespace Step

/-- A step before the header. The server itself acts as long as no backend is connected. -/
def before (s : Step) (c : Con) : Option Con :=
  match s with
  | .handler => if c.direct then some { c with direct := false, hctx := true, sendContentBody := true } else none
  | .sendFile f => if c.direct then c.httpResponseSendFile f else none
  | .redirectToDirectory location => if c.direct then some (c.httpResponseRedirectToDirectory location) else none
  | .reject status => some { c.setStatus status with direct := true, hctx := false }
  | .answer h ios rest => if c.hctx ∧ !c.fileStarted then c.answer h ios rest else none
  | .xsendfile f valid =>
    if c.hctx then (c.httpResponseXsendfile f valid).map fun c => { c with sendContentBody := false } else none
  | .localRedirect uriPath bodyLeft => if c.hctx then some (c.localRedirect uriPath bodyLeft) else none
  | .authorized => if c.hctx ∧ (c.httpStatus = 0 ∨ c.httpStatus = 200) then some c.authorized else none
  | .errorHandler uriPath bodyLeft => if c.reportsError then some (c.errorHandler uriPath bodyLeft) else none
  | .errorHandler404 uriPath =>
    if c.reportsError ∧ (c.httpStatus = 404 ∨ c.httpStatus = 403) then some (c.errorHandler404 uriPath) else none
  | .append ios b => if c.hctx ∧ c.sendContentBody then c.append ios b else none
  | .backendDone => if c.hctx then c.connectionClose else none
  | .backendError => if c.hctx then c.httpResponseBackendError.connectionClose else none
  | .written _ => none

/-- A step behind the header: the backend goes on with the body or ends, or the network takes bytes. -/
def behind (s : Step) (c : Con) : Option Con :=
  match s with
  | .append ios b => if c.hctx ∧ c.sendContentBody then c.append ios b else none
  | .backendDone => if c.hctx then c.connectionClose else none
  | .backendError => if c.hctx then c.httpResponseBackendError.connectionClose else none
  | .written n => (c.out.written n).map fun out => { c with out := out }
  | _ => none

/-- The bytes that a backend adds to the body. -/
def piece : Step → Bytes
  | .append _ b => b
  | _ => []

end Step

/-- A step; when all is sent, the response is at its end. -/
def step (c : Con) (s : Step) : Option Con :=
  if c.isEnded then none else if c.out.headerWritten then s.behind c else s.before c

def start (conf : Conf) (c : Con) : Option Con := c.responseStart.connectionHandleWritePrepare conf

end Respond
end Lighttpd
