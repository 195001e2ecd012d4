import Lighttpd.Connection.Content
import Lighttpd.Request.Accepted
import Lighttpd.Lib.Run

/-!
# The state machine of a connection (`connections.c`, `mod_cgi.c`)

`connection_state_machine` takes a connection from the end of a request header to the end of the response. The handlers
of the plugins decide about the response, take the body of the request from its queue, and may start over; they are
arbitrary sequences of what the plugins do to a connection, with an arbitrary return value.
-/

namespace Lighttpd
open Request Chunkqueue

/-- `handler_t`, as `connection_state_machine` gets it. -/
inductive HandlerT
  | goOn
  | finished
  | comeback
  | waitForEvent
  | error
  | waitForFd
deriving DecidableEq, Repr

/-- What is read and written of a connection between two requests. `uri` is `request.uri`, `streamResponse` is
`conf.stream_response_body`, and `errorHandler` and `errorHandler404` are those of the configuration. -/
structure Exchange extends Conn where
  requestCount : Nat
  loopsPerRequest : Nat
  httpMethod : Option Method
  uri : Bytes
  isWritable : Bool
  fileStarted : Bool
  fileFinished : Bool
  streamResponse : Bool
  errorHandler : Bytes
  errorHandler404 : Bytes
  errorHandlerSavedStatus : Int
  errorHandlerSavedMethod : Option Method

/-- What `connection_handle_write_prepare` leaves when it returns `0`. -/
structure Prepared where
  httpStatus : Nat
  fileFinished : Bool
  keepAlive : Bool
  writeQueue : Chunkqueue

/-- The results `0`, `1` and the negative ones of `network_write_chunkqueue`. -/
inductive NetworkWrite
  | all
  | more (n : Nat)
  | failed

namespace Exchange

/-! ## Resets -/

def connectionReset (e : Exchange) : Exchange :=
  { e with
    isReadable := true
    isWritable := true
    httpStatus := 0
    fileFinished := false
    fileStarted := false
    bytesRead := 0
    loopsPerRequest := 0
    httpMethod := none
    direct := true
    uri := []
    request := e.request.reset
    contentLength := 0
    writeQueue := e.writeQueue.reset
    contentQueue := e.contentQueue.reset
    errorHandlerSavedStatus := 0 }

def connectionResponseReset (e : Exchange) : Exchange :=
  { e with
    httpStatus := 0
    isWritable := true
    fileFinished := false
    fileStarted := false
    writeQueue := e.writeQueue.reset }

def connectionHandleShutdown (e : Exchange) (shutdownOk : Bool) : Exchange :=
  { e.connectionReset with state := if shutdownOk then .close else .connect }

/-- The body is present and has not been read completely, or there is an error. -/
def bodyLeft (e : Exchange) : Bool :=
  (e.contentLength != 0 && decide (toOff e.contentLength > e.contentQueue.bytesIn)) || e.state == .error

def connectionHandleResponseEndState (e : Exchange) (shutdownOk : Bool) : Exchange :=
  let e := if e.bodyLeft then { e with keepAlive := false } else e
  if e.keepAlive then { e.connectionReset with state := .requestStart } else e.connectionHandleShutdown shutdownOk

/-! ## Starting over -/

/-- The body is dropped before the request is handled once more; the connection is kept only if all of it is there. -/
def dropBody (e : Exchange) : Option Exchange :=
  if e.contentLength ≠ 0 then
    e.contentQueue.length.map fun len => { e with
      keepAlive := e.keepAlive && decide (toOff e.contentLength = len)
      contentLength := 0
      contentQueue := e.contentQueue.reset }
  else some e

/-- The redirect of a CGI to a path of this server, in `cgi_demux_response`. -/
def localRedirect (e : Exchange) (location : Bytes) : Option Exchange :=
  if e.loopsPerRequest + 1 > 5 then
    some { e with loopsPerRequest := e.loopsPerRequest + 1, httpStatus := 500, direct := true }
  else
    (dropBody { e with loopsPerRequest := e.loopsPerRequest + 1, uri := location }).map fun e =>
      { e.connectionResponseReset with
        httpMethod := if e.httpStatus ≠ 307 ∧ e.httpStatus ≠ 308 then some .get else e.httpMethod
        direct := true }

/-- What `server.error-handler` changes, and `connection_handle_errdoc_init` behind it. -/
def callErrorHandler (e : Exchange) : Option Exchange :=
  e.dropBody.map fun e => { e with
    isWritable := true
    fileFinished := false
    fileStarted := false
    errorHandlerSavedStatus := e.httpStatus
    errorHandlerSavedMethod := e.httpMethod
    httpMethod := some .get
    uri := e.errorHandler
    writeQueue := e.writeQueue.reset
    httpStatus := 0 }

/-- What `server.error-handler-404` changes, and `connection_handle_errdoc_init` behind it. -/
def callErrorHandler404 (e : Exchange) : Exchange :=
  { e with
    errorHandlerSavedStatus := -e.httpStatus
    uri := e.errorHandler404
    writeQueue := e.writeQueue.reset
    httpStatus := 0 }

/-! ## Handlers -/

/-- What the plugins do to a connection: `connection_handle_read_post_state`; the body goes to the queue `dest` of a
backend (`chunkqueue_append_chunkqueue`, `chunkqueue_steal`), or a part of it is consumed (`chunkqueue_mark_written`);
a CGI closes its input; a CGI redirects; and changes to the response, to `keep_alive` and to the configuration. -/
inductive Act
  | readPost (io : ReadIo) (ios : List Attempt)
  | forward (dest : Chunkqueue)
  | steal (dest : Chunkqueue) (wf : dest.WF) (len : Nat)
  | written (n : Nat)
  | inputClosed
  | localRedirect (location : Bytes)
  | respond (httpStatus : Nat) (direct fileStarted fileFinished : Bool) (writeQueue : Chunkqueue)
  | noKeepAlive
  | configure (isReadable pollin streamRequest streamResponse : Bool) (errorHandler errorHandler404 : Bytes)

/-- The `FDEVENT_HUP` of `cgi_handle_fdevent_send`: the rest of the body is not sent. -/
def inputClosed (e : Exchange) : Option Exchange :=
  if e.contentLength ≠ 0 then do
    let len ← e.contentQueue.length
    let cq ← e.contentQueue.markWritten len
    return { e with
      contentQueue := cq
      keepAlive := e.keepAlive && decide (cq.bytesIn = toOff e.contentLength) }
  else some e

def act (e : Exchange) : Act → Option Exchange
  | .readPost io ios => (e.toConn.connectionHandleReadPostState io ios).map fun r => { e with toConn := r.2 }
  | .forward dest => some { e with contentQueue := (dest.appendChunkqueue e.contentQueue).2 }
  | .steal dest _ len => (dest.steal e.contentQueue len).map fun r => { e with contentQueue := r.2 }
  | .written n => (e.contentQueue.markWritten n).map fun cq => { e with contentQueue := cq }
  | .inputClosed => e.inputClosed
  | .localRedirect location => e.localRedirect location
  | .respond httpStatus direct fileStarted fileFinished writeQueue => some { e with
      httpStatus := httpStatus
      direct := direct
      fileStarted := fileStarted
      fileFinished := fileFinished
      writeQueue := writeQueue }
  | .noKeepAlive => some { e with keepAlive := false }
  | .configure isReadable pollin streamRequest streamResponse errorHandler errorHandler404 => some { e with
      isReadable := isReadable
      pollin := pollin
      streamRequest := streamRequest
      streamResponse := streamResponse
      errorHandler := errorHandler
      errorHandler404 := errorHandler404 }

/-! ## The states -/

/-- `CON_STATE_REQUEST_END`: `con` is what is left of the request before. -/
def requestEnd (e : Exchange) (o : Options) (con : Request.Con) : Exchange :=
  let (more, con) := httpRequestParse o (nextRequest con e.requestCount e.request.str)
  { e with
    contentLength := con.request.contentLength
    httpStatus := con.httpStatus
    keepAlive := con.keepAlive
    httpMethod := con.request.httpMethod
    uri := con.request.uri
    state := if more then .readPost else .handleRequest }

def startResponse (e : Exchange) : Exchange :=
  { e with httpStatus := if e.httpStatus = 0 then 200 else e.httpStatus, state := .responseStart }

/-- The status when the error handler has been called before. -/
def savedStatus (e : Exchange) : Nat :=
  if 0 < e.errorHandlerSavedStatus then e.errorHandlerSavedStatus.toNat
  else if e.httpStatus = 404 ∨ e.httpStatus = 403 then (-e.errorHandlerSavedStatus).toNat
  else e.httpStatus

/-- A request of the server itself has been handled: an error may be passed to an error handler. -/
def handledDirect (e : Exchange) : Option Exchange :=
  if e.errorHandlerSavedStatus ≠ 0 then some (startResponse { e with httpStatus := e.savedStatus })
  else if 400 ≤ e.httpStatus then
    if e.errorHandler ≠ [] then e.callErrorHandler
    else if (e.httpStatus = 404 ∨ e.httpStatus = 403) ∧ e.errorHandler404 ≠ [] then some e.callErrorHandler404
    else some e.startResponse
  else some e.startResponse

/-- The case `HANDLER_FINISHED`. -/
def handled (e : Exchange) : Option Exchange :=
  let e := if 0 < e.errorHandlerSavedStatus then { e with httpMethod := e.errorHandlerSavedMethod } else e
  if e.direct then e.handledDirect else some e.startResponse

/-- `CON_STATE_READ_POST` and `CON_STATE_HANDLE_REQUEST`, by the return value of `http_response_prepare`. -/
def prepared (e : Exchange) : HandlerT → Option Exchange
  | .waitForEvent =>
    if !e.fileFinished ∧ (!e.fileStarted ∨ !e.streamResponse) then some e else e.handled
  | .finished => e.handled
  | .error => some { e with state := .error }
  | _ => some e

/-- `CON_STATE_RESPONSE_START`, by the result of `connection_handle_write_prepare`. -/
def responseStart (e : Exchange) : Option Prepared → Exchange
  | none => { e with state := .error }
  | some r => { e with
      httpStatus := r.httpStatus
      fileFinished := r.fileFinished
      keepAlive := e.keepAlive && r.keepAlive
      writeQueue := r.writeQueue
      state := .write }

def connectionHandleWrite (e : Exchange) : NetworkWrite → Option Exchange
  | .all => do
    let len ← e.writeQueue.length
    let cq ← e.writeQueue.markWritten len
    return { e with writeQueue := cq, state := if e.fileFinished then .responseEnd else e.state }
  | .more n => (e.writeQueue.markWritten n).map fun cq => { e with writeQueue := cq, isWritable := false }
  | .failed => some { e with state := .error }

/-- The handler of a backend, called in `CON_STATE_WRITE`. -/
def subrequest (e : Exchange) (acts : List Act) (r : HandlerT) : Option Exchange :=
  if !e.direct ∧ !e.fileFinished then
    (acts.foldlM act e).map fun e =>
      if r = .waitForEvent ∨ r = .finished ∨ r = .goOn ∨ r = .waitForFd then e else { e with state := .error }
  else some e

def writeRound (e : Exchange) (sent : NetworkWrite) (acts : List Act) (r : HandlerT) : Option Exchange :=
  if !e.writeQueue.isEmpty then
    if e.isWritable then do
      let e ← e.connectionHandleWrite sent
      if e.state ≠ .write then return e
      e.subrequest acts r
    else e.subrequest acts r
  else if e.fileFinished then some { e with state := .responseEnd }
  else e.subrequest acts r

/-! ## Events -/

/-- What happens to a connection: events of its descriptor, after which `connection_handle_fdevent` may write, a timeout, the handler of the descriptor of a backend, and
rounds of `connection_state_machine`. -/
inductive Event
  | fdevent (readable writable failed : Bool)
  | fdeventWrite (sent : NetworkWrite)
  | timeout
  | backend (acts : List Act)
  | prepare (acts : List Act) (r : HandlerT)
  | responseStart (r : Option Prepared)
  | write (sent : NetworkWrite) (acts : List Act) (r : HandlerT)
  | responseEnd (shutdownOk : Bool)

/-- The request has been read, and its response has not been finished. -/
def InRequest (e : Exchange) : Prop :=
  e.state = .readPost ∨ e.state = .handleRequest ∨ e.state = .responseStart ∨ e.state = .write ∨
    e.state = .responseEnd ∨ e.state = .error

instance (e : Exchange) : Decidable e.InRequest := inferInstanceAs (Decidable (_ ∨ _))

def step (e : Exchange) : Event → Option Exchange
  | .fdevent readable writable failed =>
    if e.InRequest then some { e with
      isReadable := e.isReadable || readable
      isWritable := e.isWritable || writable
      state := if failed then .error else e.state }
    else none
  | .fdeventWrite sent =>
    if e.state = .write ∧ !e.writeQueue.isEmpty ∧ e.isWritable then e.connectionHandleWrite sent else none
  | .timeout => if e.InRequest then some { e with state := .error } else none
  | .backend acts => if e.InRequest then acts.foldlM act e else none
  | .prepare acts r =>
    if e.state = .readPost ∨ e.state = .handleRequest then (acts.foldlM act e).bind fun e => e.prepared r else none
  | .responseStart r => if e.state = .responseStart then some (e.responseStart r) else none
  | .write sent acts r => if e.state = .write then e.writeRound sent acts r else none
  | .responseEnd shutdownOk =>
    if e.state = .responseEnd ∨ e.state = .error then some (e.connectionHandleResponseEndState shutdownOk) else none

end Exchange
end Lighttpd
