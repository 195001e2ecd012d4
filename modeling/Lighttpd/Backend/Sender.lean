import Lighttpd.Backend.Env
import Lighttpd.Chunk.Invariant
import Lighttpd.Connection.Content

/-!
# Sending a request to a backend (`mod_fastcgi.c`, `mod_scgi.c`)

What a handler context has to do with sending: the queue `wb` to the backend, `wb_reqlen`, the bytes that are going to
be sent, and the state of the connection to the backend. The two modules differ in how a request and a piece of its
body are queued; here is what they share.

The network backend moves bytes from the front of `wb` to the socket, as `Network/Stream.lean` shows.
-/

namespace Lighttpd
namespace Backend

open Chunkqueue

/-- `fcgi_connection_state_t`, and `scgi_connection_state_t` with `connect` for `FCGI_STATE_CONNECT`. -/
inductive SendState
  | init
  | connect
  | prepareWrite
  | write
  | read
deriving DecidableEq, Repr

/-- What is read and written of a handler context and its connection here. `wire` is what the socket of the present
connection to the backend has taken, and `closed` says that the handler context has been freed. -/
structure Sender where
  con : Conn
  host : Option EnvHost
  wb : Chunkqueue
  wbReqlen : Int
  state : SendState
  requestId : Nat
  reconnects : Nat
  wire : Bytes
  closed : Bool

/-- How an attempt to connect, or the look at `SO_ERROR`, ends. -/
inductive Connect
  | ok
  | delayed
  | failed
  | waitForFd
deriving DecidableEq, Repr

/-- How `network_backend_write` ends: with so many bytes written, and then with an error or not. `dropped` is an error
after which the backend is known to be gone. -/
inductive Written
  | ok (n : Nat)
  | failed (n : Nat)
  | dropped (n : Nat)
deriving DecidableEq, Repr

def Written.count : Written → Nat
  | .ok n | .failed n | .dropped n => n

namespace Sender

def start (con : Conn) : Sender := ⟨con, none, .init none 1024, 0, .init, 0, 0, [], false⟩

/-- The bytes that the request and the response of the present connection consist of so far: what has been written
and what is queued. -/
def queued (s : Sender) : Bytes := s.wire ++ s.wb.content s.con.world

def connectionClose (s : Sender) : Sender := { s with closed := true }

/-- `network_backend_write` and `chunkqueue_remove_finished_chunks`, under `FCGI_STATE_WRITE`. -/
def networkWrite (s : Sender) (n : Nat) : Option Sender := do
  let len ← s.wb.length
  let wb ← s.wb.markWritten (min n len)
  let wb ← wb.removeFinishedChunks
  return { s with wb := wb, wire := s.wire ++ (s.wb.content s.con.world).take (min n len) }

/-- What follows a write without an error. -/
def written (s : Sender) : Sender :=
  { s with state := if s.wb.bytesOut = s.wbReqlen then .read else s.state }

/-- `con->is_readable = 1`. -/
def readable (s : Sender) : Sender := { s with con := { s.con with isReadable := true } }

/-- When `mod_fastcgi_handle_subrequest` and `mod_scgi_handle_subrequest` read the body. -/
def wantsBody (s : Sender) : Bool :=
  if s.wb.bytesIn = 0 then s.con.state == .readPost else s.wb.bytesIn < s.wbReqlen

/-- The piece of the body that has come is queued behind the request. -/
def queueBody (append : Sender → Option Sender) (s : Sender) : Option Sender :=
  if s.wb.bytesIn ≠ 0 ∧ ¬ s.con.contentQueue.isEmpty then append s else some s

/-- The part of the two functions that reads the body. The connection is given up when the body cannot be stored or the
client is gone. -/
def readPost (append : Sender → Option Sender) (s : Sender) (io : ReadIo) (ios : List Attempt) : Option Sender :=
  if s.wantsBody then do
    let (r, con) ← s.con.connectionHandleReadPostState io ios
    let s ← queueBody append { s with con := con }
    return if r = .finished ∨ r = .error then s.connectionClose else s
  else some s

/-- A call of `readPost` that does not give the connection up: what has come stays in the queue of the content only while
nothing is queued. -/
theorem readPost_cases {append : Sender → Option Sender} {s s' : Sender} {io : ReadIo} {ios : List Attempt}
    (hok : s.con.BodyOk) (h : readPost append s io ios = some s') (hopen : s'.closed = false) :
    s' = s ∨ ((s.wb.bytesIn ≠ 0 → s.wb.bytesIn < s.wbReqlen) ∧ ∃ con body, s.con.Arrived con body ∧ con.BodyOk ∧
      (s.wb.bytesIn ≠ 0 ∧ append { s with con := con } = some s' ∨
        (s.wb.bytesIn = 0 ∨ con.contentQueue.content con.world = []) ∧ s' = { s with con := con })) := by
  unfold readPost at h
  split at h
  · rename_i hguard
    obtain ⟨⟨r, con⟩, hcall, h⟩ := Option.bind_eq_some_iff.mp h
    obtain ⟨s₁, happ, h⟩ := Option.bind_eq_some_iff.mp h
    cases h
    by_cases hr : r = .finished ∨ r = .error
    · rw [if_pos hr] at hopen
      cases hopen
    · rw [if_neg hr] at hopen ⊢
      rw [not_or] at hr
      obtain ⟨body, ha, hok'⟩ := Conn.connectionHandleReadPostState_arrived hok hcall hr.1 hr.2
      refine .inr ⟨fun hne => ?_, con, body, ha, hok', ?_⟩
      · unfold wantsBody at hguard
        rw [if_neg hne] at hguard
        exact of_decide_eq_true hguard
      unfold queueBody at happ
      split at happ
      · rename_i hne
        exact .inl ⟨hne.1, happ⟩
      · rename_i hnot
        cases happ
        refine .inr ⟨or_iff_not_imp_left.mpr fun hne => ?_, rfl⟩
        have hempty : con.contentQueue.isEmpty = true := by_contra fun hfull => hnot ⟨hne, hfull⟩
        rw [content, List.isEmpty_iff.mp hempty]
        rfl
  · cases h
    exact .inl rfl

/-- The retry in `fcgi_recv_response` and `scgi_recv_response`, when the backend has closed the connection; events of
the connection are waited for once the request has been queued. -/
def recvClosed (reconnect : Sender → Sender) (s : Sender) (fileStarted : Bool) : Sender :=
  if s.state = .write ∨ s.state = .read then
    if fileStarted = false ∧ s.wb.bytesOut = 0 ∧ s.reconnects < 5 then reconnect s else s.connectionClose
  else s

/-- What queueing a part of a request leaves alone. -/
structure SameContext (s s' : Sender) : Prop where
  host : s'.host = s.host
  state : s'.state = s.state
  requestId : s'.requestId = s.requestId
  reconnects : s'.reconnects = s.reconnects
  wire : s'.wire = s.wire
  closed : s'.closed = s.closed
  bytesIn : s'.con.contentQueue.bytesIn = s.con.contentQueue.bytesIn

theorem SameContext.trans {s s' s'' : Sender} (h : SameContext s s') (h' : SameContext s' s'') :
    SameContext s s'' where
  host := h'.host.trans h.host
  state := h'.state.trans h.state
  requestId := h'.requestId.trans h.requestId
  reconnects := h'.reconnects.trans h.reconnects
  wire := h'.wire.trans h.wire
  closed := h'.closed.trans h.closed
  bytesIn := h'.bytesIn.trans h.bytesIn

/-! ## The queues of a sender -/

/-- **The bytes `taken` of the body have left the queue of the request content**: they, what is in that queue, and
what the client has yet to send make up `stream`. -/
structure Carries (stream : Bytes) (len : Nat) (taken : Bytes) (s : Sender) : Prop where
  body : s.con.BodyOk
  balance : QueueOk s.con.contentQueue
  contentLength : s.con.contentLength = len
  announced : s.con.contentQueue.bytesIn ≤ len
  bytesOut : s.con.contentQueue.bytesOut = taken.length
  stream : stream = taken ++ (s.con.contentQueue.content s.con.world ++ (s.con.waiting ++ s.con.socket))
  wb : QueueOk s.wb
  files : s.wb.InFiles s.con.world
  wire : s.wb.bytesOut = s.wire.length

variable {stream taken : Bytes} {len : Nat} {s : Sender}

namespace Carries

theorem length_content (h : Carries stream len taken s) : (s.wb.content s.con.world).length = s.wb.total :=
  Chunkqueue.length_content h.files

theorem bytesIn (h : Carries stream len taken s) : s.wb.bytesIn = s.queued.length := by
  have hb := h.wb.balance
  have hw := h.wire
  have hl := h.length_content
  unfold queued
  rw [List.length_append]
  omega

theorem arrived (h : Carries stream len taken s) :
    s.con.contentQueue.bytesIn = (taken ++ s.con.contentQueue.content s.con.world).length := by
  have hb := h.balance.balance
  have ho := h.bytesOut
  have hl := h.body.length_content
  rw [List.length_append]
  omega

theorem take_stream (h : Carries stream len taken s) :
    taken ++ s.con.contentQueue.content s.con.world = stream.take s.con.contentQueue.bytesIn.toNat := by
  rw [h.arrived, Int.toNat_natCast, h.stream, ← List.append_assoc, List.take_left]

theorem congr {s' : Sender} (h : Carries stream len taken s) (hcon : s'.con = s.con) (hwb : s'.wb = s.wb)
    (hwire : s'.wire = s.wire) : Carries stream len taken s' where
  body := hcon ▸ h.body
  balance := hcon ▸ h.balance
  contentLength := hcon ▸ h.contentLength
  announced := hcon ▸ h.announced
  bytesOut := hcon ▸ h.bytesOut
  stream := hcon ▸ h.stream
  wb := hwb ▸ h.wb
  files := by rw [hwb, hcon]; exact h.files
  wire := by rw [hwb, hwire]; exact h.wire

theorem grown (h : Carries stream len taken s) {wb : Chunkqueue} {data : Bytes} (hg : Grown s.wb wb data)
    (n : Int) : Carries stream len taken { s with wb := wb, wbReqlen := n } ∧
      queued { s with wb := wb, wbReqlen := n } = s.queued ++ data := by
  constructor
  · exact ⟨h.body, h.balance, h.contentLength, h.announced, h.bytesOut, h.stream, h.wb.grown hg,
      hg.inFiles _ h.files, hg.bytesOut.trans h.wire⟩
  · unfold queued
    rw [hg.content, List.append_assoc]

/-- **A piece of the body is stolen.** -/
theorem stolen (h : Carries stream len taken s) {n : Nat} (hn : n ≤ s.con.contentQueue.total) :
    ∃ wb cq piece, s.wb.steal s.con.contentQueue n = some (wb, cq) ∧ piece.length = n ∧
      Carries stream len (taken ++ piece) { s with wb := wb, con := { s.con with contentQueue := cq } } ∧
      s.con.contentQueue.content s.con.world = piece ++ cq.content s.con.world ∧
      queued { s with wb := wb, con := { s.con with contentQueue := cq } } = s.queued ++ piece ∧
      cq.total + n = s.con.contentQueue.total ∧ cq.bytesIn = s.con.contentQueue.bytesIn := by
  obtain ⟨wb, cq, heq, hst⟩ := steal_spec h.wb.wf h.body.wf n
  rw [Nat.min_eq_left hn] at hst
  have hin := h.body.inFilesAll
  obtain ⟨hokWb, hokCq⟩ := h.wb.stolen h.balance hst
  have hcq := hst.drained.content s.con.world hin
  have hwb := hst.content s.con.world h.files hin
  have hlen := h.body.length_content
  have hsplit : s.con.contentQueue.content s.con.world =
      (s.con.contentQueue.content s.con.world).take n ++ cq.content s.con.world := by
    rw [hcq, List.take_append_drop]
  refine ⟨wb, cq, (s.con.contentQueue.content s.con.world).take n, heq, ?_, ?_, hsplit, ?_, hst.drained.total,
    hst.drained.bytesIn⟩
  · rw [List.length_take]
    omega
  · refine ⟨h.body.stolen heq hst, hokCq, h.contentLength, ?_, ?_, ?_, hokWb, hst.inFiles _ h.files hin,
      hst.bytesOut.trans h.wire⟩
    · show cq.bytesIn ≤ len
      rw [hst.drained.bytesIn]
      exact h.announced
    · show cq.bytesOut = _
      rw [hst.srcOut, h.bytesOut, List.length_append, List.length_take]
      omega
    · show stream = taken ++ _ ++ (cq.content s.con.world ++ _)
      rw [h.stream]
      simp only [List.append_assoc]
      rw [← List.append_assoc _ (cq.content s.con.world), ← hsplit]
      rfl
  · unfold queued
    dsimp only
    rw [hwb, List.append_assoc]

/-- **The rest of the queue of the content as a whole.** -/
theorem moved (h : Carries stream len taken s) :
    let r := s.wb.appendChunkqueue s.con.contentQueue
    let s' := { s with wb := r.1, con := { s.con with contentQueue := r.2 } }
    Carries stream len (taken ++ s.con.contentQueue.content s.con.world) s' ∧
      queued s' = s.queued ++ s.con.contentQueue.content s.con.world ∧ r.2.content s.con.world = [] ∧
      r.1.bytesIn = s.wb.bytesIn + (s.con.contentQueue.content s.con.world).length := by
  intro r s'
  have hb := h.balance.balance
  have hlen := h.body.length_content
  have hout := h.bytesOut
  obtain ⟨hchunks, hnil, hunused, hunused'⟩ := appendChunkqueue_spec s.wb s.con.contentQueue
  obtain ⟨hokWb, hokCq⟩ := h.wb.appendChunkqueue h.balance
  have hcounters : r.1.bytesOut = s.wb.bytesOut ∧ r.2.bytesIn = s.con.contentQueue.bytesIn ∧
      r.2.bytesOut = s.con.contentQueue.bytesIn ∧ r.1.bytesIn = s.wb.bytesIn + s.con.contentQueue.total := by
    show (s.wb.appendChunkqueue s.con.contentQueue).1.bytesOut = _ ∧
      (s.wb.appendChunkqueue s.con.contentQueue).2.bytesIn = _ ∧
      (s.wb.appendChunkqueue s.con.contentQueue).2.bytesOut = _ ∧
      (s.wb.appendChunkqueue s.con.contentQueue).1.bytesIn = _
    unfold Chunkqueue.appendChunkqueue
    split
    · rename_i he
      have htot : s.con.contentQueue.total = 0 := by
        rw [total, List.isEmpty_iff.mp he]
        rfl
      refine ⟨rfl, rfl, ?_, ?_⟩
      · dsimp only
        omega
      · dsimp only
        omega
    · exact ⟨rfl, rfl, rfl, by dsimp only; omega⟩
  have hwb : r.1.content s.con.world = s.wb.content s.con.world ++ s.con.contentQueue.content s.con.world := by
    show (s.wb.appendChunkqueue s.con.contentQueue).1.content s.con.world = _
    rw [content, content, content, hchunks, List.flatMap_append]
  have hcq : r.2.content s.con.world = [] := by
    show (s.wb.appendChunkqueue s.con.contentQueue).2.content s.con.world = _
    rw [content, hnil]
    rfl
  refine ⟨⟨⟨⟨h.body.ok.wf, h.body.ok.mem⟩, hokCq.wf, fun _ => ?_, fun _ => ?_⟩, hokCq, h.contentLength, ?_, ?_, ?_, hokWb,
    ?_, hcounters.1.trans h.wire⟩, ?_, hcq, by rw [hcounters.2.2.2, hlen]⟩
  · intro c hc
    change c ∈ (s.wb.appendChunkqueue s.con.contentQueue).2.chunks at hc
    rw [hnil] at hc
    cases hc
  · show Coherent s.con.world (s.wb.appendChunkqueue s.con.contentQueue).2.chunks
    rw [hnil]
    exact .nil _
  · show r.2.bytesIn ≤ len
    rw [hcounters.2.1]
    exact h.announced
  · show r.2.bytesOut = _
    rw [hcounters.2.2.1, h.arrived]
  · show stream = taken ++ _ ++ (r.2.content s.con.world ++ _)
    rw [hcq, h.stream, List.nil_append, List.append_assoc]
    rfl
  · intro c hc
    change c ∈ (s.wb.appendChunkqueue s.con.contentQueue).1.chunks at hc
    rw [hchunks] at hc
    rcases List.mem_append.mp hc with hc | hc
    · exact h.files c hc
    · exact h.body.inFilesAll c hc
  · show s.wire ++ r.1.content s.con.world = _
    rw [hwb, ← List.append_assoc]
    rfl

end Carries

/-- **A write moves bytes from the queue to the socket.** -/
theorem networkWrite_spec (h : Carries stream len taken s) (n : Nat) :
    ∃ wb data, s.networkWrite n = some { s with wb := wb, wire := s.wire ++ data } ∧
      Carries stream len taken { s with wb := wb, wire := s.wire ++ data } ∧
      queued { s with wb := wb, wire := s.wire ++ data } = s.queued ∧ wb.bytesIn = s.wb.bytesIn ∧
      wb.bytesOut = s.wb.bytesOut + min n s.wb.total := by
  have hle : min n s.wb.total ≤ s.wb.total := Nat.min_le_right _ _
  obtain ⟨cq, hmark, hd, hout⟩ := markWritten_spec h.wb.wf hle
  obtain ⟨wb, hfin, hd', hout', -⟩ := removeFinishedChunks_spec hd.wf
  have hdr := hd.trans hd'
  rw [Nat.add_zero] at hdr
  have hcont := hdr.content s.con.world h.files
  have hlen := h.length_content
  refine ⟨wb, (s.wb.content s.con.world).take (min n s.wb.total), ?_, ?_, ?_, hdr.bytesIn, hout'.trans hout⟩
  · unfold networkWrite
    rw [length_eq h.wb.wf, Option.bind_eq_bind, Option.bind_some, hmark, Option.bind_eq_bind, Option.bind_some, hfin]
    rfl
  · refine ⟨h.body, h.balance, h.contentLength, h.announced, h.bytesOut, h.stream, ?_, hdr.inFiles _ h.files, ?_⟩
    · exact h.wb.drained hdr (by rw [hout', hout])
    · have hw := h.wire
      show wb.bytesOut = _
      rw [hout', hout, List.length_append, List.length_take]
      omega
  · unfold queued
    dsimp only
    rw [hcont, List.append_assoc, List.take_append_drop]

theorem Carries.read {con : Conn} (h : Carries stream len taken s) {body : Bytes} (ha : s.con.Arrived con body)
    (hok : con.BodyOk) : Carries stream len taken { s with con := con } ∧ queued { s with con := con } = s.queued := by
  have hcontent : s.wb.content con.world = s.wb.content s.con.world := by
    rw [content, flatMap_bytes_extends ha.extends' h.files]
    rfl
  constructor
  · refine ⟨hok, ⟨hok.wf, ?_⟩, ha.contentLength.trans h.contentLength, ?_, ha.bytesOut.trans h.bytesOut, ?_, h.wb,
      fun c hc => (h.files c hc).extends ha.extends', h.wire⟩
    · have hb := h.balance.balance
      have hl := h.body.length_content
      have hl' := hok.length_content
      rw [ha.content, List.length_append] at hl'
      show con.contentQueue.bytesIn - con.contentQueue.bytesOut = (con.contentQueue.total : Int)
      rw [ha.bytesIn, ha.bytesOut]
      omega
    · have hle := ha.announced
      rw [h.contentLength] at hle
      exact hle h.announced
    · show stream = taken ++ (con.contentQueue.content con.world ++ (con.waiting ++ con.socket))
      rw [h.stream, ha.stream, ha.content]
      simp only [List.append_assoc]
  · unfold queued
    dsimp only
    rw [hcontent]

theorem Carries.readable (h : Carries stream len taken s) :
    Carries stream len taken s.readable ∧ s.readable.queued = s.queued :=
  ⟨⟨⟨⟨h.body.ok.wf, h.body.ok.mem⟩, h.body.wf, h.body.inFiles, h.body.coherent⟩, h.balance, h.contentLength,
    h.announced, h.bytesOut, h.stream, h.wb, h.files, h.wire⟩, rfl⟩

/-- A request at its start: some of its body may have arrived, and none of it has been taken. -/
structure Started (con : Conn) : Prop where
  body : con.BodyOk
  balance : QueueOk con.contentQueue
  announced : con.contentQueue.bytesIn ≤ con.contentLength
  untouched : con.contentQueue.bytesOut = 0

/-- The body that has arrived, and what the client has yet to send. -/
def bodyStream (con : Conn) : Bytes := con.contentQueue.content con.world ++ (con.waiting ++ con.socket)

theorem Started.carries {con : Conn} (h : Started con) (host : Option EnvHost) :
    Carries (bodyStream con) con.contentLength [] { start con with host := host } :=
  ⟨h.body, h.balance, rfl, h.announced, h.untouched, rfl, .init none 1024, nofun, rfl⟩

end Sender
end Backend
end Lighttpd
