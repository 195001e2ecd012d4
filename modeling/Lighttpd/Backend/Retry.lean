import Lighttpd.Fcgi.Send
import Lighttpd.Scgi.Send

/-!
# Retries of a request to a backend

`fcgi_reconnect` and `scgi_reconnect` start a request again on a new connection, but leave what has been queued in `wb`.
A request that has been queued once is queued a second time behind the first one, with the part of the body that has
been taken in the first one only. `retried_once` is the main result: without such a retry what is sent is the request,
once.
-/

namespace Lighttpd

/-- `wb_reqlen` is the length of what has been written and queued, and of what is left of the body. -/
def Backend.Sender.Counted (con : Conn) (s : Backend.Sender) : Prop :=
  s.wbReqlen = s.queued.length + (con.contentLength - s.con.contentQueue.bytesOut)

instance (con : Conn) (s : Backend.Sender) : Decidable (Backend.Sender.Counted con s) :=
  inferInstanceAs (Decidable (_ = _))

namespace Fcgi
open Backend Backend.Sender

/-- The steps of a handler context, and the end of the connection to the backend in `fcgi_recv_response`. -/
inductive RetryOp
  | op (o : Op)
  | recvClosed (fileStarted : Bool)

def retryStep (req : EnvCon) (s : Sender) : RetryOp → Option Sender
  | .op o => step req s o
  | .recvClosed fileStarted => some (if s.closed then s else recvClosed fcgiReconnect s fileStarted)

/-- **The steps that send a request again that has been queued.** The retries of `fcgi_send_request` come before that. -/
def Retries (s : Sender) : RetryOp → Prop
  | .op _ => False
  | .recvClosed fileStarted =>
    (s.state = .write ∨ s.state = .read) ∧ fileStarted = false ∧ s.wb.bytesOut = 0 ∧ s.reconnects < 5

variable {req : EnvCon} {stream : Bytes} {len : Nat} {s s' : Sender} {host : EnvHost} {taken : Bytes}

theorem retryStep_phase {op : RetryOp} (h : Phase (format req stream len) s) (hno : s.closed = false → ¬ Retries s op)
    (heq : retryStep req s op = some s') : Phase (format req stream len) s' := by
  cases op with
  | op o => exact step_phase h heq
  | recvClosed fileStarted =>
    cases heq
    split
    · exact h
    · rename_i hopen
      rw [Bool.not_eq_true] at hopen
      unfold recvClosed
      split
      · rename_i hstate
        split
        · rename_i hretry
          exact absurd ⟨hstate, hretry⟩ (hno hopen)
        · exact .closed rfl
      · exact h

theorem counted {con : Conn} (h : Sending (format req stream con.contentLength) host taken s) : Counted con s := by
  obtain ⟨pairs, pieces, -, hqueued⟩ := h.encodes
  have hcount := hqueued.encoding.counters
  have hin := hqueued.encoding.carries.bytesIn
  have hout := hqueued.encoding.carries.bytesOut
  unfold Counted
  omega

end Fcgi

namespace Scgi
open Backend Backend.Sender

/-- **What is queued is the request**: the environment as a netstring, and behind it all of the body that has come, of
which nothing is left over. -/
def RequestQueued (useOpenssl : Bool) (req : EnvCon) (con : Conn) (host : EnvHost) (s : Sender) : Prop :=
  ∃ taken, Netstring.decode s.queued = some (envOf useOpenssl req host con.contentLength, taken) ∧
    taken = (bodyStream con).take s.con.contentQueue.bytesIn.toNat ∧
    s.con.contentQueue.content s.con.world = [] ∧ s.con.contentQueue.bytesIn ≤ con.contentLength

variable {useOpenssl : Bool} {req : EnvCon} {con : Conn} {host : EnvHost} {s : Sender} {stream taken : Bytes}

theorem requestQueued (h : Sending (format useOpenssl req (bodyStream con) con.contentLength host) host taken s) :
    RequestQueued useOpenssl req con host s := by
  obtain ⟨-, henc⟩ := h.encodes
  refine ⟨taken, ?_, h.taken_eq, h.drained, henc.carries.announced⟩
  rw [henc.queued]
  exact decode_netstring _ _

theorem counted (h : Sending (format useOpenssl req stream con.contentLength host) host taken s) : Counted con s := by
  obtain ⟨-, henc⟩ := h.encodes
  have hreq := henc.wbReqlen
  have hout := henc.carries.bytesOut
  unfold Counted
  rw [henc.queued, List.length_append]
  omega

end Scgi

namespace Backend
open Sender

/-- **A request is sent once, when it is not retried after it has been queued.** In every run of a FastCGI handler
context, and of a SCGI one, whose steps are no such retries, what has been written on the present connection and what is
queued is one encoding of the request, with all of the body that has come, and `wb_reqlen` is the length of it with what is
left of the body. -/
theorem retried_once (req : EnvCon) (con : Conn) (h : Started con) :
    (∀ ops s, Run.Meets (Fcgi.retryStep req) (fun s op => s.closed = false → ¬ Fcgi.Retries s op) (start con) ops →
      Run.run (Fcgi.retryStep req) (start con) ops = some s → s.closed = false →
      (s.state = .write ∨ s.state = .read) →
      Fcgi.RequestEncoded req con s ∧ Counted con s) ∧
    ∀ useOpenssl host ops s, Run.Meets (Scgi.step useOpenssl req) (fun s op => s.closed = false → ¬ Scgi.Retries s op)
        { start con with host := some host } ops →
      Run.run (Scgi.step useOpenssl req) { start con with host := some host } ops = some s → s.closed = false →
      (s.state = .write ∨ s.state = .read) →
      Scgi.RequestQueued useOpenssl req con host s ∧ Counted con s := by
  constructor
  · intro ops s hno hrun hopen hstate
    have hphase : Phase (Fcgi.format req (bodyStream con) con.contentLength) s := by
      refine Run.run_keeps ?_ (.idle (Fcgi.idle_start h)) hno hrun
      intro s op s' hs hok hstep
      exact Fcgi.retryStep_phase hs hok hstep
    obtain ⟨host, taken, hsend⟩ := hphase.sending_of_state hopen hstate
    exact ⟨Fcgi.requestEncoded hsend, Fcgi.counted hsend⟩
  · intro useOpenssl host ops s hno hrun hopen hstate
    obtain ⟨taken, hsend⟩ := Scgi.sending_of_run h hno hrun hopen hstate
    exact ⟨Scgi.requestQueued hsend, Scgi.counted hsend⟩

/-- Half of the body has come when the first connection fails. On the second one the request is written in part, and then
the other half comes. -/
def sampleFcgiOnce : List Fcgi.RetryOp :=
  [.op (.readPost ⟨none, .error .eagain⟩ []), .op (.send (some Fcgi.sampleEnvHost) .failed (.ok 0)),
    .op (.send (some Fcgi.sampleEnvHost) .ok (.ok 10)), .op .readable, .op (.readPost ⟨none, .got 1⟩ [])]

/-- Half of the body has come when the connection begins. -/
def sampleScgiOnce : List Scgi.Op :=
  [.readPost ⟨none, .error .eagain⟩ [], .send .delayed (.ok 0), .send .ok (.ok 10), .readable, .readPost ⟨none, .got 1⟩ []]

theorem retried_once_sample :
    (∃ s, Run.run (Fcgi.retryStep Fcgi.sampleReq) (start Fcgi.sampleRequestCon) sampleFcgiOnce = some s ∧
      s.con.contentQueue.bytesIn = 2 ∧ Fcgi.RequestEncoded Fcgi.sampleReq Fcgi.sampleRequestCon s ∧
      Counted Fcgi.sampleRequestCon s) ∧
    ∃ s, Run.run (Scgi.step true Fcgi.sampleReq) { start Fcgi.sampleRequestCon with host := some Fcgi.sampleEnvHost }
        sampleScgiOnce = some s ∧ s.con.contentQueue.bytesIn = 2 ∧
      Scgi.RequestQueued true Fcgi.sampleReq Fcgi.sampleRequestCon Fcgi.sampleEnvHost s ∧
      Counted Fcgi.sampleRequestCon s := by
  constructor
  · have hrun : (Run.run (Fcgi.retryStep Fcgi.sampleReq) (start Fcgi.sampleRequestCon) sampleFcgiOnce).map
        (fun s => (s.closed, s.state, s.con.contentQueue.bytesIn)) = some (false, .write, 2) := by decide +kernel
    obtain ⟨s, hs, hout⟩ := Option.map_eq_some_iff.mp hrun
    obtain ⟨hclosed, hout⟩ := Prod.mk.inj hout
    obtain ⟨hstate, hin⟩ := Prod.mk.inj hout
    have hno : Run.Meets (Fcgi.retryStep Fcgi.sampleReq) (fun s op => s.closed = false → ¬ Fcgi.Retries s op)
        (start Fcgi.sampleRequestCon) sampleFcgiOnce :=
      ⟨fun _ => id, fun _ _ => ⟨fun _ => id, fun _ _ => ⟨fun _ => id, fun _ _ => ⟨fun _ => id, fun _ _ =>
        ⟨fun _ => id, fun _ _ => trivial⟩⟩⟩⟩⟩
    exact ⟨s, hs, hin, (retried_once Fcgi.sampleReq Fcgi.sampleRequestCon Fcgi.sampleRequestCon_started).1 _ s hno hs
      hclosed (.inl hstate)⟩
  · have hrun : (Run.run (Scgi.step true Fcgi.sampleReq)
        { start Fcgi.sampleRequestCon with host := some Fcgi.sampleEnvHost } sampleScgiOnce).map
        (fun s => (s.closed, s.state, s.con.contentQueue.bytesIn)) = some (false, .write, 2) := by decide +kernel
    obtain ⟨s, hs, hout⟩ := Option.map_eq_some_iff.mp hrun
    obtain ⟨hclosed, hout⟩ := Prod.mk.inj hout
    obtain ⟨hstate, hin⟩ := Prod.mk.inj hout
    have hno : Run.Meets (Scgi.step true Fcgi.sampleReq) (fun s op => s.closed = false → ¬ Scgi.Retries s op)
        { start Fcgi.sampleRequestCon with host := some Fcgi.sampleEnvHost } sampleScgiOnce :=
      ⟨fun _ => id, fun _ _ => ⟨fun _ hr => absurd hr.1 (by decide), fun _ _ =>
        ⟨fun _ hr => absurd hr.1 (by decide), fun _ _ => ⟨fun _ => id, fun _ _ => ⟨fun _ => id, fun _ _ => trivial⟩⟩⟩⟩⟩
    exact ⟨s, hs, hin, (retried_once Fcgi.sampleReq Fcgi.sampleRequestCon Fcgi.sampleRequestCon_started).2 true _ _ s
      hno hs hclosed (.inl hstate)⟩

/-! ### Retried requests

The backend closes the connection before a byte of the request has been written; on the second connection everything is
written. -/

def sampleGet : Conn := { Fcgi.sampleRequestCon with contentLength := 0 }

def sampleFcgiRetry : List Fcgi.RetryOp :=
  [.op (.send (some Fcgi.sampleEnvHost) .ok (.ok 0)), .recvClosed false,
    .op (.send (some Fcgi.sampleEnvHost) .ok (.ok 0))]

def sampleScgiRetry : List Scgi.Op := [.send .ok (.dropped 0), .send .ok (.ok 0)]

/-- The second encoding of the request is queued behind the first one, which `wb_reqlen` does not count. -/
theorem retry_duplicates :
    (∃ s, Run.run (Fcgi.retryStep Fcgi.sampleReq) (start sampleGet) sampleFcgiRetry = some s ∧ s.closed = false ∧
      s.state = .write ∧ ¬ (Fcgi.RequestEncoded Fcgi.sampleReq sampleGet s ∧ Counted sampleGet s)) ∧
    ∃ s, Run.run (Scgi.step true Fcgi.sampleReq) { start sampleGet with host := some Fcgi.sampleEnvHost }
        sampleScgiRetry = some s ∧ s.closed = false ∧ s.state = .write ∧
      ¬ (Scgi.RequestQueued true Fcgi.sampleReq sampleGet Fcgi.sampleEnvHost s ∧ Counted sampleGet s) := by
  constructor
  · have hrun : (Run.run (Fcgi.retryStep Fcgi.sampleReq) (start sampleGet) sampleFcgiRetry).map
        (fun s => (s.closed, s.state, decide (Counted sampleGet s))) = some (false, .write, false) := by decide +kernel
    obtain ⟨s, hs, hout⟩ := Option.map_eq_some_iff.mp hrun
    obtain ⟨hclosed, hout⟩ := Prod.mk.inj hout
    obtain ⟨hstate, hlen⟩ := Prod.mk.inj hout
    exact ⟨s, hs, hclosed, hstate, fun hr => of_decide_eq_false hlen hr.2⟩
  · have hrun : (Run.run (Scgi.step true Fcgi.sampleReq) { start sampleGet with host := some Fcgi.sampleEnvHost }
        sampleScgiRetry).map (fun s => (s.closed, s.state, decide (Counted sampleGet s))) =
        some (false, .write, false) := by decide +kernel
    obtain ⟨s, hs, hout⟩ := Option.map_eq_some_iff.mp hrun
    obtain ⟨hclosed, hout⟩ := Prod.mk.inj hout
    obtain ⟨hstate, hlen⟩ := Prod.mk.inj hout
    exact ⟨s, hs, hclosed, hstate, fun hr => of_decide_eq_false hlen hr.2⟩

end Backend
end Lighttpd
