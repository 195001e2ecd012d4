import Lighttpd.Backend.Env
import Lighttpd.Backend.Sender
import Lighttpd.Lib.Netstring

/-!
# The request of a SCGI backend (`mod_scgi.c`)

`scgi_create_env` queues the environment as a netstring, with what there is of the body behind it; the rest of the body
follows as it arrives.
-/

namespace Lighttpd
namespace Scgi

open Backend Backend.Sender Chunkqueue

/-- `scgi_env_add`; what it returns is not looked at. -/
def scgiEnvAdd (env : Bytes) (p : EnvPair) : Bytes :=
  match p.2 with
  | some val => env ++ p.1 ++ [0] ++ val ++ [0]
  | none => env

/-- The rest of the body that there is moves behind the request. -/
def appendContent (s : Sender) : Sender :=
  let r := s.wb.appendChunkqueue s.con.contentQueue
  { s with wb := r.1, con := { s.con with contentQueue := r.2 } }

/-- The buffer with the environment: its length, a colon, and a comma behind it. -/
def envBuffer (env : Bytes) : Buffer :=
  (((Buffer.init.appendStringLen (liUtostrn env.length)).appendStringLen (ascii ":")).appendStringLen
    env).appendStringLen (ascii ",")

/-- **`scgi_create_env`**; `useOpenssl` is `USE_OPENSSL`. -/
def scgiCreateEnv (useOpenssl : Bool) (req : EnvCon) (host : EnvHost) (s : Sender) : Option Sender := do
  let b := envBuffer ((req.scgiEnv useOpenssl host s.con.contentLength).foldl scgiEnvAdd [])
  let (wb, _) ← s.wb.appendBuffer b
  let s := { s with wb := wb, wbReqlen := b.stringLength }
  return if s.con.contentLength ≠ 0 then { appendContent s with wbReqlen := s.wbReqlen + s.con.contentLength } else s

/-- **`scgi_reconnect`**: the queue to the backend and `wb_reqlen` stay as they are. -/
def scgiReconnect (s : Sender) : Sender :=
  { s with state := .init, reconnects := s.reconnects + 1, wire := [] }

/-- How `scgi_write_request` ends, as far as its caller tells the results apart. -/
inductive WriteRet
  | wait
  | comeback
  | error
deriving DecidableEq, Repr

/-- Under `FCGI_STATE_WRITE`. -/
def writeQueue (s : Sender) (w : Written) : Option (WriteRet × Sender) := do
  let s ← s.networkWrite w.count
  match w with
  | .ok _ => return (.wait, s.written)
  | .dropped _ =>
    if s.wb.bytesOut = 0 ∧ s.reconnects < 5 then return (.comeback, scgiReconnect s) else return (.error, s)
  | .failed _ => return (.error, s)

/-- Under `FCGI_STATE_PREPARE_WRITE`. -/
def prepareWrite (useOpenssl : Bool) (req : EnvCon) (host : EnvHost) (s : Sender) (w : Written) :
    Option (WriteRet × Sender) := do
  let s ← scgiCreateEnv useOpenssl req host s
  writeQueue { s with state := .write } w

/-- **`scgi_write_request`**. -/
def scgiWriteRequest (useOpenssl : Bool) (req : EnvCon) (host : EnvHost) (s : Sender) (c : Connect) (w : Written) :
    Option (WriteRet × Sender) :=
  match s.state with
  | .init =>
    match c with
    | .ok => prepareWrite useOpenssl req host { s with state := .prepareWrite } w
    | .delayed => some (.wait, { s with state := .connect })
    | .failed => some (.error, s)
    | .waitForFd => some (.wait, s)
  | .connect =>
    if c = .ok then prepareWrite useOpenssl req host { s with state := .prepareWrite } w else some (.error, s)
  | .prepareWrite => prepareWrite useOpenssl req host s w
  | .write => writeQueue s w
  | .read => some (.wait, s)

/-- **`scgi_send_request`**; the host has been chosen with the handler context. -/
def scgiSendRequest (useOpenssl : Bool) (req : EnvCon) (s : Sender) (c : Connect) (w : Written) : Option Sender :=
  match s.host with
  | none => some s.connectionClose
  | some host => do
    let (r, s) ← scgiWriteRequest useOpenssl req host s c w
    return if r = .error then s.connectionClose else s

/-! ## What is queued -/

/-- A pair of the environment. -/
def encodeHeader (p : Bytes × Bytes) : Bytes := p.1 ++ 0 :: (p.2 ++ [0])

def presentPairs (ps : List EnvPair) : List (Bytes × Bytes) := ps.filterMap fun p => p.2.map fun val => (p.1, val)

theorem foldl_scgiEnvAdd (ps : List EnvPair) (env : Bytes) :
    ps.foldl scgiEnvAdd env = env ++ (presentPairs ps).flatMap encodeHeader := by
  induction ps generalizing env with
  | nil => simp [presentPairs]
  | cons p ps ih =>
    rw [List.foldl_cons, ih]
    obtain ⟨key, val⟩ := p
    cases val with
    | none => rfl
    | some val => simp [scgiEnvAdd, presentPairs, encodeHeader]

/-- The environment as it is queued. -/
def netstring (env : Bytes) : Bytes := liUtostrn env.length ++ 58 :: (env ++ [44])

theorem decode_netstring (env t : Bytes) : Netstring.decode (netstring env ++ t) = some (env, t) := by
  obtain ⟨hne, hd, hn⟩ := liUtostrn_spec env.length
  have heq : netstring env ++ t = liUtostrn env.length ++ 58 :: (env ++ 44 :: t) := by
    simp [netstring]
  rw [heq]
  exact Netstring.decode_append hne hd hn t

theorem envBuffer_str (env : Bytes) : (envBuffer env).str = netstring env := by
  unfold envBuffer netstring
  simp only [Buffer.appendStringLen_str, Buffer.init_str, List.nil_append, List.append_assoc]
  rfl

variable {stream taken env : Bytes} {len : Nat} {s : Sender}

/-- **A request of which the first bytes `taken` of the body have been queued.** -/
structure Encoding (stream : Bytes) (len : Nat) (env taken : Bytes) (s : Sender) : Prop where
  carries : Carries stream len taken s
  queued : s.queued = netstring env ++ taken
  wbReqlen : s.wbReqlen = (netstring env).length + len

theorem Encoding.congr {s' : Sender} (h : Encoding stream len env taken s) (hc : Carries stream len taken s')
    (hq : s'.queued = s.queued) (hreq : s'.wbReqlen = s.wbReqlen) : Encoding stream len env taken s' where
  carries := hc
  queued := hq.trans h.queued
  wbReqlen := hreq.trans h.wbReqlen

theorem Encoding.appendContent (h : Encoding stream len env taken s) :
    Encoding stream len env (taken ++ s.con.contentQueue.content s.con.world) (appendContent s) ∧
      (appendContent s).con.contentQueue.content (appendContent s).con.world = [] := by
  obtain ⟨hc, hq, hnil, -⟩ := h.carries.moved
  refine ⟨⟨hc, ?_, h.wbReqlen⟩, hnil⟩
  unfold Scgi.appendContent
  dsimp only at hq ⊢
  rw [hq, h.queued, List.append_assoc]

theorem appendContent_same (s : Sender) : SameContext s (appendContent s) := by
  refine ⟨rfl, rfl, rfl, rfl, rfl, rfl, ?_⟩
  unfold appendContent Chunkqueue.appendChunkqueue
  split
  · rfl
  · rfl

/-- **What `scgi_create_env` queues** when nothing is queued: the environment, with all that there is of the body. -/
theorem createEnv_spec (useOpenssl : Bool) (req : EnvCon) (host : EnvHost) (h : Carries stream len [] s)
    (hq : s.queued = []) : ∃ s' taken, scgiCreateEnv useOpenssl req host s = some s' ∧
      Encoding stream len ((presentPairs (req.scgiEnv useOpenssl host s.con.contentLength)).flatMap encodeHeader) taken s' ∧
      s'.con.contentQueue.content s'.con.world = [] ∧ SameContext s s' := by
  have henv := foldl_scgiEnvAdd (req.scgiEnv useOpenssl host s.con.contentLength) []
  rw [List.nil_append] at henv
  unfold scgiCreateEnv
  rw [henv]
  generalize (presentPairs (req.scgiEnv useOpenssl host s.con.contentLength)).flatMap encodeHeader = env
  have hlen : ((envBuffer env).stringLength : Int) = (netstring env).length := by
    rw [Buffer.stringLength_eq, envBuffer_str]
  obtain ⟨wb, b', happ, hg, -⟩ := appendBuffer_grown h.wb.wf (envBuffer env)
  rw [envBuffer_str] at hg
  obtain ⟨hc, hq'⟩ := h.grown hg (envBuffer env).stringLength
  rw [hq, List.nil_append] at hq'
  dsimp only
  rw [happ, Option.bind_eq_bind, Option.bind_some]
  dsimp only
  by_cases h0 : s.con.contentLength = 0
  · rw [if_neg (not_not_intro h0)]
    have henc : Encoding stream len env [] { s with wb := wb, wbReqlen := (envBuffer env).stringLength } := by
      refine ⟨hc, ?_, ?_⟩
      · rw [List.append_nil]
        exact hq'
      · have hzero := h.contentLength
        dsimp only
        omega
    -- nothing can have come of an empty body
    have hnil : s.con.contentQueue.content s.con.world = [] := by
      have harrived := h.arrived
      have hannounced := h.announced
      have hzero := h.contentLength
      rw [List.nil_append] at harrived
      exact List.length_eq_zero_iff.mp (by omega)
    exact ⟨_, _, rfl, henc, hnil, rfl, rfl, rfl, rfl, rfl, rfl, rfl⟩
  · rw [if_pos h0]
    have henc : Encoding stream len env []
        { s with wb := wb, wbReqlen := (envBuffer env).stringLength + s.con.contentLength } := by
      refine ⟨hc.congr rfl rfl rfl, ?_, ?_⟩
      · rw [List.append_nil]
        exact hq'
      · have hsame := h.contentLength
        dsimp only
        omega
    have hsame := appendContent_same { s with wb := wb, wbReqlen := (envBuffer env).stringLength + s.con.contentLength }
    exact ⟨_, _, rfl, henc.appendContent.1, henc.appendContent.2, hsame.host, hsame.state, hsame.requestId, hsame.reconnects, hsame.wire, hsame.closed,
      hsame.bytesIn⟩

end Scgi
end Lighttpd
