import Lighttpd.Backend.Phase
import Lighttpd.Lib.Run
import Lighttpd.Scgi.Request

/-!
# Sending a request to a SCGI backend

The runs of a handler context of `mod_scgi`, with the retries of `scgi_write_request` and `scgi_recv_response`.
`runSend_phase` says what is queued in a run without a retry.
-/

namespace Lighttpd
namespace Scgi

open Backend Backend.Sender Chunkqueue

/-- What happens to a request. `recvClosed` is the end of the connection to the backend in `scgi_recv_response`. -/
inductive Op
  | readable
  | readPost (io : ReadIo) (ios : List Attempt)
  | send (c : Connect) (w : Written)
  | recvClosed (fileStarted : Bool)

/-- One step of a handler context that has not been freed. -/
def step (useOpenssl : Bool) (req : EnvCon) (s : Sender) (op : Op) : Option Sender :=
  if s.closed then some s
  else match op with
    | .readable => some s.readable
    | .readPost io ios => readPost (fun s => some (appendContent s)) s io ios
    | .send c w => scgiSendRequest useOpenssl req s c w
    | .recvClosed fileStarted => some (recvClosed scgiReconnect s fileStarted)

def runSend (useOpenssl : Bool) (req : EnvCon) (s : Sender) (ops : List Op) : Option Sender :=
  Run.run (step useOpenssl req) s ops

/-- **The steps that send the request again**: nothing has been written, the backend has closed the connection, and there
have been less than five retries. -/
def Retries (s : Sender) : Op → Prop
  | .send c w =>
    w = .dropped 0 ∧ s.wb.bytesOut = 0 ∧ s.reconnects < 5 ∧
      ((s.state = .init ∨ s.state = .connect) ∧ c = .ok ∨ s.state = .write)
  | .recvClosed fileStarted =>
    (s.state = .write ∨ s.state = .read) ∧ fileStarted = false ∧ s.wb.bytesOut = 0 ∧ s.reconnects < 5
  | _ => False

/-! ## The invariant -/

def envOf (useOpenssl : Bool) (req : EnvCon) (host : EnvHost) (len : Nat) : Bytes :=
  (presentPairs (req.scgiEnv useOpenssl host len)).flatMap encodeHeader

/-- The format of `mod_scgi`; the host has been chosen at the start. -/
def format (useOpenssl : Bool) (req : EnvCon) (stream : Bytes) (len : Nat) (host : EnvHost) : Format stream len where
  Ready chosen _ := chosen = some host
  Encodes host' taken s := host' = host ∧ Encoding stream len (envOf useOpenssl req host len) taken s
  carries h := h.2.carries
  queued_ne_nil := by
    rintro _ taken s ⟨-, h⟩ hnil
    have hlen := congrArg List.length (h.queued.symm.trans hnil)
    unfold netstring at hlen
    simp only [List.length_append, List.length_cons, List.length_nil] at hlen
    omega
  congr h hc hq _ hreq := ⟨h.1, h.2.congr hc hq hreq⟩

variable {useOpenssl : Bool} {req : EnvCon} {stream : Bytes} {len : Nat} {host : EnvHost} {s s' : Sender} {taken : Bytes}
variable {c : Connect} {w : Written} {r : WriteRet}

theorem appendContent_appends :
    (format useOpenssl req stream len host).Appends fun s => some (appendContent s) := by
  rintro _ taken s s' ⟨rfl, h⟩ - happ
  cases happ
  obtain ⟨henc, hnil⟩ := h.appendContent
  exact ⟨appendContent_same s, hnil, _, rfl, henc⟩

/-- **A write that is not retried.** -/
theorem writeQueue_phase (h : Sending (format useOpenssl req stream len host) host taken s)
    (hno : ¬ (w = .dropped 0 ∧ s.wb.bytesOut = 0 ∧ s.reconnects < 5)) (heq : writeQueue s w = some (r, s')) :
    Sending (format useOpenssl req stream len host) host taken s' := by
  obtain ⟨s₁, hwrite, h₁, hreconnects, hout⟩ := h.networkWrite w.count
  unfold writeQueue at heq
  rw [hwrite, Option.bind_eq_bind, Option.bind_some] at heq
  cases w with
  | ok n =>
    cases heq
    exact h₁.written
  | failed n =>
    cases heq
    exact h₁
  | dropped n =>
    dsimp only at heq
    split at heq
    · rename_i hretry
      have hcount : Written.count (.dropped n) = n := rfl
      have hcarries := (format useOpenssl req stream len host).carries h.encodes
      have hbal := hcarries.wb.balance
      have hwire := hcarries.wire
      obtain ⟨h0, hn⟩ : s.wb.bytesOut = 0 ∧ n = 0 := by
        have hpos := h.total_pos
        omega
      exact absurd ⟨by rw [hn], h0, by rw [← hreconnects]; exact hretry.2⟩ hno
    · cases heq
      exact h₁

theorem prepareWrite_phase (h : Carries stream len [] s) (hq : s.queued = []) (hhost : s.host = some host)
    (hno : ¬ (w = .dropped 0 ∧ s.wb.bytesOut = 0 ∧ s.reconnects < 5))
    (heq : prepareWrite useOpenssl req host s w = some (r, s')) :
    ∃ taken, Sending (format useOpenssl req stream len host) host taken s' := by
  obtain ⟨s₁, taken, hcreate, henc, hnil, hsame⟩ := createEnv_spec useOpenssl req host h hq
  rw [h.contentLength] at henc
  unfold prepareWrite at heq
  rw [hcreate, Option.bind_eq_bind, Option.bind_some] at heq
  have hqueued : (format useOpenssl req stream len host).Encodes host taken s₁ := ⟨rfl, henc⟩
  refine ⟨taken, writeQueue_phase (.created hqueued hnil (hsame.host.trans hhost)) ?_ heq⟩
  have hwire := henc.carries.wire
  have hwire' := h.wire
  rw [hsame.wire, ← hwire'] at hwire
  dsimp only
  rw [hwire, hsame.reconnects]
  exact hno

/-- **`scgi_write_request` without a retry.** -/
theorem writeRequest_phase (h : Phase (format useOpenssl req stream len host) s) (hopen : s.closed = false)
    (hno : ¬ Retries s (.send c w)) (heq : scgiWriteRequest useOpenssl req host s c w = some (r, s')) :
    Phase (format useOpenssl req stream len host) s' := by
  unfold scgiWriteRequest at heq
  cases h with
  | closed h =>
    rw [hopen] at h
    cases h
  | idle h =>
    have hprepare : (s.state = .init ∨ s.state = .connect) ∧ c = .ok →
        prepareWrite useOpenssl req host { s with state := .prepareWrite } w = some (r, s') →
        Phase (format useOpenssl req stream len host) s' := by
      intro hc hprepared
      have hcarries : Carries stream len [] { s with state := .prepareWrite } := h.carries.congr rfl rfl rfl
      obtain ⟨taken, hsend⟩ := prepareWrite_phase hcarries h.queued_nil h.ready
        (fun hr => hno ⟨hr.1, hr.2.1, hr.2.2, .inl hc⟩) hprepared
      exact .sending host taken hsend
    rcases h.state with hstate | hstate
    · rw [hstate] at heq
      cases c with
      | ok => exact hprepare ⟨.inl hstate, rfl⟩ heq
      | delayed =>
        cases heq
        exact .idle (h.congr rfl rfl rfl (.inr rfl) h.ready)
      | failed =>
        cases heq
        exact .idle h
      | waitForFd =>
        cases heq
        exact .idle h
    · rw [hstate] at heq
      dsimp only at heq
      split at heq
      · rename_i hok
        exact hprepare ⟨.inr hstate, hok⟩ heq
      · cases heq
        exact .idle h
  | sending host' taken h =>
    obtain rfl : host' = host := h.encodes.1
    rcases h.state with hstate | hstate
    · rw [hstate] at heq
      exact .sending host' taken (writeQueue_phase h (fun hr => hno ⟨hr.1, hr.2.1, hr.2.2, .inr hstate⟩) heq)
    · rw [hstate] at heq
      cases heq
      exact .sending host' taken h

/-- The host is the one that has been chosen. -/
theorem host_of_phase (h : Phase (format useOpenssl req stream len host) s) (hopen : s.closed = false) :
    s.host = some host := by
  cases h with
  | closed h =>
    rw [hopen] at h
    cases h
  | idle h => exact h.ready
  | sending host' taken h => rw [h.chosen, h.encodes.1]

/-- **`scgi_send_request` without a retry.** -/
theorem sendRequest_phase (h : Phase (format useOpenssl req stream len host) s) (hopen : s.closed = false)
    (hno : ¬ Retries s (.send c w)) (heq : scgiSendRequest useOpenssl req s c w = some s') :
    Phase (format useOpenssl req stream len host) s' := by
  unfold scgiSendRequest at heq
  rw [host_of_phase h hopen] at heq
  obtain ⟨⟨r, s₁⟩, hwrite, heq⟩ := Option.bind_eq_some_iff.mp heq
  have h₁ := writeRequest_phase h hopen hno hwrite
  cases heq
  split
  · exact .closed rfl
  · exact h₁

theorem step_phase {op : Op} (h : Phase (format useOpenssl req stream len host) s)
    (hno : s.closed = false → ¬ Retries s op) (heq : step useOpenssl req s op = some s') :
    Phase (format useOpenssl req stream len host) s' := by
  unfold step at heq
  split at heq
  · cases heq
    exact h
  · rename_i hopen
    rw [Bool.not_eq_true] at hopen
    cases op with
    | readable =>
      cases heq
      exact readable_phase h
    | readPost io ios => exact readPost_phase appendContent_appends h heq hopen
    | send c w => exact sendRequest_phase h hopen (hno hopen) heq
    | recvClosed fileStarted =>
      cases heq
      unfold recvClosed
      split
      · rename_i hstate
        split
        · rename_i hretry
          exact absurd ⟨hstate, hretry⟩ (hno hopen)
        · exact .closed rfl
      · exact h

/-- **Every run without a retry keeps the invariant.** -/
theorem runSend_phase {ops : List Op} (h : Phase (format useOpenssl req stream len host) s)
    (hno : Run.Meets (step useOpenssl req) (fun s op => s.closed = false → ¬ Retries s op) s ops)
    (heq : runSend useOpenssl req s ops = some s') : Phase (format useOpenssl req stream len host) s' := by
  refine Run.run_keeps ?_ h hno heq
  intro s op s' hs hok hstep
  exact step_phase hs hok hstep

/-- **What is queued at the end of such a run.** -/
theorem sending_of_run {con : Conn} (h : Started con) {ops : List Op}
    (hno : Run.Meets (step useOpenssl req) (fun s op => s.closed = false → ¬ Retries s op)
      { start con with host := some host } ops)
    (hrun : runSend useOpenssl req { start con with host := some host } ops = some s) (hopen : s.closed = false)
    (hstate : s.state = .write ∨ s.state = .read) :
    ∃ taken, Sending (format useOpenssl req (bodyStream con) con.contentLength host) host taken s := by
  have hidle : Idle (format useOpenssl req (bodyStream con) con.contentLength host)
      { start con with host := some host } := ⟨h.carries (some host), .inl rfl, rfl, rfl⟩
  obtain ⟨host', taken, hsend⟩ := (runSend_phase (.idle hidle) hno hrun).sending_of_state hopen hstate
  obtain rfl : host' = host := hsend.encodes.1
  exact ⟨taken, hsend⟩

end Scgi
end Lighttpd
