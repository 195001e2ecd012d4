import Lighttpd.Backend.Phase
import Lighttpd.Fcgi.Request
import Lighttpd.Lib.Run

/-!
# Sending a request to a FastCGI backend

`fcgi_send_request` connects to the backend, queues the request and writes it, while `mod_fastcgi_handle_subrequest`
queues more of the body as it arrives. `round_trip` is the main result: the records that have been queued decode to the
request.
-/

namespace Lighttpd
namespace Fcgi

open Backend Backend.Sender Chunkqueue FcgiRecord

/-- Under `FCGI_STATE_WRITE`; the result is whether it is not `HANDLER_ERROR`. -/
def writeQueue (s : Sender) (w : Written) : Option (Bool × Sender) := do
  let s ← s.networkWrite w.count
  match w with
  | .ok _ => return (true, s.written)
  | .failed _ | .dropped _ => return (false, s)

/-- Under `FCGI_STATE_PREPARE_WRITE`. -/
def prepareWrite (req : EnvCon) (host : EnvHost) (s : Sender) (w : Written) : Option (Bool × Sender) := do
  let s := if s.requestId = 0 then { s with requestId := 1 } else s
  let (ok, s) ← fcgiCreateEnv req host s
  if ok then writeQueue { s with state := .write } w else return (false, s)

/-- **`fcgi_write_request`**. A connect that succeeds at once resets `reconnects`. -/
def fcgiWriteRequest (req : EnvCon) (host : EnvHost) (s : Sender) (c : Connect) (w : Written) :
    Option (Bool × Sender) :=
  match s.state with
  | .init =>
    match c with
    | .ok => prepareWrite req host { s with state := .prepareWrite, reconnects := 0 } w
    | .delayed => some (true, { s with state := .connect })
    | .failed => some (false, s)
    | .waitForFd => some (true, s)
  | .connect => if c = .ok then prepareWrite req host { s with state := .prepareWrite } w else some (false, s)
  | .prepareWrite => prepareWrite req host s w
  | .write => writeQueue s w
  | .read => some (true, s)

/-- **`fcgi_reconnect`**: the queue to the backend and `wb_reqlen` stay as they are. -/
def fcgiReconnect (s : Sender) : Sender :=
  { s with state := .init, requestId := 0, reconnects := s.reconnects + 1, host := none, wire := [] }

/-- **`fcgi_send_request`**; `host` is the one that is chosen when there is none, if any is up. -/
def fcgiSendRequest (req : EnvCon) (host : Option EnvHost) (s : Sender) (c : Connect) (w : Written) : Option Sender :=
  match s.host.or host with
  | none => some s.connectionClose
  | some host => do
    let (ok, s) ← fcgiWriteRequest req host { s with host := some host } c w
    if ok then return s
    else if (s.state = .init ∨ s.state = .connect) ∧ s.reconnects < 5 then return fcgiReconnect s
    else return s.connectionClose

/-- What happens to a request. `readable` is `connection_handle_fdevent`, or the write above that triggers a read. -/
inductive Op
  | readable
  | readPost (io : ReadIo) (ios : List Attempt)
  | send (host : Option EnvHost) (c : Connect) (w : Written)

/-- One step of a handler context that has not been freed. -/
def step (req : EnvCon) (s : Sender) (op : Op) : Option Sender :=
  if s.closed then some s
  else match op with
    | .readable => some s.readable
    | .readPost io ios => readPost fcgiStdinAppend s io ios
    | .send host c w => fcgiSendRequest req host s c w

def runSend (req : EnvCon) (s : Sender) (ops : List Op) : Option Sender := Run.run (step req) s ops

/-! ## The invariant -/

/-- **The request has been queued**, with `pieces` of the body: `pairs` are all those of the environment for the host. -/
structure Queued (req : EnvCon) (stream : Bytes) (len : Nat) (host : EnvHost) (pairs : List (Bytes × Bytes))
    (pieces : List Bytes) (s : Sender) : Prop where
  accepted : req.fcgiEnv host len = pairs.map fun p => (p.1, some p.2)
  fits : (pairs.flatMap encodePair).length < maxLength
  requestId : s.requestId = 1
  encoding : Encoding stream len host.mode (pairs.flatMap encodePair) pieces (decide (pieces.flatten.length = len)) s

def format (req : EnvCon) (stream : Bytes) (len : Nat) : Format stream len where
  Ready _ requestId := requestId = 0
  Encodes host taken s := ∃ pairs pieces, taken = pieces.flatten ∧ Queued req stream len host pairs pieces s
  carries := by
    rintro host _ s ⟨pairs, pieces, rfl, h⟩
    exact h.encoding.carries
  queued_ne_nil := by
    rintro host _ s ⟨pairs, pieces, -, h⟩ hnil
    have hlen := congrArg List.length (h.encoding.queued.symm.trans hnil)
    rw [length_records, List.length_nil] at hlen
    omega
  congr := by
    rintro host _ s s' ⟨pairs, pieces, rfl, h⟩ hc hq hid hreq
    exact ⟨pairs, pieces, rfl, h.accepted, h.fits, hid.trans h.requestId, h.encoding.congr hc hq hid hreq⟩

variable {req : EnvCon} {stream : Bytes} {len : Nat} {s s' : Sender} {host : EnvHost} {taken : Bytes} {ok : Bool}
variable {c : Connect} {w : Written}

theorem stdinAppend_appends : (format req stream len).Appends fcgiStdinAppend := by
  rintro host _ s s' ⟨pairs, pieces, rfl, h⟩ hlt happ
  have hcount := h.encoding.counters
  have hnot : ¬ pieces.flatten.length = len := by omega
  have henc := h.encoding
  rw [decide_eq_false hnot] at henc
  obtain ⟨s₁, pieces', hstdin, henc', hnil, hsame⟩ := stdinAppend_spec henc
  rw [happ] at hstdin
  cases hstdin
  exact ⟨hsame, hnil, _, pairs, pieces', rfl, h.accepted, h.fits, hsame.requestId.trans h.requestId, henc'⟩

theorem writeQueue_phase (h : Sending (format req stream len) host taken s) (heq : writeQueue s w = some (ok, s')) :
    Sending (format req stream len) host taken s' := by
  obtain ⟨s₁, hwrite, h₁, -, -⟩ := h.networkWrite w.count
  unfold writeQueue at heq
  rw [hwrite, Option.bind_eq_bind, Option.bind_some] at heq
  cases w with
  | ok n =>
    cases heq
    exact h₁.written
  | failed n =>
    cases heq
    exact h₁
  | dropped n =>
    cases heq
    exact h₁

theorem prepareWrite_phase (h : Carries stream len [] s) (hq : s.queued = []) (hhost : s.host = some host)
    (hid : s.requestId = 0) (hstate : s.state = .prepareWrite) (heq : prepareWrite req host s w = some (ok, s')) :
    (∃ taken, Sending (format req stream len) host taken s') ∨ ok = false ∧ s'.state = .prepareWrite := by
  unfold prepareWrite at heq
  rw [if_pos hid] at heq
  dsimp only at heq
  have h₁ : Carries stream len [] { s with requestId := 1 } := h.congr rfl rfl rfl
  rcases createEnv_spec req host h₁ hq with
    ⟨env, pairs, s₁, pieces, hcreate, hpairs, rfl, hfits, henc, hnil, hsame⟩ | ⟨con, hcreate⟩
  · rw [hcreate] at heq
    simp only [Option.bind_eq_bind, Option.bind_some, if_true] at heq
    have hqueued : (format req stream len).Encodes host pieces.flatten s₁ :=
      ⟨pairs, pieces, rfl, hpairs, hfits, hsame.requestId, henc⟩
    exact .inl ⟨_, writeQueue_phase (.created hqueued hnil (hsame.host.trans hhost)) heq⟩
  · rw [hcreate] at heq
    cases heq
    exact .inr ⟨rfl, hstate⟩

/-- **`fcgi_write_request`** keeps the invariant, or ends the request. -/
theorem writeRequest_phase (h : Phase (format req stream len) s) (hopen : s.closed = false) (hhost : s.host = some host)
    (heq : fcgiWriteRequest req host s c w = some (ok, s')) :
    Idle (format req stream len) s' ∨ (∃ taken, Sending (format req stream len) host taken s') ∨
      ok = false ∧ s'.state = .prepareWrite := by
  unfold fcgiWriteRequest at heq
  cases h with
  | closed h =>
    rw [hopen] at h
    cases h
  | idle h =>
    rcases h.state with hstate | hstate
    · rw [hstate] at heq
      cases c with
      | ok =>
        have hc : Carries stream len [] { s with state := .prepareWrite, reconnects := 0 } := h.carries.congr rfl rfl rfl
        exact .inr (prepareWrite_phase hc h.queued_nil hhost h.ready rfl heq)
      | delayed =>
        cases heq
        exact .inl (h.congr rfl rfl rfl (.inr rfl) h.ready)
      | failed =>
        cases heq
        exact .inl h
      | waitForFd =>
        cases heq
        exact .inl h
    · rw [hstate] at heq
      dsimp only at heq
      split at heq
      · have hc : Carries stream len [] { s with state := .prepareWrite } := h.carries.congr rfl rfl rfl
        exact .inr (prepareWrite_phase hc h.queued_nil hhost h.ready rfl heq)
      · cases heq
        exact .inl h
  | sending host' taken h =>
    obtain rfl : host' = host := Option.some.inj (h.chosen.symm.trans hhost)
    rcases h.state with hstate | hstate
    · rw [hstate] at heq
      exact .inr (.inl ⟨taken, writeQueue_phase h heq⟩)
    · rw [hstate] at heq
      cases heq
      exact .inr (.inl ⟨taken, h⟩)

/-- **`fcgi_send_request`** keeps the invariant: it reconnects only while nothing has been queued. -/
theorem sendRequest_phase {host : Option EnvHost} (h : Phase (format req stream len) s) (hopen : s.closed = false)
    (heq : fcgiSendRequest req host s c w = some s') : Phase (format req stream len) s' := by
  unfold fcgiSendRequest at heq
  split at heq
  · cases heq
    exact .closed rfl
  · rename_i host' hhost
    have h₁ : Phase (format req stream len) { s with host := some host' } := by
      cases h with
      | closed h => exact .closed h
      | idle h => exact .idle (h.congr rfl rfl rfl h.state h.ready)
      | sending host₀ taken h =>
        rw [h.chosen, Option.some_or] at hhost
        exact .sending host₀ taken (h.congr rfl rfl rfl rfl rfl (hhost.symm.trans h.chosen.symm) h.state)
    obtain ⟨⟨ok, s₁⟩, hwrite, heq⟩ := Option.bind_eq_some_iff.mp heq
    have hcases := writeRequest_phase h₁ hopen rfl hwrite
    dsimp only at heq
    split at heq
    · rename_i hok
      cases heq
      rcases hcases with hidle | ⟨taken, hsend⟩ | ⟨hno, -⟩
      · exact .idle hidle
      · exact .sending host' taken hsend
      · rw [hok] at hno
        cases hno
    · split at heq
      · rename_i hretry
        cases heq
        -- a connection that has got as far as a request is not retried here
        rcases hcases with hidle | ⟨taken, hsend⟩ | ⟨-, hstate⟩
        · exact .idle (hidle.congr rfl rfl hidle.wire_nil.symm (.inl rfl) rfl)
        · rcases hsend.state with hstate | hstate
          · rw [hstate] at hretry
            exact absurd hretry.1 (by decide)
          · rw [hstate] at hretry
            exact absurd hretry.1 (by decide)
        · rw [hstate] at hretry
          exact absurd hretry.1 (by decide)
      · cases heq
        exact .closed rfl

theorem step_phase {op : Op} (h : Phase (format req stream len) s) (heq : step req s op = some s') :
    Phase (format req stream len) s' := by
  unfold step at heq
  split at heq
  · cases heq
    exact h
  · rename_i hopen
    rw [Bool.not_eq_true] at hopen
    cases op with
    | readable =>
      cases heq
      exact readable_phase h
    | readPost io ios => exact readPost_phase stdinAppend_appends h heq hopen
    | send host c w => exact sendRequest_phase h hopen heq

/-- **Every run keeps the invariant.** -/
theorem runSend_phase {ops : List Op} (h : Phase (format req stream len) s) (heq : runSend req s ops = some s') :
    Phase (format req stream len) s' := by
  refine Run.run_keeps ?_ h (Run.meets_of_forall (fun _ _ => trivial) s ops) heq
  intro s op s' hs _ hstep
  exact step_phase hs hstep

theorem idle_start {con : Conn} (h : Started con) :
    Idle (format req (bodyStream con) con.contentLength) (.start con) where
  carries := h.carries none
  state := .inl rfl
  bytesIn := rfl
  ready := rfl

/-- **What is queued decodes to the request**, by whole records: the one that begins the request, the stream of the
pairs in one record and its end in an empty one, and the body. The pairs that the stream consists of are those of the
environment, in their order. The contents of the records of the body make up all of the body that has come, of which
nothing is left over, and the end of the body follows exactly when that is all of it; no other record is empty. -/
def RequestEncoded (req : EnvCon) (con : Conn) (s : Sender) : Prop :=
  ∃ (host : EnvHost) (pairs : List (Bytes × Bytes)) (env : Bytes) (pieces : List Bytes), s.host = some host ∧
    req.fcgiEnv host con.contentLength = pairs.map (fun p => (p.1, some p.2)) ∧ DecodesPairs env pairs ∧ env ≠ [] ∧
    Decodes s.queued ([record beginRequest 1 [0, host.mode, 0, 0, 0, 0, 0, 0], record params 1 env,
      record params 1 []] ++ (pieces.map (record stdin 1) ++
        if pieces.flatten.length = con.contentLength then [record stdin 1 []] else [])) [] ∧
    (∀ p ∈ pieces, p ≠ []) ∧ pieces.flatten = (bodyStream con).take s.con.contentQueue.bytesIn.toNat ∧
    s.con.contentQueue.content s.con.world = [] ∧ s.con.contentQueue.bytesIn ≤ con.contentLength

/-- The stream of the environment is not empty, and decodes to its pairs. -/
theorem Queued.pairs_decode {pairs : List (Bytes × Bytes)} {pieces : List Bytes}
    (h : Queued req stream len host pairs pieces s) :
    DecodesPairs (pairs.flatMap encodePair) pairs ∧ pairs.flatMap encodePair ≠ [] := by
  constructor
  · refine decodesPairs_encode fun p hp => ?_
    have hle := length_encodePair_le hp
    have hfits := h.fits
    unfold maxLength at hfits
    omega
  · intro hnil
    cases hp : pairs with
    | nil =>
      have hmap := h.accepted
      rw [hp] at hmap
      cases hmap
    | cons p ps =>
      have hlen := congrArg List.length hnil
      rw [hp, List.flatMap_cons] at hlen
      unfold encodePair encodeLength at hlen
      split at hlen
      · simp at hlen
      · simp at hlen

theorem requestEncoded {con : Conn} (h : Sending (format req (bodyStream con) con.contentLength) host taken s) :
    RequestEncoded req con s := by
  obtain ⟨pairs, pieces, rfl, hqueued⟩ := h.encodes
  obtain ⟨hpairs, hne⟩ := hqueued.pairs_decode
  refine ⟨host, pairs, _, pieces, h.chosen, hqueued.accepted, hpairs, hne, ?_, hqueued.encoding.nonempty, h.taken_eq,
    h.drained, hqueued.encoding.carries.announced⟩
  have hq := hqueued.encoding.queued
  rw [hqueued.requestId] at hq
  have hfits := @records_fits 1 host.mode _ _ (by decide) hqueued.fits hqueued.encoding.size
    (decide (pieces.flatten.length = con.contentLength))
  have hdec := decodes_encode hfits
  rw [← hq] at hdec
  unfold records at hdec
  simp only [decide_eq_true_eq] at hdec
  exact hdec

/-- **The records of a request decode to it**, in every run, however the body arrives and is written. -/
theorem round_trip (req : EnvCon) (con : Conn) (h : Started con) (ops : List Op) (s : Sender)
    (hrun : runSend req (.start con) ops = some s) (hopen : s.closed = false)
    (hstate : s.state = .write ∨ s.state = .read) : RequestEncoded req con s := by
  have hphase := runSend_phase (.idle (idle_start h)) hrun
  obtain ⟨host, taken, hsend⟩ := hphase.sending_of_state hopen hstate
  exact requestEncoded hsend

/-- A request with a body of two bytes; one of them has come. -/
def sampleRequestCon : Conn :=
  { Conn.sampleConn with
    readQueue := ⟨[⟨.memChunk, .ofString (ascii "a"), Chunk.noFile, 0⟩], [], 1, 0, none, 1024, 0⟩
    state := .readPost }

theorem sampleRequestCon_started : Started sampleRequestCon where
  body := ⟨⟨⟨by decide, nofun⟩, by unfold AllMem; decide⟩, ⟨nofun, nofun⟩, fun _ => nofun,
    fun _ => .nil _⟩
  balance := .init none 1024
  announced := by decide
  untouched := rfl

def sampleReq : EnvCon where
  serverTag := .ofString (ascii "lighttpd")
  serverName := .ofString (ascii "localhost:80")
  srvSocketAddr := ascii "0.0.0.0"
  serverPort := 80
  serverAddr := ascii "127.0.0.1"
  remotePort := 50000
  remoteAddr := ascii "127.0.0.1"
  uriPath := .ofString (ascii "/a")
  uriQuery := .init
  uriScheme := .ofString (ascii "http")
  pathinfo := .init
  physicalPath := .ofString (ascii "/www/a")
  physicalBasedir := .ofString (ascii "/www")
  uri := .ofString (ascii "/a")
  origUri := .ofString (ascii "/a")
  httpMethod := .post
  httpVersion := .http11
  errorHandlerSavedStatus := 0
  headers := [(.ofString (ascii "Host"), .ofString (ascii "localhost"))]
  environment := []

def sampleEnvHost : EnvHost := ⟨1, .init, .init, false⟩

/-- The first byte of the body is read and the request is sent in part; then the second one is read. -/
def sampleSend : List Op :=
  [.readPost ⟨none, .error .eagain⟩ [], .send (some sampleEnvHost) .ok (.ok 10), .readable, .readPost ⟨none, .got 1⟩ []]

theorem round_trip_sample : ∃ s, runSend sampleReq (.start sampleRequestCon) sampleSend = some s ∧
    s.con.contentQueue.bytesIn = 2 ∧ RequestEncoded sampleReq sampleRequestCon s := by
  have hrun : (runSend sampleReq (.start sampleRequestCon) sampleSend).map
      (fun s => (s.closed, s.state, s.con.contentQueue.bytesIn)) = some (false, .write, 2) := by decide +kernel
  obtain ⟨s, hs, hout⟩ := Option.map_eq_some_iff.mp hrun
  obtain ⟨hclosed, hout⟩ := Prod.mk.inj hout
  obtain ⟨hstate, hin⟩ := Prod.mk.inj hout
  exact ⟨s, hs, hin, round_trip sampleReq sampleRequestCon sampleRequestCon_started sampleSend s hs hclosed (.inl hstate)⟩

end Fcgi
end Lighttpd
