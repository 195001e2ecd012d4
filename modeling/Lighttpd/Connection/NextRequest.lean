import Lighttpd.Connection.StateMachine
import Lighttpd.Chunk.Invariant
import Lighttpd.Http.ChunkStream

/-!
# The start of the next request

The stream of the client behind the header of a request is the body and then the next request. `Taken` says what has
been taken off it while a request is handled: either `content_length` still announces the body and the queue of the body
counts what has been taken, or all of the body has been taken and `content_length` is zero.

- `act_taken`, `step_pending`: whatever a plugin does and whatever happens keeps this, or the connection is closed;
- `next_request`: the next request starts behind the body.
-/

namespace Lighttpd
open Request Chunkqueue

namespace Conn

/-- **What is taken of the stream behind the header**, by a request with a body of `len` bytes. -/
structure Taken (stream : Bytes) (len : Nat) (con : Conn) : Prop where
  body : BodyOk con
  queue : QueueOk con.contentQueue
  bytesOut : 0 ≤ con.contentQueue.bytesOut
  taken : ∃ taken, stream = taken ++ (con.waiting ++ con.socket) ∧
    ((con.contentLength = len ∧ con.contentQueue.bytesIn = taken.length ∧ taken.length ≤ len) ∨
      (con.contentLength = 0 ∧ con.contentQueue.bytesIn = 0 ∧ taken.length = len))

/-- The parts of a connection that say what has been taken. -/
structure SameTaken (con con' : Conn) : Prop where
  readQueue : con'.readQueue = con.readQueue
  contentQueue : con'.contentQueue = con.contentQueue
  world : con'.world = con.world
  socket : con'.socket = con.socket
  contentLength : con'.contentLength = con.contentLength

variable {stream : Bytes} {len : Nat} {con con' : Conn}

theorem Taken.congr (h : Taken stream len con) (hs : SameTaken con con') : Taken stream len con' := by
  obtain ⟨hq, hc, hw, hsock, hlen⟩ := hs
  refine ⟨⟨⟨hq ▸ h.body.ok.wf, hq ▸ h.body.ok.mem⟩, hc ▸ h.body.wf, ?_, ?_⟩, hc ▸ h.queue, hc ▸ h.bytesOut, ?_⟩
  · rw [hlen, hc, hw]
    exact h.body.inFiles
  · rw [hlen, hc, hw]
    exact h.body.coherent
  · rw [hlen, hc, hsock, waiting, hq]
    exact h.taken

/-! ## The queue of the body -/

variable {s : Chunkqueue} {n : Nat} {io : ReadIo} {ios : List Attempt}

theorem Taken.consumed (h : Taken stream len con) (hd : Drained con.contentQueue s n)
    (hout : s.bytesOut = con.contentQueue.bytesOut + n)
    (hcoh : Coherent con.world con.contentQueue.chunks → Coherent con.world s.chunks) :
    Taken stream len { con with contentQueue := s } where
  body := ⟨⟨h.body.ok.wf, h.body.ok.mem⟩, hd.wf, fun hsmall => hd.inFiles con.world (h.body.inFiles hsmall),
    fun hbig => hcoh (h.body.coherent hbig)⟩
  queue := h.queue.drained hd hout
  bytesOut := by
    have := h.bytesOut
    show 0 ≤ s.bytesOut
    omega
  taken := by
    obtain ⟨taken, hstream, hcount⟩ := h.taken
    refine ⟨taken, hstream, ?_⟩
    show _ ∧ s.bytesIn = _ ∧ _ ∨ _ ∧ s.bytesIn = 0 ∧ _
    rw [hd.bytesIn]
    exact hcount

/-- The queue of the body is left empty, and still counts what it has received. -/
theorem Taken.emptied (h : Taken stream len con) (hs : QueueOk s) (hnil : s.chunks = [])
    (hin : s.bytesIn = con.contentQueue.bytesIn) (hout : 0 ≤ s.bytesOut) :
    Taken stream len { con with contentQueue := s } where
  body := ⟨⟨h.body.ok.wf, h.body.ok.mem⟩, hs.wf, fun _ => (sound_nil hs.wf hnil).inFiles,
    fun _ => (sound_nil hs.wf hnil).coherent⟩
  queue := hs
  bytesOut := hout
  taken := by
    obtain ⟨taken, hstream, hcount⟩ := h.taken
    exact ⟨taken, hstream, hin ▸ hcount⟩

theorem Taken.forwarded (h : Taken stream len con) (dest : Chunkqueue) :
    Taken stream len { con with contentQueue := (dest.appendChunkqueue con.contentQueue).2 } := by
  unfold appendChunkqueue
  split
  · exact h.congr ⟨rfl, rfl, rfl, rfl, rfl⟩
  · have hb := h.queue.balance
    have ho := h.bytesOut
    refine h.emptied ⟨⟨nofun, h.body.wf.idle⟩, by simp [total]⟩ rfl rfl ?_
    show 0 ≤ con.contentQueue.bytesIn
    omega

theorem Taken.stolen (h : Taken stream len con) {dest d : Chunkqueue} (hdest : dest.WF)
    (heq : dest.steal con.contentQueue n = some (d, s)) : Taken stream len { con with contentQueue := s } := by
  obtain ⟨d₁, s₁, heq₁, hst⟩ := steal_spec hdest h.body.wf n
  obtain ⟨rfl, rfl⟩ := Prod.mk.inj (Option.some.inj (heq.symm.trans heq₁))
  exact h.consumed hst.drained hst.srcOut fun hcoh => steal_go_coherent h.body.wf hcoh rfl heq

theorem Taken.written (h : Taken stream len con)
    (heq : con.contentQueue.markWritten n = some s) : Taken stream len { con with contentQueue := s } := by
  obtain ⟨s₁, heq₁, hd, hout⟩ := markWritten_spec h.body.wf (markWritten_le h.body.wf heq)
  obtain rfl : s = s₁ := Option.some.inj (heq.symm.trans heq₁)
  exact h.consumed hd hout fun hcoh => (markWritten_sound ⟨h.body.wf, hcoh⟩ heq).1.coherent

/-! ## Reading the body -/

theorem Taken.received (h : Taken stream len con) {data : Bytes} (hrec : Received con con' data) :
    Taken stream len con' where
  body := hrec.bodyOk h.body
  queue := hrec.same.contentQueue ▸ h.queue
  bytesOut := hrec.same.contentQueue ▸ h.bytesOut
  taken := by
    obtain ⟨taken, hstream, hcount⟩ := h.taken
    refine ⟨taken, ?_, ?_⟩
    · rw [hstream, hrec.socket, hrec.waiting, List.append_assoc]
    · rw [hrec.same.contentQueue, hrec.same.contentLength]
      exact hcount

/-- The next bytes of the body go from the read queue to the queue of the body. -/
theorem Taken.bodyRead (h : Taken stream len con) {data body : Bytes} (hread : BodyRead con con' data body)
    (hok : BodyOk con') (hout : con'.contentQueue.bytesOut = con.contentQueue.bytesOut) : Taken stream len con' where
  body := hok
  queue := by
    have hlen : con'.contentQueue.total = con.contentQueue.total + body.length := by
      rw [← hok.length_content, ← h.body.length_content, hread.content, List.length_append]
    have := h.queue.balance
    have := hread.bytesIn
    exact ⟨hok.wf, by omega⟩
  bytesOut := hout ▸ h.bytesOut
  taken := by
    obtain ⟨taken, hstream, hcount⟩ := h.taken
    have hmove : con.waiting ++ con.socket = body ++ (con'.waiting ++ con'.socket) := by
      rw [hread.socket, ← List.append_assoc, hread.stream, List.append_assoc]
    have hlen := hread.length
    have hin := hread.bytesIn
    unfold missing at hlen
    refine ⟨taken ++ body, by rw [hstream, hmove, List.append_assoc], ?_⟩
    rw [List.length_append, hread.contentLength]
    omega

/-- What a call of `connection_handle_read_post_state` does to `keep_alive` and to the state. -/
structure FlagsKept (con con' : Conn) : Prop where
  keepAlive : con'.keepAlive = con.keepAlive
  state : con'.state = con.state ∨ con'.state = .error ∨ con'.state = .handleRequest

theorem FlagsKept.trans {con'' : Conn} (h : FlagsKept con con') (h' : FlagsKept con' con'') : FlagsKept con con'' := by
  refine ⟨h'.keepAlive.trans h.keepAlive, ?_⟩
  rcases h'.state with hs | hs
  · rw [hs]
    exact h.state
  · exact Or.inr hs

theorem connectionHandleRead_flags {ret : ReadRet} (heq : con.connectionHandleRead io = some (ret, con')) :
    FlagsKept con con' := by
  unfold connectionHandleRead at heq
  obtain ⟨⟨cq, n⟩, -, heq⟩ := Option.bind_eq_some_iff.mp heq
  cases hread : io.read with
  | error e =>
    rw [hread] at heq
    obtain ⟨cq', -, heq⟩ := Option.bind_eq_some_iff.mp heq
    dsimp only at heq
    split at heq
    · cases heq
      exact ⟨rfl, Or.inl rfl⟩
    · split at heq
      · cases heq
        exact ⟨rfl, Or.inl rfl⟩
      · cases heq
        exact ⟨rfl, Or.inr (Or.inl rfl)⟩
  | got n =>
    rw [hread] at heq
    obtain ⟨cq', -, heq⟩ := Option.bind_eq_some_iff.mp heq
    dsimp only at heq
    split at heq
    · cases heq
      exact ⟨rfl, Or.inl rfl⟩
    · cases heq
      exact ⟨rfl, Or.inl rfl⟩

theorem stealBody_flags {ok : Bool} (heq : con.stealBody ios = some (ok, con')) : FlagsKept con con' := by
  unfold stealBody at heq
  split at heq
  · obtain ⟨r, -, heq⟩ := Option.map_eq_some_iff.mp heq
    cases heq
    exact ⟨rfl, Or.inl rfl⟩
  · obtain ⟨r, -, heq⟩ := Option.map_eq_some_iff.mp heq
    cases heq
    exact ⟨rfl, Or.inl rfl⟩

/-- `keep_alive` stays as it is, unless the body cannot be stored. -/
theorem readPost_flags {ret : HandlerRet} (heq : con.connectionHandleReadPostState io ios = some (ret, con')) :
    (con'.state = con.state ∨ con'.state = .error ∨ con'.state = .handleRequest) ∧
      (con'.keepAlive = true → con.keepAlive = true ∧ ret ≠ .finished) := by
  obtain ⟨⟨rret, con₁⟩, hread, heq⟩ := Option.bind_eq_some_iff.mp heq
  have h₁ : FlagsKept con con₁ := by
    unfold readIfReadable at hread
    split at hread
    · exact connectionHandleRead_flags hread
    · cases hread
      exact ⟨rfl, Or.inl rfl⟩
  dsimp only at heq
  split at heq
  · cases heq
    exact ⟨h₁.state, fun hka => ⟨h₁.keepAlive ▸ hka, by simp⟩⟩
  · obtain ⟨cq, -, heq⟩ := Option.bind_eq_some_iff.mp heq
    obtain ⟨⟨ok, con₂⟩, hsteal, heq⟩ := Option.bind_eq_some_iff.mp heq
    have hqueue : FlagsKept con₁ { con₁ with readQueue := cq } := ⟨rfl, Or.inl rfl⟩
    have h₂ : FlagsKept con con₂ := (h₁.trans hqueue).trans (stealBody_flags hsteal)
    split at heq
    · cases heq
      exact ⟨h₂.state, by simp⟩
    · obtain ⟨cq', -, heq⟩ := Option.bind_eq_some_iff.mp heq
      have hka : con₂.keepAlive = true → con.keepAlive = true := fun hka => h₂.keepAlive ▸ hka
      split at heq
      · cases heq
        refine ⟨?_, fun h => ⟨hka h, by simp⟩⟩
        show (if con₂.state = .readPost then ConState.handleRequest else con₂.state) = _ ∨ _
        split
        · exact Or.inr (Or.inr rfl)
        · exact h₂.state
      · split at heq
        · cases heq
          exact ⟨h₂.state, fun h => ⟨hka h, by simp⟩⟩
        · cases heq
          refine ⟨h₂.state, fun h => ⟨hka h, ?_⟩⟩
          split <;> simp

/-- **One call of `connection_handle_read_post_state`** that can store the body. -/
theorem Taken.readPost (h : Taken stream len con) {ret : HandlerRet}
    (heq : con.connectionHandleReadPostState io ios = some (ret, con')) (hret : ret ≠ .finished) :
    Taken stream len con' := by
  rcases hard_or_soft h.body heq with ⟨-, data, hrec⟩ | ⟨io', hsoft, heq⟩
  · exact h.received hrec
  · obtain ⟨data, body, hread, hok, hkept⟩ := connectionHandleReadPostState_spec h.body hsoft heq hret
    exact h.bodyRead hread hok hkept.bytesOut

end Conn

namespace Exchange
open Conn

variable {stream : Bytes} {len : Nat} {e e' : Exchange}

/-- **A request whose response has not ended**: if the connection is kept, it is known what has been taken. -/
structure Pending (stream : Bytes) (len : Nat) (e : Exchange) : Prop where
  state : e.state ≠ .requestStart
  taken : e.keepAlive = true → Taken stream len e.toConn

/-- **The next request starts behind a body of `len` bytes.** -/
structure Next (stream : Bytes) (len : Nat) (e : Exchange) : Prop where
  state : e.state = .requestStart
  body : ∃ body, stream = body ++ (e.waiting ++ e.socket) ∧ body.length = len

/-- What has been taken stays the same, and the connection is not kept if it was not to be kept before. -/
theorem Pending.congr (h : Pending stream len e) (hs : SameTaken e.toConn e'.toConn)
    (hka : e'.keepAlive = true → e.keepAlive = true) (hstate : e'.state ≠ .requestStart) : Pending stream len e' :=
  ⟨hstate, fun hkeep => (h.taken (hka hkeep)).congr hs⟩

/-- The lengths of accepted requests are those of `off_t`. -/
theorem toOff_of_le {n : Nat} (h : n ≤ ssizeMax) : toOff n = n := by
  unfold ssizeMax at h
  unfold toOff
  rw [Int.bmod_def, Int.emod_eq_of_lt (by omega) (by omega)]
  split <;> omega

/-! ## Handlers -/

/-- **The body is dropped**, and the connection is kept only if all of it is in its queue. -/
theorem dropBody_pending (hlen : len ≤ ssizeMax) (h : Pending stream len e) (heq : e.dropBody = some e') :
    Pending stream len e' := by
  unfold dropBody at heq
  split at heq
  · rename_i hne
    obtain ⟨n, hn, heq⟩ := Option.map_eq_some_iff.mp heq
    cases heq
    refine ⟨h.state, fun hkeep => ?_⟩
    obtain ⟨hka, hall⟩ := Bool.and_eq_true_iff.mp hkeep
    have ht := h.taken hka
    obtain ⟨taken, hstream, ⟨hcl, hin, hle⟩ | ⟨hzero, -⟩⟩ := ht.taken
    · obtain ⟨hwf, hnil⟩ := reset_spec ht.body.wf
      rw [length_eq ht.body.wf] at hn
      have hsame : toOff e.contentLength = n := of_decide_eq_true hall
      rw [hcl, toOff_of_le hlen, ← Option.some.inj hn] at hsame
      have hb := ht.queue.balance
      have ho := ht.bytesOut
      have hlength : taken.length = len := by omega
      exact ⟨⟨⟨ht.body.ok.wf, ht.body.ok.mem⟩, hwf, fun _ => (sound_nil hwf hnil).inFiles,
        fun _ => (sound_nil hwf hnil).coherent⟩, ht.queue.reset, Int.le_refl 0,
        taken, hstream, Or.inr ⟨rfl, rfl, hlength⟩⟩
    · exact absurd hzero hne
  · cases heq
    exact h

theorem inputClosed_pending (h : Pending stream len e) (heq : e.inputClosed = some e') : Pending stream len e' := by
  unfold inputClosed at heq
  split at heq
  · obtain ⟨n, -, heq⟩ := Option.bind_eq_some_iff.mp heq
    obtain ⟨cq, hcq, heq⟩ := Option.bind_eq_some_iff.mp heq
    cases heq
    refine ⟨h.state, fun hkeep => ?_⟩
    exact ((h.taken (Bool.and_eq_true_iff.mp hkeep).1).written hcq).congr ⟨rfl, rfl, rfl, rfl, rfl⟩
  · cases heq
    exact h

theorem localRedirect_pending (hlen : len ≤ ssizeMax) (h : Pending stream len e) {location : Bytes}
    (heq : e.localRedirect location = some e') : Pending stream len e' := by
  unfold localRedirect at heq
  split at heq
  · cases heq
    exact h.congr ⟨rfl, rfl, rfl, rfl, rfl⟩ id h.state
  · obtain ⟨e₁, hdrop, heq⟩ := Option.map_eq_some_iff.mp heq
    cases heq
    have hloc : Pending stream len { e with loopsPerRequest := e.loopsPerRequest + 1, uri := location } :=
      h.congr ⟨rfl, rfl, rfl, rfl, rfl⟩ id h.state
    have h₁ := dropBody_pending hlen hloc hdrop
    exact h₁.congr ⟨rfl, rfl, rfl, rfl, rfl⟩ id h₁.state

/-- **Whatever a plugin does**, it is known what has been taken, or the connection is closed. -/
theorem act_pending (hlen : len ≤ ssizeMax) (h : Pending stream len e) {a : Act} (heq : e.act a = some e') :
    Pending stream len e' := by
  cases a with
  | readPost io ios =>
    obtain ⟨⟨ret, con⟩, hread, heq⟩ := Option.map_eq_some_iff.mp heq
    cases heq
    obtain ⟨hstate, hka⟩ := readPost_flags hread
    refine ⟨?_, fun hkeep => (h.taken (hka hkeep).1).readPost hread (hka hkeep).2⟩
    show con.state ≠ _
    rcases hstate with hs | hs | hs <;> simp [hs, h.state]
  | forward dest =>
    cases heq
    exact ⟨h.state, fun hkeep => (h.taken hkeep).forwarded dest⟩
  | steal dest wf n =>
    obtain ⟨⟨d, s⟩, hsteal, heq⟩ := Option.map_eq_some_iff.mp heq
    cases heq
    exact ⟨h.state, fun hkeep => (h.taken hkeep).stolen wf hsteal⟩
  | written n =>
    obtain ⟨cq, hcq, heq⟩ := Option.map_eq_some_iff.mp heq
    cases heq
    exact ⟨h.state, fun hkeep => (h.taken hkeep).written hcq⟩
  | inputClosed => exact inputClosed_pending h heq
  | localRedirect location => exact localRedirect_pending hlen h heq
  | respond httpStatus direct fileStarted fileFinished writeQueue =>
    cases heq
    exact h.congr ⟨rfl, rfl, rfl, rfl, rfl⟩ id h.state
  | noKeepAlive =>
    cases heq
    exact ⟨h.state, nofun⟩
  | configure isReadable pollin streamRequest streamResponse errorHandler errorHandler404 =>
    cases heq
    exact h.congr ⟨rfl, rfl, rfl, rfl, rfl⟩ id h.state

variable {acts : List Act} {r : HandlerT}

theorem acts_pending (hlen : len ≤ ssizeMax) (h : Pending stream len e)
    (heq : acts.foldlM act e = some e') : Pending stream len e' := by
  have hrun : Run.run act e acts = some e' := heq
  exact @Run.run_keeps _ _ act (fun _ _ => True) (Pending stream len) _ _ _ (fun _ _ _ h _ heq => act_pending hlen h heq)
    h (Run.meets_of_forall (fun _ _ => trivial) _ _) hrun

/-! ## The states -/

theorem startResponse_pending (h : Pending stream len e) : Pending stream len e.startResponse :=
  h.congr ⟨rfl, rfl, rfl, rfl, rfl⟩ id nofun

/-- **`server.error-handler` takes over the request.** -/
theorem callErrorHandler_pending (hlen : len ≤ ssizeMax) (h : Pending stream len e)
    (heq : e.callErrorHandler = some e') : Pending stream len e' := by
  obtain ⟨e₁, hdrop, heq⟩ := Option.map_eq_some_iff.mp heq
  cases heq
  have h₁ := dropBody_pending hlen h hdrop
  exact h₁.congr ⟨rfl, rfl, rfl, rfl, rfl⟩ id h₁.state

theorem handledDirect_pending (hlen : len ≤ ssizeMax) (h : Pending stream len e) (heq : e.handledDirect = some e') :
    Pending stream len e' := by
  unfold handledDirect at heq
  split at heq
  · cases heq
    have hsaved : Pending stream len { e with httpStatus := e.savedStatus } :=
      h.congr ⟨rfl, rfl, rfl, rfl, rfl⟩ id h.state
    exact startResponse_pending hsaved
  · split at heq
    · split at heq
      · exact callErrorHandler_pending hlen h heq
      · split at heq
        · cases heq
          exact h.congr ⟨rfl, rfl, rfl, rfl, rfl⟩ id h.state
        · cases heq
          exact startResponse_pending h
    · cases heq
      exact startResponse_pending h

theorem handled_pending (hlen : len ≤ ssizeMax) (h : Pending stream len e) (heq : e.handled = some e') :
    Pending stream len e' := by
  unfold handled at heq
  generalize hsaved : (if 0 < e.errorHandlerSavedStatus then
    { e with httpMethod := e.errorHandlerSavedMethod } else e) = e₁ at heq
  have h₁ : Pending stream len e₁ := by
    rw [← hsaved]
    split
    · exact h.congr ⟨rfl, rfl, rfl, rfl, rfl⟩ id h.state
    · exact h
  dsimp only at heq
  split at heq
  · exact handledDirect_pending hlen h₁ heq
  · cases heq
    exact startResponse_pending h₁

theorem prepared_pending (hlen : len ≤ ssizeMax) (h : Pending stream len e)
    (heq : e.prepared r = some e') : Pending stream len e' := by
  cases r with
  | waitForEvent =>
    dsimp only [prepared] at heq
    split at heq
    · cases heq
      exact h
    · exact handled_pending hlen h heq
  | finished => exact handled_pending hlen h heq
  | error =>
    cases heq
    exact h.congr ⟨rfl, rfl, rfl, rfl, rfl⟩ id nofun
  | goOn | comeback | waitForFd =>
    cases heq
    exact h

theorem responseStart_pending (h : Pending stream len e) (r : Option Prepared) :
    Pending stream len (e.responseStart r) := by
  cases r with
  | none => exact h.congr ⟨rfl, rfl, rfl, rfl, rfl⟩ id nofun
  | some r => exact h.congr ⟨rfl, rfl, rfl, rfl, rfl⟩ (fun hkeep => (Bool.and_eq_true_iff.mp hkeep).1) nofun

theorem connectionHandleWrite_pending (h : Pending stream len e) {sent : NetworkWrite}
    (heq : e.connectionHandleWrite sent = some e') : Pending stream len e' := by
  cases sent with
  | all =>
    obtain ⟨n, -, heq⟩ := Option.bind_eq_some_iff.mp heq
    obtain ⟨cq, -, heq⟩ := Option.bind_eq_some_iff.mp heq
    cases heq
    refine h.congr ⟨rfl, rfl, rfl, rfl, rfl⟩ id ?_
    show (if e.fileFinished = true then ConState.responseEnd else e.state) ≠ _
    split
    · nofun
    · exact h.state
  | more n =>
    obtain ⟨cq, -, heq⟩ := Option.map_eq_some_iff.mp heq
    cases heq
    exact h.congr ⟨rfl, rfl, rfl, rfl, rfl⟩ id h.state
  | failed =>
    cases heq
    exact h.congr ⟨rfl, rfl, rfl, rfl, rfl⟩ id nofun

theorem subrequest_pending (hlen : len ≤ ssizeMax) (h : Pending stream len e)
    (heq : e.subrequest acts r = some e') : Pending stream len e' := by
  unfold subrequest at heq
  split at heq
  · obtain ⟨e₁, hacts, heq⟩ := Option.map_eq_some_iff.mp heq
    have h₁ := acts_pending hlen h hacts
    split at heq
    · cases heq
      exact h₁
    · cases heq
      exact h₁.congr ⟨rfl, rfl, rfl, rfl, rfl⟩ id nofun
  · cases heq
    exact h

theorem writeRound_pending (hlen : len ≤ ssizeMax) (h : Pending stream len e) {sent : NetworkWrite}
    (heq : e.writeRound sent acts r = some e') : Pending stream len e' := by
  unfold writeRound at heq
  split at heq
  · split at heq
    · obtain ⟨e₁, hwrite, heq⟩ := Option.bind_eq_some_iff.mp heq
      have h₁ := connectionHandleWrite_pending h hwrite
      split at heq
      · cases heq
        exact h₁
      · exact subrequest_pending hlen h₁ heq
    · exact subrequest_pending hlen h heq
  · split at heq
    · cases heq
      exact h.congr ⟨rfl, rfl, rfl, rfl, rfl⟩ id nofun
    · exact subrequest_pending hlen h heq

/-! ## The end of the response -/

/-- **The end of the response**: the next request starts behind the body, or the connection is closed. -/
theorem responseEnd_next (hlen : len ≤ ssizeMax) (h : Pending stream len e) (shutdownOk : Bool) :
    Next stream len (e.connectionHandleResponseEndState shutdownOk) ∨
      Pending stream len (e.connectionHandleResponseEndState shutdownOk) := by
  unfold connectionHandleResponseEndState
  by_cases hleft : e.bodyLeft = true
  · right
    simp only [hleft, if_true, Bool.false_eq_true, if_false]
    exact ⟨by cases shutdownOk <;> simp [connectionHandleShutdown], nofun⟩
  · simp only [hleft, Bool.false_eq_true, if_false]
    split
    · rename_i hkeep
      left
      refine ⟨rfl, ?_⟩
      obtain ⟨taken, hstream, hcount⟩ := (h.taken hkeep).taken
      refine ⟨taken, hstream, ?_⟩
      rcases hcount with ⟨hcl, hin, hle⟩ | ⟨-, -, hlength⟩
      · by_contra hne
        apply hleft
        have hoff := toOff_of_le hlen
        rw [bodyLeft, hcl, hoff, hin]
        have hpos : len ≠ 0 := by omega
        have hgt : ((len : Nat) : Int) > taken.length := by omega
        simp [hpos, hgt]
      · exact hlength
    · rename_i hkeep
      right
      exact ⟨by cases shutdownOk <;> simp [connectionHandleShutdown], fun hk => absurd hk hkeep⟩

/-- **One event.** -/
theorem step_pending (hlen : len ≤ ssizeMax) (h : Pending stream len e) {ev : Event} (heq : e.step ev = some e') :
    Next stream len e' ∨ Pending stream len e' := by
  cases ev with
  | fdevent readable writable failed =>
    obtain ⟨-, heq⟩ := Option.ite_none_right_eq_some.mp heq
    cases heq
    right
    refine h.congr ⟨rfl, rfl, rfl, rfl, rfl⟩ id ?_
    cases failed <;> simp [h.state]
  | fdeventWrite sent =>
    exact Or.inr (connectionHandleWrite_pending h (Option.ite_none_right_eq_some.mp heq).2)
  | timeout =>
    obtain ⟨-, heq⟩ := Option.ite_none_right_eq_some.mp heq
    cases heq
    exact Or.inr (h.congr ⟨rfl, rfl, rfl, rfl, rfl⟩ id nofun)
  | backend acts => exact Or.inr (acts_pending hlen h (Option.ite_none_right_eq_some.mp heq).2)
  | prepare acts r =>
    obtain ⟨e₁, hacts, heq⟩ := Option.bind_eq_some_iff.mp (Option.ite_none_right_eq_some.mp heq).2
    exact Or.inr (prepared_pending hlen (acts_pending hlen h hacts) heq)
  | responseStart r =>
    obtain ⟨-, heq⟩ := Option.ite_none_right_eq_some.mp heq
    cases heq
    exact Or.inr (responseStart_pending h r)
  | write sent acts r => exact Or.inr (writeRound_pending hlen h (Option.ite_none_right_eq_some.mp heq).2)
  | responseEnd shutdownOk =>
    obtain ⟨-, heq⟩ := Option.ite_none_right_eq_some.mp heq
    cases heq
    exact responseEnd_next hlen h shutdownOk

theorem step_next (h : Next stream len e) (ev : Event) : e.step ev = none := by
  cases ev <;> simp [step, InRequest, h.state]

theorem run_pending (hlen : len ≤ ssizeMax) (h : Pending stream len e) {evs : List Event}
    (hrun : Run.run step e evs = some e') : Next stream len e' ∨ Pending stream len e' := by
  refine @Run.run_keeps _ _ step (fun _ _ => True) (fun e => Next stream len e ∨ Pending stream len e) _ _ _ ?_
    (Or.inr h) (Run.meets_of_forall (fun _ _ => trivial) _ _) hrun
  rintro s ev s' (hn | hp) - hstep
  · rw [step_next hn ev] at hstep
    cases hstep
  · exact step_pending hlen hp hstep

/-! ## From the header of a request to the next request -/

/-- A connection that has been reset and has read the header of a request. -/
structure HeaderDone (e : Exchange) : Prop where
  ok : e.toConn.Ok
  wf : e.contentQueue.WF
  chunks : e.contentQueue.chunks = []
  bytesIn : e.contentQueue.bytesIn = 0
  bytesOut : e.contentQueue.bytesOut = 0

theorem requestEnd_pending (h : HeaderDone e) (o : Options) (con : Request.Con) :
    Pending (e.waiting ++ e.socket) (e.requestEnd o con).contentLength (e.requestEnd o con) where
  state := by
    unfold requestEnd
    dsimp only
    split <;> nofun
  taken := by
    intro _
    have hsound := @sound_nil e.world _ h.wf h.chunks
    refine ⟨⟨⟨h.ok.wf, h.ok.mem⟩, h.wf, fun _ => hsound.inFiles, fun _ => hsound.coherent⟩, ⟨h.wf, ?_⟩, ?_, [], rfl,
      Or.inl ⟨rfl, h.bytesIn, Nat.zero_le _⟩⟩
    · show e.contentQueue.bytesIn - e.contentQueue.bytesOut = _
      rw [h.bytesIn, h.bytesOut, total]
      show _ = ((totalOf e.contentQueue.chunks : Nat) : Int)
      rw [h.chunks]
      rfl
    · show 0 ≤ e.contentQueue.bytesOut
      rw [h.bytesOut]

/-- **The next request of a connection starts with the first byte behind the body.** Whatever the handlers of an accepted
request do, whatever of the body has arrived when its response ends and whichever error handler takes over: if
`connection_handle_response_end_state` starts a new request, exactly as many bytes as announced have been taken off the
stream of the client. -/
theorem next_request (e : Exchange) (h : HeaderDone e) (o : Options) (con : Request.Con)
    (hacc : (e.requestEnd o con).httpStatus = 0) (evs : List Event) (e' : Exchange)
    (hrun : Run.run step (e.requestEnd o con) evs = some e') (hstart : e'.state = .requestStart) :
    ∃ body, e.waiting ++ e.socket = body ++ (e'.waiting ++ e'.socket) ∧
      body.length = (e.requestEnd o con).contentLength := by
  have hlen : (e.requestEnd o con).contentLength ≤ ssizeMax :=
    contentLength_le o con e.requestCount e.request.str hacc
  rcases run_pending hlen (requestEnd_pending h o con) hrun with hnext | hpending
  · exact hnext.body
  · exact absurd hstart hpending.state

/-- A request with a body of two bytes, of which one has come, and the start of the next request. -/
def sampleExchange : Exchange where
  toConn := { Conn.sampleConn with
    readQueue := ⟨[⟨.memChunk, .ofString (ascii "x"), Chunk.noFile, 0⟩], [], 1, 0, none, 1024, 0⟩
    socket := ascii "yGET"
    request := .ofString sampleBlock
    state := .requestEnd }
  requestCount := 1
  loopsPerRequest := 0
  httpMethod := none
  uri := []
  isWritable := true
  fileStarted := false
  fileFinished := false
  streamResponse := false
  errorHandler := ascii "/e"
  errorHandler404 := []
  errorHandlerSavedStatus := 0
  errorHandlerSavedMethod := none

/-- The body is read, the request fails, and the error handler answers it. -/
def sampleEvents : List Event :=
  [.prepare [.readPost ⟨none, .got 4⟩ [], .respond 500 true false true (.init none 1024)] .finished,
    .prepare [.respond 200 true true true (.init none 1024)] .finished,
    .responseStart (some ⟨500, true, true, .init none 1024⟩),
    .write .all [] .goOn,
    .responseEnd true]

theorem next_request_sample : ∃ e', Run.run step (sampleExchange.requestEnd sampleOptions (sampleCon "")) sampleEvents =
      some e' ∧ ∃ body, sampleExchange.waiting ++ sampleExchange.socket = body ++ (e'.waiting ++ e'.socket) ∧
        body.length = (sampleExchange.requestEnd sampleOptions (sampleCon "")).contentLength := by
  have hrun : (Run.run step (sampleExchange.requestEnd sampleOptions (sampleCon "")) sampleEvents).map
      (fun e => e.state) = some .requestStart := by decide +kernel
  obtain ⟨e', hrun, hstart⟩ := Option.map_eq_some_iff.mp hrun
  have hread : HeaderDone sampleExchange :=
    ⟨⟨⟨by decide, nofun⟩, by unfold AllMem; decide⟩, ⟨nofun, nofun⟩, rfl, rfl, rfl⟩
  exact ⟨e', hrun, next_request sampleExchange hread sampleOptions (sampleCon "") (by decide +kernel) sampleEvents e'
    hrun hstart⟩

end Exchange
end Lighttpd
