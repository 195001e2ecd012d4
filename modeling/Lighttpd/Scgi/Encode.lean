import Lighttpd.Backend.Retry
import Lighttpd.Lib.NulStrings

/-!
# What a SCGI backend reads (`mod_scgi.c`)

A SCGI backend reads a netstring with the names and values of the environment, and then the body, of the length that
`CONTENT_LENGTH` says. `wb_reqlen` is an `off_t`, and is to be the length of all this.

- `request_read_iff`: so it is, in every run, if and only if the length is below 2^63.
-/

namespace Lighttpd
namespace Scgi

open Backend Backend.Sender

/-! ## Names -/

variable {useOpenssl : Bool} {req : EnvCon} {con : Conn} {host : EnvHost}

theorem cgiVarname_ne_zero (c : Byte) : EnvCon.cgiVarname c ≠ 0 := by
  have hall := forall_byte (p := fun c => EnvCon.cgiVarname c != 0) (by decide +kernel) c
  simpa using hall

theorem encodedCgiVarname_no_nul (s : Bytes) (isHttpHeader : Bool) : 0 ∉ EnvCon.encodedCgiVarname s isHttpHeader := by
  unfold EnvCon.encodedCgiVarname
  rw [List.mem_append, not_or]
  constructor
  · split
    · decide
    · exact List.not_mem_nil
  · intro hmem
    obtain ⟨c, -, hc⟩ := List.mem_map.mp hmem
    exact cgiVarname_ne_zero c hc

/-- The name has no NUL. -/
def Named (p : EnvPair) : Prop := (0 : Byte) ∉ p.1

theorem named_of_names {ps : List EnvPair} (names : List Bytes) (h : ps.map Prod.fst = names)
    (hnames : ∀ n ∈ names, (0 : Byte) ∉ n) : ∀ p ∈ ps, Named p := by
  intro p hp
  apply hnames p.1
  rw [← h]
  exact List.mem_map_of_mem hp

theorem requestHeaders_named : ∀ p ∈ req.requestHeaders, Named p := by
  unfold EnvCon.requestHeaders
  rw [List.forall_mem_append, List.forall_mem_map, List.forall_mem_map]
  exact ⟨fun ds _ => encodedCgiVarname_no_nul ds.1.str true, fun ds _ => encodedCgiVarname_no_nul ds.1.str false⟩

theorem scriptName_named : ∀ p ∈ req.scriptName host, Named p := by
  unfold EnvCon.scriptName
  split
  · exact named_of_names [ascii "SCRIPT_NAME", ascii "PATH_INFO"] rfl (by decide)
  · exact named_of_names [ascii "SCRIPT_NAME", ascii "PATH_INFO", ascii "PATH_TRANSLATED"] rfl (by decide)

theorem scriptFilename_named : ∀ p ∈ req.scriptFilename host, Named p := by
  unfold EnvCon.scriptFilename
  split <;> exact named_of_names [ascii "SCRIPT_FILENAME", ascii "DOCUMENT_ROOT"] rfl (by decide)

theorem requestLine_named : ∀ p ∈ req.requestLine, Named p := by
  unfold EnvCon.requestLine
  simp only [List.forall_mem_append]
  refine ⟨⟨⟨?_, ?_⟩, ?_⟩, named_of_names [ascii "SERVER_PROTOCOL"] rfl (by decide)⟩
  · split
    · exact fun p hp => absurd hp List.not_mem_nil
    · exact named_of_names [ascii "REDIRECT_URI"] rfl (by decide)
  · split <;> exact named_of_names [ascii "QUERY_STRING", ascii "REQUEST_METHOD"] rfl (by decide)
  · split
    · exact named_of_names [ascii "REDIRECT_STATUS"] rfl (by decide)
    · exact fun p hp => absurd hp List.not_mem_nil

theorem https_named : ∀ p ∈ req.https, Named p := by
  unfold EnvCon.https
  split
  · exact named_of_names [ascii "HTTPS"] rfl (by decide)
  · exact fun p hp => absurd hp List.not_mem_nil

/-- **No name of the environment has a NUL.** -/
theorem scgiEnv_named (len : Nat) : ∀ p ∈ req.scgiEnv useOpenssl host len, Named p := by
  unfold EnvCon.scgiEnv
  simp only [List.forall_mem_append]
  refine ⟨⟨⟨⟨⟨⟨⟨?_, ?_⟩, scriptName_named⟩, scriptFilename_named⟩, ?_⟩, requestLine_named⟩, ?_⟩, requestHeaders_named⟩
  · exact named_of_names [ascii "CONTENT_LENGTH", ascii "SCGI", ascii "SERVER_SOFTWARE"] rfl (by decide)
  · exact named_of_names [ascii "SERVER_NAME", ascii "GATEWAY_INTERFACE", ascii "SERVER_PORT", ascii "SERVER_ADDR",
      ascii "REMOTE_PORT", ascii "REMOTE_ADDR"] rfl (by decide)
  · exact named_of_names [ascii "REQUEST_URI"] rfl (by decide)
  · split
    · exact https_named
    · exact fun p hp => absurd hp List.not_mem_nil

/-! ## The environment -/

/-- No value of the environment has a NUL. -/
def Plain (ps : List EnvPair) : Prop := ∀ p ∈ ps, ∀ val ∈ p.2, (0 : Byte) ∉ val

instance (ps : List EnvPair) : Decidable (Plain ps) := inferInstanceAs (Decidable (∀ p ∈ ps, ∀ val ∈ p.2, _))

/-- **The environment is read back.** -/
theorem pairs_envOf {len : Nat} (h : Plain (req.scgiEnv useOpenssl host len)) :
    NulStrings.pairs (envOf useOpenssl req host len) = some (presentPairs (req.scgiEnv useOpenssl host len)) := by
  refine NulStrings.pairs_flatMap fun p hp => ?_
  obtain ⟨q, hq, heq⟩ := List.mem_filterMap.mp hp
  obtain ⟨val, hval, rfl⟩ := Option.map_eq_some_iff.mp heq
  exact ⟨scgiEnv_named len q hq, h q hq val hval⟩

theorem presentPairs_head (len : Nat) : (presentPairs (req.scgiEnv useOpenssl host len)).head? =
    some (ascii "CONTENT_LENGTH", liUtostrn len) := rfl

/-! ## The request -/

/-- `hctx->wb_reqlen`, which is an `off_t`. -/
def reqlen (s : Sender) : Int := Int.bmod s.wbReqlen (2 ^ 64)

/-- **What is written and queued is the request**: a netstring with the pairs of the environment, the first of which is the
length of the body, and all of the body that has come, of which nothing is left over. `wb_reqlen` is the length of this, and
of what is left of the body. -/
def Encoded (useOpenssl : Bool) (req : EnvCon) (con : Conn) (host : EnvHost) (s : Sender) : Prop :=
  ∃ payload pairs taken, Netstring.decode s.queued = some (payload, taken) ∧ NulStrings.pairs payload = some pairs ∧
    pairs = presentPairs (req.scgiEnv useOpenssl host con.contentLength) ∧
    (∃ value, pairs.head? = some (ascii "CONTENT_LENGTH", value) ∧ Netstring.number 0 value = some con.contentLength) ∧
    taken = (bodyStream con).take s.con.contentQueue.bytesIn.toNat ∧ s.con.contentQueue.content s.con.world = [] ∧
    s.con.contentQueue.bytesIn ≤ con.contentLength ∧
    reqlen s = s.queued.length - taken.length + con.contentLength

def requestLength (useOpenssl : Bool) (req : EnvCon) (con : Conn) (host : EnvHost) : Nat :=
  (netstring (envOf useOpenssl req host con.contentLength)).length + con.contentLength

theorem bmod_eq_iff {n : Nat} : Int.bmod n (2 ^ 64) = n ↔ n < 2 ^ 63 := by
  rw [Int.bmod_def]
  constructor
  · intro h
    split at h <;> omega
  · intro h
    have hmod : (n : Int) % (2 ^ 64 : Nat) = n := Int.emod_eq_of_lt (by omega) (by omega)
    rw [hmod]
    exact if_pos (by omega)

theorem encoded_iff {s : Sender} {taken : Bytes} (hplain : Plain (req.scgiEnv useOpenssl host con.contentLength))
    (h : Sending (format useOpenssl req (bodyStream con) con.contentLength host) host taken s) :
    Encoded useOpenssl req con host s ↔ requestLength useOpenssl req con host < 2 ^ 63 := by
  obtain ⟨-, henc⟩ := h.encodes
  have hdecode : Netstring.decode s.queued = some (envOf useOpenssl req host con.contentLength, taken) := by
    rw [henc.queued]
    exact decode_netstring _ _
  have hreq : reqlen s = Int.bmod (requestLength useOpenssl req con host) (2 ^ 64) := by
    rw [reqlen, henc.wbReqlen, requestLength, Int.natCast_add]
  have hqueued : (s.queued.length : Int) - taken.length + con.contentLength = requestLength useOpenssl req con host := by
    rw [henc.queued, List.length_append, requestLength]
    unfold envOf
    omega
  constructor
  · rintro ⟨payload, pairs, taken', hdecode', -, -, -, -, -, -, hlen⟩
    cases hdecode.symm.trans hdecode'
    rw [hreq, hqueued] at hlen
    exact Iff.mp bmod_eq_iff hlen
  · intro hlt
    refine ⟨_, _, taken, hdecode, pairs_envOf hplain, rfl, ⟨_, presentPairs_head con.contentLength, ?_⟩,
      h.taken_eq, h.drained, henc.carries.announced, ?_⟩
    · exact (liUtostrn_spec con.contentLength).2.2
    · rw [hreq, hqueued]
      exact Iff.mpr bmod_eq_iff hlt

/-- **What a SCGI backend reads is the request**, in every run in which it is not sent again, however the body arrives and is
written, if and only if its length is a number that `wb_reqlen` can hold. -/
theorem request_read_iff (useOpenssl : Bool) (req : EnvCon) (con : Conn) (h : Started con) (host : EnvHost)
    (hplain : Plain (req.scgiEnv useOpenssl host con.contentLength)) (ops : List Op) (s : Sender)
    (hno : Run.Meets (step useOpenssl req) (fun s op => s.closed = false → ¬ Retries s op)
      { start con with host := some host } ops)
    (hrun : runSend useOpenssl req { start con with host := some host } ops = some s) (hopen : s.closed = false)
    (hstate : s.state = .write ∨ s.state = .read) :
    Encoded useOpenssl req con host s ↔ requestLength useOpenssl req con host < 2 ^ 63 := by
  obtain ⟨taken, hsend⟩ := sending_of_run h hno hrun hopen hstate
  exact encoded_iff hplain hsend

/-! ## A length of `SSIZE_MAX` -/

/-- The first byte of the body is read and the request is sent in part; then the second one is read. -/
def sampleSend : List Op :=
  [.readPost ⟨none, .error .eagain⟩ [], .send .ok (.ok 10), .readable, .readPost ⟨none, .got 1⟩ []]

theorem request_read_iff_sample : ∃ s,
    runSend true Fcgi.sampleReq { start Fcgi.sampleRequestCon with host := some Fcgi.sampleEnvHost } sampleSend = some s ∧
    (Encoded true Fcgi.sampleReq Fcgi.sampleRequestCon Fcgi.sampleEnvHost s ↔
      requestLength true Fcgi.sampleReq Fcgi.sampleRequestCon Fcgi.sampleEnvHost < 2 ^ 63) := by
  have hrun : (runSend true Fcgi.sampleReq { start Fcgi.sampleRequestCon with host := some Fcgi.sampleEnvHost }
      sampleSend).map (fun s => (s.closed, s.state)) = some (false, .write) := by decide +kernel
  obtain ⟨s, hs, hout⟩ := Option.map_eq_some_iff.mp hrun
  obtain ⟨hclosed, hstate⟩ := Prod.mk.inj hout
  refine ⟨s, hs, request_read_iff true Fcgi.sampleReq Fcgi.sampleRequestCon Fcgi.sampleRequestCon_started
    Fcgi.sampleEnvHost (by decide) sampleSend s ?_ hs hclosed (.inl hstate)⟩
  refine ⟨fun _ => id, fun s₁ _ => ⟨fun _ hr => absurd hr.1 (by decide), fun s₂ _ => ⟨fun _ => id, fun s₃ _ =>
    ⟨fun _ => id, fun _ _ => trivial⟩⟩⟩⟩

/-- `Content-Length: 9223372036854775807`, of which one byte has come. -/
def sampleHuge : Conn := { Fcgi.sampleRequestCon with contentLength := Request.ssizeMax }

theorem sampleHuge_started : Started sampleHuge where
  body := ⟨⟨⟨by decide, nofun⟩, by unfold Chunkqueue.AllMem; decide⟩, ⟨nofun, nofun⟩, fun _ => nofun,
    fun _ => .nil _⟩
  balance := Fcgi.sampleRequestCon_started.balance
  announced := by decide
  untouched := rfl

/-- **`wb_reqlen` is negative** for a body of the length `SSIZE_MAX`, which is accepted. -/
theorem reqlen_negative : Started sampleHuge ∧
    Plain (Fcgi.sampleReq.scgiEnv true Fcgi.sampleEnvHost sampleHuge.contentLength) ∧
    ∃ s, runSend true Fcgi.sampleReq { start sampleHuge with host := some Fcgi.sampleEnvHost } [.send .ok (.ok 10)] = some s ∧
      s.closed = false ∧ s.state = .write ∧ reqlen s < 0 ∧ ¬ Encoded true Fcgi.sampleReq sampleHuge Fcgi.sampleEnvHost s := by
  have hrun : (runSend true Fcgi.sampleReq { start sampleHuge with host := some Fcgi.sampleEnvHost }
      [.send .ok (.ok 10)]).map (fun s => (s.closed, s.state, decide (reqlen s < 0), (Netstring.decode s.queued).map Prod.snd)) =
      some (false, .write, true, some []) := by decide +kernel
  obtain ⟨s, hs, hout⟩ := Option.map_eq_some_iff.mp hrun
  obtain ⟨hclosed, hout⟩ := Prod.mk.inj hout
  obtain ⟨hstate, hout⟩ := Prod.mk.inj hout
  obtain ⟨hneg, htaken⟩ := Prod.mk.inj hout
  have hneg := of_decide_eq_true hneg
  refine ⟨sampleHuge_started, by decide, s, hs, hclosed, hstate, hneg, ?_⟩
  rintro ⟨payload, pairs, taken, hdecode, -, -, -, -, -, -, hlen⟩
  rw [hdecode] at htaken
  cases htaken
  rw [hlen, List.length_nil] at hneg
  omega

end Scgi
end Lighttpd
