import Lighttpd.Response.Behind

/-!
# The framing of a response on a connection that is kept

`framed_iff` is the main result. A response is made by any steps of the server and of a backend, its header is written,
and the backend goes on with the body. When all is sent and the connection is to be kept, the bytes behind the header are
what it announces if and only if the response `Fits`: the length that a backend has announced is never compared with its
body, `HTTP_CONTENT_LENGTH` survives the replacement of the response by an error document, and a backend may add bytes
behind the header of a response that is finished.
-/

namespace Lighttpd
namespace Respond
open Request Backend Chunkqueue Response MessageLength

namespace Con

/-- **The bytes behind the header are what it announces.** -/
def Framed (c : Con) : Prop :=
  (announced c.bodiless c.codingField c.lengthField).Exactly (c.out.sent.drop c.bytesHeader)

/-- **When the end of a response is announced as it is.** The status of the response is known, and `data` is what a
backend adds behind the header. -/
def Fits (c : Con) (data : Bytes) : Prop :=
  if c.isHead ∨ c.httpStatus = 204 ∨ c.httpStatus = 304 then data = []
  else if c.isError then c.reply.parsed.contentLength = false ∧ data = []
  else if c.httpStatus = 205 then (announced false c.codingField (some (ascii "0"))).Exactly data
  else if c.reply.parsed.contentLength then
    (announced c.noLength c.codingField c.lengthField).Exactly (c.queued ++ data)
  else if c.out.fileFinished then
    (announced c.noLength c.codingField (some (liUtostrn c.queued.length))).Exactly (c.queued ++ data)
  else c.noLength = false

/-- The same, when an error document has replaced the response. -/
def FitsContent (c : Con) (data : Bytes) : Prop :=
  if c.isHead then data = []
  else if c.reply.parsed.contentLength then
    (announced c.noLength c.codingField c.lengthField).Exactly (c.queued ++ data)
  else if c.out.fileFinished then
    (announced c.noLength c.codingField (some (liUtostrn c.queued.length))).Exactly (c.queued ++ data)
  else c.noLength = false

variable {c c' : Con} {conf : Conf}

/-! ## The response that is sent -/

theorem responseStart_out (c : Con) : c.responseStart.out = c.out := by
  have hrestore : c.restoreMethod.out = c.out := by
    unfold restoreMethod
    split <;> rfl
  have hstatus : c.restoreMethod.handledStatus.out = c.restoreMethod.out := by
    unfold handledStatus
    split
    · split
      · rfl
      · split <;> rfl
    · rfl
  rw [← hrestore, ← hstatus]
  unfold responseStart
  dsimp only
  split <;> rfl

theorem emptyBody_open (h : Open c.out) : Open c.emptyBody.out := h.resetQueue.frame rfl rfl h.chunked.symm rfl rfl

theorem withStatus_open (h : Open c.out) : Open c.withStatus.out := by
  have hmethod : Open c.staticMethod.out := by
    unfold staticMethod
    split
    · exact h
    · exact h
    · exact h
    · split
      · exact emptyBody_open (c := c.responseHeaderInsert (ascii "Allow") (ascii "OPTIONS, GET, HEAD, POST")) h
      · exact h
    · split
      · exact h
      · exact h
  have hswitch : Open (if c.direct then c.staticMethod else c).out := by
    split
    · exact hmethod
    · exact h
  unfold withStatus
  dsimp only
  generalize (if c.direct then c.staticMethod else c) = c₁ at hswitch
  split
  · exact hswitch
  · exact hswitch

/-- What an error document has in place of the response `c`. -/
structure Document (c c' : Con) : Prop where
  isOpen : Open c'.out
  coding : c'.codingField = none
  length : c'.lengthField = none
  httpStatus : c'.httpStatus = c.httpStatus
  httpMethod : c'.httpMethod = c.httpMethod
  parsed : c'.reply.parsed = c.reply.parsed

theorem Document.out {out : Response} (h : Document c c') (ho : Open out) : Document c { c' with out := out } := by
  obtain ⟨hl, hte⟩ := fields_congr c' { c' with out := out } rfl rfl
  exact ⟨ho, hte.trans h.coding, hl.trans h.length, h.httpStatus, h.httpMethod, h.parsed⟩

theorem Document.contentType (h : Document c c') (value : Bytes) :
    Document c (c'.responseHeaderOverwrite (ascii "Content-Type") value) := by
  refine ⟨h.isOpen, ?_, ?_, h.httpStatus, h.httpMethod, h.parsed⟩
  · rw [codingField_overwrite, if_neg (by decide), h.coding]
  · rw [lengthField_overwrite, if_neg (by decide), h.length]

theorem errdocInit_document (h : Open c.out) : Document c c.connectionHandleErrdocInit := by
  have hopen := errdocInit_open h
  unfold connectionHandleErrdocInit at hopen ⊢
  dsimp only at hopen ⊢
  split at hopen
  · exact ⟨hopen, by rw [codingField_eq]; rfl, by rw [lengthField_eq]; rfl, rfl, rfl, rfl⟩
  · exact ⟨hopen, by rw [codingField_eq]; rfl, by rw [lengthField_eq]; rfl, rfl, rfl, rfl⟩

/-- **An error document** is complete, and nothing is left of the header fields; but `parsed_response` is. -/
theorem errorDocument_spec (h : Open c.out) (heq : c.errorDocument conf = some c') :
    Document c c' ∧ c'.out.fileFinished = true := by
  obtain ⟨⟨sent, c₁⟩, h₁, heq⟩ := Option.bind_eq_some_iff.mp heq
  have hinit := errdocInit_document (c := { c with out := { c.out with fileFinished := false } })
    (h.frame rfl rfl rfl rfl rfl)
  have hinit : Document c (connectionHandleErrdocInit { c with out := { c.out with fileFinished := false } }) :=
    ⟨hinit.isOpen, hinit.coding, hinit.length, hinit.httpStatus, hinit.httpMethod, hinit.parsed⟩
  generalize connectionHandleErrdocInit { c with out := { c.out with fileFinished := false } } = c₀ at h₁ hinit
  have hpage : ∀ {c₁ : Con}, Document c c₁ → c₁.sendErrorPage = some c' → Document c c' ∧ c'.out.fileFinished = true := by
    intro c₁ hd heq
    obtain ⟨⟨ok, out⟩, hout, rfl⟩ := Option.map_eq_some_iff.mp heq
    have hopen : Open { c₁.out with fileFinished := true } := hd.isOpen.frame rfl rfl rfl rfl rfl
    exact ⟨(hd.out (append_open hopen hout)).contentType _, (SameFlags.appendData hout).fileFinished⟩
  unfold sendErrorfile at h₁
  split at h₁
  · cases h₁
    exact hpage hinit heq
  · obtain ⟨⟨ok, out⟩, hfile, h₁⟩ := Option.map_eq_some_iff.mp h₁
    obtain ⟨ps, ha, -⟩ := httpChunkAppendFile_appends hinit.isOpen.good hfile
    have hout := hinit.isOpen.appends ha
    cases ok with
    | false =>
      cases h₁
      exact hpage (hinit.out hout) heq
    | true =>
      have hdoc : Document c { c₀ with out := { out with fileFinished := true } } :=
        hinit.out (hout.frame rfl rfl rfl rfl rfl)
      cases h₁
      cases heq
      cases conf.errorfileType with
      | none => exact ⟨hdoc, rfl⟩
      | some value => exact ⟨hdoc.contentType value, rfl⟩

theorem headerOnly_iff : c.headerOnly = true ↔ c.httpStatus = 204 ∨ c.httpStatus = 205 ∨ c.httpStatus = 304 := by
  simp [headerOnly, or_assoc]

theorem isError_iff : c.isError = true ↔
    c.headerOnly = false ∧ c.direct = true ∧ 400 ≤ c.httpStatus ∧ c.httpStatus < 600 := by
  simp [isError, and_assoc]

theorem noLength_iff : c.noLength = true ↔
    (100 ≤ c.httpStatus ∧ c.httpStatus < 200) ∨ c.httpStatus = 204 ∨ c.httpStatus = 304 := by
  simp [noLength, or_assoc]

theorem queued_emptyBody (h : Open c.out) : c.emptyBody.queued = [] := by
  obtain ⟨-, hnil⟩ := reset_spec h.good.sound.wf
  show c.out.writeQueue.reset.content c.out.world = []
  rw [content, hnil]
  rfl

theorem announced_nil_length (n : Nat) (data : Bytes) :
    (announced false none (some (liUtostrn n))).Exactly data ↔ data.length = n := by
  rw [announced_length (decimal_liUtostrn n), exactly_length]

theorem fits_headerOnly (h : Open c.out) (ho : c.headerOnly = true) (data : Bytes) :
    c.emptyBody.FitsContent data ↔ c.Fits data := by
  have hcoding : c.emptyBody.codingField = c.codingField := by
    rw [codingField_eq, codingField_eq]
    rfl
  have hzero : liUtostrn 0 = ascii "0" := by decide
  have herror : ¬ c.isError = true := by
    rw [isError_iff]
    exact fun he => absurd (he.1.symm.trans ho) (by decide)
  unfold FitsContent Fits
  have hqueued := queued_emptyBody h
  generalize hp : c.emptyBody = p at hcoding hqueued
  have hhead : p.isHead = c.isHead := by rw [← hp]; rfl
  have hno : p.noLength = c.noLength := by rw [← hp]; rfl
  have hflag : p.reply.parsed.contentLength = false := by rw [← hp]; rfl
  have hfinished : p.out.fileFinished = true := by rw [← hp]; rfl
  rw [hhead, hno, hflag, hfinished, hcoding, hqueued, List.length_nil, hzero, List.nil_append,
    if_neg Bool.false_ne_true, if_pos rfl]
  by_cases hc : c.isHead = true
  · rw [if_pos hc, if_pos (Or.inl hc)]
  · rw [if_neg hc]
    rcases Iff.mp headerOnly_iff ho with hs | hs | hs
    · rw [if_pos (Or.inr (Or.inl hs)), Iff.mpr noLength_iff (Or.inr (Or.inl hs)), announced_bodiless, exactly_nothing]
    · have hbody : ¬ (c.isHead = true ∨ c.httpStatus = 204 ∨ c.httpStatus = 304) := by
        rw [hs]
        simpa using hc
      have hlength : c.noLength = false := by
        rw [← Bool.not_eq_true, noLength_iff, hs]
        omega
      rw [if_neg hbody, if_neg herror, if_pos hs, hlength]
    · rw [if_pos (Or.inr (Or.inr hs)), Iff.mpr noLength_iff (Or.inr (Or.inr hs)), announced_bodiless, exactly_nothing]

theorem fits_error (he : c.isError = true) (hd : Document c c') (hf : c'.out.fileFinished = true) (data : Bytes) :
    c'.FitsContent data ↔ c.Fits data := by
  obtain ⟨ho, -, hge, hlt⟩ := Iff.mp isError_iff he
  obtain ⟨-, hhead, hno⟩ := bodiless_congr hd.httpStatus hd.httpMethod
  have hnotOnly : ¬ (c.httpStatus = 204 ∨ c.httpStatus = 205 ∨ c.httpStatus = 304) := by
    rw [← headerOnly_iff, ho]
    exact Bool.false_ne_true
  have hlength : c.noLength = false := by
    rw [← Bool.not_eq_true, noLength_iff]
    omega
  unfold FitsContent Fits
  rw [hhead, hno, hlength, hd.coding, hd.length, hd.parsed, hf, if_pos rfl]
  by_cases hc : c.isHead = true
  · rw [if_pos hc, if_pos (Or.inl hc)]
  · have hbody : ¬ (c.isHead = true ∨ c.httpStatus = 204 ∨ c.httpStatus = 304) := by
      rintro (h | h | h)
      · exact hc h
      · exact hnotOnly (Or.inl h)
      · exact hnotOnly (Or.inr (Or.inr h))
    rw [if_neg hc, if_neg hbody, if_pos he]
    cases c.reply.parsed.contentLength with
    | true =>
      rw [if_pos rfl]
      exact iff_of_false id fun h => Bool.false_ne_true h.1.symm
    | false =>
      rw [if_neg Bool.false_ne_true, announced_nil_length, List.length_append]
      constructor
      · intro h
        exact ⟨rfl, List.eq_nil_of_length_eq_zero (by omega)⟩
      · rintro ⟨-, rfl⟩
        simp

/-- **The `switch` on the status.** -/
theorem withContent_spec (h : Open c.out) (heq : c.withContent conf = some c') :
    Open c'.out ∧ c'.httpStatus = c.httpStatus ∧ c'.httpMethod = c.httpMethod ∧
      ∀ data, c'.FitsContent data ↔ c.Fits data := by
  unfold withContent at heq
  split at heq
  · rename_i ho
    cases heq
    exact ⟨emptyBody_open h, rfl, rfl, fits_headerOnly h ho⟩
  · rename_i ho
    split at heq
    · rename_i he
      obtain ⟨hd, hf⟩ := errorDocument_spec h heq
      exact ⟨hd.isOpen, hd.httpStatus, hd.httpMethod, fits_error he hd hf⟩
    · rename_i he
      cases heq
      refine ⟨h, rfl, rfl, fun data => ?_⟩
      have hnotOnly : ¬ (c.httpStatus = 204 ∨ c.httpStatus = 205 ∨ c.httpStatus = 304) := by
        rw [← headerOnly_iff]
        exact ho
      unfold FitsContent Fits
      rw [if_neg he, if_neg fun hs => hnotOnly (Or.inr (Or.inl hs))]
      by_cases hc : c.isHead = true
      · rw [if_pos hc, if_pos (Or.inl hc)]
      · have hbody : ¬ (c.isHead = true ∨ c.httpStatus = 204 ∨ c.httpStatus = 304) := by
          rintro (h | h | h)
          · exact hc h
          · exact hnotOnly (Or.inl h)
          · exact hnotOnly (Or.inr (Or.inr h))
        rw [if_neg hc, if_neg hbody]

/-! ## The end of the response -/

theorem exactly_chunked {ps : List Bytes} (h : ∀ p ∈ ps, p ≠ []) :
    Announced.chunked.Exactly (coded true ps ++ ChunkedCoding.lastChunk) :=
  ⟨ps.flatten, (ChunkedCoding.decode_encode_iff Buffer.uintHex_writesSize ps).mpr h⟩

/-- **What is announced and what is sent.** -/
theorem announces_fits {ps qs : List Bytes} (ha : Announces c c' ps) (hqs : ∀ q ∈ qs, q ≠ []) :
    (announced c.bodiless c'.codingField c'.lengthField).Exactly
      (coded c'.out.chunked (ps ++ qs) ++ if c'.out.chunked then ChunkedCoding.lastChunk else []) ↔
      c.FitsContent qs.flatten := by
  have hplain : ∀ xs : List Bytes, coded false xs ++ (if false = true then ChunkedCoding.lastChunk else []) = xs.flatten :=
    fun xs => by simp [coded]
  unfold FitsContent
  cases ha with
  | head h hps hc =>
    rw [hc, hplain, hps, List.nil_append, if_pos h, bodiless, h, Bool.true_or, announced_bodiless, exactly_nothing]
  | backendLength hh hp hps hc hl hte =>
    rw [hc, hplain, List.flatten_append, hps, hl, hte, hh, if_neg Bool.false_ne_true, hp, if_pos rfl, bodiless, hh,
      Bool.false_or]
  | ownLength hh hp hf hps hc hl hte =>
    rw [hc, hplain, List.flatten_append, hps, hte, hh, if_neg Bool.false_ne_true, hp, if_neg Bool.false_ne_true, hf,
      if_pos rfl, bodiless, hh, Bool.false_or]
    rcases hl with hl | hl
    · rw [hl, announced_bodiless, announced_bodiless]
    · rw [hl]
  | chunked hh hp hf hc hf' hne hte =>
    rw [hc, if_pos rfl, hte, hh, if_neg Bool.false_ne_true, hp, if_neg Bool.false_ne_true, hf, if_neg Bool.false_ne_true,
      bodiless, hh, Bool.false_or]
    cases hno : c.noLength with
    | true =>
      rw [announced_bodiless, exactly_nothing]
      refine iff_of_false (fun h => ?_) (by decide)
      have := congrArg List.length h
      simp [ChunkedCoding.lastChunk] at this
    | false =>
      rw [announced_chunked endsChunked_chunked]
      exact iff_of_true (exactly_chunked (List.forall_mem_append.mpr ⟨hne, hqs⟩)) rfl

end Con

/-- **The framing of a response.** The steps `before` make a response, its header is written, and the steps `behind` go
on with its body, all of whose pieces can be appended. When all is sent and the connection is to be kept, the bytes behind
the header are what it announces if and only if the response, as it is when its status is known, fits the bytes that
follow. -/
theorem framed_iff {c c₁ c₂ c₃ : Con} {conf : Conf} {before behind : List Step} (hfresh : c.out.Fresh)
    (hbefore : Run.run step c before = some c₁) (hstart : start conf c₁ = some c₂)
    (hbehind : Run.run step c₂ behind = some c₃)
    (happends : Run.Meets step (fun c s => s.appends c = true) c₂ behind) (hended : c₃.isEnded = true)
    (hkept : c₃.out.keepAlive = true) :
    c₃.Framed ↔ c₁.responseStart.withStatus.Fits (behind.flatMap Step.piece) := by
  have hopen : Open c₁.responseStart.withStatus.out := by
    apply Con.withStatus_open
    rw [Con.responseStart_out]
    exact run_open (.fresh hfresh) hbefore
  obtain ⟨p, hp, hannounce⟩ := Option.bind_eq_some_iff.mp hstart
  obtain ⟨hopen', hstatus, hmethod, hfits⟩ := Con.withContent_spec hopen hp
  have hkept₂ := run_keepAlive (Con.announce_headerWritten hannounce) hbehind hkept
  obtain ⟨text, ps, hstarted, hannounces, hstatus₂, hmethod₂⟩ := Con.announce_spec hopen' hannounce hkept₂
  have hbehind₂ : Behind c₂ text ps := by
    refine ⟨hstarted.good, hstarted.headerWritten, hstarted.bytesHeader, fun hc hf => ?_, ?_⟩
    · exact absurd (hannounces.unfinished hc) (by rw [hf]; decide)
    · have hlast : lastOf c₂.out = [] := by
        unfold lastOf
        split
        · rename_i hl
          obtain ⟨hc, hf⟩ := Bool.and_eq_true_iff.mp hl
          exact absurd (hannounces.unfinished hc) (by rw [hf]; decide)
        · rfl
      rw [hstarted.stream, hlast, List.append_nil]
  obtain ⟨qs, hb, hsame, hflat, hne⟩ := run_behind hbehind₂ happends hbehind hkept
  obtain ⟨⟨-, hfinished⟩, hempty⟩ := (Bool.and_eq_true_iff.mp hended).imp_left Bool.and_eq_true_iff.mp
  -- everything has been taken by the network
  have hsent : c₃.out.sent.drop c₃.bytesHeader =
      coded c₂.out.chunked (ps ++ qs) ++ if c₂.out.chunked then ChunkedCoding.lastChunk else [] := by
    have hqueue : c₃.out.writeQueue.content c₃.out.world = [] := by
      rw [content, List.isEmpty_iff.mp hempty]
      rfl
    have hstream : c₃.out.sent = text ++ coded c₃.out.chunked (ps ++ qs) ++ lastOf c₃.out := by
      rw [← hb.stream, Response.stream, hqueue, List.append_nil]
    rw [hstream, hb.bytesHeader, List.append_assoc, List.drop_left, lastOf, hfinished, Bool.and_true, hsame.chunked]
  obtain ⟨hl, hte⟩ := Con.fields_congr c₂ c₃ hsame.reply hsame.lengthReset
  have hbodiless : c₃.bodiless = p.bodiless := by
    refine (Con.bodiless_congr ?_ (hsame.httpMethod.trans hmethod₂)).1
    exact (congrArg Reply.httpStatus hsame.reply).trans hstatus₂
  rw [Con.Framed, hsent, hl, hte, hbodiless, Con.announces_fits hannounces hne, hflat, hfits]

/-- A request with `GET` on a connection that is to be kept; nothing has been answered. -/
def sampleCon : Con where
  reply := .init
  lengthReset := false
  out := sampleResponse
  direct := true
  hctx := false
  sendContentBody := false
  fileStarted := false
  httpMethod := some .get
  uriPath := ascii "/"
  errorHandlerSavedStatus := 0
  errorHandlerSavedMethod := none
  bytesHeader := 0

/-- The first of at most 16 requests. -/
def sampleConf : Conf where
  errorfilePrefix := []
  errorfileFd := none
  errorfileType := none
  requestCount := 1
  maxKeepAliveRequests := 16
  maxKeepAliveIdle := 5
  tsDateStr := ascii "Thu, 01 Jan 1970 00:00:00 GMT"
  serverTag := []

/-- A CGI program sends a header without a length and the bytes `ab`, and `c` behind the header. -/
theorem framed_iff_sample : ∃ c₁ c₂ c₃,
    Run.run step sampleCon [.handler, .answer (.cgi (ascii "X: y\r\n")) [] (ascii "ab")] = some c₁ ∧
      start sampleConf c₁ = some c₂ ∧
      Run.run step c₂ [.append [] (ascii "c"), .backendDone, .written 110] = some c₃ ∧
      (c₃.Framed ↔ c₁.responseStart.withStatus.Fits (ascii "c")) := by
  have hrun : ((Run.run step sampleCon [.handler, .answer (.cgi (ascii "X: y\r\n")) [] (ascii "ab")]).bind fun c₁ =>
      (start sampleConf c₁).bind fun c₂ =>
        (Run.run step c₂ [.append [] (ascii "c"), .backendDone, .written 110]).map fun c₃ =>
          (Step.appends c₂ (.append [] (ascii "c")), c₃.isEnded, c₃.out.keepAlive)) = some (true, true, true) := by
    decide +kernel
  obtain ⟨c₁, h₁, hrun⟩ := Option.bind_eq_some_iff.mp hrun
  obtain ⟨c₂, h₂, hrun⟩ := Option.bind_eq_some_iff.mp hrun
  obtain ⟨c₃, h₃, heq⟩ := Option.map_eq_some_iff.mp hrun
  obtain ⟨hok, hrest⟩ := Prod.mk.inj heq
  obtain ⟨hended, hkept⟩ := Prod.mk.inj hrest
  have hframed := framed_iff sampleResponse_fresh h₁ h₂ h₃
    ⟨hok, fun _ _ => ⟨rfl, fun _ _ => ⟨rfl, fun _ _ => trivial⟩⟩⟩ hended hkept
  exact ⟨c₁, c₂, c₃, h₁, h₂, h₃, hframed⟩

/-- **A body that is shorter than announced.** A CGI program announces five bytes and sends three; the connection is
kept. -/
theorem short_body_kept : sampleCon.out.Fresh ∧ ∃ c₁ c₂ c₃,
    Run.run step sampleCon
      [.handler, .answer (.cgi (ascii "Content-Length: 5\r\n")) [] (ascii "abc"), .backendDone] = some c₁ ∧
      start sampleConf c₁ = some c₂ ∧ Run.run step c₂ [.written 78] = some c₃ ∧ c₃.isEnded = true ∧
      c₃.out.keepAlive = true ∧ ¬ c₃.Framed := by
  have hrun : ((Run.run step sampleCon
      [.handler, .answer (.cgi (ascii "Content-Length: 5\r\n")) [] (ascii "abc"), .backendDone]).bind fun c₁ =>
      (start sampleConf c₁).bind fun c₂ => (Run.run step c₂ [.written 78]).map fun c₃ =>
        (c₃.isEnded, c₃.out.keepAlive, announced c₃.bodiless c₃.codingField c₃.lengthField,
          (c₃.out.sent.drop c₃.bytesHeader).length)) = some (true, true, .length 5, 3) := by
    decide
  obtain ⟨c₁, h₁, hrun⟩ := Option.bind_eq_some_iff.mp hrun
  obtain ⟨c₂, h₂, hrun⟩ := Option.bind_eq_some_iff.mp hrun
  obtain ⟨c₃, h₃, heq⟩ := Option.map_eq_some_iff.mp hrun
  obtain ⟨hended, hrest⟩ := Prod.mk.inj heq
  obtain ⟨hkept, hrest⟩ := Prod.mk.inj hrest
  obtain ⟨hannounced, hlength⟩ := Prod.mk.inj hrest
  refine ⟨sampleResponse_fresh, c₁, c₂, c₃, h₁, h₂, h₃, hended, hkept, fun hframed => ?_⟩
  rw [Con.Framed, hannounced, exactly_length, hlength] at hframed
  exact absurd hframed (by decide)

end Respond
end Lighttpd
