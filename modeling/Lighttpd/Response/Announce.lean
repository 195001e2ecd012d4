import Lighttpd.Response.Open
import Lighttpd.Response.Fields

/-!
# The header that `connection_handle_write_prepare` writes

`Started` is a response with its header and the pieces of the body behind it. `announce_spec` says, by the flag
`HTTP_CONTENT_LENGTH`, by `file_finished` and by the method, what the header announces and what is behind it;
`withContent_error` and `withContent_headerOnly` say what the response has become before.
-/

namespace Lighttpd
namespace Respond
open Request Backend Chunkqueue Response MessageLength

/-- **The header is written**: `text`, with the pieces `ps` of the body behind it. -/
structure Started (c : Con) (text : Bytes) (ps : List Bytes) : Prop where
  good : c.out.Good
  headerWritten : c.out.headerWritten = true
  bytesHeader : c.bytesHeader = text.length
  stream : c.out.stream = text ++ coded c.out.chunked ps

namespace Con
variable {c c' : Con} {conf : Conf}

def queued (c : Con) : Bytes := c.out.writeQueue.content c.out.world

/-- No body follows the header of such a response. -/
def bodiless (c : Con) : Bool := c.isHead || c.noLength

theorem bodiless_congr (hs : c'.httpStatus = c.httpStatus) (hm : c'.httpMethod = c.httpMethod) :
    c'.bodiless = c.bodiless ∧ c'.isHead = c.isHead ∧ c'.noLength = c.noLength := by
  simp only [bodiless, isHead, noLength, hs, hm, and_self]

/-! ## `http_response_write_header` -/

@[simp] theorem connectionField_out (c : Con) : c.connectionField.out = c.out := by
  unfold connectionField
  split <;> rfl

@[simp] theorem chunkedField_out (c : Con) : c.chunkedField.out = c.out := by
  unfold chunkedField
  split <;> rfl

theorem connectionFields_out (conf : Conf) (c : Con) : (c.connectionFields conf).out = (c.limitKeepAlive conf).out := by
  simp [connectionFields]

/-- Only the header fields and `keep_alive` change. -/
theorem limitKeepAlive_spec (conf : Conf) (c : Con) :
    ∃ keepAlive, (keepAlive = true → c.out.keepAlive = true) ∧
      c.limitKeepAlive conf = { c with out := { c.out with keepAlive := keepAlive } } := by
  unfold limitKeepAlive
  split
  · exact ⟨false, nofun, rfl⟩
  · exact ⟨c.out.keepAlive, id, rfl⟩

theorem connectionField_status (c : Con) :
    c.connectionField.httpStatus = c.httpStatus ∧ c.connectionField.httpMethod = c.httpMethod := by
  unfold connectionField
  split <;> exact ⟨rfl, rfl⟩

theorem chunkedField_status (c : Con) :
    c.chunkedField.httpStatus = c.httpStatus ∧ c.chunkedField.httpMethod = c.httpMethod := by
  unfold chunkedField
  split <;> exact ⟨rfl, rfl⟩

theorem connectionFields_status (conf : Conf) (c : Con) :
    (c.connectionFields conf).httpStatus = c.httpStatus ∧ (c.connectionFields conf).httpMethod = c.httpMethod := by
  obtain ⟨keepAlive, -, hlimit⟩ := limitKeepAlive_spec conf c
  unfold connectionFields
  rw [(chunkedField_status _).1, (chunkedField_status _).2, (connectionField_status _).1, (connectionField_status _).2,
    hlimit]
  exact ⟨rfl, rfl⟩

theorem connectionField_fields (c : Con) :
    c.connectionField.lengthField = c.lengthField ∧ c.connectionField.codingField = c.codingField := by
  unfold connectionField
  split
  · rw [lengthField_overwrite, codingField_overwrite, if_neg (by decide), if_neg (by decide)]
    exact ⟨rfl, rfl⟩
  · exact ⟨rfl, rfl⟩

theorem chunkedField_fields (c : Con) : c.chunkedField.lengthField = c.lengthField ∧
    c.chunkedField.codingField = if c.out.chunked then some (ascii "chunked") else c.codingField := by
  unfold chunkedField
  split
  · rw [lengthField_overwrite, codingField_overwrite, if_neg (by decide), if_pos (by decide)]
    exact ⟨rfl, rfl⟩
  · exact ⟨rfl, rfl⟩

theorem connectionFields_fields (conf : Conf) (c : Con) : (c.connectionFields conf).lengthField = c.lengthField ∧
    (c.connectionFields conf).codingField = if c.out.chunked then some (ascii "chunked") else c.codingField := by
  obtain ⟨keepAlive, -, hlimit⟩ := limitKeepAlive_spec conf c
  obtain ⟨hl, hc⟩ := chunkedField_fields (c.limitKeepAlive conf).connectionField
  obtain ⟨hl', hc'⟩ := connectionField_fields (c.limitKeepAlive conf)
  unfold connectionFields
  rw [hl, hc, hl', hc', connectionField_out, hlimit]
  exact ⟨rfl, rfl⟩

/-- **What `http_response_write_header` does.** -/
structure HeaderWritten (c c' : Con) : Prop where
  started : ∃ text, c'.out.Good ∧ c'.out.headerWritten = true ∧ c'.bytesHeader = text.length ∧
    c'.out.stream = text ++ c.queued
  chunked : c'.out.chunked = c.out.chunked
  fileFinished : c'.out.fileFinished = c.out.fileFinished
  keepAlive : c'.out.keepAlive = true → c.out.keepAlive = true
  httpStatus : c'.httpStatus = c.httpStatus
  httpMethod : c'.httpMethod = c.httpMethod
  length : c'.lengthField = c.lengthField
  coding : c'.codingField = if c.out.chunked then some (ascii "chunked") else c.codingField

theorem prependHeader_spec {text : Bytes} (hs : Sound c.out.world c.out.writeQueue)
    (heq : c.prependHeader text = some c') :
    ∃ cq, Sound c.out.world cq ∧ cq.content c.out.world = text ++ c.queued ∧
      c' = { c with bytesHeader := text.length, out := { c.out with writeQueue := cq, headerWritten := true } } := by
  obtain ⟨⟨cq, b⟩, hcq, rfl⟩ := Option.map_eq_some_iff.mp heq
  obtain ⟨hsound, hcont⟩ := prependBuffer_sound hs hcq
  have hstr : (Buffer.ofString text).str = text := Buffer.copyStringLen_str _ _
  rw [hstr] at hcont
  refine ⟨cq, hsound, hcont, ?_⟩
  rw [Buffer.stringLength_eq, hstr]

theorem httpResponseWriteHeader_spec (hs : Sound c.out.world c.out.writeQueue) (hsent : c.out.sent = [])
    (heq : c.httpResponseWriteHeader conf = some c') : HeaderWritten c c' := by
  unfold httpResponseWriteHeader at heq
  obtain ⟨keepAlive, hkeep, hlimit⟩ := limitKeepAlive_spec conf c
  have hout : (c.connectionFields conf).out = { c.out with keepAlive := keepAlive } := by
    rw [connectionFields_out, hlimit]
  obtain ⟨hstatus, hmethod⟩ := connectionFields_status conf c
  obtain ⟨hlength, hcoding⟩ := connectionFields_fields conf c
  dsimp only at heq
  generalize (c.connectionFields conf).headerText conf = text at heq
  generalize c.connectionFields conf = c₁ at *
  obtain ⟨cq, hsound, hcont, rfl⟩ := prependHeader_spec (by rw [hout]; exact hs) heq
  have hchunked : c₁.out.chunked = c.out.chunked := by rw [hout]
  have hfinished : c₁.out.fileFinished = c.out.fileFinished := by rw [hout]
  have hkeep' : c₁.out.keepAlive = keepAlive := by rw [hout]
  obtain ⟨hl, hc⟩ := fields_congr c₁ { c₁ with
    bytesHeader := text.length, out := { c₁.out with writeQueue := cq, headerWritten := true } } rfl rfl
  constructor
  case started =>
    refine ⟨text, ⟨hsound, nofun⟩, rfl, rfl, ?_⟩
    show c₁.out.sent ++ cq.content c₁.out.world = _
    rw [hcont, queued, hout, hsent]
    rfl
  case chunked => exact hchunked
  case fileFinished => exact hfinished
  case keepAlive => exact fun h => hkeep (hkeep'.symm.trans h)
  case httpStatus => exact hstatus
  case httpMethod => exact hmethod
  case length => exact hl.trans hlength
  case coding => exact hc.trans hcoding

/-! ## The second half of `connection_handle_write_prepare` -/

/-- **What the header announces**, and the pieces `ps` behind it. -/
inductive Announces (c c' : Con) (ps : List Bytes) : Prop
  | head (h : c.isHead = true) (hps : ps = []) (hc : c'.out.chunked = false)
  | backendLength (hh : c.isHead = false) (hp : c.reply.parsed.contentLength = true) (hps : ps.flatten = c.queued)
      (hc : c'.out.chunked = false) (hl : c'.lengthField = c.lengthField) (hte : c'.codingField = c.codingField)
  | ownLength (hh : c.isHead = false) (hp : c.reply.parsed.contentLength = false) (hf : c.out.fileFinished = true)
      (hps : ps.flatten = c.queued) (hc : c'.out.chunked = false)
      (hl : c.noLength = true ∨ c'.lengthField = some (liUtostrn c.queued.length)) (hte : c'.codingField = c.codingField)
  | chunked (hh : c.isHead = false) (hp : c.reply.parsed.contentLength = false) (hf : c.out.fileFinished = false)
      (hc : c'.out.chunked = true) (hf' : c'.out.fileFinished = false) (hne : ∀ p ∈ ps, p ≠ [])
      (hte : c'.codingField = some (ascii "chunked"))

theorem Announces.unfinished {ps : List Bytes} (h : Announces c c' ps) (hc : c'.out.chunked = true) :
    c'.out.fileFinished = false := by
  cases h with
  | head _ _ hc' => exact absurd (hc.symm.trans hc') (by decide)
  | backendLength _ _ _ hc' => exact absurd (hc.symm.trans hc') (by decide)
  | ownLength _ _ _ _ hc' => exact absurd (hc.symm.trans hc') (by decide)
  | chunked _ _ _ _ hf' => exact hf'

theorem finishedLength_spec (h : Open c.out) (heq : c.finishedLength = some c') :
    c'.out = c.out ∧ c'.httpStatus = c.httpStatus ∧ c'.httpMethod = c.httpMethod ∧ c'.codingField = c.codingField ∧
      (c.reply.parsed.contentLength = true → c'.lengthField = c.lengthField) ∧
      (c.reply.parsed.contentLength = false → c.noLength = true ∨ c.isHead = true ∨
        c'.lengthField = some (liUtostrn c.queued.length)) := by
  have hqlen : c.out.writeQueue.length = some c.queued.length := by
    rw [length_eq h.good.sound.wf, queued, length_content h.good.sound.inFiles]
  unfold finishedLength at heq
  rw [h.chunked, hqlen] at heq
  cases hp : c.reply.parsed.contentLength with
  | true =>
    simp only [hp] at heq
    cases heq
    exact ⟨rfl, rfl, rfl, rfl, fun _ => rfl, nofun⟩
  | false =>
    simp only [hp, Bool.not_false, Bool.and_self, if_true, Option.bind_eq_bind, Option.bind_some] at heq
    split at heq
    · rename_i hno
      cases heq
      refine ⟨rfl, rfl, rfl, ?_, nofun, fun _ => .inl hno⟩
      rw [codingField_eq, codingField_eq]
      rfl
    · split at heq
      · cases heq
        refine ⟨rfl, rfl, rfl, ?_, nofun, fun _ => .inr (.inr ?_)⟩
        · rw [codingField_overwrite, if_neg (by decide)]
        · rw [lengthField_overwrite, if_pos (by decide)]
      · rename_i hne
        cases heq
        have hhead : c.isHead = true := by
          cases hc : c.isHead with
          | true => rfl
          | false => exact absurd (Or.inr (by simp [hc])) hne
        exact ⟨rfl, rfl, rfl, rfl, nofun, fun _ => .inr (.inl hhead)⟩

theorem initialChunk_flags {r r' : Response} (heq : r.initialChunk = some r') :
    r'.chunked = true ∧ r'.fileFinished = r.fileFinished ∧ r'.keepAlive = r.keepAlive := by
  obtain ⟨qlen, -, heq⟩ := Option.bind_eq_some_iff.mp heq
  split at heq
  · obtain ⟨⟨cq, b⟩, -, heq⟩ := Option.bind_eq_some_iff.mp heq
    obtain ⟨cq', -, heq⟩ := Option.bind_eq_some_iff.mp heq
    cases heq
    exact ⟨rfl, rfl, rfl⟩
  · cases heq
    exact ⟨rfl, rfl, rfl⟩

/-- **An unfinished response** without a length is coded, or ends with the connection. -/
theorem chooseTransferEncoding_spec {r r' : Response} (h : Open r) (hf : r.fileFinished = false)
    (heq : r.chooseTransferEncoding = some r') :
    Sound r'.world r'.writeQueue ∧ r'.sent = [] ∧ r'.fileFinished = false ∧
      ∃ ps, r'.writeQueue.content r'.world = coded r'.chunked ps ∧
        (r.contentLength = true → r'.chunked = false ∧ ps.flatten = r.writeQueue.content r.world) ∧
        (r.contentLength = false → r'.keepAlive = true → r'.chunked = true ∧ ∀ p ∈ ps, p ≠ []) := by
  have hsent := h.good.sent h.headerWritten
  have hplain : r.writeQueue.content r.world = coded false [r.writeQueue.content r.world] := by simp [coded]
  unfold chooseTransferEncoding at heq
  rw [h.chunked, hf] at heq
  cases hc : r.contentLength with
  | true =>
    rw [hc] at heq
    cases heq
    refine ⟨h.good.sound, hsent, hf, [r.writeQueue.content r.world], ?_, fun _ => ⟨h.chunked, by simp⟩, by simp⟩
    rw [h.chunked]
    exact hplain
  | false =>
    rw [hc] at heq
    simp only [Bool.not_false, Bool.and_self, if_true] at heq
    split at heq
    · obtain ⟨ps, hsound, hcont, -, hne, hsent'⟩ := initialChunk_spec h.good heq
      obtain ⟨hchunked, hfinished, -⟩ := initialChunk_flags heq
      refine ⟨hsound, hsent'.trans hsent, hfinished.trans hf, ps, ?_, by simp, fun _ _ => ⟨hchunked, hne⟩⟩
      rw [hchunked]
      exact hcont
    · cases heq
      exact ⟨h.good.sound, hsent, rfl, [r.writeQueue.content r.world], hplain, by simp, by simp⟩

/-- The end of the body, before a request with `HEAD` is looked at. -/
theorem announceEnd_spec (h : Open c.out) (heq : c.announceEnd = some c') :
    Sound c'.out.world c'.out.writeQueue ∧ c'.out.sent = [] ∧ c'.httpStatus = c.httpStatus ∧
      c'.httpMethod = c.httpMethod ∧ c'.codingField = c.codingField ∧
      ∃ ps, c'.queued = coded c'.out.chunked ps ∧
        (c.reply.parsed.contentLength = true →
          c'.out.chunked = false ∧ ps.flatten = c.queued ∧ c'.lengthField = c.lengthField) ∧
        (c.reply.parsed.contentLength = false → c.out.fileFinished = true →
          c'.out.chunked = false ∧ ps.flatten = c.queued ∧
            (c.noLength = true ∨ c.isHead = true ∨ c'.lengthField = some (liUtostrn c.queued.length))) ∧
        (c.reply.parsed.contentLength = false → c.out.fileFinished = false → c'.out.keepAlive = true →
          c'.out.chunked = true ∧ c'.out.fileFinished = false ∧ ∀ p ∈ ps, p ≠ []) := by
  unfold announceEnd at heq
  split at heq
  · rename_i hf
    obtain ⟨hout, hstatus, hmethod, hte, hl, hown⟩ := finishedLength_spec h heq
    have hqueued : c'.queued = c.queued := by rw [queued, hout, queued]
    have hchunked : c'.out.chunked = false := by rw [hout, h.chunked]
    refine ⟨by rw [hout]; exact h.good.sound, by rw [hout]; exact h.good.sent h.headerWritten, hstatus, hmethod, hte,
      [c.queued], ?_, fun hp => ⟨hchunked, by simp, hl hp⟩, fun hp _ => ⟨hchunked, by simp, hown hp⟩,
      fun _ hf' => absurd (hf.symm.trans hf') (by decide)⟩
    rw [hqueued, hchunked]
    simp [coded]
  · rename_i hf
    rw [Bool.not_eq_true] at hf
    obtain ⟨out, hout, heq⟩ := Option.bind_eq_some_iff.mp heq
    cases heq
    have hopen : Open { c.out with contentLength := c.reply.parsed.contentLength } := h.frame rfl rfl rfl rfl rfl
    obtain ⟨hsound, hsent, hfinished, ps, hcont, hlen, hcoded⟩ := chooseTransferEncoding_spec hopen hf hout
    obtain ⟨hl, hte⟩ := fields_congr c { c with
      out := { out with keepAlive := out.keepAlive && !(c.reply.parsed.connection && !c.reply.keepAlive) } } rfl rfl
    refine ⟨hsound, hsent, rfl, rfl, hte, ps, hcont, fun hp => ⟨(hlen hp).1, (hlen hp).2, hl⟩,
      fun _ hf' => absurd (hf.symm.trans hf') (by decide), fun hp _ hk => ?_⟩
    obtain ⟨hchunked, hne⟩ := hcoded hp (Bool.and_eq_true_iff.mp hk).1
    exact ⟨hchunked, hfinished, hne⟩

theorem announce_headerWritten (heq : c.announce conf = some c') : c'.out.headerWritten = true := by
  obtain ⟨c₁, -, heq⟩ := Option.bind_eq_some_iff.mp heq
  obtain ⟨r, -, rfl⟩ := Option.map_eq_some_iff.mp heq
  rfl

/-- **What `connection_handle_write_prepare` announces** when the connection is to be kept. -/
theorem announce_spec (h : Open c.out) (heq : c.announce conf = some c') (hk : c'.out.keepAlive = true) :
    ∃ text ps, Started c' text ps ∧ Announces c c' ps ∧ c'.httpStatus = c.httpStatus ∧ c'.httpMethod = c.httpMethod := by
  obtain ⟨c₁, h₁, heq⟩ := Option.bind_eq_some_iff.mp heq
  obtain ⟨hsound, hsent, hstatus, hmethod, hte, ps, hq, hbackend, hown, hcoded⟩ := announceEnd_spec h h₁
  cases hh : c.isHead with
  | true =>
    have hh₁ : c₁.isHead = true := (bodiless_congr hstatus hmethod).2.1.trans hh
    have hdrop : c₁.dropHeadBody =
        { c₁.resetQueue with out := { c₁.resetQueue.out with fileFinished := true, chunked := false } } := by
      rw [dropHeadBody, if_pos hh₁]
    obtain ⟨hwf, hnil⟩ := reset_spec hsound.wf
    rw [hdrop] at heq
    have hw := httpResponseWriteHeader_spec (by exact sound_nil hwf hnil) (by exact hsent) heq
    obtain ⟨text, hgood, hwritten, hbytes, hstream⟩ := hw.started
    refine ⟨text, [], ⟨hgood, hwritten, hbytes, ?_⟩, .head hh rfl hw.chunked, hw.httpStatus.trans hstatus,
      hw.httpMethod.trans hmethod⟩
    rw [hstream, hw.chunked]
    show text ++ c₁.out.writeQueue.reset.content c₁.out.world = _
    rw [content, hnil]
    rfl
  | false =>
    have hh₁ : ¬ c₁.isHead = true := by rw [(bodiless_congr hstatus hmethod).2.1, hh]; exact Bool.false_ne_true
    rw [dropHeadBody, if_neg hh₁] at heq
    have hw := httpResponseWriteHeader_spec hsound hsent heq
    obtain ⟨text, hgood, hwritten, hbytes, hstream⟩ := hw.started
    refine ⟨text, ps, ⟨hgood, hwritten, hbytes, by rw [hstream, hq, hw.chunked]⟩, ?_, hw.httpStatus.trans hstatus,
      hw.httpMethod.trans hmethod⟩
    cases hp : c.reply.parsed.contentLength with
    | true =>
      obtain ⟨hc, hps, hl⟩ := hbackend hp
      refine .backendLength hh hp hps (hw.chunked.trans hc) (hw.length.trans hl) ?_
      rw [hw.coding, hc, hte]
      rfl
    | false =>
      cases hf : c.out.fileFinished with
      | true =>
        obtain ⟨hc, hps, hl⟩ := hown hp hf
        refine .ownLength hh hp hf hps (hw.chunked.trans hc) ?_ ?_
        · rw [hw.length]
          rcases hl with hl | hl | hl
          · exact .inl hl
          · exact absurd (hh.symm.trans hl) (by decide)
          · exact .inr hl
        · rw [hw.coding, hc, hte]
          rfl
      | false =>
        obtain ⟨hc, hf', hne⟩ := hcoded hp hf (hw.keepAlive hk)
        refine .chunked hh hp hf (hw.chunked.trans hc) (hw.fileFinished.trans hf') hne ?_
        rw [hw.coding, hc]
        rfl

end Con
end Respond
end Lighttpd
