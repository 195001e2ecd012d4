import Lighttpd.Response.Run
import Lighttpd.Http.ChunkStream

/-!
# Before the header

As long as the header is not written, the write queue is sound, nothing is sent and nothing is coded (`Open`). The
handlers append to the queue, also in part (`append_open`), or reset it, so that every step keeps this (`before_open`).
-/

namespace Lighttpd

namespace Chunkqueue

/-- A write to temp files leaves the queue as it should be, also when it fails. -/
theorem appendMemToTempfile_sound {w : World} {cq : Chunkqueue} {mem : Bytes} {ios ios' : List Attempt}
    {t : TempResult} (h : Sound w cq) (heq : appendMemToTempfile ios cq w mem = some (t, ios')) : Sound t.world t.cq := by
  obtain ⟨data, -, -, hstep⟩ := appendMemToTempfile_spec h.wf heq
  have hcoh : Coherent w (cq.chunks ++ []) := (List.append_nil cq.chunks).symm ▸ h.coherent
  have := hstep.coherent [] hcoh
  rw [List.append_nil] at this
  exact ⟨hstep.wf, this⟩

theorem appendFile_sound {w : World} {cq cq' : Chunkqueue} {fn : Path} {offset len : Nat} (h : Sound w cq)
    (hle : offset + len ≤ (w.content fn).length) (heq : cq.appendFile fn offset len = some cq') : Sound w cq' := by
  by_cases hl : len = 0
  · rw [appendFile, if_pos hl] at heq
    cases heq
    exact h
  · obtain ⟨c, cq₁, heq₁, hp, -, hfile, hoff⟩ := appendFile_spec h.wf fn offset hl
    obtain rfl : cq' = cq₁ := Option.some.inj (heq.symm.trans heq₁)
    have hin : c.InFile w := fun _ => by rw [hfile]; exact hle
    have ha : ¬ Appendable c := not_appendable_fd (by rw [hfile]; rfl)
    exact (hp.extended h (Chunk.offsetOk_of_offset_eq_zero hoff) hin ha).sound

end Chunkqueue

namespace Respond
open Request Backend Chunkqueue Response

/-- **A response whose header is not written.** -/
structure Open (r : Response) : Prop where
  good : r.Good
  chunked : r.chunked = false
  headerWritten : r.headerWritten = false

namespace Open
variable {r r' : Response}

theorem frame (h : Open r) (hq : r'.writeQueue = r.writeQueue) (hw : r'.world = r.world) (hc : r'.chunked = r.chunked)
    (hh : r'.headerWritten = r.headerWritten) (hs : r'.sent = r.sent) : Open r' where
  good := ⟨by rw [hw, hq]; exact h.good.sound, fun hf => hs.trans (h.good.sent (hh.symm.trans hf))⟩
  chunked := hc.trans h.chunked
  headerWritten := hh.trans h.headerWritten

theorem queue (h : Open r) {cq : Chunkqueue} (hs : Sound r.world cq) : Open { r with writeQueue := cq } where
  good := ⟨hs, h.good.sent⟩
  chunked := h.chunked
  headerWritten := h.headerWritten

theorem resetQueue (h : Open r) : Open { r with writeQueue := r.writeQueue.reset } := by
  obtain ⟨hwf, hnil⟩ := reset_spec h.good.sound.wf
  exact h.queue (sound_nil hwf hnil)

theorem appends (h : Open r) {ps : List Bytes} (ha : Appends r r' ps) : Open r' where
  good := ha.good
  chunked := ha.chunked.trans h.chunked
  headerWritten := ha.headerWritten.trans h.headerWritten

theorem stream (h : Open r) : r.stream = r.writeQueue.content r.world := by
  rw [Response.stream, h.good.sent h.headerWritten, List.nil_append]

theorem fresh (h : Fresh r) : Open r := ⟨h.good, h.chunked, h.headerWritten⟩

end Open

/-- **Appending data**, successfully or not. -/
theorem append_open {r r' : Response} {ios : List Attempt} {b : Option Buffer} {mem : Bytes} {ok : Bool} (h : Open r)
    (heq : r.httpChunkAppendData ios b mem = some (ok, r')) : Open r' := by
  cases ok with
  | true =>
    obtain ⟨ps, ha, -⟩ := httpChunkAppendData_appends h.good heq
    exact h.appends ha
  | false =>
    unfold httpChunkAppendData at heq
    dsimp only at heq
    split at heq
    · cases heq
    · split at heq
      · -- only a write to temp files can fail
        unfold httpChunkAppendToTempfile at heq
        rw [if_neg (by simp [h.chunked])] at heq
        obtain ⟨⟨ok, r₁, ios₁⟩, h₁, heq⟩ := Option.bind_eq_some_iff.mp heq
        obtain ⟨rfl, rfl⟩ := Prod.mk.inj (Option.some.inj heq)
        obtain ⟨⟨t, ios₂⟩, ht, h₁⟩ := Option.bind_eq_some_iff.mp h₁
        obtain ⟨-, h₁⟩ := Prod.mk.inj (Option.some.inj h₁)
        obtain ⟨rfl, -⟩ := Prod.mk.inj h₁
        exact ⟨⟨appendMemToTempfile_sound h.good.sound ht, h.good.sent⟩, h.chunked, h.headerWritten⟩
      · obtain ⟨r₁, -, heq⟩ := Option.bind_eq_some_iff.mp heq
        obtain ⟨r₂, -, heq⟩ := Option.bind_eq_some_iff.mp heq
        obtain ⟨r₃, -, heq⟩ := Option.bind_eq_some_iff.mp heq
        cases heq

theorem sendfile2_open {files : List Sendfile2} {out : Response} {length : Nat} (h : Open out) :
    Open (sendfile2Files out length files).2.1 := by
  induction files generalizing out length with
  | nil => exact h
  | cons f files ih =>
    cases f with
    | refused status => exact h
    | range fn fd offset len =>
      unfold sendfile2Files
      split
      · exact ih h
      · cases happ : out.httpChunkAppendFileRange fn fd offset (some len) with
        | none => exact h
        | some t =>
          obtain ⟨ok, out'⟩ := t
          obtain ⟨ps, ha, -⟩ := httpChunkAppendFileRange_appends h.good happ
          cases ok with
          | true => exact ih (h.appends ha)
          | false => exact h.appends ha

theorem fcgiLines_open {host : FcgiHost} (hhost : ∀ value out, Open out → Open (host.sendfile2 value out).2.1)
    (sendContentBody : Bool) (lines : List Bytes) {p : FcgiParse} (h : Open p.out) :
    Open (fcgiLines host sendContentBody p lines).2.out := by
  induction lines generalizing p with
  | nil => exact h
  | cons line lines ih =>
    rw [fcgiLines]
    cases hline : splitLine line with
    | none => exact ih h
    | some kv =>
      obtain ⟨key, value⟩ := kv
      dsimp only
      split
      · split
        · exact hhost value _ h
        · exact ih (hhost value _ h)
      · split
        · exact ih h
        · exact ih h

theorem fcgiResponseParse_open {host : FcgiHost} (hhost : ∀ value out, Open out → Open (host.sendfile2 value out).2.1)
    (sendContentBody : Bool) (r : Reply) {out : Response} (header : Bytes) (h : Open out) :
    Open (fcgiResponseParse host sendContentBody r out header).2.2 := by
  have hlines : Open (fcgiLines host sendContentBody ⟨r, out, none⟩ (anyLines header)).2.out :=
    fcgiLines_open hhost sendContentBody (anyLines header) h
  unfold fcgiResponseParse
  split
  · rename_i p hp
    rw [hp] at hlines
    cases hs : p.sendfile2 with
    | none => exact hlines
    | some len => exact hlines
  · rename_i p hp
    rw [hp] at hlines
    exact hlines

namespace Con
variable {c c' : Con}

/-! ## The server itself -/

theorem rangePart_open {path : Path} {p : RangePart} (h : Open c.out) (heq : rangePart path c p = some c') :
    Open c'.out := by
  cases p with
  | mem b =>
    obtain ⟨⟨cq, b'⟩, hcq, rfl⟩ := Option.map_eq_some_iff.mp heq
    exact h.queue (appendBuffer_extended h.good.sound hcq).sound
  | file start len =>
    simp only [rangePart] at heq
    split at heq
    · rename_i hle
      obtain ⟨cq, hcq, rfl⟩ := Option.map_eq_some_iff.mp heq
      exact h.queue (appendFile_sound h.good.sound hle hcq)
    · cases heq

theorem rangeParts_open {path : Path} {ps : List RangePart} (h : Open c.out)
    (heq : ps.foldlM (rangePart path) c = some c') : Open c'.out := by
  induction ps generalizing c with
  | nil =>
    cases heq
    exact h
  | cons p ps ih =>
    rw [List.foldlM_cons] at heq
    obtain ⟨c₁, h₁, heq⟩ := Option.bind_eq_some_iff.mp heq
    exact ih (rangePart_open h h₁) heq

theorem overwriteAll_out (fields : Headers) (c : Con) :
    (fields.foldl (fun c ds => c.responseHeaderOverwrite ds.key ds.value) c).out = c.out := by
  induction fields generalizing c with
  | nil => rfl
  | cons ds fields ih => exact ih _

theorem httpResponseSendFile_open {f : SendFile} (h : Open c.out) (heq : c.httpResponseSendFile f = some c') :
    Open c'.out := by
  unfold httpResponseSendFile at heq
  have hfields : Open (f.fields.foldl (fun c ds => c.responseHeaderOverwrite ds.key ds.value) c).out := by
    rw [overwriteAll_out]
    exact h
  generalize f.fields.foldl (fun c ds => c.responseHeaderOverwrite ds.key ds.value) c = c₀ at heq hfields
  dsimp only at heq
  split at heq
  · cases heq
    exact h
  · cases heq
    exact h
  · split at heq
    · cases heq
      exact hfields
    · cases heq
      exact hfields
    · cases heq
      exact hfields
    · rename_i r _
      obtain ⟨c₁, h₁, heq⟩ := Option.bind_eq_some_iff.mp heq
      have hparts := rangeParts_open hfields h₁
      split at heq
      · cases heq
        exact hparts.frame rfl rfl rfl rfl rfl
      · split at heq
        · cases heq
          exact hparts.frame rfl rfl rfl rfl rfl
        · cases heq
          exact hparts.frame rfl rfl rfl rfl rfl
    · unfold sendWhole at heq
      split at heq
      · cases heq
        exact hfields.frame rfl rfl rfl rfl rfl
      · obtain ⟨⟨ok, out⟩, hfile, heq⟩ := Option.map_eq_some_iff.mp heq
        obtain ⟨ps, ha, -⟩ := httpChunkAppendFile_appends hfields.good hfile
        have hout := hfields.appends ha
        cases ok with
        | true =>
          cases heq
          exact hout.frame rfl rfl rfl rfl rfl
        | false =>
          cases heq
          exact hout

theorem httpResponseXsendfile_open {f : SendFile} {valid : Bool} (h : Open c.out)
    (heq : c.httpResponseXsendfile f valid = some c') : Open c'.out := by
  obtain ⟨c₁, h₁, rfl⟩ := Option.map_eq_some_iff.mp heq
  have hforget : Open (Con.forgetLength { c with fileStarted := true }).out := by
    unfold forgetLength
    split
    · exact h
    · exact h
  have hsent : Open c₁.out := by
    unfold sendValid at h₁
    split at h₁
    · exact httpResponseSendFile_open hforget h₁
    · cases h₁
      exact hforget
  split
  · exact hsent
  · split
    · exact hsent
    · exact hsent

/-! ## Backends -/

theorem connectionClose_open (h : Open c.out) (heq : c.connectionClose = some c') : Open c'.out := by
  unfold connectionClose httpResponseBackendDone at heq
  dsimp only at heq
  split at heq
  · cases heq
    exact h
  · split at heq
    · cases heq
      exact h
    · split at heq
      · obtain ⟨out, hclose, rfl⟩ := Option.map_eq_some_iff.mp heq
        -- nothing is coded yet, so that there is no last chunk
        rw [httpChunkClose, if_neg (by simp [h.chunked])] at hclose
        cases hclose
        exact h.frame rfl rfl rfl rfl rfl
      · cases heq
        exact h

theorem httpResponseBackendError_open (h : Open c.out) : Open c.httpResponseBackendError.out := by
  unfold httpResponseBackendError
  split
  · exact h.frame rfl rfl rfl rfl rfl
  · exact h

theorem parseHeader_open {hd : Header} (h : Open c.out) : Open (c.parseHeader hd).out := by
  cases hd with
  | none => exact h
  | cgi header => exact h
  | scgi header eol => exact h
  | proxy header => exact h
  | fcgi authorizer xsendfileAllow files header =>
    have hhost : ∀ value out, Open out → Open (sendfile2Files out 0 (files value)).2.1 := fun value out ho =>
      sendfile2_open ho
    let host : FcgiHost := ⟨authorizer, xsendfileAllow, fun value out => sendfile2Files out 0 (files value)⟩
    have hparse : Open (fcgiResponseParse host c.sendContentBody c.reply c.out header).2.2 :=
      fcgiResponseParse_open hhost c.sendContentBody c.reply header h
    unfold parseHeader fcgiHeader
    dsimp only
    split
    · split
      · exact hparse
      · exact hparse
    · split
      · exact hparse
      · exact hparse

theorem append_then_open {ios : List Attempt} {b : Bytes} (h : Open c.out) (heq : c.append ios b = some c') :
    Open c'.out := by
  obtain ⟨⟨ok, out⟩, hout, heq⟩ := Option.bind_eq_some_iff.mp heq
  have ho := append_open h hout
  cases ok with
  | true =>
    cases heq
    exact ho
  | false => exact connectionClose_open ho heq

theorem answer_open {hd : Header} {ios : List Attempt} {rest : Bytes} (h : Open c.out)
    (heq : c.answer hd ios rest = some c') : Open c'.out := by
  obtain ⟨⟨ok, out⟩, hout, heq⟩ := Option.bind_eq_some_iff.mp heq
  have ho := append_open (parseHeader_open h) hout
  cases ok with
  | true =>
    cases heq
    exact ho
  | false => exact connectionClose_open ho heq

theorem errdocInit_open (h : Open c.out) : Open c.connectionHandleErrdocInit.out := by
  have hreset := h.resetQueue
  unfold connectionHandleErrdocInit
  dsimp only
  split
  · exact hreset.frame rfl rfl h.chunked.symm rfl rfl
  · exact hreset.frame rfl rfl h.chunked.symm rfl rfl

end Con

/-! ## Runs -/

/-- **A step before the header.** -/
theorem Step.before_open {s : Step} {c c' : Con} (h : Open c.out) (heq : s.before c = some c') : Open c'.out := by
  cases s with
  | handler =>
    obtain ⟨-, rfl⟩ := Option.ite_none_right_eq_some.mp heq |>.imp_right Option.some.inj
    exact h
  | sendFile f => exact Con.httpResponseSendFile_open h (Option.ite_none_right_eq_some.mp heq).2
  | redirectToDirectory location =>
    obtain ⟨-, rfl⟩ := (Option.ite_none_right_eq_some.mp heq).imp_right Option.some.inj
    exact h.frame rfl rfl rfl rfl rfl
  | reject status =>
    cases heq
    exact h
  | answer hd ios rest => exact Con.answer_open h (Option.ite_none_right_eq_some.mp heq).2
  | xsendfile f valid =>
    obtain ⟨-, heq⟩ := Option.ite_none_right_eq_some.mp heq
    obtain ⟨c₁, h₁, rfl⟩ := Option.map_eq_some_iff.mp heq
    have hsent : Open c₁.out := Con.httpResponseXsendfile_open h h₁
    exact hsent
  | localRedirect uriPath bodyLeft =>
    obtain ⟨-, rfl⟩ := (Option.ite_none_right_eq_some.mp heq).imp_right Option.some.inj
    exact h.resetQueue.frame rfl rfl h.chunked.symm rfl rfl
  | authorized =>
    obtain ⟨-, rfl⟩ := (Option.ite_none_right_eq_some.mp heq).imp_right Option.some.inj
    exact h
  | errorHandler uriPath bodyLeft =>
    obtain ⟨-, rfl⟩ := (Option.ite_none_right_eq_some.mp heq).imp_right Option.some.inj
    exact Con.errdocInit_open (h.frame rfl rfl h.chunked.symm rfl rfl)
  | errorHandler404 uriPath =>
    obtain ⟨-, rfl⟩ := (Option.ite_none_right_eq_some.mp heq).imp_right Option.some.inj
    exact Con.errdocInit_open h
  | append ios b => exact Con.append_then_open h (Option.ite_none_right_eq_some.mp heq).2
  | backendDone => exact Con.connectionClose_open h (Option.ite_none_right_eq_some.mp heq).2
  | backendError =>
    exact Con.connectionClose_open (Con.httpResponseBackendError_open h) (Option.ite_none_right_eq_some.mp heq).2
  | written n => cases heq

/-- **A run before the header.** -/
theorem run_open {steps : List Step} {c c' : Con} (h : Open c.out) (heq : Run.run step c steps = some c') :
    Open c'.out := by
  have hstep : ∀ c s c', Open c.out → True → step c s = some c' → Open c'.out := by
    intro c s c' h _ heq
    unfold step at heq
    split at heq
    · cases heq
    · rw [if_neg (by simp [h.headerWritten])] at heq
      exact s.before_open h heq
  exact @Run.run_keeps _ _ step (fun _ _ => True) (fun c => Open c.out) _ _ _ hstep h
    (Run.meets_of_forall (fun _ _ => trivial) c steps) heq

end Respond
end Lighttpd
