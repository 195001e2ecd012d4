import Lighttpd.Response.Announce

/-!
# Behind the header

A backend goes on with the body of a response whose header is written. `Behind` is such a response, with the pieces of
its body; a step adds its piece (`step_behind`), and so does a run (`run_behind`), as long as every piece can be appended
and the connection is to be kept.
-/

namespace Lighttpd
namespace Respond
open Request Backend Chunkqueue Response ChunkedCoding

/-! ## Flags that the chunk API leaves alone -/

/-- `file_finished`, `keep_alive` and the state are the same. -/
structure SameFlags (r r' : Response) : Prop where
  fileFinished : r'.fileFinished = r.fileFinished
  keepAlive : r'.keepAlive = r.keepAlive
  headerWritten : r'.headerWritten = r.headerWritten

namespace SameFlags
variable {r r' r'' : Response}

theorem refl (r : Response) : SameFlags r r := ⟨rfl, rfl, rfl⟩

theorem trans (h : SameFlags r r') (h' : SameFlags r' r'') : SameFlags r r'' :=
  ⟨h'.fileFinished.trans h.fileFinished, h'.keepAlive.trans h.keepAlive, h'.headerWritten.trans h.headerWritten⟩

variable {mem : Bytes} {ios : List Attempt} {ok : Bool}

theorem queueMem (heq : r.queueMem mem = some r') : SameFlags r r' := by
  obtain ⟨cq, -, heq⟩ := Option.bind_eq_some_iff.mp heq
  cases heq
  exact ⟨rfl, rfl, rfl⟩

theorem beginChunk {len : Nat} (heq : r.beginChunk len = some r') : SameFlags r r' := by
  unfold Response.beginChunk at heq
  split at heq
  · obtain ⟨⟨cq, b⟩, -, heq⟩ := Option.bind_eq_some_iff.mp heq
    cases heq
    exact ⟨rfl, rfl, rfl⟩
  · cases heq
    exact .refl r

theorem endChunk (heq : r.endChunk = some r') : SameFlags r r' := by
  unfold Response.endChunk at heq
  split at heq
  · exact .queueMem heq
  · cases heq
    exact .refl r

theorem queueData {b : Option Buffer} (heq : r.queueData b mem = some r') : SameFlags r r' := by
  cases b with
  | some b =>
    obtain ⟨⟨cq, b'⟩, -, rfl⟩ := Option.map_eq_some_iff.mp heq
    exact ⟨rfl, rfl, rfl⟩
  | none => exact .queueMem heq

theorem queueTempfile {ios' : List Attempt}
    (heq : r.queueTempfile ios mem = some (ok, r', ios')) : SameFlags r r' := by
  obtain ⟨⟨t, ios₁⟩, -, heq⟩ := Option.bind_eq_some_iff.mp heq
  cases heq
  exact ⟨rfl, rfl, rfl⟩

theorem appendToTempfile (heq : r.httpChunkAppendToTempfile ios mem = some (ok, r')) : SameFlags r r' := by
  unfold httpChunkAppendToTempfile at heq
  split at heq
  · have hlen : SameFlags r { r with tmpChunkLen := chunkLen r.tmpChunkLen mem.length } := ⟨rfl, rfl, rfl⟩
    obtain ⟨⟨ok₁, r₁, ios₁⟩, h₁, heq⟩ := Option.bind_eq_some_iff.mp heq
    have hf₁ := hlen.trans (.queueTempfile h₁)
    cases ok₁ with
    | false =>
      cases heq
      exact hf₁
    | true =>
      obtain ⟨⟨ok₂, r₂, ios₂⟩, h₂, heq⟩ := Option.bind_eq_some_iff.mp heq
      have hf₂ := hf₁.trans (.queueTempfile h₂)
      cases ok₂ with
      | false =>
        cases heq
        exact hf₂
      | true =>
        obtain ⟨⟨ok₃, r₃, ios₃⟩, h₃, heq⟩ := Option.bind_eq_some_iff.mp heq
        cases heq
        exact hf₂.trans (.queueTempfile h₃)
  · obtain ⟨⟨ok₁, r₁, ios₁⟩, h₁, heq⟩ := Option.bind_eq_some_iff.mp heq
    cases heq
    exact .queueTempfile h₁

theorem appendData {b : Option Buffer} (heq : r.httpChunkAppendData ios b mem = some (ok, r')) : SameFlags r r' := by
  unfold httpChunkAppendData at heq
  dsimp only at heq
  split at heq
  · cases heq
    exact .refl r
  · split at heq
    · exact .appendToTempfile heq
    · obtain ⟨r₁, h₁, heq⟩ := Option.bind_eq_some_iff.mp heq
      obtain ⟨r₂, h₂, heq⟩ := Option.bind_eq_some_iff.mp heq
      obtain ⟨r₃, h₃, heq⟩ := Option.bind_eq_some_iff.mp heq
      cases heq
      exact ((SameFlags.beginChunk h₁).trans (.queueData h₂)).trans (.endChunk h₃)

theorem chunkClose (heq : r.httpChunkClose = some r') : SameFlags r r' := by
  unfold httpChunkClose at heq
  split at heq
  · exact .queueMem heq
  · cases heq
    exact .refl r

theorem written {n : Nat} (heq : r.written n = some r') : SameFlags r r' := by
  unfold Response.written at heq
  split at heq
  · obtain ⟨cq, -, heq⟩ := Option.bind_eq_some_iff.mp heq
    cases heq
    exact ⟨rfl, rfl, rfl⟩
  · cases heq

end SameFlags

theorem httpChunkClose_good {r r' : Response} (hg : r.Good) (hw : r.headerWritten = true)
    (heq : r.httpChunkClose = some r') : r'.Good := by
  have hw' := (SameFlags.chunkClose heq).headerWritten.trans hw
  refine ⟨?_, fun hf => absurd (hw'.symm.trans hf) (by decide)⟩
  unfold httpChunkClose at heq
  split at heq
  · exact (queueMem_queues hg.sound heq).extended.sound
  · cases heq
    exact hg.sound

/-! ## Steps -/

structure SameHeader (c c' : Con) : Prop where
  reply : c'.reply = c.reply
  lengthReset : c'.lengthReset = c.lengthReset
  httpMethod : c'.httpMethod = c.httpMethod
  bytesHeader : c'.bytesHeader = c.bytesHeader
  chunked : c'.out.chunked = c.out.chunked

theorem SameHeader.refl (c : Con) : SameHeader c c := ⟨rfl, rfl, rfl, rfl, rfl⟩

theorem SameHeader.trans {c c' c'' : Con} (h : SameHeader c c') (h' : SameHeader c' c'') : SameHeader c c'' :=
  ⟨h'.reply.trans h.reply, h'.lengthReset.trans h.lengthReset, h'.httpMethod.trans h.httpMethod,
    h'.bytesHeader.trans h.bytesHeader, h'.chunked.trans h.chunked⟩

def lastOf (r : Response) : Bytes := if r.chunked && r.fileFinished then lastChunk else []

/-- **A response behind its header** `text`, with the pieces `ps` of its body. A chunked response is finished when the
backend is gone. -/
structure Behind (c : Con) (text : Bytes) (ps : List Bytes) : Prop where
  good : c.out.Good
  headerWritten : c.out.headerWritten = true
  bytesHeader : c.bytesHeader = text.length
  finished : c.out.chunked = true → c.out.fileFinished = true → c.hctx = false
  stream : c.out.stream = text ++ coded c.out.chunked ps ++ lastOf c.out

/-- A piece of the body can be appended. -/
def Step.appends (c : Con) : Step → Bool
  | .append ios b => (c.out.httpChunkAppendBuffer ios (.ofString b)).all fun r => r.1
  | _ => true

variable {c c' : Con} {text : Bytes} {ps : List Bytes}

theorem connectionClose_behind (h : Behind c text ps) (heq : c.connectionClose = some c') :
    Behind c' text ps ∧ SameHeader c c' := by
  unfold Con.connectionClose Con.httpResponseBackendDone at heq
  dsimp only at heq
  split at heq
  · cases heq
    exact ⟨⟨h.good, h.headerWritten, h.bytesHeader, fun _ _ => rfl, h.stream⟩, rfl, rfl, rfl, rfl, rfl⟩
  · rw [if_neg (by simp [h.headerWritten])] at heq
    split at heq
    · rename_i hf
      have hf : c.out.fileFinished = false := by simpa using hf
      obtain ⟨out, hclose, rfl⟩ := Option.map_eq_some_iff.mp heq
      obtain ⟨hchunked, hstream⟩ := httpChunkClose_stream h.good hclose
      have hgood := httpChunkClose_good h.good h.headerWritten hclose
      have hwritten := (SameFlags.chunkClose hclose).headerWritten.trans h.headerWritten
      refine ⟨⟨⟨hgood.sound, hgood.sent⟩, hwritten, h.bytesHeader, fun _ _ => rfl, ?_⟩, rfl, rfl, rfl, rfl, hchunked⟩
      show out.stream = _
      have hlast : lastOf c.out = [] := by simp [lastOf, hf]
      rw [hstream, h.stream, hlast, List.append_nil, lastOf, hchunked, Bool.and_true]
    · cases heq
      exact ⟨⟨h.good, h.headerWritten, h.bytesHeader, fun _ _ => rfl, h.stream⟩, rfl, rfl, rfl, rfl, rfl⟩

/-- **A step behind the header** adds its piece. -/
theorem step_behind {s : Step} (h : Behind c text ps) (hok : s.appends c = true) (heq : step c s = some c')
    (hk : c'.out.keepAlive = true) :
    ∃ qs, Behind c' text (ps ++ qs) ∧ SameHeader c c' ∧ qs.flatten = s.piece ∧ ∀ q ∈ qs, q ≠ [] := by
  unfold step at heq
  split at heq
  · cases heq
  · rw [if_pos h.headerWritten] at heq
    cases s with
    | append ios b =>
      obtain ⟨hctx, heq⟩ := Option.ite_none_right_eq_some.mp heq
      obtain ⟨⟨ok, out⟩, hout, heq⟩ := Option.bind_eq_some_iff.mp heq
      have htrue : ok = true := by
        rw [Step.appends, hout] at hok
        exact hok
      subst htrue
      cases heq
      obtain ⟨qs, happ, hflat, hne⟩ := httpChunkAppendData_appends h.good hout
      have hflags := SameFlags.appendData hout
      have hstr : (Buffer.ofString b).str = b := Buffer.copyStringLen_str _ _
      refine ⟨qs, ⟨happ.good, hflags.headerWritten.trans h.headerWritten, h.bytesHeader, fun hc hf => ?_, ?_⟩,
        ⟨rfl, rfl, rfl, rfl, happ.chunked⟩, hflat.trans hstr, hne⟩
      · exact h.finished (happ.chunked.symm.trans hc) (hflags.fileFinished.symm.trans hf)
      · -- the response is not finished, or it is not chunked
        have hlast : lastOf c.out = [] := by
          unfold lastOf
          split
          · rename_i hl
            obtain ⟨hc, hf⟩ := Bool.and_eq_true_iff.mp hl
            rw [h.finished hc hf] at hctx
            exact absurd hctx.1 (by decide)
          · rfl
        have hlast' : lastOf out = [] := by
          rw [← hlast, lastOf, lastOf, happ.chunked, hflags.fileFinished]
        show out.stream = text ++ coded out.chunked (ps ++ qs) ++ lastOf out
        rw [happ.stream, h.stream, hlast, hlast', happ.chunked, coded_append, List.append_nil, List.append_nil,
          List.append_assoc]
    | backendDone =>
      obtain ⟨-, heq⟩ := Option.ite_none_right_eq_some.mp heq
      obtain ⟨hb, hs⟩ := connectionClose_behind h heq
      exact ⟨[], by rwa [List.append_nil], hs, rfl, nofun⟩
    | backendError =>
      obtain ⟨-, heq⟩ := Option.ite_none_right_eq_some.mp heq
      unfold Con.httpResponseBackendError at heq
      split at heq
      · cases heq
        cases hk
      · obtain ⟨hb, hs⟩ := connectionClose_behind h heq
        exact ⟨[], by rwa [List.append_nil], hs, rfl, nofun⟩
    | written n =>
      obtain ⟨out, hout, rfl⟩ := Option.map_eq_some_iff.mp heq
      have happ := written_appends h.good hout
      have hflags := SameFlags.written hout
      refine ⟨[], ⟨happ.good, hflags.headerWritten.trans h.headerWritten, h.bytesHeader, fun hc hf => ?_, ?_⟩,
        ⟨rfl, rfl, rfl, rfl, happ.chunked⟩, rfl, nofun⟩
      · exact h.finished (happ.chunked.symm.trans hc) (hflags.fileFinished.symm.trans hf)
      · show out.stream = text ++ coded out.chunked (ps ++ []) ++ lastOf out
        rw [happ.stream, h.stream, coded_nil, List.append_nil, List.append_nil, lastOf, lastOf, happ.chunked,
          hflags.fileFinished]
    | _ => cases heq

/-! ## Runs -/

theorem connectionClose_keepAlive (hw : c.out.headerWritten = true) (heq : c.connectionClose = some c') :
    c'.out.headerWritten = true ∧ c'.out.keepAlive = c.out.keepAlive := by
  unfold Con.connectionClose Con.httpResponseBackendDone at heq
  dsimp only at heq
  split at heq
  · cases heq
    exact ⟨hw, rfl⟩
  · rw [if_neg (by simp [hw])] at heq
    split at heq
    · obtain ⟨out, hclose, rfl⟩ := Option.map_eq_some_iff.mp heq
      have hflags := SameFlags.chunkClose hclose
      exact ⟨hflags.headerWritten.trans hw, hflags.keepAlive⟩
    · cases heq
      exact ⟨hw, rfl⟩

theorem step_keepAlive {s : Step} (hw : c.out.headerWritten = true) (heq : step c s = some c') :
    c'.out.headerWritten = true ∧ (c'.out.keepAlive = true → c.out.keepAlive = true) := by
  unfold step at heq
  rw [hw] at heq
  split at heq
  · cases heq
  · rw [if_pos rfl] at heq
    cases s with
    | append ios b =>
      obtain ⟨-, heq⟩ := Option.ite_none_right_eq_some.mp heq
      obtain ⟨⟨ok, out⟩, hout, heq⟩ := Option.bind_eq_some_iff.mp heq
      have hflags := SameFlags.appendData hout
      have hw' := hflags.headerWritten.trans hw
      cases ok with
      | true =>
        cases heq
        exact ⟨hw', fun h => hflags.keepAlive.symm.trans h⟩
      | false =>
        obtain ⟨hw'', hk⟩ := connectionClose_keepAlive (c := { c with out := out }) hw' heq
        exact ⟨hw'', fun h => hflags.keepAlive.symm.trans (hk.symm.trans h)⟩
    | backendDone =>
      obtain ⟨hw', hk⟩ := connectionClose_keepAlive hw (Option.ite_none_right_eq_some.mp heq).2
      exact ⟨hw', fun h => hk.symm.trans h⟩
    | backendError =>
      obtain ⟨-, heq⟩ := Option.ite_none_right_eq_some.mp heq
      unfold Con.httpResponseBackendError at heq
      split at heq
      · cases heq
        exact ⟨hw, nofun⟩
      · obtain ⟨hw', hk⟩ := connectionClose_keepAlive hw heq
        exact ⟨hw', fun h => hk.symm.trans h⟩
    | written n =>
      obtain ⟨out, hout, rfl⟩ := Option.map_eq_some_iff.mp heq
      have hflags := SameFlags.written hout
      exact ⟨hflags.headerWritten.trans hw, fun h => hflags.keepAlive.symm.trans h⟩
    | _ => cases heq

theorem run_keepAlive {steps : List Step} (hw : c.out.headerWritten = true) (heq : Run.run step c steps = some c')
    (hk : c'.out.keepAlive = true) : c.out.keepAlive = true := by
  induction steps generalizing c with
  | nil =>
    cases heq
    exact hk
  | cons s steps ih =>
    rw [Run.run_cons] at heq
    obtain ⟨c₁, h₁, heq⟩ := Option.bind_eq_some_iff.mp heq
    obtain ⟨hw₁, hk₁⟩ := step_keepAlive hw h₁
    exact hk₁ (ih hw₁ heq)

/-- **A run behind the header** adds the pieces of its steps. -/
theorem run_behind {steps : List Step} (h : Behind c text ps)
    (hok : Run.Meets step (fun c s => s.appends c = true) c steps) (heq : Run.run step c steps = some c')
    (hk : c'.out.keepAlive = true) :
    ∃ qs, Behind c' text (ps ++ qs) ∧ SameHeader c c' ∧ qs.flatten = steps.flatMap Step.piece ∧ ∀ q ∈ qs, q ≠ [] := by
  induction steps generalizing c ps with
  | nil =>
    cases heq
    exact ⟨[], by rwa [List.append_nil], .refl _, rfl, nofun⟩
  | cons s steps ih =>
    rw [Run.run_cons] at heq
    obtain ⟨c₁, h₁, heq⟩ := Option.bind_eq_some_iff.mp heq
    have hk₁ := run_keepAlive (step_keepAlive h.headerWritten h₁).1 heq hk
    obtain ⟨qs, hb, hs, hflat, hne⟩ := step_behind h hok.1 h₁ hk₁
    obtain ⟨qs', hb', hs', hflat', hne'⟩ := ih hb (hok.2 c₁ h₁) heq
    refine ⟨qs ++ qs', by rwa [← List.append_assoc], hs.trans hs', ?_, List.forall_mem_append.mpr ⟨hne, hne'⟩⟩
    rw [List.flatten_append, hflat, hflat', List.flatMap_cons]

end Respond
end Lighttpd
