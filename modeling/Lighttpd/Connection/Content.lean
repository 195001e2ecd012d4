import Lighttpd.Connection.Framing

/-!
# The queue of the request content

The calls of `connection_handle_read_post_state` put the body of a request into a queue, from which a backend steals
it piece by piece. `Arrived` is what a call adds, and `BodyOk.stolen` says that stealing does not disturb the calls
that follow.
-/

namespace Lighttpd
namespace Chunkqueue

/-- The chunks that `chunkqueue_steal` leaves are as coherent as those before: a chunk that is left in part cannot be
appended to. -/
theorem steal_go_coherent {cs : List Chunk} {dest src d s : Chunkqueue} {len : Nat} {w : World} (hs : src.WF)
    (h : Coherent w src.chunks) (hcs : src.chunks = cs) (heq : steal.go cs dest src len = some (d, s)) :
    Coherent w s.chunks := by
  induction cs generalizing dest src len with
  | nil =>
    cases heq
    exact h
  | cons c cs ih =>
    have htail : Coherent w src.chunks.tail := h.sublist (List.tail_sublist _)
    unfold steal.go at heq
    split at heq
    · cases heq
      exact h
    · rename_i hlen
      rw [Chunk.remainingLength_eq (hs.offset c (by simp [hcs])), Option.bind_eq_bind, Option.bind_some] at heq
      split at heq
      · refine ih (pop_drained hs hcs c).wf ?_ (by simp [dropFirst, hcs]) heq
        rw [pushUnusedChunk_chunks]
        exact htail
      · dsimp only at heq
        by_cases hge : len ≥ c.size - c.offset
        · rw [if_pos hge, if_pos rfl] at heq
          obtain ⟨d', -, heq⟩ := Option.bind_eq_some_iff.mp heq
          refine ih ?_ ?_ ?_ heq
          · exact ⟨(dropFirst_drained hs hcs).wf.offset, (dropFirst_drained hs hcs).wf.idle⟩
          · exact htail
          · simp [dropFirst, hcs]
        · have hne : len ≠ c.size - c.offset := by omega
          rw [if_neg hge, if_neg hne] at heq
          obtain ⟨d', -, heq⟩ := Option.bind_eq_some_iff.mp heq
          cases heq
          have hadv : (c.advance len).InFile w := by
            have hin := (setFirst_drained hs hcs (n := len) (by omega)).inFiles w h.inFile
            exact hin (c.advance len) (by simp [setFirst])
          have hcoh : Coherent w ([] ++ c :: cs) := hcs ▸ h
          have hnew := hcoh.replace hadv (not_appendable_of_offset (by rw [Chunk.advance_offset]; omega))
          simpa [setFirst, hcs] using hnew

end Chunkqueue

namespace Conn
open Chunkqueue

/-- **What a call of `connection_handle_read_post_state` adds to the body**: the next bytes of the stream of the
client. -/
structure Arrived (con con' : Conn) (body : Bytes) : Prop where
  stream : con.waiting ++ con.socket = body ++ (con'.waiting ++ con'.socket)
  content : con'.contentQueue.content con'.world = con.contentQueue.content con.world ++ body
  bytesIn : con'.contentQueue.bytesIn = con.contentQueue.bytesIn + body.length
  bytesOut : con'.contentQueue.bytesOut = con.contentQueue.bytesOut
  announced : con.contentQueue.bytesIn ≤ con.contentLength → con'.contentQueue.bytesIn ≤ con.contentLength
  contentLength : con'.contentLength = con.contentLength
  extends' : con.world.Extends con'.world

variable {con : Conn} {io : ReadIo}

theorem BodyOk.inFilesAll (h : BodyOk con) : con.contentQueue.InFiles con.world := by
  by_cases hsmall : con.contentLength ≤ 64 * 1024
  · exact h.inFiles hsmall
  · exact (h.coherent (by omega)).inFile

theorem BodyOk.length_content (h : BodyOk con) :
    (con.contentQueue.content con.world).length = con.contentQueue.total :=
  Chunkqueue.length_content h.inFilesAll

/-- A `read` that is not made may have any result. -/
theorem readIfReadable_not (h : con.isReadable = false) (io io' : ReadIo) (ios : List Attempt) :
    con.connectionHandleReadPostState io ios = con.connectionHandleReadPostState io' ios := by
  have heq : con.readIfReadable io = con.readIfReadable io' := by
    unfold readIfReadable
    rw [if_neg (by simp [h]), if_neg (by simp [h])]
  unfold connectionHandleReadPostState
  rw [heq]

/-- A `read` that fails hard ends the call. -/
theorem hard_error (h : BodyOk con) (ios : List Attempt) (hr : con.isReadable = true) (hhard : io.read.Hard) :
    ∃ con' data, con.connectionHandleReadPostState io ios = some (.error, con') ∧ Received con con' data := by
  obtain ⟨ret, con', data, heq, hrec, hfailed, -⟩ := connectionHandleRead_spec h.ok io
  refine ⟨con', data, ?_, hrec⟩
  have hread : con.readIfReadable io = some (.failed, con') := by
    unfold readIfReadable
    rw [if_pos hr, heq, hfailed.mpr hhard]
  unfold connectionHandleReadPostState
  rw [hread]
  rfl

/-- A call whose `read` fails hard, or one that may as well be made with a `read` that does not. -/
theorem hard_or_soft {con' : Conn} (h : BodyOk con) {ios : List Attempt} {ret : HandlerRet}
    (heq : con.connectionHandleReadPostState io ios = some (ret, con')) :
    (ret = .error ∧ ∃ data, Received con con' data) ∨
      ∃ io', ¬ io'.read.Hard ∧ con.connectionHandleReadPostState io' ios = some (ret, con') := by
  by_cases hhard : io.read.Hard
  · by_cases hr : con.isReadable = true
    · obtain ⟨con'', data, herror, hrec⟩ := hard_error h ios hr hhard
      rw [heq] at herror
      cases herror
      exact Or.inl ⟨rfl, data, hrec⟩
    · refine Or.inr ⟨⟨none, .got 0⟩, id, ?_⟩
      rw [← heq]
      exact readIfReadable_not (by simpa using hr) _ _ _
  · exact Or.inr ⟨io, hhard, heq⟩

/-- **One call that goes on or waits.** -/
theorem connectionHandleReadPostState_arrived {con' : Conn} (h : BodyOk con) {ios : List Attempt}
    {ret : HandlerRet} (heq : con.connectionHandleReadPostState io ios = some (ret, con')) (hfin : ret ≠ .finished)
    (herr : ret ≠ .error) : ∃ body, Arrived con con' body ∧ BodyOk con' := by
  obtain ⟨io', hsoft, heq⟩ := (hard_or_soft h heq).resolve_left fun hhard => herr hhard.1
  obtain ⟨data, body, hread, hok, hout, hext⟩ := connectionHandleReadPostState_spec h hsoft heq hfin
  refine ⟨body, ⟨?_, hread.content, hread.bytesIn, hout, ?_, hread.contentLength, hext⟩, hok⟩
  · rw [hread.socket, ← List.append_assoc, hread.stream, List.append_assoc]
  · intro hle
    have hlen := hread.length
    have hin := hread.bytesIn
    unfold missing at hlen
    omega

/-- **Stealing from the queue leaves the body as it has to be** for the calls that follow. -/
theorem BodyOk.stolen (h : BodyOk con) {dest d s : Chunkqueue} {len n : Nat}
    (heq : dest.steal con.contentQueue len = some (d, s)) (hst : Stolen dest con.contentQueue d s n) :
    BodyOk { con with contentQueue := s } where
  ok := ⟨h.ok.wf, h.ok.mem⟩
  wf := hst.drained.wf
  inFiles := fun hsmall => hst.drained.inFiles con.world (h.inFiles hsmall)
  coherent := fun hbig => steal_go_coherent h.wf (h.coherent hbig) rfl heq

end Conn
end Lighttpd
