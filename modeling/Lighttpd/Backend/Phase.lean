import Lighttpd.Backend.Sender

/-!
# The phases of a request to a backend

A handler context is idle until there is a connection to the backend; then the request is queued, with what has come of
the body, and the rest of the body follows as it arrives. `Phase` is the invariant of a run, for the `Format` in which a
module queues a request, and here are the steps that `mod_fastcgi` and `mod_scgi` have in common.
-/

namespace Lighttpd
namespace Backend

open Chunkqueue Sender

/-- **How a module queues a request** whose body is the first `len` bytes of `stream`. `Ready` is what an idle handler
context has for a host and a request id; `Encodes host taken s` says that the request has been queued for a host, with the
first bytes `taken` of its body. -/
structure Format (stream : Bytes) (len : Nat) where
  Ready : Option EnvHost → Nat → Prop
  Encodes : EnvHost → Bytes → Sender → Prop
  carries : ∀ {host taken s}, Encodes host taken s → Carries stream len taken s
  queued_ne_nil : ∀ {host taken s}, Encodes host taken s → s.queued ≠ []
  congr : ∀ {host taken s s'}, Encodes host taken s → Carries stream len taken s' → s'.queued = s.queued →
    s'.requestId = s.requestId → s'.wbReqlen = s.wbReqlen → Encodes host taken s'

variable {stream : Bytes} {len : Nat} {F : Format stream len} {s s' : Sender} {host : EnvHost} {taken : Bytes}

/-- **`append` queues all that there is of the body** behind a request of which a part is missing. -/
def Format.Appends (F : Format stream len) (append : Sender → Option Sender) : Prop :=
  ∀ {host taken s s'}, F.Encodes host taken s → s.wb.bytesIn < s.wbReqlen → append s = some s' →
    SameContext s s' ∧ s'.con.contentQueue.content s'.con.world = [] ∧ ∃ taken', F.Encodes host taken' s'

/-- Nothing has been queued. -/
structure Idle (F : Format stream len) (s : Sender) : Prop where
  carries : Carries stream len [] s
  state : s.state = .init ∨ s.state = .connect
  bytesIn : s.wb.bytesIn = 0
  ready : F.Ready s.host s.requestId

/-- **The request has been queued**, with the first bytes `taken` of the body, and no byte that has come is left over. -/
structure Sending (F : Format stream len) (host : EnvHost) (taken : Bytes) (s : Sender) : Prop where
  chosen : s.host = some host
  state : s.state = .write ∨ s.state = .read
  encodes : F.Encodes host taken s
  drained : s.con.contentQueue.content s.con.world = []

/-- The invariant of a run. -/
inductive Phase (F : Format stream len) (s : Sender) : Prop
  | closed (h : s.closed = true)
  | idle (h : Idle F s)
  | sending (host : EnvHost) (taken : Bytes) (h : Sending F host taken s)

theorem Idle.queued_nil (h : Idle F s) : s.queued = [] := by
  have hin := h.carries.bytesIn
  rw [h.bytesIn] at hin
  exact List.length_eq_zero_iff.mp (by omega)

theorem Idle.wire_nil (h : Idle F s) : s.wire = [] := (List.append_eq_nil_iff.mp h.queued_nil).1

/-- An idle handler context whose state changes. -/
theorem Idle.congr (h : Idle F s) (hcon : s'.con = s.con) (hwb : s'.wb = s.wb) (hwire : s'.wire = s.wire)
    (hstate : s'.state = .init ∨ s'.state = .connect) (hready : F.Ready s'.host s'.requestId) : Idle F s' :=
  ⟨h.carries.congr hcon hwb hwire, hstate, by rw [hwb]; exact h.bytesIn, hready⟩

theorem Sending.bytesIn_ne_zero (h : Sending F host taken s) : s.wb.bytesIn ≠ 0 := by
  intro h0
  have hin := (F.carries h.encodes).bytesIn
  rw [h0] at hin
  exact F.queued_ne_nil h.encodes (List.length_eq_zero_iff.mp (by omega))

/-- What has not been written is still queued. -/
theorem Sending.total_pos (h : Sending F host taken s) (hout : s.wb.bytesOut = 0) : 0 < s.wb.total := by
  have hb := (F.carries h.encodes).wb.balance
  have hin := h.bytesIn_ne_zero
  omega

/-- **All of the body that has come has been queued.** -/
theorem Sending.taken_eq (h : Sending F host taken s) : taken = stream.take s.con.contentQueue.bytesIn.toNat := by
  have htake := (F.carries h.encodes).take_stream
  rwa [h.drained, List.append_nil] at htake

/-- A request that has been queued and a change that leaves the queues alone. -/
theorem Sending.congr (h : Sending F host taken s) (hcon : s'.con = s.con) (hwb : s'.wb = s.wb) (hwire : s'.wire = s.wire)
    (hreq : s'.wbReqlen = s.wbReqlen) (hid : s'.requestId = s.requestId) (hhost : s'.host = s.host)
    (hstate : s'.state = .write ∨ s'.state = .read) : Sending F host taken s' where
  chosen := hhost.trans h.chosen
  state := hstate
  encodes := by
    refine F.congr h.encodes ((F.carries h.encodes).congr hcon hwb hwire) ?_ hid hreq
    unfold queued
    rw [hcon, hwb, hwire]
  drained := by rw [hcon]; exact h.drained

/-- **The request is queued** by the function that creates it. -/
theorem Sending.created {s₁ : Sender} (henc : F.Encodes host taken s₁)
    (hdrained : s₁.con.contentQueue.content s₁.con.world = []) (hhost : s₁.host = some host) :
    Sending F host taken { s₁ with state := .write } :=
  ⟨hhost, .inl rfl, F.congr henc ((F.carries henc).congr rfl rfl rfl) rfl rfl rfl, hdrained⟩

/-! ## The steps -/

/-- **The body arrives**: behind a request that has been queued, so is what has come. -/
theorem readPost_phase {append : Sender → Option Sender} (happend : F.Appends append) {io : ReadIo} {ios : List Attempt}
    (h : Phase F s) (heq : readPost append s io ios = some s') (hopen : s.closed = false) : Phase F s' := by
  by_cases hc : s'.closed = true
  · exact .closed hc
  rw [Bool.not_eq_true] at hc
  cases h with
  | closed h =>
    rw [hopen] at h
    cases h
  | idle h =>
    rcases readPost_cases h.carries.body heq hc with rfl | ⟨-, con, body, ha, hok, ⟨hne, -⟩ | ⟨-, rfl⟩⟩
    · exact .idle h
    · exact absurd h.bytesIn hne
    · exact .idle ⟨(h.carries.read ha hok).1, h.state, h.bytesIn, h.ready⟩
  | sending host taken h =>
    have hcarries := F.carries h.encodes
    rcases readPost_cases hcarries.body heq hc with rfl | ⟨hlt, con, body, ha, hok, hcase⟩
    · exact .sending host taken h
    · obtain ⟨hread, hq⟩ := hcarries.read ha hok
      have henc : F.Encodes host taken { s with con := con } := F.congr h.encodes hread hq rfl rfl
      rcases hcase with ⟨hne, happ⟩ | ⟨hnil, rfl⟩
      · obtain ⟨hsame, hdrained, taken', henc'⟩ := happend henc (hlt hne) happ
        exact .sending host taken' ⟨hsame.host.trans h.chosen, by rw [hsame.state]; exact h.state, henc', hdrained⟩
      · exact .sending host taken ⟨h.chosen, h.state, henc, hnil.resolve_left h.bytesIn_ne_zero⟩

theorem readable_phase (h : Phase F s) : Phase F s.readable := by
  cases h with
  | closed h => exact .closed h
  | idle h => exact .idle ⟨h.carries.readable.1, h.state, h.bytesIn, h.ready⟩
  | sending host taken h =>
    obtain ⟨hc, hq⟩ := (F.carries h.encodes).readable
    exact .sending host taken ⟨h.chosen, h.state, F.congr h.encodes hc hq rfl rfl, h.drained⟩

/-- **A write of the queue.** -/
theorem Sending.networkWrite (h : Sending F host taken s) (n : Nat) : ∃ s₁, s.networkWrite n = some s₁ ∧
    Sending F host taken s₁ ∧ s₁.reconnects = s.reconnects ∧ s₁.wb.bytesOut = s.wb.bytesOut + min n s.wb.total := by
  obtain ⟨wb, data, hwrite, hc, hq, -, hout⟩ := networkWrite_spec (F.carries h.encodes) n
  exact ⟨_, hwrite, ⟨h.chosen, h.state, F.congr h.encodes hc hq rfl rfl, h.drained⟩, rfl, hout⟩

theorem Sending.written (h : Sending F host taken s) : Sending F host taken s.written := by
  refine h.congr rfl rfl rfl rfl rfl rfl ?_
  unfold Sender.written
  dsimp only
  split
  · exact .inr rfl
  · exact h.state

theorem Phase.sending_of_state (h : Phase F s) (hopen : s.closed = false) (hstate : s.state = .write ∨ s.state = .read) :
    ∃ host taken, Sending F host taken s := by
  cases h with
  | closed hc =>
    rw [hopen] at hc
    cases hc
  | idle hi =>
    rcases hi.state with hi | hi
    · rw [hi] at hstate
      exact absurd hstate (by decide)
    · rw [hi] at hstate
      exact absurd hstate (by decide)
  | sending host taken hs => exact ⟨host, taken, hs⟩

end Backend
end Lighttpd
