import Lighttpd.Chunk.Steal

/-!
# Failed writes to temp files (`chunk.c`)

A write to a temp file fails for good, and the temp file is given up: an empty one is taken out of the queue, and
`-1` is returned, or the next directory is tried. What the queues hold then is decided by the state before the failure
(`tempfile_failures_iff`): the queue of an empty temp file must hold no other bytes, since `removeEmptyChunks` steps
behind the end of the list or over the temp file otherwise, and nothing of the data may have been stored already.

- `removeEmptyChunks_keeps`: the last chunk is never taken out behind other bytes;
- `ret_iff`: the round in which a call returns;
- `stealCalls_spec`: what has moved before each of the calls of `stealWithTempfiles`.
-/

namespace Lighttpd
namespace Chunkqueue

/-! ## Rounds that fail -/

/-- A call of `chunkqueue_append_mem_to_tempfile`. -/
structure TempCall where
  ios : List Attempt
  cq : Chunkqueue
  world : World
  mem : Bytes

def TempCall.run (t : TempCall) : Option (TempResult × List Attempt) := appendMemToTempfile t.ios t.cq t.world t.mem

def TempCall.rounds (t : TempCall) : List Round := go t.ios t.cq t.world t.mem
where
  go : List Attempt → Chunkqueue → World → Bytes → List Round
    | [], _, _, _ => []
    | io :: ios, cq, w, mem =>
      ⟨io, cq, w, mem⟩ :: match Round.next ⟨io, cq, w, mem⟩ with
        | some (.again cq w mem) => go ios cq w mem
        | _ => []

namespace Round

/-- The write of the round has failed with `e`, and the temp file `c`, the last chunk of `cq`, is given up. -/
structure GivesUp (s : Round) (c : Chunk) (cq : Chunkqueue) (e : Errno) : Prop where
  select : ∃ w, s.cq.selectTempfile s.world s.io = some (some c, cq, w)
  write : s.io.write = .error e
  notIntr : e ≠ .eintr

/-- There is no temp file to write to, or a write fails and there is no other directory to retry with, or a temp file
with bytes in it cannot be closed. -/
def Fails (s : Round) : Prop :=
  (∃ cq w, s.cq.selectTempfile s.world s.io = some (none, cq, w)) ∨
    ∃ c cq e, s.GivesUp c cq e ∧ ((cq.nextTempdir e).2 = false ∨ c.size ≠ 0 ∧ s.io.closeFull = false)

/-- The results of `mkstemp` suffice for the directories. -/
def Supplied (s : Round) : Prop := s.io.mkstemp ≠ [] ∧ ∀ dirs, s.cq.tempdirs = some dirs → dirs.length ≤ s.io.mkstemp.length

/-- **The round does no harm**, in a call that stores `mem`: an empty temp file is given up only if the queue holds no
bytes, and the round fails only if nothing of `mem` has been stored. -/
structure Harmless (s : Round) (mem : Bytes) : Prop where
  empty : ∀ c cq e, s.GivesUp c cq e → c.size = 0 → s.cq.total = 0
  whole : s.Fails → s.mem = mem

end Round

/-- The loop comes to the end of its rounds, and an empty temp file that is given up leaves the queue. -/
structure TempCall.Removes (t : TempCall) : Prop where
  ends : ∀ s ∈ t.rounds, s.Supplied → s.next.isSome
  removed : ∀ s ∈ t.rounds, ∀ c cq e, s.GivesUp c cq e → c.size = 0 →
    ∃ cq' closed, (cq.nextTempdir e).1.abandonTempfile c s.io.closeFull = some (cq', closed) ∧ c ∉ cq'.chunks

/-- **A call of `chunkqueue_append_mem_to_tempfile` leaves the queue consistent**: if it fails, `mem` is with the caller
only. -/
structure TempCall.Consistent (t : TempCall) : Prop where
  removes : t.Removes
  wf : ∀ r ios, t.run = some (r, ios) → r.cq.WF
  conserves : ∀ r ios, t.run = some (r, ios) → r.ok = false → r.cq.content r.world = t.cq.content t.world

/-- The calls that `chunkqueue_steal_with_tempfiles` makes, for the chunks that are left in `src`. -/
def stealCalls : List Chunk → Chunkqueue → Nat → World → List Attempt → List TempCall
  | [], _, _, _, _ => []
  | c :: cs, dest, len, w, ios =>
    if len = 0 then []
    else match c.remainingLength with
      | none => []
      | some clen =>
        if clen = 0 then stealCalls cs dest len w ios
        else
          let use := if len ≥ clen then clen else len
          match c.type with
          | .fileChunk =>
            if use = clen then
              match dest.appendChunk c with
              | none => []
              | some dest => stealCalls cs dest (len - use) w ios
            else []
          | .memChunk =>
            let t : TempCall := ⟨ios, dest, w, (c.mem.str.drop c.offset).take use⟩
            t :: match t.run with
              | none => []
              | some (r, ios) => if r.ok ∧ use = clen then stealCalls cs r.cq (len - use) r.world ios else []

/-- **`chunkqueue_steal_with_tempfiles` leaves the two queues consistent**: if it fails, every byte is in one of them. -/
structure StealConsistent (dest src : Chunkqueue) (len : Nat) (w : World) (ios : List Attempt) : Prop where
  removes : ∀ t ∈ stealCalls src.chunks dest len w ios, t.Removes
  wf : ∀ r s ios', stealWithTempfiles dest src len w ios = some (r, s, ios') → r.cq.WF ∧ s.WF
  conserves : ∀ r s ios', stealWithTempfiles dest src len w ios = some (r, s, ios') → r.ok = false →
    r.cq.content r.world ++ s.content r.world = dest.content w ++ src.content w

/-! ## Empty temp files -/

variable {cq : Chunkqueue} {w : World} {cs : List Chunk} {c : Chunk} {dest src : Chunkqueue}

theorem removeFinishedChunks_head {cq' : Chunkqueue} (hcs : cq.chunks = cs)
    (h : removeFinishedChunks.go cs cq = some cq') {ds : List Chunk} (hds : cq'.chunks = c :: ds) :
    c.size - c.offset ≠ 0 := by
  induction cs generalizing cq with
  | nil =>
    obtain rfl := Option.some.inj h
    rw [hcs] at hds
    cases hds
  | cons d cs ih =>
    rw [removeFinishedChunks.go] at h
    obtain ⟨n, hn, h⟩ := Option.bind_eq_some_iff.mp h
    obtain ⟨-, rfl⟩ := Chunk.remainingLength_some hn
    by_cases hz : d.size - d.offset = 0
    · rw [if_neg (not_not_intro hz)] at h
      exact ih (by simp [dropFirst, hcs]) h
    · rw [if_pos hz] at h
      obtain rfl := Option.some.inj h
      rw [hcs] at hds
      obtain ⟨rfl, -⟩ := List.cons.inj hds
      exact hz

/-- The loop over the chunks behind `front` does not take the last one out. -/
theorem removeEmptyChunks_go_keeps : ∀ {cs front : List Chunk} {cq cq' : Chunkqueue} {c : Chunk},
    cs.getLast? = some c → removeEmptyChunks.go front cs cq = some cq' → c ∈ cq'.chunks
  | [], _, _, _, _, hlast, _ => by cases hlast
  | e :: cs, front, cq, cq', c, hlast, h => by
    unfold removeEmptyChunks.go at h
    obtain ⟨n, -, h⟩ := Option.bind_eq_some_iff.mp h
    by_cases hn : n = 0
    · rw [if_pos hn] at h
      cases cs with
      | nil => cases h
      | cons d ds =>
        cases ds with
        | nil =>
          obtain rfl : d = c := by simpa using hlast
          obtain rfl := Option.some.inj h
          simp
        | cons d' ds => exact removeEmptyChunks_go_keeps (by simpa [List.getLast?_cons_cons] using hlast) h
    · rw [if_neg hn] at h
      cases cs with
      | nil =>
        obtain rfl : e = c := by simpa using hlast
        obtain rfl := Option.some.inj h
        simp
      | cons d ds => exact removeEmptyChunks_go_keeps (by simpa [List.getLast?_cons_cons] using hlast) h

/-- The last chunk is not taken out behind other bytes: the loop crashes, or it steps over the chunk. -/
theorem removeEmptyChunks_keeps {cq' : Chunkqueue} (hwf : cq.WF) (hlast : cq.chunks.getLast? = some c)
    (h0 : c.size - c.offset = 0) (htot : cq.total ≠ 0) (h : cq.removeEmptyChunks = some cq') : c ∈ cq'.chunks := by
  obtain ⟨cq₁, hrem, hd, -, hsuf⟩ := removeFinishedChunks_spec hwf
  rw [removeEmptyChunks, hrem, Option.bind_eq_bind, Option.bind_some] at h
  have htot₁ : cq₁.total ≠ 0 := by
    have := hd.total
    omega
  cases hcs : cq₁.chunks with
  | nil => exact absurd (by rw [total, hcs, totalOf_nil]) htot₁
  | cons d ds =>
    rw [hcs] at h
    have hd0 := removeFinishedChunks_head rfl hrem hcs
    have hlast₁ : (d :: ds).getLast? = some c := by
      obtain ⟨front, hfront⟩ := hsuf
      rw [← hlast, ← hfront, hcs, List.getLast?_append_of_ne_nil _ (List.cons_ne_nil d ds)]
    cases ds with
    | nil =>
      obtain rfl : d = c := by simpa using hlast₁
      exact absurd h0 hd0
    | cons e es => exact removeEmptyChunks_go_keeps (by simpa [List.getLast?_cons_cons] using hlast₁) h

theorem removeEmptyChunks_total (hwf : cq.WF) (htot : cq.total = 0) :
    ∃ cq', cq.removeEmptyChunks = some cq' ∧ cq'.chunks = [] := by
  obtain ⟨cq₁, hrem, hd, -, -⟩ := removeFinishedChunks_spec hwf
  have hnil : cq₁.chunks = [] := by
    cases hcs : cq₁.chunks with
    | nil => rfl
    | cons d ds =>
      have hd0 := removeFinishedChunks_head rfl hrem hcs
      have htot₁ : cq₁.total = d.size - d.offset + totalOf ds := by rw [total, hcs, totalOf_cons]
      have := hd.total
      omega
  refine ⟨cq₁, ?_, hnil⟩
  rw [removeEmptyChunks, hrem, Option.bind_eq_bind, Option.bind_some, hnil]
  rfl

/-- **When giving up an empty temp file takes it out of the queue.** -/
theorem abandonTempfile_removes_iff (hwf : cq.WF) (hc : EndsWith cq c) (h0 : c.size = 0)
    (closeFull : Bool) : (∃ cq' closed, cq.abandonTempfile c closeFull = some (cq', closed) ∧ c ∉ cq'.chunks) ↔
      cq.total = 0 := by
  have hrem : c.remainingLength = some 0 := by
    rw [Chunk.remainingLength_eq (Chunk.offsetOk_of_offset_eq_zero hc.appendable.2.2.2), h0, Nat.zero_sub]
  have hab : cq.abandonTempfile c closeFull = cq.removeEmptyChunks.map fun cq => (cq, true) := by
    rw [abandonTempfile, hrem, Option.bind_eq_bind, Option.bind_some, if_pos rfl]
    cases cq.removeEmptyChunks <;> rfl
  rw [hab]
  constructor
  · rintro ⟨cq', closed, heq, hmem⟩
    by_contra htot
    obtain ⟨q, hq, hpair⟩ := Option.map_eq_some_iff.mp heq
    obtain ⟨rfl, -⟩ := Prod.mk.inj hpair
    exact hmem (removeEmptyChunks_keeps hwf hc.last (by rw [h0, Nat.zero_sub]) htot hq)
  · intro htot
    obtain ⟨cq', heq, hnil⟩ := removeEmptyChunks_total hwf htot
    refine ⟨cq', true, by rw [heq]; rfl, ?_⟩
    rw [hnil]
    simp

/-! ## The rounds of a call -/

theorem mkstempLoop_isSome : ∀ {dirs : List Path} {rs : List MkstempResult} {cq : Chunkqueue},
    dirs.length ≤ rs.length → (cq.mkstempLoop w dirs rs).isSome
  | [], _, _, _ => rfl
  | _ :: _, [], _, h => by simp at h
  | dir :: dirs, r :: rs, cq, h => by
    rw [mkstempLoop]
    cases mkstemp w dir r with
    | some f => rfl
    | none => exact mkstempLoop_isSome (Nat.le_of_succ_le_succ h)

theorem getAppendTempfile_isSome {rs : List MkstempResult} (hwf : cq.WF) (hrs : rs ≠ [])
    (hdirs : ∀ dirs, cq.tempdirs = some dirs → dirs.length ≤ rs.length) : (cq.getAppendTempfile w rs).isSome := by
  have hopen : (cq.openTempfile w rs).isSome := by
    unfold openTempfile
    split
    · rename_i d ds hds
      apply mkstempLoop_isSome
      rw [List.length_drop]
      exact (Nat.sub_le _ _).trans (hdirs _ hds)
    · cases rs with
      | nil => exact absurd rfl hrs
      | cons r rs => rfl
  obtain ⟨⟨r, cq₁⟩, ho⟩ := Option.isSome_iff_exists.mp hopen
  obtain ⟨⟨i, rfl⟩, -⟩ := openTempfile_spec ho
  rw [getAppendTempfile, ho, Option.bind_eq_bind, Option.bind_some]
  cases r with
  | none => rfl
  | some f =>
    have hwf₁ : WF { cq with tempdirIdx := i } := ⟨hwf.offset, hwf.idle⟩
    obtain ⟨-, cq₂, happ, -⟩ := append_unused_spec hwf₁
      (fun c => { c with
        type := .fileChunk
        file := { c.file with fd := some f.2, isTemp := true, name := f.1, length := 0 } })
      (fun c hc => Chunk.offsetOk_of_offset_eq_zero hc.offset)
    simp only [happ]
    rfl

theorem selectTempfile_isSome {s : Round} (hwf : s.cq.WF) (hs : s.Supplied) :
    (s.cq.selectTempfile s.world s.io).isSome := by
  unfold selectTempfile
  cases hlast : s.cq.chunks.getLast? with
  | none => exact getAppendTempfile_isSome hwf hs.1 hs.2
  | some c =>
    simp only
    split_ifs with ha hl hc
    · exact getAppendTempfile_isSome (close_spec hwf ⟨hlast, ha⟩ s.world).wf hs.1 hs.2
    · rfl
    · rfl
    · exact getAppendTempfile_isSome hwf hs.1 hs.2

namespace Round

variable {s : Round} {e : Errno}

theorem GivesUp.spec (h : s.GivesUp c cq e) (hwf : s.cq.WF) :
    (cq.nextTempdir e).1.WF ∧ EndsWith (cq.nextTempdir e).1 c ∧ (cq.nextTempdir e).1.total = s.cq.total := by
  obtain ⟨w, hsel⟩ := h.select
  obtain ⟨hstep, hlast⟩ := selectTempfile_spec hwf hsel
  obtain ⟨i, hi⟩ := nextTempdir_spec cq e
  obtain ⟨hc, hap⟩ := hlast c rfl
  rw [hi]
  exact ⟨⟨hstep.wf.offset, hstep.wf.idle⟩, ⟨hc, hap⟩, hstep.total⟩

theorem GivesUp.removed_iff (h : s.GivesUp c cq e) (hwf : s.cq.WF) (h0 : c.size = 0) :
    (∃ cq' closed, (cq.nextTempdir e).1.abandonTempfile c s.io.closeFull = some (cq', closed) ∧ c ∉ cq'.chunks) ↔
      s.cq.total = 0 := by
  obtain ⟨hwf₁, hc, htot⟩ := h.spec hwf
  rw [abandonTempfile_removes_iff hwf₁ hc h0, htot]

theorem GivesUp.abandon (h : s.GivesUp c cq e) (hwf : s.cq.WF) (htot : c.size = 0 → s.cq.total = 0) :
    ∃ cq', (cq.nextTempdir e).1.abandonTempfile c s.io.closeFull =
      some (cq', decide (c.size = 0) || s.io.closeFull) := by
  obtain ⟨hwf₁, hc, htot₁⟩ := h.spec hwf
  have hoff := hc.appendable.2.2.2
  have hrem : c.remainingLength = some c.size := by
    rw [Chunk.remainingLength_eq (Chunk.offsetOk_of_offset_eq_zero hoff), hoff, Nat.sub_zero]
  rw [abandonTempfile, hrem, Option.bind_eq_bind, Option.bind_some]
  by_cases h0 : c.size = 0
  · obtain ⟨cq', heq, -⟩ := removeEmptyChunks_total hwf₁ (htot₁.trans (htot h0))
    refine ⟨cq', ?_⟩
    rw [if_pos h0, heq]
    simp [h0]
  · rw [if_neg h0]
    simp [h0]

theorem GivesUp.next (h : s.GivesUp c cq e) (hwf : s.cq.WF) (htot : c.size = 0 → s.cq.total = 0) :
    ∃ w cq', s.next = some (if (c.size = 0 ∨ s.io.closeFull = true) ∧ (cq.nextTempdir e).2 = true then
      .again cq' w s.mem else .ret ⟨false, cq', w⟩) := by
  obtain ⟨w, hsel⟩ := h.select
  obtain ⟨cq', hab⟩ := h.abandon hwf htot
  refine ⟨w, cq', ?_⟩
  rw [Round.next, hsel, Option.bind_eq_bind, Option.bind_some]
  simp only [h.write, if_neg h.notIntr, hab, Option.bind_eq_bind, Option.bind_some, Bool.or_eq_true, decide_eq_true_eq]
  split_ifs <;> rfl

/-- Every empty temp file that the round gives up is alone with empty chunks. -/
def Alone (s : Round) : Prop := ∀ c cq e, s.GivesUp c cq e → c.size = 0 → s.cq.total = 0

theorem next_isSome (hwf : s.cq.WF) (hsup : s.Supplied) (hal : s.Alone) : s.next.isSome := by
  obtain ⟨⟨oc, cq, w⟩, hsel⟩ := Option.isSome_iff_exists.mp (selectTempfile_isSome hwf hsup)
  cases oc with
  | none =>
    rw [Round.next, hsel]
    rfl
  | some c =>
    cases hw : s.io.write with
    | wrote n =>
      simp only [Round.next, hsel, hw, Option.bind_eq_bind, Option.bind_some]
      split_ifs <;> rfl
    | error e =>
      by_cases he : e = .eintr
      · simp only [Round.next, hsel, hw, if_pos he, Option.bind_eq_bind, Option.bind_some]
        rfl
      · have hg : s.GivesUp c cq e := ⟨⟨w, hsel⟩, hw, he⟩
        obtain ⟨w', cq', hnext⟩ := hg.next hwf (hal c cq e hg)
        rw [hnext]
        rfl

/-- **The rounds in which the call returns `-1`.** -/
theorem fails_iff (hwf : s.cq.WF) (hal : s.Alone) : s.Fails ↔ ∃ r, s.next = some (.ret r) ∧ r.ok = false := by
  constructor
  · rintro (⟨cq, w, hsel⟩ | ⟨c, cq, e, hg, hfail⟩)
    · refine ⟨⟨false, cq, w⟩, ?_, rfl⟩
      rw [Round.next, hsel]
      rfl
    · obtain ⟨w, cq', hnext⟩ := hg.next hwf (hal c cq e hg)
      refine ⟨⟨false, cq', w⟩, ?_, rfl⟩
      rw [hnext, if_neg]
      rintro ⟨hclosed, hretry⟩
      rcases hfail with hfail | ⟨h0, hopen⟩
      · simp [hfail] at hretry
      · simp [h0, hopen] at hclosed
  · rintro ⟨r, hnext, hr⟩
    obtain ⟨⟨oc, cq, w⟩, hsel, hrest⟩ := Option.bind_eq_some_iff.mp hnext
    cases oc with
    | none => exact .inl ⟨cq, w, hsel⟩
    | some c =>
      cases hw : s.io.write with
      | wrote n =>
        simp only [hw] at hrest
        split_ifs at hrest
        · cases hrest
          cases hr
        · cases hrest
      | error e =>
        by_cases he : e = .eintr
        · simp only [hw, if_pos he] at hrest
          cases hrest
        · have hg : s.GivesUp c cq e := ⟨⟨w, hsel⟩, hw, he⟩
          obtain ⟨w', cq', hnext'⟩ := hg.next hwf (hal c cq e hg)
          refine .inr ⟨c, cq, e, hg, ?_⟩
          rw [hnext] at hnext'
          by_contra hcon
          rw [if_pos] at hnext'
          · cases hnext'
          · have hretry : (cq.nextTempdir e).2 = true := by
              by_contra h
              exact hcon (.inl (by simpa using h))
            refine ⟨?_, hretry⟩
            by_contra h
            obtain ⟨h0, hclosed⟩ := not_or.mp h
            exact hcon (.inr ⟨h0, by simpa using hclosed⟩)

end Round

namespace TempCall

variable {t : TempCall}

theorem rounds_go_spec : ∀ {ios : List Attempt} {cq : Chunkqueue} {w : World} {mem : Bytes} {s : Round}, cq.WF →
    s ∈ rounds.go ios cq w mem → ∃ data, data ++ s.mem = mem ∧ TempStep cq s.cq w s.world data
  | [], _, _, _, _, _, h => absurd h List.not_mem_nil
  | io :: ios, cq, w, mem, s, hwf, h => by
    rw [rounds.go] at h
    rcases List.mem_cons.mp h with rfl | h
    · exact ⟨[], rfl, .refl hwf w⟩
    · cases hnext : Round.next ⟨io, cq, w, mem⟩ with
      | none => simp [hnext] at h
      | some e =>
        cases e with
        | ret r => simp [hnext] at h
        | again cq₁ w₁ mem₁ =>
          simp only [hnext] at h
          obtain ⟨data, hstep, hmem⟩ := Round.next_spec hwf hnext
          obtain ⟨data₁, hmem₁, hstep₁⟩ := rounds_go_spec hstep.wf h
          have hmem' : data ++ mem₁ = mem := hmem
          exact ⟨data ++ data₁, by rw [List.append_assoc, hmem₁, hmem'], hstep.trans hstep₁⟩

theorem rounds_spec (hwf : t.cq.WF) {s : Round} (hs : s ∈ t.rounds) :
    ∃ data, data ++ s.mem = t.mem ∧ TempStep t.cq s.cq t.world s.world data := rounds_go_spec hwf hs

/-- **A call returns what one of its rounds returns.** -/
theorem ret_iff {r : TempResult} : (∃ ios, t.run = some (r, ios)) ↔ ∃ s ∈ t.rounds, s.next = some (.ret r) := by
  obtain ⟨ios, cq, w, mem⟩ := t
  simp only [run, rounds]
  induction ios generalizing cq w mem with
  | nil => simp [appendMemToTempfile, rounds.go]
  | cons io ios ih =>
    rw [appendMemToTempfile_cons, rounds.go]
    cases hnext : Round.next ⟨io, cq, w, mem⟩ with
    | none => simp [hnext]
    | some e =>
      cases e with
      | ret r' =>
        simp [hnext, RoundEnd.rest]
      | again cq₁ w₁ mem₁ =>
        simp only [Option.bind_some, RoundEnd.rest, ih, List.exists_mem_cons_iff, hnext]
        simp

theorem removes_iff (hwf : t.cq.WF) : t.Removes ↔ ∀ s ∈ t.rounds, s.Alone := by
  constructor
  · intro h s hs c cq e hg h0
    obtain ⟨data, -, hstep⟩ := rounds_spec hwf hs
    exact (hg.removed_iff hstep.wf h0).mp (h.removed s hs c cq e hg h0)
  · intro h
    constructor
    · intro s hs hsup
      obtain ⟨data, -, hstep⟩ := rounds_spec hwf hs
      exact s.next_isSome hstep.wf hsup (h s hs)
    · intro s hs c cq e hg h0
      obtain ⟨data, -, hstep⟩ := rounds_spec hwf hs
      exact (hg.removed_iff hstep.wf h0).mpr (h s hs c cq e hg h0)

/-- What a call has written that fails in the round `s`. -/
theorem failed_spec (hwf : t.cq.WF) {s : Round} (hs : s ∈ t.rounds) {r : TempResult} (hnext : s.next = some (.ret r))
    (hr : r.ok = false) : ∃ data, data ++ s.mem = t.mem ∧ TempStep t.cq r.cq t.world r.world data := by
  obtain ⟨data, hmem, hstep⟩ := rounds_spec hwf hs
  obtain ⟨data₁, hstep₁, hdata₁⟩ := Round.next_spec hstep.wf hnext
  rw [if_neg (by simp [hr])] at hdata₁
  subst hdata₁
  refine ⟨data, hmem, ?_⟩
  have htrans := hstep.trans hstep₁
  rwa [List.append_nil] at htrans

theorem whole_iff (hwf : t.cq.WF) (hal : ∀ s ∈ t.rounds, s.Alone) :
    (∀ s ∈ t.rounds, s.Fails → s.mem = t.mem) ↔
      ∀ r ios, t.run = some (r, ios) → r.ok = false → TempStep t.cq r.cq t.world r.world [] := by
  constructor
  · intro h r ios hrun hr
    obtain ⟨s, hs, hnext⟩ := Iff.mp ret_iff ⟨ios, hrun⟩
    obtain ⟨data₀, -, hstep₀⟩ := rounds_spec hwf hs
    have hfails := (s.fails_iff hstep₀.wf (hal s hs)).mpr ⟨r, hnext, hr⟩
    obtain ⟨data, hmem, hstep⟩ := failed_spec hwf hs hnext hr
    rw [h s hs hfails] at hmem
    rwa [List.append_left_eq_self.mp hmem] at hstep
  · intro h s hs hfails
    obtain ⟨data₀, -, hstep₀⟩ := rounds_spec hwf hs
    obtain ⟨r, hnext, hr⟩ := (s.fails_iff hstep₀.wf (hal s hs)).mp hfails
    obtain ⟨data, hmem, hstep⟩ := failed_spec hwf hs hnext hr
    obtain ⟨ios, hrun⟩ := Iff.mpr ret_iff ⟨s, hs, hnext⟩
    have htot := (h r ios hrun hr).total
    rw [hstep.total, List.length_nil] at htot
    have hnil : data = [] := List.eq_nil_of_length_eq_zero (by omega)
    rwa [hnil, List.nil_append] at hmem

/-- A failed call has stored nothing exactly if the content of the queue is the same. -/
theorem stored_nothing_iff (hwf : t.cq.WF) {rs : List Chunk} (hcoh : Coherent t.world (t.cq.chunks ++ rs))
    {r : TempResult} {ios : List Attempt} (hrun : t.run = some (r, ios)) :
    TempStep t.cq r.cq t.world r.world [] ↔ r.cq.content r.world = t.cq.content t.world := by
  constructor
  · intro h
    rw [h.content rs hcoh, List.append_nil]
  · intro h
    obtain ⟨data, -, -, hstep⟩ := appendMemToTempfile_spec hwf hrun
    rw [hstep.content rs hcoh] at h
    rwa [List.append_right_eq_self.mp h] at hstep

theorem harmless_iff : (∀ s ∈ t.rounds, s.Harmless t.mem) ↔
    (∀ s ∈ t.rounds, s.Alone) ∧ ∀ s ∈ t.rounds, s.Fails → s.mem = t.mem :=
  ⟨fun h => ⟨fun s hs => (h s hs).empty, fun s hs => (h s hs).whole⟩, fun h s hs => ⟨h.1 s hs, h.2 s hs⟩⟩

theorem consistent_iff (hwf : t.cq.WF) (hcoh : Coherent t.world t.cq.chunks) :
    t.Consistent ↔ ∀ s ∈ t.rounds, s.Harmless t.mem := by
  have hcoh' : Coherent t.world (t.cq.chunks ++ []) := by rwa [List.append_nil]
  rw [harmless_iff]
  constructor
  · intro h
    have hal := (removes_iff hwf).mp h.removes
    refine ⟨hal, (whole_iff hwf hal).mpr fun r ios hrun hr => ?_⟩
    exact (stored_nothing_iff hwf hcoh' hrun).mpr (h.conserves r ios hrun hr)
  · rintro ⟨hal, hwhole⟩
    refine ⟨(removes_iff hwf).mpr hal, fun r ios hrun => ?_, fun r ios hrun hr => ?_⟩
    · obtain ⟨data, -, -, hstep⟩ := appendMemToTempfile_spec hwf hrun
      exact hstep.wf
    · exact (stored_nothing_iff hwf hcoh' hrun).mp ((whole_iff hwf hal).mp hwhole r ios hrun hr)

end TempCall

/-! ## The calls of `chunkqueue_steal_with_tempfiles` -/

/-- **What has moved before a call**, and that the loop ends with a call that fails. -/
theorem stealCalls_spec {len : Nat} {ios : List Attempt}
    {t : TempCall} (hd : dest.WF) (hs : src.WF) (hcs : src.chunks = cs) (ht : t ∈ stealCalls cs dest len w ios) :
    ∃ s n, StolenTemp dest src t.cq s w t.world n ∧ ∀ r ios', t.run = some (r, ios') → r.ok = false →
      stealWithTempfiles.go cs dest src len w ios = some (r, s, ios') := by
  induction cs generalizing dest src len w ios with
  | nil => cases ht
  | cons c cs ih =>
    have hc := hs.offset c (by simp [hcs])
    have hrem := Chunk.remainingLength_eq hc
    unfold stealCalls at ht
    unfold stealWithTempfiles.go
    by_cases hl : len = 0
    · rw [if_pos hl] at ht
      cases ht
    · simp only [if_neg hl, hrem, Option.bind_eq_bind, Option.bind_some] at ht ⊢
      -- a call of the loop behind the first chunk
      have hcons : ∀ {d₁ s₁ : Chunkqueue} {w₁ : World} {n : Nat} {ios₁ : List Attempt},
          StolenTemp dest src d₁ s₁ w w₁ n → s₁.chunks = cs → t ∈ stealCalls cs d₁ (len - n) w₁ ios₁ →
          ∃ s m, StolenTemp dest src t.cq s w t.world m ∧ ∀ r ios', t.run = some (r, ios') → r.ok = false →
            stealWithTempfiles.go cs d₁ s₁ (len - n) w₁ ios₁ = some (r, s, ios') := by
        intro d₁ s₁ w₁ n ios₁ hst hcs₁ hmem
        obtain ⟨s, m, hst', hgo⟩ := ih hst.wf hst.srcWf hcs₁ hmem
        exact ⟨s, n + m, hst.trans hst', hgo⟩
      by_cases h0 : c.size - c.offset = 0
      · rw [if_pos h0] at ht ⊢
        exact hcons (stolenTemp_empty hd hs hcs h0 w) (by simp [dropFirst, hcs]) ht
      · rw [if_neg h0] at ht ⊢
        cases htype : c.type with
        | fileChunk =>
          simp only [htype] at ht ⊢
          by_cases hge : len ≥ c.size - c.offset
          · obtain ⟨d, happ, hp⟩ := appendChunk_spec dest hc
            simp only [if_pos hge, if_true, happ, Option.bind_some] at ht ⊢
            exact hcons (stolenTemp_whole hd hs hcs hp w) (by simp [dropFirst, hcs]) ht
          · have hne : len ≠ c.size - c.offset := by omega
            simp only [if_neg hge, if_neg hne] at ht
            cases ht
        | memChunk =>
          simp only [htype] at ht ⊢
          rcases List.mem_cons.mp ht with rfl | ht
          · refine ⟨src, 0, .refl hd hs w, fun r ios' hrun hr => ?_⟩
            rw [TempCall.run] at hrun
            simp only [hrun, Option.bind_some, hr]
            rfl
          · cases hrun : appendMemToTempfile ios dest w ((c.mem.str.drop c.offset).take
                (if len ≥ c.size - c.offset then c.size - c.offset else len)) with
            | none =>
              simp only [TempCall.run, hrun] at ht
              cases ht
            | some p =>
              obtain ⟨r₁, ios₁⟩ := p
              simp only [TempCall.run, hrun] at ht
              by_cases hok : r₁.ok = true ∧ (if len ≥ c.size - c.offset then c.size - c.offset else len) =
                c.size - c.offset
              · obtain ⟨hr, huse⟩ := hok
                rw [if_pos ⟨hr, huse⟩, huse] at ht
                rw [huse] at hrun
                obtain ⟨data, -, hdata, hstep⟩ := appendMemToTempfile_spec hd hrun
                simp only [huse, Option.bind_some, hr, Bool.not_true, Bool.false_eq_true, if_false, if_true]
                exact hcons (hstep.stolen_whole hs hcs htype (hdata hr)) (by simp [dropFirst, hcs]) ht
              · rw [if_neg hok] at ht
                cases ht

theorem failed_call {s : Chunkqueue} {len : Nat} {ios ios' : List Attempt}
    {r : TempResult} (h : stealWithTempfiles.go cs dest src len w ios = some (r, s, ios')) (hr : r.ok = false) :
    ∃ t ∈ stealCalls cs dest len w ios, t.run = some (r, ios') := by
  induction cs generalizing dest src len w ios with
  | nil =>
    obtain ⟨rfl, -⟩ := Prod.mk.inj (Option.some.inj h)
    cases hr
  | cons c cs ih =>
    unfold stealWithTempfiles.go at h
    unfold stealCalls
    by_cases hl : len = 0
    · rw [if_pos hl] at h
      obtain ⟨rfl, -⟩ := Prod.mk.inj (Option.some.inj h)
      cases hr
    · rw [if_neg hl] at h ⊢
      obtain ⟨clen, hrem, h⟩ := Option.bind_eq_some_iff.mp h
      simp only [hrem]
      by_cases h0 : clen = 0
      · rw [if_pos h0] at h ⊢
        exact ih h
      · rw [if_neg h0] at h ⊢
        cases htype : c.type with
        | fileChunk =>
          simp only [htype] at h ⊢
          by_cases huse : (if len ≥ clen then clen else len) = clen
          · rw [if_pos huse] at h ⊢
            obtain ⟨d, happ, h⟩ := Option.bind_eq_some_iff.mp h
            rw [happ]
            exact ih h
          · rw [if_neg huse] at h
            obtain ⟨d, happ, h⟩ := Option.bind_eq_some_iff.mp h
            obtain ⟨rfl, -⟩ := Prod.mk.inj (Option.some.inj h)
            cases hr
        | memChunk =>
          simp only [htype] at h ⊢
          obtain ⟨⟨r₁, ios₁⟩, hrun, h⟩ := Option.bind_eq_some_iff.mp h
          simp only [TempCall.run, hrun]
          cases hr₁ : r₁.ok with
          | false =>
            simp only [hr₁, Bool.not_false, if_true] at h
            obtain ⟨rfl, hq⟩ := Prod.mk.inj (Option.some.inj h)
            obtain ⟨-, rfl⟩ := Prod.mk.inj hq
            exact ⟨_, List.mem_cons_self, hrun⟩
          | true =>
            simp only [hr₁, Bool.not_true, Bool.false_eq_true, if_false] at h
            by_cases huse : (if len ≥ clen then clen else len) = clen
            · simp only [huse, and_self, if_true] at h ⊢
              obtain ⟨t, ht, hrun'⟩ := ih h
              exact ⟨t, List.mem_cons_of_mem _ ht, hrun'⟩
            · rw [if_neg huse] at h
              obtain ⟨rfl, -⟩ := Prod.mk.inj (Option.some.inj h)
              rw [hr] at hr₁
              cases hr₁

theorem stealConsistent_iff (hd : dest.WF) (hs : src.WF)
    (hcoh : Coherent w (dest.chunks ++ src.chunks)) (len : Nat) (ios : List Attempt) :
    StealConsistent dest src len w ios ↔
      ∀ t ∈ stealCalls src.chunks dest len w ios, ∀ s ∈ t.rounds, s.Harmless t.mem := by
  have hcoh' : Coherent w (dest.chunks ++ (src.chunks ++ [])) := by rwa [List.append_nil]
  -- what the queues hold after a call that fails, beside what it has stored
  have hmoved : ∀ {t : TempCall} {s : Chunkqueue} {n : Nat} {r : TempResult} {ios' : List Attempt},
      StolenTemp dest src t.cq s w t.world n → t.run = some (r, ios') →
      (TempStep t.cq r.cq t.world r.world [] ↔
        r.cq.content r.world ++ s.content r.world = dest.content w ++ src.content w) := by
    intro t s n r ios' hst hrun
    obtain ⟨hdest, hsrc⟩ := hst.content [] hcoh'
    have hcoht := hst.coherent [] hcoh'
    obtain ⟨data, -, -, hstep⟩ := appendMemToTempfile_spec hst.wf hrun
    have hext := hstep.extends' _ hcoht
    have hsame : s.content r.world = s.content t.world :=
      flatMap_bytes_extends hext fun c hc =>
        hcoht.inFile c (List.mem_append_right _ (List.mem_append_left _ hc))
    have hwhole : t.cq.content t.world ++ s.content t.world = dest.content w ++ src.content w := by
      rw [hdest, hsrc, List.append_assoc, List.take_append_drop]
    rw [TempCall.stored_nothing_iff hst.wf hcoht hrun, hsame, ← hwhole, List.append_left_inj]
  constructor
  · intro h t ht
    obtain ⟨s, n, hst, hgo⟩ := stealCalls_spec hd hs rfl ht
    have hal := (TempCall.removes_iff hst.wf).mp (h.removes t ht)
    refine TempCall.harmless_iff.mpr ⟨hal, (TempCall.whole_iff hst.wf hal).mpr fun r ios' hrun hr => ?_⟩
    exact (hmoved hst hrun).mpr (h.conserves r s ios' (hgo r ios' hrun hr) hr)
  · intro h
    refine ⟨fun t ht => ?_, fun r s ios' hrun => ?_, fun r s ios' hrun hr => ?_⟩
    · obtain ⟨s, n, hst, -⟩ := stealCalls_spec hd hs rfl ht
      exact (TempCall.removes_iff hst.wf).mpr (TempCall.harmless_iff.mp (h t ht)).1
    · obtain ⟨-, d, w', data, n, hst, hstep⟩ := stealWithTempfiles_spec hd hs hrun
      exact ⟨hstep.wf, hst.srcWf⟩
    · obtain ⟨t, ht, hcall⟩ := failed_call hrun hr
      obtain ⟨s', n, hst, hgo⟩ := stealCalls_spec hd hs rfl ht
      have hgo' : stealWithTempfiles dest src len w ios = some (r, s', ios') := hgo r ios' hcall hr
      obtain rfl : s' = s := by
        rw [hrun] at hgo'
        exact (congrArg (fun p => p.2.1) (Option.some.inj hgo')).symm
      obtain ⟨hal, hwhole⟩ := TempCall.harmless_iff.mp (h t ht)
      exact (hmoved hst hcall).mp ((TempCall.whole_iff hst.wf hal).mp hwhole r ios' hcall hr)

/-! ## The two functions -/

/-- **When failed writes leave the queues consistent**, for a call that stores `mem` at the end of `dest`, and for one
that moves bytes from `src`: every round of the loop is harmless. -/
theorem tempfile_failures_iff {dest src : Chunkqueue} {w : World} (hd : dest.WF) (hs : src.WF)
    (hcoh : Coherent w (dest.chunks ++ src.chunks)) (ios : List Attempt) :
    (∀ mem, TempCall.Consistent ⟨ios, dest, w, mem⟩ ↔ ∀ s ∈ TempCall.rounds ⟨ios, dest, w, mem⟩, s.Harmless mem) ∧
      ∀ len, StealConsistent dest src len w ios ↔
        ∀ t ∈ stealCalls src.chunks dest len w ios, ∀ s ∈ t.rounds, s.Harmless t.mem :=
  ⟨fun mem => TempCall.consistent_iff (t := ⟨ios, dest, w, mem⟩) hd (hcoh.sublist (List.sublist_append_left _ _)),
    fun len => stealConsistent_iff hd hs hcoh len ios⟩

/-- A new temp file, to which nothing can be written. -/
def failedWrite : Attempt := ⟨true, [some (ascii "x", 8)], .error .eio, true⟩

def shortWrite : Attempt := ⟨true, [some (ascii "x", 8)], .wrote 1, true⟩

theorem tempfile_failures_iff_sample :
    (∀ mem, TempCall.Consistent ⟨[shortWrite, failedWrite], sampleDest, sampleWorld, mem⟩ ↔
      ∀ s ∈ TempCall.rounds ⟨[shortWrite, failedWrite], sampleDest, sampleWorld, mem⟩, s.Harmless mem) ∧
    ∀ len, StealConsistent sampleDest sampleSrc len sampleWorld [shortWrite, failedWrite] ↔
      ∀ t ∈ stealCalls sampleSrc.chunks sampleDest len sampleWorld [shortWrite, failedWrite],
        ∀ s ∈ t.rounds, s.Harmless t.mem := by
  have hd : sampleDest.WF := ⟨by decide, nofun⟩
  have hs : sampleSrc.WF := ⟨by decide, nofun⟩
  exact tempfile_failures_iff hd hs sample_coherent [shortWrite, failedWrite]

/-- The first write to a new temp file fails, and there are bytes in front of it: the loop over the chunks reads behind
the end of the list. A byte of a memory chunk is stored before the next write fails: it is in both queues. -/
theorem tempfile_failures_crash : ¬ TempCall.Consistent ⟨[failedWrite], sampleSrc, sampleWorld, [7]⟩ ∧
    ¬ StealConsistent sampleDest sampleSrc 2 sampleWorld [shortWrite, failedWrite] := by
  constructor
  · intro h
    have hnext : (Round.next ⟨failedWrite, sampleSrc, sampleWorld, [7]⟩).isSome :=
      h.removes.ends _ List.mem_cons_self ⟨by simp [failedWrite], nofun⟩
    exact absurd hnext (by decide)
  · intro h
    have hsame := h.conserves _ _ _ rfl rfl
    exact absurd hsame (by decide)

end Chunkqueue
end Lighttpd
