import Lighttpd.Connection.Framing

/-!
# The size limit of the header (`connections.c`)

`connection_handle_read_state` compares the length of the read queue with the limit when it has not found the end of the
header. A read that brings in the end of a header and more than the limit before it passes by this test.

- `pieces`: what the reads of a run bring, one after another, whatever is made of it;
- `call_outcome`: one call, by what is in the queue behind its read;
- `verdict_iff`: exactly when the verdict on a header depends on its length alone.
-/

namespace Lighttpd
namespace Conn
open Occurrence Chunkqueue

/-! ## Verdicts -/

def headerLimit : Nat := 64 * 1024

def Refused (con : Conn) : Prop := con.state = .handleRequest ∧ con.httpStatus = 414

/-- A read alone: finished chunks are removed as before and behind the search, but nothing is searched for and no length
is looked at. -/
def readOnly (con : Conn) (i : Bool × ReadIo) : Option (ReadRet × Conn) := do
  let (ret, con) ← (con.connectionHandleFdevent i.1).readIfReadable i.2
  let cq ← con.readQueue.removeFinishedChunks
  let cq ← cq.removeFinishedChunks
  return (ret, { con with readQueue := cq })

def brought (con con' : Conn) : Bytes := con.socket.take (con.socket.length - con'.socket.length)

/-- **How the reads cut the stream**, whatever becomes of the request: one read after another, until one of them fails or
finds the connection closed. -/
def pieces : List (Bool × ReadIo) → Conn → List Bytes
  | [], _ => []
  | i :: is, con =>
    match con.readOnly i with
    | some (.ok, con') => brought con con' :: pieces is con'
    | some (.closed, con') => [brought con con']
    | some (.failed, _) => []
    | none => []

/-- **The verdict on the header of the stream `s` depends on its length alone**: it is accepted only if no more than the
limit precedes its last byte, and rejected only if more does. -/
structure VerdictRight (s : Bytes) (con : Conn) : Prop where
  accepted : con.state = .requestEnd → ∃ p, EndsFirst headerEnd s p ∧ p.length - 1 ≤ headerLimit
  refused : Refused con → ∀ p, EndsFirst headerEnd s p → headerLimit < p.length - 1

/-- **Some read ends inside a header that is too long, behind the limit**, if the reads bring all of this header. `w` is
what waits in the queue at first and `ds` are the pieces that the reads bring. -/
def LimitSeen (s w : Bytes) (ds : List Bytes) : Prop :=
  ∀ p, EndsFirst headerEnd s p → headerLimit < p.length - 1 → ds ≠ [] → p.length ≤ (w ++ ds.flatten).length →
    ∃ k, 0 < k ∧ headerLimit < (w ++ (ds.take k).flatten).length ∧ (w ++ (ds.take k).flatten).length < p.length

/-! ## The reads -/

variable {con con' : Conn}

theorem connectionHandleRead_failed {io : ReadIo}
    (h : con.connectionHandleRead io = some (.failed, con')) : con'.state = .error := by
  unfold connectionHandleRead at h
  obtain ⟨⟨cq, space⟩, -, h⟩ := Option.bind_eq_some_iff.mp h
  cases hread : io.read with
  | error e =>
    rw [hread] at h
    obtain ⟨cq', -, h⟩ := Option.bind_eq_some_iff.mp h
    split at h
    · cases h
    · split at h
      · cases h
      · cases h
        rfl
  | got n =>
    rw [hread] at h
    obtain ⟨cq', -, h⟩ := Option.bind_eq_some_iff.mp h
    split at h <;> cases h

/-- **A read that may fail.** -/
theorem readIfReadable_cases (h : con.Ok) (io : ReadIo) : ∃ ret con' data,
    con.readIfReadable io = some (ret, con') ∧ Received con con' data ∧
      (if ret = .failed then con'.state = .error else con'.state = con.state) := by
  unfold readIfReadable
  split
  · obtain ⟨ret, con', data, heq, hrec, -, hstate⟩ := connectionHandleRead_spec h io
    refine ⟨ret, con', data, heq, hrec, ?_⟩
    split_ifs with hret
    · subst hret
      exact connectionHandleRead_failed heq
    · exact hstate hret
  · exact ⟨.ok, con, [], rfl, ⟨h, rfl, (List.append_nil _).symm, rfl, rfl, rfl, rfl, rfl⟩, rfl⟩

/-- The queue behind a read: `cq` is searched, and `cq'` is left when nothing is found. -/
structure ReadOnly (con : Conn) (i : Bool × ReadIo) (ret : ReadRet) (con₁ : Conn) (cq cq' : Chunkqueue) (data : Bytes) :
    Prop where
  read : (con.connectionHandleFdevent i.1).readIfReadable i.2 = some (ret, con₁)
  first : con₁.readQueue.removeFinishedChunks = some cq
  second : cq.removeFinishedChunks = some cq'
  socket : con.socket = data ++ con₁.socket
  searched : ({ con₁ with readQueue := cq } : Conn).Ok ∧ stream cq.chunks = con.waiting ++ data
  left : ({ con₁ with readQueue := cq' } : Conn).Ok ∧ stream cq'.chunks = con.waiting ++ data
  state : if ret = .failed then con₁.state = .error else con₁.state = con.state

theorem readOnly_spec (h : con.Ok) (i : Bool × ReadIo) :
    ∃ ret con₁ cq cq' data, ReadOnly con i ret con₁ cq cq' data := by
  obtain ⟨hrec₀, hst₀⟩ := fdevent_spec h i.1
  obtain ⟨ret, con₁, data, hread, hrec, hst⟩ := readIfReadable_cases hrec₀.ok i.2
  obtain ⟨cq, hfin, hwf, hmem, hstream, -⟩ := removeFinished_spec hrec.ok.wf hrec.ok.mem
  obtain ⟨cq', hfin', hwf', hmem', hstream', -⟩ := removeFinished_spec hwf hmem
  have hwait : stream cq.chunks = con.waiting ++ data := by
    rw [hstream]
    exact hrec.waiting.trans (by rw [hrec₀.waiting, List.append_nil])
  rw [hst₀] at hst
  exact ⟨ret, con₁, cq, cq', data, hread, hfin, hfin', hrec₀.socket.trans hrec.socket, ⟨⟨hwf, hmem⟩, hwait⟩,
    ⟨⟨hwf', hmem'⟩, hstream'.trans hwait⟩, hst⟩

section

variable {con₁ : Conn} {i : Bool × ReadIo} {ret : ReadRet} {cq cq' : Chunkqueue} {data : Bytes}

theorem ReadOnly.readOnly (h : ReadOnly con i ret con₁ cq cq' data) :
    con.readOnly i = some (ret, { con₁ with readQueue := cq' }) := by
  unfold Conn.readOnly
  simp only [h.read, h.first, h.second, Option.bind_eq_bind, Option.bind_some]
  rfl

theorem ReadOnly.brought (h : ReadOnly con i ret con₁ cq cq' data) :
    brought con { con₁ with readQueue := cq' } = data := by
  show con.socket.take (con.socket.length - con₁.socket.length) = data
  rw [h.socket, List.length_append, Nat.add_sub_cancel, List.take_left]

theorem ReadOnly.pieces (h : ReadOnly con i ret con₁ cq cq' data) (is : List (Bool × ReadIo)) :
    pieces (i :: is) con =
      match ret with
      | .ok => data :: Conn.pieces is { con₁ with readQueue := cq' }
      | .closed => [data]
      | .failed => [] := by
  rw [Conn.pieces, h.readOnly]
  cases ret with
  | ok => simp only [h.brought]
  | closed => simp only [h.brought]
  | failed => rfl

end

/-- **The pieces make up what has left the socket.** -/
theorem pieces_prefix (h : con.Ok) (is : List (Bool × ReadIo)) :
    ∃ rest, con.socket = (pieces is con).flatten ++ rest := by
  induction is generalizing con with
  | nil => exact ⟨con.socket, rfl⟩
  | cons i is ih =>
    obtain ⟨ret, con₁, cq, cq', data, hread⟩ := readOnly_spec h i
    rw [hread.pieces]
    cases ret with
    | ok =>
      obtain ⟨rest, hrest⟩ := ih hread.left.1
      refine ⟨rest, hread.socket.trans ?_⟩
      rw [List.flatten_cons, List.append_assoc, ← hrest]
    | closed => exact ⟨con₁.socket, hread.socket.trans (by rw [List.flatten_singleton])⟩
    | failed => exact ⟨con.socket, rfl⟩

/-! ## One call -/

theorem noHeader_limit (h : con.Ok) {isClosed : Bool} (heq : con.noHeader isClosed = some con') :
    con'.readQueue = con.readQueue ∧ con'.socket = con.socket ∧
      (if headerLimit < con.waiting.length then Refused con' else if isClosed then con'.state = .error else con' = con) := by
  unfold noHeader at heq
  rw [length_eq h.wf] at heq
  rw [waiting_length h]
  dsimp only [Option.bind_eq_bind, Option.bind_some] at heq
  unfold headerLimit
  split at heq
  · cases heq
    rename_i hlt
    rw [if_pos hlt]
    exact ⟨rfl, rfl, rfl, rfl⟩
  · rename_i hlt
    rw [if_neg hlt]
    split at heq
    · rename_i hclosed
      cases heq
      rw [if_pos hclosed]
      exact ⟨rfl, rfl, rfl⟩
    · rename_i hopen
      cases heq
      rw [if_neg hopen]
      exact ⟨rfl, rfl, rfl⟩

/-- **One call**: the header is accepted when it is in the queue behind the read; otherwise the queue is compared with
the limit, and nothing but the read is left when it passes. -/
theorem call_outcome (h : con.Ok) (hstate : con.state = .read) (i : Bool × ReadIo) (is : List (Bool × ReadIo)) :
    (∃ con', (con.connectionHandleFdevent i.1).connectionHandleReadState i.2 = some (false, con') ∧ con'.state = .error ∧
      pieces (i :: is) con = []) ∨
    ∃ con' data ds, (con.connectionHandleFdevent i.1).connectionHandleReadState i.2 = some (true, con') ∧
      pieces (i :: is) con = data :: ds ∧
      ((con'.state = .requestEnd ∧ ∃ p, EndsFirst headerEnd (con.waiting ++ data) p) ∨
      ((∀ p, ¬ EndsFirst headerEnd (con.waiting ++ data) p) ∧
        if headerLimit < (con.waiting ++ data).length then Refused con'
        else con'.state = .error ∧ ds = [] ∨
          con'.state = .read ∧ ds = pieces is con' ∧ con'.Ok ∧ con'.waiting = con.waiting ++ data)) := by
  obtain ⟨ret, con₁, cq, cq', data, hread⟩ := readOnly_spec h i
  have hpieces := hread.pieces is
  by_cases hret : ret = .failed
  · subst hret
    refine Or.inl ⟨con₁, ?_, hread.state, hpieces⟩
    unfold connectionHandleReadState
    rw [hread.read]
    rfl
  · right
    obtain ⟨ds, hds⟩ : ∃ ds, pieces (i :: is) con = data :: ds := by
      rw [hpieces]
      cases ret with
      | ok => exact ⟨_, rfl⟩
      | closed => exact ⟨_, rfl⟩
      | failed => exact absurd rfl hret
    have hst : con₁.state = .read := by
      have hst := hread.state
      rw [if_neg hret] at hst
      exact hst.trans hstate
    unfold connectionHandleReadState
    simp only [hread.read, Option.bind_eq_bind, Option.bind_some, if_neg hret, hread.first]
    cases hsearch : searchHeader cq.chunks with
    | some r =>
      obtain ⟨hok₂, -⟩ := takeHeader_spec { con₁ with readQueue := cq } hread.searched.1 hsearch
      obtain ⟨cq₂, hfin, -⟩ := removeFinished_spec hok₂.wf hok₂.mem
      obtain ⟨hfirst, -, -⟩ := searchHeader_some hsearch
      rw [hread.searched.2] at hfirst
      simp only [Option.bind_some, hfin]
      exact ⟨_, data, ds, rfl, hds, Or.inl ⟨rfl, _, hfirst⟩⟩
    | none =>
      obtain ⟨con₂, heq, -⟩ := noHeader_spec { con₁ with readQueue := cq } hread.searched.1 hsearch
        (by show con₁.state ≠ _; rw [hst]; nofun) (ret == .closed)
      obtain ⟨hq, -, hlimit⟩ := noHeader_limit hread.searched.1 heq
      have hfin : con₂.readQueue.removeFinishedChunks = some cq' := by
        rw [hq]
        exact hread.second
      have hwait : ({ con₁ with readQueue := cq } : Conn).waiting = con.waiting ++ data := hread.searched.2
      rw [hwait] at hlimit
      simp only [heq, Option.bind_some, hfin]
      refine ⟨_, data, ds, rfl, hds, Or.inr ⟨?_, ?_⟩⟩
      · rw [← hread.searched.2]
        exact searchHeader_none hsearch
      · split_ifs at hlimit ⊢ with hbig hclosed
        · exact hlimit
        · obtain rfl : ret = .closed := eq_of_beq hclosed
          exact Or.inl ⟨hlimit, (List.cons.inj (hds.symm.trans hpieces)).2⟩
        · have hok : ret = .ok := by
            cases ret with
            | ok => rfl
            | closed => exact absurd rfl hclosed
            | failed => exact absurd rfl hret
          subst hok hlimit
          exact Or.inr ⟨hst, (List.cons.inj (hds.symm.trans hpieces)).2, hread.left⟩

/-! ## Runs -/

theorem readHeader_done (h : con.state ≠ .read) (is : List (Bool × ReadIo)) : readHeader is con = some con := by
  cases is with
  | nil => rfl
  | cons i is => rw [readHeader, if_neg h]

theorem readHeader_cons {i : Bool × ReadIo} {b : Bool} (hstate : con.state = .read)
    (h : (con.connectionHandleFdevent i.1).connectionHandleReadState i.2 = some (b, con')) (is : List (Bool × ReadIo)) :
    readHeader (i :: is) con = readHeader is con' := by
  rw [readHeader, if_pos hstate, h]
  rfl

/-- The outcome of a run, by what waits in the queue at first and the pieces that the reads bring: it is accepted or
rejected behind the first `n` of them. -/
inductive Outcome (w : Bytes) (ds : List Bytes) (con' : Conn) : Prop
  | accepted (state : con'.state = .requestEnd) (n : Nat) (nonempty : ds ≠ [])
      (found : ∃ p, EndsFirst headerEnd (w ++ (ds.take n).flatten) p)
      (small : ∀ k, 0 < k → k < n → (w ++ (ds.take k).flatten).length ≤ headerLimit)
  | refused (state : Refused con') (n : Nat) (pos : 0 < n) (big : headerLimit < (w ++ (ds.take n).flatten).length)
      (none : ∀ p, ¬ EndsFirst headerEnd (w ++ (ds.take n).flatten) p)
  | other (state : con'.state = .read ∨ con'.state = .error)
      (none : ds ≠ [] → ∀ p, ¬ EndsFirst headerEnd (w ++ ds.flatten) p)

theorem take_flatten_cons (w data : Bytes) (ds : List Bytes) (n : Nat) :
    w ++ ((data :: ds).take (n + 1)).flatten = (w ++ data) ++ (ds.take n).flatten := by
  rw [List.take_succ_cons, List.flatten_cons, List.append_assoc]

theorem Outcome.cons {w data : Bytes} {ds : List Bytes} (h : Outcome (w ++ data) ds con')
    (hsmall : (w ++ data).length ≤ headerLimit) (hnone : ∀ p, ¬ EndsFirst headerEnd (w ++ data) p) :
    Outcome w (data :: ds) con' := by
  cases h with
  | accepted state n nonempty found small =>
    refine .accepted state (n + 1) (List.cons_ne_nil _ _) (by rw [take_flatten_cons]; exact found) fun k hpos hk => ?_
    obtain ⟨k, rfl⟩ : ∃ j, k = j + 1 := ⟨k - 1, by omega⟩
    rw [take_flatten_cons]
    rcases Nat.eq_zero_or_pos k with rfl | hk0
    · rw [List.take_zero, List.flatten_nil, List.append_nil]
      exact hsmall
    · exact small k hk0 (by omega)
  | refused state n pos big none =>
    exact .refused state (n + 1) (Nat.succ_pos n) (by rw [take_flatten_cons]; exact big)
      (by rw [take_flatten_cons]; exact none)
  | other state none =>
    refine .other state fun _ => ?_
    rw [List.flatten_cons, ← List.append_assoc]
    cases ds with
    | nil =>
      rw [List.flatten_nil, List.append_nil]
      exact hnone
    | cons d ds => exact none (List.cons_ne_nil _ _)

/-- **The outcome of every run.** -/
theorem readHeader_outcome (h : con.Ok) (hstate : con.state = .read) {is : List (Bool × ReadIo)}
    (hrun : readHeader is con = some con') : Outcome con.waiting (pieces is con) con' := by
  induction is generalizing con with
  | nil =>
    cases hrun
    exact .other (Or.inl hstate) fun hne => absurd rfl hne
  | cons i is ih =>
    rcases call_outcome h hstate i is with ⟨con₁, hcall, herr, hpieces⟩ | ⟨con₁, data, ds, hcall, hpieces, hcase⟩
    · rw [readHeader_cons hstate hcall, readHeader_done (by rw [herr]; nofun) is] at hrun
      cases hrun
      rw [hpieces]
      exact .other (Or.inr herr) fun hne => absurd rfl hne
    · rw [readHeader_cons hstate hcall] at hrun
      rw [hpieces]
      have hone : ((data :: ds).take 1).flatten = data := by simp
      rcases hcase with ⟨hend, hfound⟩ | ⟨hnone, hlimit⟩
      · rw [readHeader_done (by rw [hend]; nofun) is] at hrun
        cases hrun
        exact .accepted hend 1 (List.cons_ne_nil _ _) (by rw [hone]; exact hfound) fun k hpos hk => by omega
      · split_ifs at hlimit with hbig
        · rw [readHeader_done (by rw [hlimit.1]; nofun) is] at hrun
          cases hrun
          exact .refused hlimit 1 Nat.one_pos (by rw [hone]; exact hbig) (by rw [hone]; exact hnone)
        · rcases hlimit with ⟨herr, rfl⟩ | ⟨hread, rfl, hok, hwait⟩
          · rw [readHeader_done (by rw [herr]; nofun) is] at hrun
            cases hrun
            refine .other (Or.inr herr) fun _ => ?_
            rw [List.flatten_singleton]
            exact hnone
          · have hout := ih hok hread hrun
            rw [hwait] at hout
            exact hout.cons (Nat.le_of_not_lt hbig) hnone

/-- **The verdict on a header depends on its length alone, if and only if no read takes in the end of a header that is
too long together with all of it behind the limit.** Once the reads have brought all of a header, there is a verdict. -/
theorem verdict_iff (con con' : Conn) (is : List (Bool × ReadIo)) (h : con.Ok) (hstate : con.state = .read)
    (hrun : readHeader is con = some con') :
    (VerdictRight (con.waiting ++ con.socket) con' ↔
      LimitSeen (con.waiting ++ con.socket) con.waiting (pieces is con)) ∧
    ∀ p, EndsFirst headerEnd (con.waiting ++ con.socket) p → pieces is con ≠ [] →
      p.length ≤ (con.waiting ++ (pieces is con).flatten).length → con'.state = .requestEnd ∨ Refused con' := by
  obtain ⟨rest, hrest⟩ := pieces_prefix h is
  have hout := readHeader_outcome h hstate hrun
  generalize pieces is con = ds at hrest hout
  generalize con.waiting = w at hout
  rw [hrest, ← List.append_assoc]
  have hgot : ∀ n, w ++ (ds.take n).flatten <+: w ++ ds.flatten :=
    fun n => (List.prefix_append_right_inj w).mpr (List.take_prefix n ds).flatten
  have hstream : ∀ n, ∃ t, (w ++ ds.flatten) ++ rest = (w ++ (ds.take n).flatten) ++ t := by
    intro n
    obtain ⟨t, ht⟩ := hgot n
    exact ⟨t ++ rest, by rw [← ht, List.append_assoc]⟩
  -- an end that has been read is one of what has been read
  have hwithin : ∀ read p, read <+: w ++ ds.flatten → EndsFirst headerEnd (w ++ ds.flatten ++ rest) p →
      p.length ≤ read.length → EndsFirst headerEnd read p := by
    intro read p hread hp hle
    have hstart : read <+: w ++ ds.flatten ++ rest := hread.trans (List.prefix_append _ rest)
    exact ⟨List.prefix_of_prefix_length_le hp.pre hstart hle, hp.ends, fun q hq => hp.least q (hq.trans hstart)⟩
  refine ⟨⟨?_, ?_⟩, ?_⟩
  · rintro ⟨haccepted, -⟩ p hp hlong hne hle
    cases hout with
    | accepted state n nonempty found small =>
      obtain ⟨q, hq, hshort⟩ := haccepted state
      rw [hp.unique hq] at hlong
      omega
    | refused state n pos big none =>
      refine ⟨n, pos, big, ?_⟩
      by_contra hle
      exact none p (hwithin _ p (hgot n) hp (Nat.le_of_not_lt hle))
    | other state none => exact absurd (hwithin _ p List.prefix_rfl hp hle) (none hne p)
  · intro hseen
    constructor
    · intro hend
      cases hout with
      | accepted state n nonempty found small =>
        obtain ⟨p, hp⟩ := found
        obtain ⟨t, ht⟩ := hstream n
        have hfirst : EndsFirst headerEnd (w ++ ds.flatten ++ rest) p := ht ▸ hp.append t
        refine ⟨p, hfirst, ?_⟩
        by_contra hlong
        have hall : p.length ≤ (w ++ ds.flatten).length := (hp.pre.trans (hgot n)).length_le
        obtain ⟨k, hpos, hbig, hlt⟩ := hseen p hfirst (by omega) nonempty hall
        by_cases hk : k < n
        · have := small k hpos hk
          omega
        · have hle : (w ++ (ds.take n).flatten).length ≤ (w ++ (ds.take k).flatten).length :=
            ((List.prefix_append_right_inj w).mpr
              (List.take_prefix_take_left (l := ds) (Nat.le_of_not_lt hk)).flatten).length_le
          have := hp.pre.length_le
          omega
      | refused state n pos big none => exact absurd (hend.symm.trans state.1) nofun
      | other state none => rcases state with hs | hs <;> exact absurd (hend.symm.trans hs) nofun
    · intro href p hp
      cases hout with
      | accepted state n nonempty found small => exact absurd (href.1.symm.trans state) nofun
      | refused state n pos big none =>
        by_contra hshort
        exact none p (hwithin _ p (hgot n) hp (by omega))
      | other state none => rcases state with hs | hs <;> exact absurd (href.1.symm.trans hs) nofun
  · intro p hp hne hle
    cases hout with
    | accepted state n nonempty found small => exact Or.inl state
    | refused state n pos big none => exact Or.inr state
    | other state none => exact absurd (hwithin _ p List.prefix_rfl hp hle) (none hne p)

/-- A request that comes in two reads, the second one behind an event. -/
def splitConn : Conn :=
  { sampleConn with readQueue := .init none 1024, socket := ascii "GET\r\n\r\n" }

def splitReads : List (Bool × ReadIo) := [(false, ⟨none, .got 5⟩), (false, ⟨none, .got 9⟩), (true, ⟨none, .got 9⟩)]

theorem verdict_iff_sample : pieces splitReads splitConn = [ascii "GET\r\n", [], ascii "\r\n"] ∧
    ∃ con', readHeader splitReads splitConn = some con' ∧ con'.state = .requestEnd ∧
      VerdictRight (splitConn.waiting ++ splitConn.socket) con' := by
  refine ⟨by decide, ?_⟩
  have hrun : (readHeader splitReads splitConn).map Conn.state = some .requestEnd := by decide
  obtain ⟨con', h, hend⟩ := Option.map_eq_some_iff.mp hrun
  have hok : splitConn.Ok := ⟨⟨nofun, nofun⟩, nofun⟩
  refine ⟨con', h, hend, (verdict_iff splitConn con' splitReads hok rfl h).1.mpr ?_⟩
  intro p hp hlong _ _
  have hle : p.length ≤ 7 := hp.pre.length_le
  unfold headerLimit at hlong
  omega

/-- The end of a header behind `n` letters. -/
theorem endsFirst_letters (n : Nat) :
    EndsFirst headerEnd (List.replicate n 97 ++ headerEnd) (List.replicate n 97 ++ headerEnd) := by
  refine ⟨List.prefix_rfl, List.suffix_append _ _, ?_⟩
  rintro q ⟨t, hq⟩ ⟨u, rfl⟩
  have hcr : (List.replicate n (97 : Byte) ++ headerEnd)[u.length]? = some 13 := by
    rw [← hq, List.append_assoc, List.getElem?_append_right (Nat.le_refl _), Nat.sub_self]
    rfl
  have hn : n ≤ u.length := by
    by_contra hlt
    rw [List.getElem?_append_left (by rw [List.length_replicate]; omega), List.getElem?_replicate,
      if_pos (by omega)] at hcr
    cases hcr
  rw [List.length_append, List.length_append, List.length_replicate]
  omega

/-- A connection in whose queue one read has left a header of `n` letters. -/
def longConn (n : Nat) : Conn :=
  { sampleConn with
    isReadable := false
    readQueue := ⟨[⟨.memChunk, .ofString (List.replicate n 97 ++ headerEnd), Chunk.noFile, 0⟩], [], n + 4, 0, none,
      1024, 0⟩
    socket := [] }

theorem longConn_ok (n : Nat) : (longConn n).Ok := by
  refine ⟨⟨fun c hc => ?_, nofun⟩, fun c hc => ?_⟩
  · rw [List.mem_singleton.mp hc]
    exact Chunk.offsetOk_of_offset_eq_zero rfl
  · rw [List.mem_singleton.mp hc]

theorem longConn_waiting (n : Nat) : (longConn n).waiting = List.replicate n 97 ++ headerEnd := by
  show [_].flatMap unread = _
  rw [List.flatMap_singleton]
  rfl

theorem longConn_accepted {n : Nat} (h : headerLimit < n + 3) :
    ∃ con', readHeader [(false, ⟨none, .got 0⟩)] (longConn n) = some con' ∧
      ¬ VerdictRight ((longConn n).waiting ++ (longConn n).socket) con' := by
  have hfirst := endsFirst_letters n
  rcases call_outcome (longConn_ok n) rfl (false, ⟨none, .got 0⟩) [] with ⟨con', hcall, -⟩ | ⟨con', data, ds, hcall, -, hcase⟩
  · obtain ⟨con₁, data, hcall', -⟩ := @call_spec _ (longConn_ok n) rfl (false, ⟨none, .got 0⟩) id
    rw [hcall] at hcall'
    cases hcall'
  · refine ⟨con', ?_, fun hright => ?_⟩
    · rw [readHeader_cons rfl hcall]
      rfl
    · rcases hcase with ⟨hend, -⟩ | ⟨hnone, -⟩
      · obtain ⟨p, hp, hshort⟩ := hright.accepted hend
        have hsock : (longConn n).socket = [] := rfl
        rw [hsock, List.append_nil, longConn_waiting] at hp
        rw [hp.unique hfirst, List.length_append, List.length_replicate] at hshort
        have hlen : headerEnd.length = 4 := rfl
        omega
      · rw [longConn_waiting] at hnone
        exact hnone _ (hfirst.append data)

/-- **A header of 70000 letters that is read at once is accepted.** -/
theorem long_header_accepted :
    ∃ con', readHeader [(false, ⟨none, .got 0⟩)] (longConn 70000) = some con' ∧
      ¬ VerdictRight ((longConn 70000).waiting ++ (longConn 70000).socket) con' :=
  longConn_accepted (by decide)

end Conn
end Lighttpd
