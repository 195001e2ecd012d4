import Lighttpd.Connection.Search
import Lighttpd.Chunk.Steal

/-!
# The framing of requests

What the client sends is one stream: the bytes in the read queue and those still to be delivered. `HeaderRead` says
which part of it a header takes, and `BodyRead` which part the body takes, without a word about chunks and reads;
`request_framing` says that the functions of `Connection/Read.lean` do so for every way in which the stream is cut
into reads and chunks, as long as no `read` fails and no write to a temp file does.
-/

namespace Lighttpd
open Chunkqueue

/-! ## Queues of memory chunks -/

namespace Chunkqueue

def AllMem (cq : Chunkqueue) : Prop := ∀ c ∈ cq.chunks, c.type = .memChunk

variable {cq cq' : Chunkqueue}

theorem AllMem.inFiles (h : AllMem cq) (w : World) : cq.InFiles w := fun c hc =>
  Chunk.inFile_mem (h c hc)

theorem AllMem.of_chunks (h : AllMem cq) (hc : cq'.chunks ⊆ cq.chunks) : AllMem cq' :=
  fun c hm => h c (hc hm)

/-- The content of a queue of memory chunks is the stream of its chunks, whatever the files are. -/
theorem AllMem.content (h : AllMem cq) (w : World) : cq.content w = Conn.stream cq.chunks := by
  unfold Chunkqueue.content Conn.stream
  unfold AllMem at h
  generalize cq.chunks = cs at h
  induction cs with
  | nil => rfl
  | cons c cs ih =>
    rw [List.flatMap_cons, List.flatMap_cons, ih fun d hd => h d (List.mem_cons_of_mem c hd),
      Chunk.bytes_mem (h c List.mem_cons_self)]
    rfl

theorem AllMem.setLast {c : Chunk} (h : AllMem cq) (hc : c.type = .memChunk) : AllMem (cq.setLast c) := by
  intro d hd
  rcases List.mem_append.mp hd with hd | hd
  · exact h d (List.dropLast_subset _ hd)
  · rw [List.mem_singleton.mp hd]
    exact hc

theorem AllMem.setFirst {c : Chunk} (h : AllMem cq) (hc : c.type = .memChunk) : AllMem (cq.setFirst c) := by
  intro d hd
  rcases List.mem_cons.mp hd with rfl | hd
  · exact hc
  · exact h d (List.mem_of_mem_tail hd)

theorem AllMem.pop (h : AllMem cq) (c : Chunk) : AllMem (cq.dropFirst.pushUnusedChunk c) := by
  intro d hd
  rw [pushUnusedChunk_chunks] at hd
  exact h d (List.mem_of_mem_tail hd)

theorem getMemory_fresh_allMem {n space : Nat} (hwf : cq.WF) (h : AllMem cq)
    (heq : getMemory.fresh n cq = some (cq', space)) : AllMem cq' := by
  obtain ⟨cq₁, happ, heq⟩ := Option.bind_eq_some_iff.mp heq
  obtain ⟨rfl, -⟩ := Prod.mk.inj (Option.some.inj heq)
  obtain ⟨hidle, cq₂, happ₂, hp⟩ := append_unused_spec hwf (fun c => { c with type := .memChunk })
    (fun c hc => Chunk.offsetOk_of_offset_eq_zero hc.offset)
  obtain rfl : cq₁ = cq₂ := Option.some.inj (happ.symm.trans happ₂)
  refine AllMem.setLast (fun d hd => ?_) rfl
  rw [hp.chunks] at hd
  rcases List.mem_append.mp hd with hd | hd
  · exact h d hd
  · rw [List.mem_singleton.mp hd]

theorem getMemory_allMem {n m space : Nat} (hwf : cq.WF) (h : AllMem cq)
    (heq : cq.getMemory n m = some (cq', space)) : AllMem cq' := by
  unfold getMemory at heq
  dsimp only at heq
  generalize (if n = 0 then 1024 else n) = minSize at heq
  generalize (if (if m = 0 then 4096 else m) < minSize then minSize else if m = 0 then 4096 else m) = allocSize at heq
  cases hlast : cq.chunks.getLast? with
  | none =>
    rw [hlast] at heq
    exact getMemory_fresh_allMem hwf h heq
  | some c =>
    rw [hlast] at heq
    dsimp only at heq
    split at heq
    · rename_i hc
      have hset := setLast_mem_spec (d := { c with mem := reuseMemory c.mem minSize allocSize }) hwf hlast hc hc
        (reuseMemory_str _ _ _) rfl
      have hm : AllMem (cq.setLast { c with mem := reuseMemory c.mem minSize allocSize }) := h.setLast hc
      split at heq
      · obtain ⟨rfl, -⟩ := Prod.mk.inj (Option.some.inj heq)
        exact hm
      · exact getMemory_fresh_allMem hset.wf hm heq
    · exact getMemory_fresh_allMem hwf h heq

theorem useMemory_allMem {mem : Bytes} (h : AllMem cq) (heq : cq.useMemory mem = some cq') : AllMem cq' := by
  obtain ⟨c, -, heq⟩ := Option.bind_eq_some_iff.mp heq
  split at heq
  · rename_i hc
    split at heq
    · obtain ⟨b, -, heq⟩ := Option.bind_eq_some_iff.mp heq
      cases heq
      exact AllMem.setLast h hc
    · split at heq
      · cases heq
        exact AllMem.setLast h hc
      · cases heq
        exact h
  · cases heq

/-- What `chunkqueue_steal` leaves of a queue of memory chunks. -/
theorem steal_go_allMem {cs : List Chunk} {dest src d s : Chunkqueue} {len : Nat} (h : AllMem src)
    (hcs : src.chunks = cs) (heq : steal.go cs dest src len = some (d, s)) : AllMem s := by
  induction cs generalizing dest src len with
  | nil =>
    cases heq
    exact h
  | cons c cs ih =>
    have hc : c.type = .memChunk := h c (by simp [hcs])
    unfold steal.go at heq
    split at heq
    · cases heq
      exact h
    · obtain ⟨clen, -, heq⟩ := Option.bind_eq_some_iff.mp heq
      split at heq
      · exact ih (h.pop c) (by simp [dropFirst, hcs]) heq
      · dsimp only at heq
        generalize (if len ≥ clen then clen else len) = use at heq
        split at heq
        · obtain ⟨d', -, heq⟩ := Option.bind_eq_some_iff.mp heq
          refine ih (fun e he => h e (List.mem_of_mem_tail he)) ?_ heq
          simp [dropFirst, hcs]
        · obtain ⟨d', -, heq⟩ := Option.bind_eq_some_iff.mp heq
          cases heq
          exact AllMem.setFirst h hc

/-- What `chunkqueue_steal_with_tempfiles` leaves of a queue of memory chunks. -/
theorem stealWithTempfiles_go_allMem {cs : List Chunk} {dest src s : Chunkqueue} {len : Nat} {w : World}
    {ios ios' : List Attempt} {r : TempResult} (h : AllMem src) (hcs : src.chunks = cs)
    (heq : stealWithTempfiles.go cs dest src len w ios = some (r, s, ios')) : AllMem s := by
  induction cs generalizing dest src len w ios with
  | nil =>
    cases heq
    exact h
  | cons c cs ih =>
    have hc : c.type = .memChunk := h c (by simp [hcs])
    unfold stealWithTempfiles.go at heq
    split at heq
    · cases heq
      exact h
    · obtain ⟨clen, -, heq⟩ := Option.bind_eq_some_iff.mp heq
      split at heq
      · exact ih (h.pop c) (by simp [dropFirst, hcs]) heq
      · dsimp only at heq
        generalize (if len ≥ clen then clen else len) = use at heq
        rw [hc] at heq
        obtain ⟨⟨r', ios₁⟩, -, heq⟩ := Option.bind_eq_some_iff.mp heq
        split at heq
        · cases heq
          exact h
        · split at heq
          · have hpop : AllMem { src.dropFirst.pushUnusedChunk c with bytesOut := src.bytesOut + (use : Nat) } :=
              h.pop c
            exact ih hpop (by simp [dropFirst, hcs]) heq
          · cases heq
            exact AllMem.setFirst h hc

/-- Memory chunks do not matter for the temp files of the chunks before them. -/
theorem Coherent.append_mem {w : World} {cs : List Chunk} (h : Coherent w cs) {ds : List Chunk}
    (hd : ∀ c ∈ ds, c.type = .memChunk) : Coherent w (cs ++ ds) := by
  induction ds with
  | nil =>
    rw [List.append_nil]
    exact h
  | cons c ds ih =>
    have hc := hd c List.mem_cons_self
    exact (ih fun d hm => hd d (List.mem_cons_of_mem c hm)).insert (Chunk.inFile_mem hc) (not_appendable_mem hc)

end Chunkqueue

namespace ReadResult

/-- An error after which the connection is given up. -/
def Hard (r : ReadResult) : Prop :=
  match r with
  | .got _ => False
  | .error e => e ≠ .eagain ∧ e ≠ .eintr

end ReadResult

namespace Conn
open Occurrence

/-! ## Reads -/

/-- The read queue as `connection_handle_read` builds it. -/
structure Ok (con : Conn) : Prop where
  wf : con.readQueue.WF
  mem : AllMem con.readQueue

def waiting (con : Conn) : Bytes := stream con.readQueue.chunks

/-- Parts of a connection that reading leaves alone. -/
structure Same (con con' : Conn) : Prop where
  bytesOut : con'.readQueue.bytesOut = con.readQueue.bytesOut
  contentQueue : con'.contentQueue = con.contentQueue
  world : con'.world = con.world
  request : con'.request = con.request
  contentLength : con'.contentLength = con.contentLength

/-- **`data` has moved from the socket to the end of the read queue.** -/
structure Received (con con' : Conn) (data : Bytes) : Prop where
  ok : con'.Ok
  socket : con.socket = data ++ con'.socket
  waiting : con'.waiting = con.waiting ++ data
  same : Same con con'

variable {con con' con₁ : Conn} {data : Bytes}

/-- The memory of the last chunk takes up the bytes that a read delivers. -/
theorem receive_spec (h : con.Ok) {cq : Chunkqueue} {toread space : Nat}
    (hmem : con.readQueue.getMemory 0 toread = some (cq, space)) (data : Bytes) (hle : data.length ≤ space) :
    ∃ cq', cq.useMemory data = some cq' ∧ cq'.WF ∧ AllMem cq' ∧ stream cq'.chunks = con.waiting ++ data ∧
      cq'.bytesOut = con.readQueue.bytesOut := by
  obtain ⟨cq₁, space₁, hmem₁, hm, hspace⟩ := getMemory_spec h.wf 0 toread
  obtain ⟨rfl, rfl⟩ := Prod.mk.inj (Option.some.inj (hmem.symm.trans hmem₁))
  have hall := getMemory_allMem h.wf h.mem hmem
  obtain ⟨c, hlast, hc, hs⟩ := hm.last
  have hpos : 0 < c.mem.stringSpace := by
    rw [if_pos rfl] at hspace
    omega
  obtain ⟨cq', huse⟩ := Option.isSome_iff_exists.mp (useMemory_isSome hlast hc hpos (hs ▸ hle))
  have hg := useMemory_grown hm.wf huse
  have hall' := useMemory_allMem hall huse
  have hw := hg.content con.world
  rw [hall'.content, hm.content, h.mem.content] at hw
  exact ⟨cq', huse, hg.wf, hall', hw, hg.bytesOut.trans hm.bytesOut⟩

/-- **One read**: some bytes of the socket go to the end of the queue; only a hard error changes the state. -/
theorem connectionHandleRead_spec (h : con.Ok) (io : ReadIo) :
    ∃ ret con' data, con.connectionHandleRead io = some (ret, con') ∧ Received con con' data ∧
      (ret = .failed ↔ io.read.Hard) ∧ (ret ≠ .failed → con'.state = con.state) := by
  obtain ⟨cq, space, hmem, -⟩ := getMemory_spec h.wf 0 (toread io.fionread)
  unfold connectionHandleRead
  simp only [hmem, Option.bind_eq_bind, Option.bind_some]
  cases hread : io.read with
  | error e =>
    obtain ⟨cq', huse, hwf, hall, hstream, hout⟩ := receive_spec h hmem [] (Nat.zero_le space)
    have hrec : ∀ con' : Conn, con'.readQueue = cq' → con'.socket = con.socket → Same con con' →
        Received con con' [] := fun con' hq hsock hsame =>
      ⟨⟨hq ▸ hwf, hq ▸ hall⟩, hsock.symm, by rw [waiting, hq]; exact hstream, hsame⟩
    simp only [huse, Option.bind_some]
    by_cases heagain : e = .eagain
    · rw [if_pos heagain]
      refine ⟨_, _, [], rfl, hrec _ rfl rfl ⟨hout, rfl, rfl, rfl, rfl⟩, iff_of_false nofun ?_, fun _ => rfl⟩
      exact fun hhard => hhard.1 heagain
    · rw [if_neg heagain]
      by_cases heintr : e = .eintr
      · rw [if_pos heintr]
        refine ⟨_, _, [], rfl, hrec _ rfl rfl ⟨hout, rfl, rfl, rfl, rfl⟩, iff_of_false nofun ?_, fun _ => rfl⟩
        exact fun hhard => hhard.2 heintr
      · rw [if_neg heintr]
        refine ⟨_, _, [], rfl, hrec _ rfl rfl ⟨hout, rfl, rfl, rfl, rfl⟩, iff_of_true rfl ⟨heagain, heintr⟩, ?_⟩
        exact fun hne => absurd rfl hne
  | got n =>
    have hle : (con.socket.take (min n space)).length ≤ space := by
      rw [List.length_take]
      omega
    obtain ⟨cq', huse, hwf, hall, hstream, hout⟩ := receive_spec h hmem _ hle
    have hsock : con.socket = con.socket.take (min n space) ++ con.socket.drop (con.socket.take (min n space)).length := by
      rw [List.length_take, ← List.drop_eq_drop_min, List.take_append_drop]
    simp only [huse, Option.bind_some]
    split
    · refine ⟨_, _, con.socket.take (min n space), rfl, ⟨⟨hwf, hall⟩, hsock, hstream, hout, rfl, rfl, rfl, rfl⟩,
        iff_of_false nofun id, fun _ => rfl⟩
    · refine ⟨_, _, con.socket.take (min n space), rfl, ⟨⟨hwf, hall⟩, hsock, hstream, hout, rfl, rfl, rfl, rfl⟩,
        iff_of_false nofun id, fun _ => rfl⟩

/-- An event does not touch the stream. -/
theorem fdevent_spec (h : con.Ok) (event : Bool) :
    Received con (con.connectionHandleFdevent event) [] ∧ (con.connectionHandleFdevent event).state = con.state := by
  cases event with
  | false => exact ⟨⟨h, rfl, (List.append_nil _).symm, rfl, rfl, rfl, rfl, rfl⟩, rfl⟩
  | true => exact ⟨⟨⟨h.wf, h.mem⟩, rfl, (List.append_nil _).symm, rfl, rfl, rfl, rfl, rfl⟩, rfl⟩

theorem readIfReadable_spec (h : con.Ok) {io : ReadIo} (hsoft : ¬ io.read.Hard) :
    ∃ ret con' data, con.readIfReadable io = some (ret, con') ∧ ret ≠ .failed ∧ Received con con' data ∧
      con'.state = con.state := by
  unfold readIfReadable
  split
  · obtain ⟨ret, con', data, heq, hrec, hfailed, hstate⟩ := connectionHandleRead_spec h io
    have hne : ret ≠ .failed := fun hf => hsoft (hfailed.mp hf)
    exact ⟨ret, con', data, heq, hne, hrec, hstate hne⟩
  · exact ⟨.ok, con, [], rfl, nofun, ⟨h, rfl, (List.append_nil _).symm, rfl, rfl, rfl, rfl, rfl⟩, rfl⟩

/-- `chunkqueue_remove_finished_chunks` of a queue of memory chunks. -/
theorem removeFinished_spec {cq : Chunkqueue} (hwf : cq.WF) (hmem : AllMem cq) :
    ∃ cq', cq.removeFinishedChunks = some cq' ∧ cq'.WF ∧ AllMem cq' ∧ stream cq'.chunks = stream cq.chunks ∧
      cq'.bytesOut = cq.bytesOut := by
  obtain ⟨cq', heq, hd, hout, hsuf⟩ := removeFinishedChunks_spec hwf
  have hmem' : AllMem cq' := hmem.of_chunks hsuf.subset
  have w : World := ⟨fun _ => none, fun _ => none⟩
  have hcont := hd.content w (hmem.inFiles w)
  rw [hmem'.content, hmem.content, List.drop_zero] at hcont
  exact ⟨cq', heq, hd.wf, hmem', hcont, hout⟩

/-! ## The header -/

/-- **What `connection_handle_read_state` does to the stream**, `data` being the bytes that have come in: the shortest
part of it that ends in an empty line becomes the request, or there is no such part and nothing is consumed. -/
inductive HeaderRead (con con' : Conn) (data : Bytes) : Prop
  | taken (p : Bytes) (first : EndsFirst headerEnd (con.waiting ++ data) p) (request : con'.request.str = p)
      (rest : con'.waiting = (con.waiting ++ data).drop p.length)
      (bytesOut : con'.readQueue.bytesOut = con.readQueue.bytesOut + p.length) (state : con'.state = .requestEnd)
  | notYet (none : ∀ p, ¬ EndsFirst headerEnd (con.waiting ++ data) p) (rest : con'.waiting = con.waiting ++ data)
      (request : con'.request = con.request) (bytesOut : con'.readQueue.bytesOut = con.readQueue.bytesOut)
      (state : con'.state ≠ .requestEnd)

theorem takeHeader_spec (con : Conn) (h : con.Ok) {r : Nat × Nat} (hs : searchHeader con.readQueue.chunks = some r) :
    (con.takeHeader r.1 r.2).Ok ∧ HeaderRead con (con.takeHeader r.1 r.2) [] := by
  obtain ⟨hfirst, hle, hwithin⟩ := searchHeader_some hs
  generalize hcopy : copyHeader con.readQueue.chunks r.1 r.2 con.request.reset con.readQueue.bytesOut = t
  obtain ⟨cs, request, bytesOut⟩ := t
  obtain ⟨hstream, hreq, hout, htypes, hoff⟩ := copyHeader_spec hwithin hcopy
  have hlen : ((stream con.readQueue.chunks).take (place con.readQueue.chunks r)).length =
      place con.readQueue.chunks r := by
    rw [List.length_take]
    exact Nat.min_eq_left hle
  have hcs : ∀ d ∈ cs, d.type = .memChunk := by
    intro d hd
    obtain ⟨c, hc, ht, -⟩ := htypes d hd
    rw [ht]
    exact h.mem c hc
  have hcon : con.takeHeader r.1 r.2 = { con with
      readQueue := { con.readQueue with chunks := cs, bytesOut := bytesOut }
      request := request
      state := .requestEnd } := by
    simp only [takeHeader, hcopy]
  rw [hcon]
  refine ⟨⟨⟨fun d hd => ?_, h.wf.idle⟩, hcs⟩, .taken _ (by rw [List.append_nil]; exact hfirst) ?_ ?_ ?_ rfl⟩
  · have hall : ∀ c ∈ con.readQueue.chunks, c.offset ≤ c.mem.str.length := fun c hc => by
      rw [← Chunk.size_mem (h.mem c hc)]
      exact h.wf.offset c hc
    rw [Chunk.OffsetOk, Chunk.size_mem (hcs d hd)]
    exact hoff hall d hd
  · rw [hreq, Buffer.reset_str, List.nil_append]
  · rw [List.append_nil]
    show stream cs = _
    rw [hstream, waiting, hlen]
  · show bytesOut = _
    rw [hout, hlen]

theorem noHeader_spec (con : Conn) (h : con.Ok) (hs : searchHeader con.readQueue.chunks = none)
    (hstate : con.state ≠ .requestEnd) (isClosed : Bool) :
    ∃ con', con.noHeader isClosed = some con' ∧ con'.Ok ∧ con'.socket = con.socket ∧ HeaderRead con con' [] := by
  have hread : ∀ con' : Conn, con'.readQueue = con.readQueue → con'.request = con.request →
      con'.state ≠ .requestEnd → con'.Ok ∧ HeaderRead con con' [] := fun con' hq hr hst => by
    refine ⟨⟨hq ▸ h.wf, hq ▸ h.mem⟩, .notYet ?_ ?_ hr (by rw [hq]) hst⟩
    · rw [List.append_nil]
      exact searchHeader_none hs
    · rw [List.append_nil, waiting, hq]
      rfl
  unfold noHeader
  simp only [length_eq h.wf, Option.bind_eq_bind, Option.bind_some]
  split
  · obtain ⟨hok, hr⟩ := hread { con with httpStatus := 414, keepAlive := false, state := .handleRequest } rfl rfl nofun
    exact ⟨_, rfl, hok, rfl, hr⟩
  · split
    · obtain ⟨hok, hr⟩ := hread { con with state := .error } rfl rfl nofun
      exact ⟨_, rfl, hok, rfl, hr⟩
    · obtain ⟨hok, hr⟩ := hread con rfl rfl hstate
      exact ⟨_, rfl, hok, rfl, hr⟩

theorem HeaderRead.after {data' : Bytes} (hrec : Received con con₁ data)
    (h : HeaderRead con₁ con' data') : HeaderRead con con' (data ++ data') := by
  have hwait : con.waiting ++ (data ++ data') = con₁.waiting ++ data' := by rw [hrec.waiting, List.append_assoc]
  cases h with
  | taken p first request rest bytesOut state =>
    exact .taken p (hwait ▸ first) request (hwait ▸ rest) (bytesOut.trans (by rw [hrec.same.bytesOut])) state
  | notYet none rest request bytesOut state =>
    exact .notYet (hwait ▸ none) (hwait ▸ rest) (request.trans hrec.same.request)
      (bytesOut.trans hrec.same.bytesOut) state

theorem HeaderRead.congr (h : HeaderRead con con₁ data)
    (hwait : con'.waiting = con₁.waiting) (hout : con'.readQueue.bytesOut = con₁.readQueue.bytesOut)
    (hreq : con'.request = con₁.request) (hstate : con'.state = con₁.state) : HeaderRead con con' data := by
  cases h with
  | taken p first request rest bytesOut state =>
    exact .taken p first (by rw [hreq, request]) (hwait.trans rest) (hout.trans bytesOut) (hstate.trans state)
  | notYet none rest request bytesOut state =>
    exact .notYet none (hwait.trans rest) (hreq.trans request) (hout.trans bytesOut) (hstate ▸ state)

/-- **One call of `connection_handle_read_state`.** -/
theorem connectionHandleReadState_spec (h : con.Ok) (hstate : con.state ≠ .requestEnd) {io : ReadIo}
    (hsoft : ¬ io.read.Hard) :
    ∃ con' data, con.connectionHandleReadState io = some (true, con') ∧ con.socket = data ++ con'.socket ∧ con'.Ok ∧
      HeaderRead con con' data := by
  obtain ⟨ret, con₁, data, hread, hne, hrec, hst⟩ := readIfReadable_spec h hsoft
  obtain ⟨cq, hfin, hwf, hmem, hstream, hout⟩ := removeFinished_spec hrec.ok.wf hrec.ok.mem
  unfold connectionHandleReadState
  simp only [hread, Option.bind_eq_bind, Option.bind_some, if_neg hne, hfin]
  have hrec₂ : Received con { con₁ with readQueue := cq } data :=
    ⟨⟨hwf, hmem⟩, hrec.socket, hstream.trans hrec.waiting, ⟨hout.trans hrec.same.bytesOut, hrec.same.contentQueue,
      hrec.same.world, hrec.same.request, hrec.same.contentLength⟩⟩
  -- whichever way the search ends, the queue is cleaned up once more
  have finish : ∀ con₃ : Conn, con₃.Ok → con₃.socket = con₁.socket →
      HeaderRead { con₁ with readQueue := cq } con₃ [] →
      ∃ con' data, ((con₃.readQueue.removeFinishedChunks).bind fun cq => some (true, { con₃ with readQueue := cq })) =
        some (true, con') ∧ con.socket = data ++ con'.socket ∧ con'.Ok ∧ HeaderRead con con' data := by
    intro con₃ hok₃ hsock₃ hr
    obtain ⟨cq', hfin', hwf', hmem', hstream', hout'⟩ := removeFinished_spec hok₃.wf hok₃.mem
    refine ⟨{ con₃ with readQueue := cq' }, data, by rw [hfin']; rfl, ?_, ⟨hwf', hmem'⟩, ?_⟩
    · show con.socket = data ++ con₃.socket
      rw [hsock₃]
      exact hrec.socket
    · have hr' := HeaderRead.after hrec₂ hr
      rw [List.append_nil] at hr'
      exact hr'.congr hstream' hout' rfl rfl
  cases hsearch : searchHeader cq.chunks with
  | some r =>
    obtain ⟨hok, hr⟩ := takeHeader_spec { con₁ with readQueue := cq } hrec₂.ok hsearch
    exact finish _ hok rfl hr
  | none =>
    obtain ⟨con₃, heq, hok, hsock, hr⟩ := noHeader_spec { con₁ with readQueue := cq } hrec₂.ok hsearch
      (hst ▸ hstate) (ret == .closed)
    simp only [heq, Option.bind_some]
    exact finish con₃ hok hsock hr

/-- A call behind an event. -/
theorem call_spec (h : con.Ok) (hstate : con.state = .read) {i : Bool × ReadIo} (hsoft : ¬ i.2.read.Hard) :
    ∃ con' data, (con.connectionHandleFdevent i.1).connectionHandleReadState i.2 = some (true, con') ∧
      con.socket = data ++ con'.socket ∧ con'.Ok ∧ HeaderRead con con' data := by
  obtain ⟨hrec, hst⟩ := fdevent_spec h i.1
  obtain ⟨con', data, heq, hsock, hok, hr⟩ := connectionHandleReadState_spec hrec.ok (by rw [hst, hstate]; nofun) hsoft
  exact ⟨con', data, heq, hrec.socket.trans hsock, hok, HeaderRead.after hrec hr⟩

/-- **A run of `connection_handle_read_state`**: the outcome depends on the stream alone. -/
theorem readHeader_spec (h : con.Ok) (hstate : con.state = .read) {i : Bool × ReadIo}
    {is : List (Bool × ReadIo)} (hsoft : ∀ j ∈ i :: is, ¬ j.2.read.Hard) :
    ∃ con' data, readHeader (i :: is) con = some con' ∧ con.socket = data ++ con'.socket ∧ con'.Ok ∧
      HeaderRead con con' data := by
  induction is generalizing con i with
  | nil =>
    obtain ⟨con', data, heq, hrest⟩ := call_spec h hstate (hsoft i List.mem_cons_self)
    exact ⟨con', data, by simp [readHeader, hstate, heq], hrest⟩
  | cons i' is ih =>
    obtain ⟨con₁, data, heq, hsock, hok, hr⟩ := call_spec h hstate (hsoft i List.mem_cons_self)
    have hrun : readHeader (i :: i' :: is) con = readHeader (i' :: is) con₁ := by
      rw [readHeader, if_pos hstate, heq]
      rfl
    rw [hrun]
    by_cases hread : con₁.state = .read
    · obtain ⟨con', data', heq', hsock', hok', hr'⟩ := ih hok hread fun j hj => hsoft j (List.mem_cons_of_mem i hj)
      refine ⟨con', data ++ data', heq', by rw [hsock, hsock', List.append_assoc], hok', ?_⟩
      cases hr with
      | taken p first request rest bytesOut state => exact absurd (hread.symm.trans state) nofun
      | notYet none rest request bytesOut state =>
        have hwait : con.waiting ++ (data ++ data') = con₁.waiting ++ data' := by rw [rest, List.append_assoc]
        cases hr' with
        | taken p first request' rest' bytesOut' state' =>
          exact .taken p (hwait ▸ first) request' (hwait ▸ rest') (bytesOut'.trans (by rw [bytesOut])) state'
        | notYet none' rest' request' bytesOut' state' =>
          exact .notYet (hwait ▸ none') (hwait ▸ rest') (request'.trans request) (bytesOut'.trans bytesOut) state'
    · refine ⟨con₁, data, ?_, hsock, hok, hr⟩
      rw [readHeader, if_neg hread]

/-! ## The body -/

/-- The queues between which the body moves. -/
structure BodyOk (con : Conn) : Prop where
  ok : con.Ok
  wf : con.contentQueue.WF
  inFiles : con.contentLength ≤ 64 * 1024 → con.contentQueue.InFiles con.world
  coherent : 64 * 1024 < con.contentLength → Coherent con.world con.contentQueue.chunks

/-- **What `connection_handle_read_post_state` does to the stream**, `data` being the bytes that have come in: the next
bytes up to the announced length, as far as they are there, become part of the body. -/
structure BodyRead (con con' : Conn) (data body : Bytes) : Prop where
  socket : con.socket = data ++ con'.socket
  stream : con.waiting ++ data = body ++ con'.waiting
  content : con'.contentQueue.content con'.world = con.contentQueue.content con.world ++ body
  length : body.length = min con.missing.toNat (con.waiting ++ data).length
  bytesIn : con'.contentQueue.bytesIn = con.contentQueue.bytesIn + body.length
  bytesOut : con'.readQueue.bytesOut = con.readQueue.bytesOut + body.length
  contentLength : con'.contentLength = con.contentLength

/-- What the calls keep: what has been taken from the body before, and the files. -/
structure BodyKept (con con' : Conn) : Prop where
  bytesOut : con'.contentQueue.bytesOut = con.contentQueue.bytesOut
  extends' : con.world.Extends con'.world

theorem waiting_length (h : con.Ok) : con.waiting.length = con.readQueue.total := by
  rw [← length_content (h.mem.inFiles con.world), h.mem.content]
  rfl

theorem stealBody_spec (h : BodyOk con) {ios : List Attempt} (heq : con.stealBody ios = some (true, con')) :
    ∃ body, BodyRead con con' [] body ∧ BodyOk con' ∧ BodyKept con con' := by
  have hcontent : con.readQueue.content con.world = con.waiting := h.ok.mem.content con.world
  have hread : ∀ (con' : Conn) (n : Nat), n = min con.missing.toNat con.waiting.length → con'.Ok →
      con'.socket = con.socket →
      con'.contentQueue.content con'.world = con.contentQueue.content con.world ++ con.waiting.take n →
      con'.waiting = con.waiting.drop n → con'.contentQueue.bytesIn = con.contentQueue.bytesIn + n →
      con'.readQueue.bytesOut = con.readQueue.bytesOut + n → con'.contentLength = con.contentLength →
      BodyRead con con' [] (con.waiting.take n) := by
    intro con' n hn _ hsock hcont hwait hin hout hlen
    have hlength : (con.waiting.take n).length = n := by
      rw [List.length_take]
      omega
    exact ⟨hsock.symm, by rw [List.append_nil, hwait, List.take_append_drop], hcont,
      by rw [List.append_nil, hlength, hn], by rw [hlength, hin], by rw [hlength, hout], hlen⟩
  unfold stealBody at heq
  split at heq
  · rename_i hsmall
    obtain ⟨⟨d, s⟩, hsteal, heq⟩ := Option.map_eq_some_iff.mp heq
    cases heq
    obtain ⟨d₁, s₁, hsteal₁, hst⟩ := steal_spec h.wf h.ok.wf con.missing.toNat
    obtain ⟨rfl, rfl⟩ := Prod.mk.inj (Option.some.inj (hsteal.symm.trans hsteal₁))
    have hmem : AllMem s := steal_go_allMem h.ok.mem rfl hsteal
    rw [← waiting_length h.ok] at hst
    have hin := h.inFiles hsmall
    have hsrc := h.ok.mem.inFiles con.world
    have hd := hst.content con.world hin hsrc
    have hs := hst.drained.content con.world hsrc
    rw [hcontent] at hd hs
    rw [hmem.content] at hs
    refine ⟨_, hread { con with contentQueue := d, readQueue := s } _ rfl ⟨hst.drained.wf, hmem⟩ rfl hd hs hst.bytesIn
      hst.srcOut rfl, ⟨⟨hst.drained.wf, hmem⟩, hst.wf, fun _ => hst.inFiles con.world hin hsrc, ?_⟩, hst.bytesOut, .refl _⟩
    exact fun hbig => absurd hsmall (Nat.not_le_of_lt hbig)
  · rename_i hbig
    rw [Nat.not_le] at hbig
    obtain ⟨⟨r, s, ios'⟩, hsteal, heq⟩ := Option.map_eq_some_iff.mp heq
    obtain ⟨hok, rfl⟩ := Prod.mk.inj heq
    have hst := (stealWithTempfiles_spec h.wf h.ok.wf hsteal).1 hok
    have hmem : AllMem s := stealWithTempfiles_go_allMem h.ok.mem rfl hsteal
    rw [← waiting_length h.ok] at hst
    have hcoh : Coherent con.world (con.contentQueue.chunks ++ (con.readQueue.chunks ++ [])) := by
      rw [List.append_nil]
      exact (h.coherent hbig).append_mem h.ok.mem
    obtain ⟨hd, hs⟩ := hst.content [] hcoh
    rw [hcontent] at hd hs
    rw [hmem.content] at hs
    refine ⟨_, hread { con with contentQueue := r.cq, readQueue := s, world := r.world } _ rfl ⟨hst.srcWf, hmem⟩ rfl hd
      hs hst.bytesIn hst.srcOut rfl, ⟨⟨hst.srcWf, hmem⟩, hst.wf, fun hsmall => absurd hsmall (Nat.not_le_of_lt hbig),
      fun _ => ?_⟩, hst.bytesOut, hst.extends' [] hcoh⟩
    exact (hst.coherent [] hcoh).sublist (List.sublist_append_left _ _)

theorem BodyRead.congr {body : Bytes} (h : BodyRead con con₁ data body)
    (hwait : con'.waiting = con₁.waiting) (hout : con'.readQueue.bytesOut = con₁.readQueue.bytesOut)
    (hsock : con'.socket = con₁.socket) (hcont : con'.contentQueue = con₁.contentQueue) (hw : con'.world = con₁.world)
    (hlen : con'.contentLength = con₁.contentLength) : BodyRead con con' data body where
  socket := by rw [hsock]; exact h.socket
  stream := by rw [hwait]; exact h.stream
  content := by rw [hcont, hw]; exact h.content
  length := h.length
  bytesIn := by rw [hcont]; exact h.bytesIn
  bytesOut := by rw [hout]; exact h.bytesOut
  contentLength := hlen.trans h.contentLength

theorem BodyRead.after {body : Bytes} (hrec : Received con con₁ data)
    (h : BodyRead con₁ con' [] body) : BodyRead con con' data body where
  socket := by rw [hrec.socket, h.socket, List.nil_append]
  stream := by rw [← hrec.waiting, ← h.stream, List.append_nil]
  content := by rw [h.content, hrec.same.contentQueue, hrec.same.world]
  length := by
    have hm : con₁.missing = con.missing := by
      rw [missing, missing, hrec.same.contentLength, hrec.same.contentQueue]
    rw [h.length, List.append_nil, hrec.waiting, hm]
  bytesIn := by rw [h.bytesIn, hrec.same.contentQueue]
  bytesOut := by rw [h.bytesOut, hrec.same.bytesOut]
  contentLength := h.contentLength.trans hrec.same.contentLength

/-- Two calls move what one call would have moved with all the bytes there from the start. -/
theorem BodyRead.trans {data' body body' : Bytes} (h : BodyRead con con₁ data body)
    (h' : BodyRead con₁ con' data' body') : BodyRead con con' (data ++ data') (body ++ body') where
  socket := by rw [h.socket, h'.socket, List.append_assoc]
  stream := by rw [← List.append_assoc, h.stream, List.append_assoc, h'.stream, List.append_assoc]
  content := by rw [h'.content, h.content, List.append_assoc]
  length := by
    have hl := h.length
    have hl' := h'.length
    have hs := congrArg List.length h.stream
    have hm : con₁.missing = con.missing - body.length := by
      rw [missing, missing, h.contentLength, h.bytesIn]
      omega
    rw [hm] at hl'
    simp only [List.length_append] at hl hl' hs ⊢
    omega
  bytesIn := by rw [h'.bytesIn, h.bytesIn, List.length_append]; omega
  bytesOut := by rw [h'.bytesOut, h.bytesOut, List.length_append]; omega
  contentLength := h'.contentLength.trans h.contentLength

theorem Received.bodyOk (hrec : Received con con' data) (h : BodyOk con) : BodyOk con' where
  ok := hrec.ok
  wf := by rw [hrec.same.contentQueue]; exact h.wf
  inFiles := by rw [hrec.same.contentQueue, hrec.same.contentLength, hrec.same.world]; exact h.inFiles
  coherent := by rw [hrec.same.contentQueue, hrec.same.contentLength, hrec.same.world]; exact h.coherent

/-- **One call of `connection_handle_read_post_state`** that does not fail to store the body. -/
theorem connectionHandleReadPostState_spec (h : BodyOk con) {io : ReadIo} {ios : List Attempt}
    (hsoft : ¬ io.read.Hard) {ret : HandlerRet}
    (heq : con.connectionHandleReadPostState io ios = some (ret, con')) (hret : ret ≠ .finished) :
    ∃ data body, BodyRead con con' data body ∧ BodyOk con' ∧ BodyKept con con' := by
  obtain ⟨rret, con₁, data, hread, hne, hrec, -⟩ := readIfReadable_spec h.ok hsoft
  obtain ⟨cq, hfin, hwf, hmem, hstream, hout⟩ := removeFinished_spec hrec.ok.wf hrec.ok.mem
  have hrec₂ : Received con { con₁ with readQueue := cq } data :=
    ⟨⟨hwf, hmem⟩, hrec.socket, hstream.trans hrec.waiting, ⟨hout.trans hrec.same.bytesOut, hrec.same.contentQueue,
      hrec.same.world, hrec.same.request, hrec.same.contentLength⟩⟩
  unfold connectionHandleReadPostState at heq
  simp only [hread, Option.bind_eq_bind, Option.bind_some, if_neg hne, hfin] at heq
  obtain ⟨⟨ok, con₂⟩, hsteal, heq⟩ := Option.bind_eq_some_iff.mp heq
  cases ok with
  | false =>
    cases heq
    exact absurd rfl hret
  | true =>
    obtain ⟨body, hbody, hok₂, hout₂, hext⟩ := stealBody_spec (hrec₂.bodyOk h) hsteal
    rw [hrec₂.same.contentQueue] at hout₂
    rw [hrec₂.same.world] at hext
    obtain ⟨cq', hfin', hwf', hmem', hstream', hout'⟩ := removeFinished_spec hok₂.ok.wf hok₂.ok.mem
    simp only [hfin', Bool.not_true, Bool.false_eq_true, if_false, Option.bind_some] at heq
    have hbody' := BodyRead.after hrec₂ hbody
    have done : ∀ con₃ : Conn, con₃.readQueue = cq' → con₃.socket = con₂.socket →
        con₃.contentQueue = con₂.contentQueue → con₃.world = con₂.world →
        con₃.contentLength = con₂.contentLength → BodyRead con con₃ data body ∧ BodyOk con₃ ∧ BodyKept con con₃ := by
      intro con₃ hq hsock hcont hw hlen
      refine ⟨hbody'.congr (by rw [waiting, hq]; exact hstream') (by rw [hq]; exact hout') hsock hcont hw hlen,
        ⟨⟨hq ▸ hwf', hq ▸ hmem'⟩, hcont ▸ hok₂.wf, ?_, ?_⟩, hcont ▸ hout₂, hw ▸ hext⟩
      · rw [hlen, hcont, hw]
        exact hok₂.inFiles
      · rw [hlen, hcont, hw]
        exact hok₂.coherent
    refine ⟨data, body, ?_⟩
    split at heq
    · cases heq
      exact done _ rfl rfl rfl rfl rfl
    · split at heq
      · cases heq
        exact done _ rfl rfl rfl rfl rfl
      · cases heq
        exact done _ rfl rfl rfl rfl rfl

/-- A call behind an event. -/
theorem bodyCall_spec (h : BodyOk con) {i : Bool × ReadIo × List Attempt} (hsoft : ¬ i.2.1.read.Hard)
    {ret : HandlerRet}
    (heq : (con.connectionHandleFdevent i.1).connectionHandleReadPostState i.2.1 i.2.2 = some (ret, con'))
    (hret : ret ≠ .finished) : ∃ data body, BodyRead con con' data body ∧ BodyOk con' := by
  obtain ⟨event, io, ios⟩ := i
  obtain ⟨data, body, hbody, hok, -⟩ :=
    connectionHandleReadPostState_spec ((fdevent_spec h.ok event).1.bodyOk h) hsoft heq hret
  refine ⟨data, body, ?_, hok⟩
  cases event with
  | false => exact hbody
  | true => exact ⟨hbody.socket, hbody.stream, hbody.content, hbody.length, hbody.bytesIn, hbody.bytesOut, hbody.contentLength⟩

/-- **A run of `connection_handle_read_post_state`** moves what one call would have moved. -/
theorem readBody_spec (h : BodyOk con) {i : Bool × ReadIo × List Attempt}
    {is : List (Bool × ReadIo × List Attempt)} (hsoft : ∀ j ∈ i :: is, ¬ j.2.1.read.Hard)
    (heq : readBody (i :: is) con = some (true, con')) : ∃ data body, BodyRead con con' data body := by
  induction is generalizing con i with
  | nil =>
    obtain ⟨⟨ret, con₁⟩, hcall, heq⟩ := Option.bind_eq_some_iff.mp heq
    dsimp only at heq
    split at heq
    · cases heq
    · rename_i hret
      cases heq
      obtain ⟨data, body, hbody, -⟩ := bodyCall_spec h (hsoft i List.mem_cons_self) hcall hret
      exact ⟨data, body, hbody⟩
  | cons i' is ih =>
    obtain ⟨⟨ret, con₁⟩, hcall, heq⟩ := Option.bind_eq_some_iff.mp heq
    dsimp only at heq
    split at heq
    · cases heq
    · rename_i hret
      obtain ⟨data, body, hbody, hok⟩ := bodyCall_spec h (hsoft i List.mem_cons_self) hcall hret
      obtain ⟨data', body', hbody'⟩ := ih hok (fun j hj => hsoft j (List.mem_cons_of_mem i hj)) heq
      exact ⟨data ++ data', body ++ body', hbody.trans hbody'⟩

/-- **Request framing does not depend on fragmentation.** However the stream of the client is cut into reads and into
chunks of the read queue, and whenever there are events of the socket, as long as no `read` fails hard: calls of
`connection_handle_read_state` end with the shortest part of the stream that ends in an empty line as the request, and the
rest in the queue, or consume nothing when there is no such part; and calls of `connection_handle_read_post_state` that can
store the body move the next bytes of the stream up to the announced length, as far as they are there, and leave the
rest. -/
theorem request_framing (con : Conn) (h : con.Ok) :
    (∀ i is, con.state = .read → (∀ j ∈ i :: is, ¬ j.2.read.Hard) →
      ∃ con' data, readHeader (i :: is) con = some con' ∧ con.socket = data ++ con'.socket ∧
        HeaderRead con con' data) ∧
    (∀ i is con', con.contentQueue.WF → Coherent con.world con.contentQueue.chunks →
      (∀ j ∈ i :: is, ¬ j.2.1.read.Hard) → readBody (i :: is) con = some (true, con') →
      ∃ data body, BodyRead con con' data body) := by
  constructor
  · intro i is hstate hsoft
    obtain ⟨con', data, heq, hsock, -, hr⟩ := readHeader_spec h hstate hsoft
    exact ⟨con', data, heq, hsock, hr⟩
  · intro i is con' hwf hcoh hsoft heq
    exact readBody_spec ⟨h, hwf, fun _ => hcoh.inFile, fun _ => hcoh⟩ hsoft heq

/-- A header that ends in the third chunk, with an empty chunk in between and one more byte behind it. -/
def sampleConn : Conn where
  isReadable := true
  readQueue := ⟨[⟨.memChunk, .ofString (ascii "xGET\r"), Chunk.noFile, 1⟩, ⟨.memChunk, .ofString [], Chunk.noFile, 0⟩,
    ⟨.memChunk, .ofString (ascii "\n\r\na"), Chunk.noFile, 0⟩], [], 10, 1, none, 1024, 0⟩
  contentQueue := .init none 1024
  writeQueue := .init none 1024
  world := ⟨fun _ => none, fun _ => none⟩
  socket := ascii "bc"
  bytesRead := 10
  request := .init
  contentLength := 2
  state := .read
  httpStatus := 0
  keepAlive := true
  direct := true
  pollin := false
  streamRequest := false

theorem sampleConn_ok : sampleConn.Ok := ⟨⟨by decide, nofun⟩, by unfold AllMem; decide⟩

example : (readHeader [(false, ⟨none, .got 1⟩)] sampleConn).map (fun con => (con.request.str, con.waiting, con.socket)) =
    some (ascii "GET\r\n\r\n", ascii "ab", ascii "c") := by decide

/-- The reads of the body: one, one that is not made, and one behind an event. -/
def sampleBody : List (Bool × ReadIo × List Attempt) :=
  [(false, ⟨none, .got 1⟩, []), (false, ⟨none, .got 1⟩, []), (true, ⟨none, .got 1⟩, [])]

theorem request_framing_sample :
    (∃ con' data, readHeader [(false, ⟨none, .got 1⟩)] sampleConn = some con' ∧ sampleConn.socket = data ++ con'.socket ∧
      HeaderRead sampleConn con' data) ∧
    ∃ con', readBody sampleBody sampleConn = some (true, con') ∧ con'.socket = [] ∧
      ∃ data body, BodyRead sampleConn con' data body := by
  have hrun : (readBody sampleBody sampleConn).map (fun r => (r.1, r.2.socket)) = some (true, []) := by decide
  obtain ⟨⟨ok, con'⟩, hbody, hok⟩ := Option.map_eq_some_iff.mp hrun
  obtain ⟨rfl, hsock⟩ := Prod.mk.inj hok
  have hcoh : Coherent sampleConn.world sampleConn.contentQueue.chunks := .nil _
  refine ⟨(request_framing sampleConn sampleConn_ok).1 _ [] rfl ?_, con', hbody, hsock,
    (request_framing sampleConn sampleConn_ok).2 _ _ con' ⟨nofun, nofun⟩ hcoh ?_ hbody⟩
  · intro i hi
    rw [List.mem_singleton.mp hi]
    exact id
  · have hsoft : ∀ i ∈ sampleBody, i.2.1.read = .got 1 := by decide
    intro i hi
    rw [hsoft i hi]
    exact id

/-- A `read` that fails hard leaves a whole header in the queue, and a body of more than 64 KiB of which the first
bytes have come does not move when no temp file can be opened. -/
theorem request_framing_failures :
    (sampleConn.connectionHandleReadState ⟨none, .error .econnreset⟩).map
        (fun r => (r.1, r.2.state, r.2.request.str, r.2.waiting)) =
      some (false, .error, [], ascii "GET\r\n\r\na") ∧
    (connectionHandleReadPostState { sampleConn with contentLength := 70000 } ⟨none, .got 0⟩
        [⟨true, [none], .wrote 0, true⟩]).map
        (fun r => (r.1, r.2.httpStatus, r.2.contentQueue.bytesIn, r.2.waiting)) =
      some (.finished, 500, 0, ascii "GET\r\n\r\na") := by
  constructor <;> decide

end Conn
end Lighttpd
