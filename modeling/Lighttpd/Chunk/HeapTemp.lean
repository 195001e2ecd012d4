import Lighttpd.Chunk.HeapSteal

/-!
# The linked queue: temp files

`chunkqueue_append_mem_to_tempfile` and `chunkqueue_steal_with_tempfiles` on the linked queue, for every sequence of
results of their system calls.
-/

namespace Lighttpd
open Linked

namespace LinkedQueue

variable {h : ChunkHeap} {q : LinkedQueue} {cq : Chunkqueue} {o : Set Ptr}

/-- The outcome of choosing a temp file: the same files, and the pointer to the chunk is `last`. -/
structure Chosen (h : ChunkHeap) (o : Set Ptr) (r : Option Ptr × (ChunkHeap × LinkedQueue) × World)
    (b : Option Chunk × Chunkqueue × World) : Prop where
  world : r.2.2 = b.2.2
  sim : Sim h o r.2.1 b.2.1
  chunk : (r.1 = none ∧ b.1 = none) ∨
    ∃ p c, r.1 = some p ∧ b.1 = some c ∧ r.2.1.2.last = some p ∧ b.2.1.chunks.getLast? = some c

variable {h₁ : ChunkHeap} {o₁ : Set Ptr} {p : Ptr} {c : Chunk}

theorem Chosen.of_step {r : Option Ptr × (ChunkHeap × LinkedQueue) × World}
    {b : Option Chunk × Chunkqueue × World} (hs : Step h o h₁ o₁) (hc : Chosen h₁ o₁ r b) : Chosen h o r b :=
  ⟨hc.world, hc.sim.of_step hs, hc.chunk⟩

theorem Rep.setTempdirIdx (hr : Rep h q cq o) (i : Nat) :
    Rep h { q with tempdirIdx := i } { cq with tempdirIdx := i } o :=
  hr.counters rfl rfl rfl rfl rfl rfl ⟨hr.same.1, hr.same.2, hr.same.3, hr.same.4, rfl⟩

/-- The outcome of opening a temp file: only the index of the directory has changed. -/
def Opened (q : LinkedQueue) (cq : Chunkqueue) (r : Option (Path × Fd) × LinkedQueue)
    (b : Option (Path × Fd) × Chunkqueue) : Prop :=
  r.1 = b.1 ∧ ∃ i, r.2 = { q with tempdirIdx := i } ∧ b.2 = { cq with tempdirIdx := i }

theorem mkstempLoop_rel {q' : LinkedQueue} {cq' : Chunkqueue} (w : World) (dirs : List Path) (rs : List MkstempResult)
    (i : Nat) (hq : q' = { q with tempdirIdx := i }) (hcq : cq' = { cq with tempdirIdx := i }) :
    Option.Rel (Opened q cq) (openTempfile.mkstempLoop w q' dirs rs) (Chunkqueue.mkstempLoop cq' w dirs rs) := by
  subst hq hcq
  induction dirs generalizing rs i with
  | nil => exact .some ⟨rfl, i, rfl, rfl⟩
  | cons dir dirs ih =>
    cases rs with
    | nil => exact .none
    | cons r rs =>
      rw [openTempfile.mkstempLoop, Chunkqueue.mkstempLoop]
      cases Chunkqueue.mkstemp w dir r with
      | none => exact ih rs (i + 1)
      | some f => exact .some ⟨rfl, i, rfl, rfl⟩

theorem openTempfile_rel (hs : Same q cq) (w : World) (rs : List MkstempResult) :
    Option.Rel (Opened q cq) (openTempfile q w rs) (cq.openTempfile w rs) := by
  have hq : q = { q with tempdirIdx := cq.tempdirIdx } := by rw [← hs.tempdirIdx]
  have hdefault : Option.Rel (Opened q cq) (rs.head?.map fun r => (Chunkqueue.mkstemp w (ascii "/var/tmp") r, q))
      (rs.head?.map fun r => (Chunkqueue.mkstemp w (ascii "/var/tmp") r, cq)) := by
    cases rs with
    | nil => exact .none
    | cons r rs => exact .some ⟨rfl, cq.tempdirIdx, hq, rfl⟩
  have hloop : ∀ dirs, Option.Rel (Opened q cq) (openTempfile.mkstempLoop w q dirs rs) (cq.mkstempLoop w dirs rs) :=
    fun dirs => mkstempLoop_rel w dirs rs cq.tempdirIdx hq rfl
  unfold openTempfile Chunkqueue.openTempfile
  rw [hs.tempdirs, hs.tempdirIdx]
  match cq.tempdirs with
  | none => exact hdefault
  | some [] => exact hdefault
  | some (d :: ds) => exact hloop _

theorem getAppendTempfile_rel (hr : Rep h q cq o) (w : World) (rs : List MkstempResult) :
    Option.Rel (Chosen h o) (getAppendTempfile h q w rs) (cq.getAppendTempfile w rs) := by
  apply OptionRel.bind (openTempfile_rel hr.same w rs)
  rintro ⟨f, q₁⟩ ⟨f', cq₁⟩ ⟨hf, i, hq, hcq⟩
  obtain rfl : f = f' := hf
  obtain rfl : q₁ = { q with tempdirIdx := i } := hq
  obtain rfl : cq₁ = { cq with tempdirIdx := i } := hcq
  have hr₁ := hr.setTempdirIdx i
  cases f with
  | none => exact .some ⟨rfl, .refl hr₁, .inl ⟨rfl, rfl⟩⟩
  | some f =>
    obtain ⟨name, fd⟩ := f
    obtain ⟨p, h₁, q₁, h₂, o₁, heq, hset, hr₂, hp, ⟨n, hn⟩, hs⟩ := newChunk_rep hr₁ fun c => { c with
      type := .fileChunk
      file := { c.file with fd := some fd, isTemp := true, name := name, length := 0 } }
    obtain ⟨h₃, happ, hs₃, hr₃⟩ := appendChunk_spec hr₂ hp hn
    simp only [heq, hset, happ, Option.bind_eq_bind, Option.bind_some, Chunkqueue.appendChunk]
    cases hlen : Chunk.remainingLength _ with
    | none => exact .none
    | some len =>
      simp only [Option.map_some, Option.bind_some]
      exact .some ⟨rfl, ⟨_, hr₃ len, hs.trans hs₃⟩, .inr ⟨p, _, rfl, rfl, rfl, List.getLast?_concat⟩⟩

theorem selectTempfile_rel (hr : Rep h q cq o) (w : World) (io : Attempt) :
    Option.Rel (Chosen h o) (selectTempfile h q w io) (cq.selectTempfile w io) := by
  unfold selectTempfile Chunkqueue.selectTempfile
  cases hlast : cq.chunks.getLast? with
  | none =>
    rw [hr.last_none hlast]
    exact getAppendTempfile_rel hr w _
  | some c =>
    obtain ⟨p, n, hl, hn, -, hset⟩ := hr.last hlast
    simp only [hl, hn, Option.bind_eq_bind, Option.bind_some, hr.same.uploadTempFileSize]
    refine OptionRel.ite (fun _ => OptionRel.ite (fun _ => ?_) fun _ => ?_) fun _ => getAppendTempfile_rel hr w _
    · obtain ⟨h', hset', hr', hs'⟩ := hset fun c => { c with file := { c.file with fd := none } }
      simp only [hset', Option.bind_some]
      refine OptionRel.ite (fun _ => ?_) fun _ => .some ⟨rfl, ⟨o, hr', hs'⟩, .inl ⟨rfl, rfl⟩⟩
      exact OptionRel.mono (getAppendTempfile_rel hr' w _) fun _ _ => .of_step hs'
    · exact .some ⟨rfl, .refl hr, .inr ⟨p, c, rfl, rfl, hl, hlast⟩⟩

theorem growTempfile_rep (hr : Rep h q cq o) (hp : q.last = some p)
    (hlast : cq.chunks.getLast? = some c) (w : World) (data : Bytes) :
    ∃ r, growTempfile h q w p data = some r ∧ Sim h o r.1 (cq.growTempfile w c data).1 ∧
      r.2 = (cq.growTempfile w c data).2 := by
  obtain ⟨p', n, hl, hn, -, hset⟩ := hr.last hlast
  obtain rfl : p = p' := Option.some.inj (hp.symm.trans hl)
  obtain ⟨h', hset', hr', hs'⟩ := hset fun c => { c with
    file := { c.file with length := c.file.length + data.length } }
  unfold growTempfile
  simp only [hn, hset', Option.bind_eq_bind, Option.bind_some]
  have hsame := hr.same
  refine ⟨_, rfl, ⟨o, hr'.counters rfl rfl rfl rfl rfl rfl ?_, hs'⟩, rfl⟩
  exact ⟨by rw [hsame.bytesIn]; rfl, hsame.2, hsame.3, hsame.4, hsame.5⟩

/-! ## Giving up a temp file -/

theorem pushUnusedChunk_setChunks (cq : Chunkqueue) (cs : List Chunk) (e : Chunk) :
    Chunkqueue.pushUnusedChunk { cq with chunks := cs } e = { cq.pushUnusedChunk e with chunks := cs } := by
  unfold Chunkqueue.pushUnusedChunk
  split <;> rfl

/-- The loop of `chunkqueue_remove_empty_chunks`: `p` is the last of the chunks that stay. -/
theorem removeEmptyChunks_go_rel {fs cs : List (Ptr × Chunk)} {idle : List (Ptr × Chunk)} {k : Nat}
    (hat : RepAt h q { cq with chunks := vals (fs ++ (p, c) :: cs) } (fs ++ (p, c) :: cs) idle) (hk : cs.length < k) :
    Option.Rel (Sim h (own (fs ++ (p, c) :: cs) idle)) (removeEmptyChunks.go k p h q)
      (Chunkqueue.removeEmptyChunks.go (vals (fs ++ [(p, c)])) (vals cs) cq) := by
  induction k generalizing h q cq fs cs idle p c with
  | zero => exact absurd hk (Nat.not_lt_zero _)
  | succ k ih =>
    obtain ⟨n, hn, hrest⟩ := hat.first.node
    cases cs with
    | nil =>
      rw [hrest.first_eq_none.mpr rfl] at hn
      unfold removeEmptyChunks.go
      simp only [hn, Option.bind_eq_bind, Option.bind_some]
      exact .some ⟨_, ⟨_, idle, hat, rfl⟩, .refl _ _⟩
    | cons cell cs =>
      obtain ⟨e, d⟩ := cell
      obtain ⟨rfl, m, he, hrest'⟩ := IsList.cons_iff.mp hrest
      rw [show vals ((e, d) :: cs) = d :: vals cs from rfl]
      unfold removeEmptyChunks.go Chunkqueue.removeEmptyChunks.go
      simp only [hn, he, Option.bind_eq_bind, Option.bind_some]
      apply OptionRel.bind (remainingLength_rel d)
      rintro len _ ⟨rfl, -⟩
      refine OptionRel.ite (fun _ => ?_) fun _ => ?_
      · -- the empty chunk `e` is unlinked
        have hnd := hat.nodup
        have hperm : (addrs (fs ++ (p, c) :: (e, d) :: cs ++ idle)).Perm (e :: addrs (fs ++ (p, c) :: cs ++ idle)) := by
          have : fs ++ (p, c) :: (e, d) :: cs ++ idle = (fs ++ [(p, c)]) ++ (e, d) :: (cs ++ idle) := by simp
          rw [this]
          apply (List.perm_middle.map _).trans
          simp
        have hnd' := hperm.nodup_iff.mp hnd
        rw [List.nodup_cons] at hnd'
        obtain ⟨heo, hnd'⟩ := hnd'
        have hpnot := hnd'
        rw [List.append_assoc, List.cons_append, addrs_append, addrs_cons, List.nodup_middle, List.nodup_cons,
          List.mem_append, not_or, addrs_append, List.mem_append, not_or] at hpnot
        obtain ⟨⟨hpf, hpc, hpi⟩, -⟩ := hpnot
        have hep : e ≠ p := by
          rintro rfl
          exact heo (by simp)
        obtain ⟨h₁, hset, hput⟩ := modify_put hn fun n => { n with next := m }
        have hlist : IsList h₁ q.first (fs ++ (p, c) :: cs) := hat.first.splice hput hrest' hpf hpc
        have hlast : (if q.last = some e then some p else q.last) = (addrs (fs ++ (p, c) :: cs)).getLast? := by
          rw [hat.last]
          rcases List.eq_nil_or_concat cs with rfl | ⟨xs, ⟨l, v⟩, rfl⟩
          · simp
          · have hle : l ≠ e := by
              rintro rfl
              exact heo (by simp)
            simp [List.getLast?_append, List.getLast?_cons, hle]
        have hat₁ : RepAt h₁ { q with last := if q.last = some e then some p else q.last }
            { cq with chunks := vals (fs ++ (p, c) :: cs) } (fs ++ (p, c) :: cs) idle :=
          ⟨hlist, hlast, rfl, hat.unused.frame fun r hr => hput.other r fun h => hpi (h ▸ hr), hat.count,
            hat.idleChunks, hnd', ⟨hat.same.1, hat.same.2, hat.same.3, hat.same.4, hat.same.5⟩⟩
        have he₁ : h₁.node e = some ⟨d, m⟩ := (hput.other e hep).trans he
        obtain ⟨h₂, q₂, idle', heq, hat₂, hs₂, -⟩ := pushUnusedChunk_repAt hat₁ heo he₁
        rw [pushUnusedChunk_setChunks] at hat₂
        have hown : own (fs ++ (p, c) :: (e, d) :: cs) idle = insert e (own (fs ++ (p, c) :: cs) idle) := by
          ext r
          simp only [mem_own, Set.mem_insert_iff, addrs_append, addrs_cons, List.mem_append, List.mem_cons]
          tauto
        have hpmem : p ∈ own (fs ++ (p, c) :: (e, d) :: cs) idle := mem_own.mpr (.inl (by simp))
        have hstep : Step h (own (fs ++ (p, c) :: (e, d) :: cs) idle) h₂ (own (fs ++ (p, c) :: cs) idle') :=
          (Step.of_put hput hpmem).trans (hown ▸ hs₂)
        simp only [setNext, hset, heq, Option.bind_some]
        cases cs with
        | nil =>
          rw [hrest'.first_eq_none.mpr rfl]
          exact .none
        | cons cell cs =>
          obtain ⟨f, g⟩ := cell
          obtain ⟨rfl, -⟩ := IsList.cons_iff.mp hrest'
          have hsplit : fs ++ (p, c) :: (f, g) :: cs = (fs ++ [(p, c)]) ++ (f, g) :: cs := by simp
          rw [hsplit] at hat₂ hstep
          have hlen : cs.length < k := by
            simp only [List.length_cons] at hk
            omega
          have hrel := ih hat₂ hlen
          have hvals : vals (fs ++ [(p, c)] ++ [(f, g)]) = vals (fs ++ [(p, c)]) ++ [g] := by simp
          rw [hvals] at hrel
          exact OptionRel.mono hrel fun _ _ => .of_step hstep
      · -- the chunk `e` stays
        have hsplit : fs ++ (p, c) :: (e, d) :: cs = (fs ++ [(p, c)]) ++ (e, d) :: cs := by simp
        rw [hsplit] at hat ⊢
        have hrel := ih hat (Nat.lt_of_succ_lt_succ hk)
        have hvals : vals (fs ++ [(p, c)] ++ [(e, d)]) = vals (fs ++ [(p, c)]) ++ [d] := by simp
        rw [hvals] at hrel
        exact hrel

theorem removeEmptyChunks_rel (hr : Rep h q cq o) :
    Option.Rel (Sim h o) (removeEmptyChunks h q) cq.removeEmptyChunks := by
  apply OptionRel.bind (removeFinishedChunks_rel hr)
  rintro ⟨h₁, q₁⟩ cq₁ ⟨o₁, hr₁, hs₁⟩
  replace hr₁ : Rep h₁ q₁ cq₁ o₁ := hr₁
  replace hs₁ : Step h o h₁ o₁ := hs₁
  cases hcs : cq₁.chunks with
  | nil =>
    simp only [hr₁.first_none hcs]
    exact .some ⟨o₁, hr₁, hs₁⟩
  | cons c cs =>
    obtain ⟨cells, idle, hat, rfl⟩ := hr₁
    have hchunks := hat.chunks
    rw [hcs] at hchunks
    obtain ⟨⟨p, v⟩, cells, rfl, rfl, rfl⟩ := List.map_eq_cons_iff.mp hchunks
    obtain ⟨hf, -⟩ := IsList.cons_iff.mp hat.first
    have hk : cells.length < h₁.fresh + 1 := by
      have hr : Rep h₁ q₁ cq₁ _ := ⟨_, idle, hat, rfl⟩
      have hle := hr.length_le
      rw [hcs, List.length_cons, List.length_map] at hle
      omega
    have hat' : RepAt h₁ q₁ { cq₁ with chunks := vals ([] ++ (p, v) :: cells) } ([] ++ (p, v) :: cells) idle :=
      { hat with chunks := rfl, same := ⟨hat.same.1, hat.same.2, hat.same.3, hat.same.4, hat.same.5⟩ }
    simp only [hf]
    exact OptionRel.mono (removeEmptyChunks_go_rel hat' hk) fun _ _ => .of_step hs₁

theorem abandonTempfile_rel (hr : Rep h q cq o) (hp : q.last = some p)
    (hlast : cq.chunks.getLast? = some c) (closeFull : Bool) :
    Option.Rel (fun r b => Sim h o r.1 b.1 ∧ r.2 = b.2) (abandonTempfile h q p closeFull)
      (cq.abandonTempfile c closeFull) := by
  obtain ⟨p', n, hl, hn, -, hset⟩ := hr.last hlast
  obtain rfl : p = p' := Option.some.inj (hp.symm.trans hl)
  unfold abandonTempfile Chunkqueue.abandonTempfile
  rw [hn, Option.bind_eq_bind, Option.bind_some]
  apply OptionRel.bind (remainingLength_rel c)
  rintro len _ ⟨rfl, -⟩
  refine OptionRel.ite (fun _ => ?_) fun _ => ?_
  · exact OptionRel.bind (removeEmptyChunks_rel hr) fun _ _ hsim => .some ⟨hsim, rfl⟩
  · obtain ⟨h', hset', hr', hs'⟩ := hset fun c => { c with file := { c.file with fd := none } }
    simp only [hset', Option.bind_eq_bind, Option.bind_some]
    exact .some ⟨⟨o, hr', hs'⟩, rfl⟩

theorem nextTempdir_rep (hr : Rep h q cq o) (e : Errno) :
    Rep h (q.nextTempdir e).1 (cq.nextTempdir e).1 o ∧ (q.nextTempdir e).2 = (cq.nextTempdir e).2 ∧
      (q.nextTempdir e).1.last = q.last ∧ (cq.nextTempdir e).1.chunks = cq.chunks := by
  have heq : Chunkqueue.nextTempdirIdx q.tempdirs q.tempdirIdx e =
      Chunkqueue.nextTempdirIdx cq.tempdirs cq.tempdirIdx e := by rw [hr.same.tempdirs, hr.same.tempdirIdx]
  unfold nextTempdir Chunkqueue.nextTempdir
  rw [heq]
  exact ⟨hr.setTempdirIdx _, rfl, rfl, rfl⟩

/-! ## The loops -/

/-- The outcome of writing to temp files. -/
structure Written (h : ChunkHeap) (o : Set Ptr) (r : (Bool × (ChunkHeap × LinkedQueue) × World) × List Attempt)
    (b : TempResult × List Attempt) : Prop where
  ok : r.1.1 = b.1.ok
  sim : Sim h o r.1.2.1 b.1.cq
  world : r.1.2.2 = b.1.world
  rest : r.2 = b.2

theorem Written.of_step {r : (Bool × (ChunkHeap × LinkedQueue) × World) × List Attempt}
    {b : TempResult × List Attempt} (hs : Step h o h₁ o₁) (hw : Written h₁ o₁ r b) : Written h o r b :=
  ⟨hw.ok, hw.sim.of_step hs, hw.world, hw.rest⟩

theorem appendMemToTempfile_rel {ios : List Attempt} {w : World} {mem : Bytes} (hr : Rep h q cq o) :
    Option.Rel (Written h o) (appendMemToTempfile ios h q w mem) (Chunkqueue.appendMemToTempfile ios cq w mem) := by
  induction ios generalizing h q cq o w mem with
  | nil => exact .none
  | cons io ios ih =>
    apply OptionRel.bind (selectTempfile_rel hr w io)
    rintro ⟨p, ⟨h₁, q₁⟩, w₁⟩ ⟨c, cq₁, w₂⟩ ⟨hw, ⟨o₁, hr₁, hs₁⟩, hpc⟩
    obtain rfl : w₁ = w₂ := hw
    rcases hpc with ⟨hp, hc⟩ | ⟨p', c', hp, hc, hl, hlast⟩
    · obtain rfl : p = none := hp
      obtain rfl : c = none := hc
      exact .some ⟨rfl, ⟨o₁, hr₁, hs₁⟩, rfl, rfl⟩
    · obtain rfl : p = some p' := hp
      obtain rfl : c = some c' := hc
      simp only
      cases io.write with
      | wrote n =>
        obtain ⟨⟨⟨h₂, q₂⟩, w₂⟩, hg, ⟨o₂, hr₂, hs₂⟩, hw₂⟩ := growTempfile_rep hr₁ hl hlast w₁ (mem.take n)
        obtain rfl : w₂ = (cq₁.growTempfile w₁ c' (mem.take n)).2 := hw₂
        simp only [hg, Option.bind_eq_bind, Option.bind_some]
        refine OptionRel.ite (fun _ => .some ⟨rfl, ⟨o₂, hr₂, hs₁.trans hs₂⟩, rfl, rfl⟩) fun _ => ?_
        exact OptionRel.mono (ih hr₂) fun _ _ => .of_step (hs₁.trans hs₂)
      | error e =>
        refine OptionRel.ite (fun _ => OptionRel.mono (ih hr₁) fun _ _ => .of_step hs₁) fun _ => ?_
        obtain ⟨hr₂, hretry, hl₂, hcs₂⟩ := nextTempdir_rep hr₁ e
        apply OptionRel.bind (abandonTempfile_rel hr₂ (hl₂.trans hl) (hcs₂ ▸ hlast) io.closeFull)
        rintro ⟨⟨h₃, q₃⟩, closed⟩ ⟨cq₃, closed'⟩ ⟨⟨o₃, hr₃, hs₃⟩, hcl⟩
        obtain rfl : closed = closed' := hcl
        simp only [hretry]
        refine OptionRel.ite (fun _ => ?_) fun _ => .some ⟨rfl, ⟨o₃, hr₃, hs₁.trans hs₃⟩, rfl, rfl⟩
        exact OptionRel.mono (ih hr₃) fun _ _ => .of_step (hs₁.trans hs₃)

/-- The outcome of stealing with temp files. -/
structure Written2 (h : ChunkHeap) (o : Set Ptr)
    (r : (Bool × (ChunkHeap × LinkedQueue × LinkedQueue) × World) × List Attempt)
    (b : TempResult × Chunkqueue × List Attempt) : Prop where
  ok : r.1.1 = b.1.ok
  sim : Sim2 h o r.1.2.1 (b.1.cq, b.2.1)
  world : r.1.2.2 = b.1.world
  rest : r.2 = b.2.2

theorem Written2.of_step {r : (Bool × (ChunkHeap × LinkedQueue × LinkedQueue) × World) × List Attempt}
    {b : TempResult × Chunkqueue × List Attempt} (hs : Step h o h₁ o₁) (hw : Written2 h₁ o₁ r b) : Written2 h o r b :=
  ⟨hw.ok, hw.sim.of_step hs, hw.world, hw.rest⟩

/-- The loop of `chunkqueue_steal_with_tempfiles`. -/
theorem stealWithTempfiles_go_rel {cs : List Chunk} {k len : Nat} {src : LinkedQueue} {scq : Chunkqueue} {o' : Set Ptr}
    {w : World} {ios : List Attempt} (hr : Rep h q cq o) (hs : Rep h src scq o') (hd : Disjoint o o')
    (hcs : scq.chunks = cs) (hk : cs.length < k) :
    Option.Rel (Written2 h (o ∪ o')) (stealWithTempfiles.go k h q src len w ios)
      (Chunkqueue.stealWithTempfiles.go cs cq scq len w ios) := by
  induction cs generalizing k h q cq o src scq o' len w ios with
  | nil =>
    obtain ⟨k, rfl⟩ := Nat.exists_eq_succ_of_ne_zero (Nat.ne_of_gt hk)
    rw [stealWithTempfiles.go, hs.first_none hcs]
    exact .some ⟨rfl, ⟨o, o', hr, hs, hd, .refl _ _⟩, rfl, rfl⟩
  | cons c cs ih =>
    obtain ⟨k, rfl⟩ := Nat.exists_eq_succ_of_ne_zero (Nat.ne_of_gt (Nat.zero_lt_of_lt hk))
    have hk' := Nat.lt_of_succ_lt_succ hk
    obtain ⟨p, n, hf, hn, hp, hdrop⟩ := hs.head hcs
    simp only [stealWithTempfiles.go, Chunkqueue.stealWithTempfiles.go, hf, hn]
    refine OptionRel.ite (fun _ => .some ⟨rfl, ⟨o, o', hr, hs, hd, .refl _ _⟩, rfl, rfl⟩) fun _ => ?_
    rw [Option.bind_eq_bind, Option.bind_some]
    apply OptionRel.bind (remainingLength_rel c)
    rintro clen _ ⟨rfl, -⟩
    refine OptionRel.ite (fun _ => ?_) fun _ => ?_
    · obtain ⟨h', s', o₁, heq, hs₁, hr₁, hd₁, hstep⟩ := hs.popBeside hr hd hcs hf hn
      simp only [heq, Option.bind_eq_bind, Option.bind_some]
      have hcs' : (scq.dropFirst.pushUnusedChunk c).chunks = cs := by simp [Chunkqueue.dropFirst, hcs]
      exact OptionRel.mono (ih hr₁ hs₁ hd₁ hcs' hk') fun _ _ => .of_step hstep
    · generalize (if len ≥ clen then clen else len) = use
      cases c.type with
      | fileChunk =>
        refine OptionRel.ite (fun _ => ?_) fun _ => ?_
        · apply OptionRel.bind (appendFirst_rel hr hs hd hcs hf hn)
          rintro ⟨h', d'⟩ dcq ⟨o₁, o₂, hr₁, hs₁, hd₁, hstep⟩
          have hs₂ := hs₁.addOut use
          have hcs' : scq.dropFirst.chunks = cs := by simp [Chunkqueue.dropFirst, hcs]
          exact OptionRel.mono (ih hr₁ hs₂ hd₁ hcs' hk') fun _ _ => .of_step hstep
        · apply OptionRel.bind (appendFile_rel hr _ _ use)
          rintro ⟨h', d'⟩ dcq hsim
          obtain ⟨h'', o₁, o₂, hset, hr₁, hs₁, hd₁, hstep⟩ := hsim.advanceBeside hs hd hcs hf use
          have hs₂ := hs₁.addOut use
          rw [hf] at hs₂
          simp only [hset, Option.bind_eq_bind, Option.bind_some]
          exact .some ⟨rfl, ⟨o₁, o₂, hr₁, hs₂, hd₁, hstep⟩, rfl, rfl⟩
      | memChunk =>
        apply OptionRel.bind (appendMemToTempfile_rel hr)
        rintro ⟨⟨ok, ⟨h', d'⟩, w'⟩, ios'⟩ ⟨⟨ok', dcq, w''⟩, ios''⟩ ⟨hok, hsim, hw, hio⟩
        obtain rfl : ok = ok' := hok
        obtain rfl : w' = w'' := hw
        obtain rfl : ios' = ios'' := hio
        refine OptionRel.ite (fun hfail => ?_) fun hok => OptionRel.ite (fun _ => ?_) fun _ => ?_
        · obtain ⟨o₁, hr₁, hs₁, hd₁, hstep⟩ := hsim.beside hs hd
          have hfalse : ok = false := by simpa using hfail
          exact .some ⟨hfalse.symm, ⟨o₁, o', hr₁, hs₁, hd₁, hstep⟩, rfl, rfl⟩
        · have hn' : h'.node p = some ⟨c, n⟩ := by
            obtain ⟨o₁, -, hs'⟩ := hsim
            rw [hs'.frame p (fun hm => Set.disjoint_left.mp hd hm hp) (hs.lt_fresh hp), hn]
          obtain ⟨o₁, hr₁, hs₁, hd₁, hstep⟩ := hsim.beside hs hd
          obtain ⟨h'', s', o₂, heq, hs₂, hr₂, hd₂, hstep₂⟩ := hs₁.popBeside hr₁ hd₁ hcs hf hn'
          simp only [heq, Option.bind_eq_bind, Option.bind_some]
          have hcs' : (scq.dropFirst.pushUnusedChunk c).chunks = cs := by simp [Chunkqueue.dropFirst, hcs]
          have hs₃ := hs₂.addOut use
          have hout : (scq.dropFirst.pushUnusedChunk c).bytesOut = scq.bytesOut := by simp [Chunkqueue.dropFirst]
          rw [hout] at hs₃
          exact OptionRel.mono (ih hr₂ hs₃ hd₂ hcs' hk') fun _ _ => .of_step (hstep.trans hstep₂)
        · obtain ⟨h'', o₁, o₂, hset, hr₁, hs₁, hd₁, hstep⟩ := hsim.advanceBeside hs hd hcs hf use
          have hs₂ := hs₁.addOut use
          rw [hf] at hs₂
          simp only [hset, Option.bind_eq_bind, Option.bind_some]
          have htrue : ok = true := by simpa using hok
          exact .some ⟨htrue.symm, ⟨o₁, o₂, hr₁, hs₂, hd₁, hstep⟩, rfl, rfl⟩

theorem stealWithTempfiles_rel {src : LinkedQueue} {scq : Chunkqueue} {o' : Set Ptr} (hr : Rep h q cq o)
    (hs : Rep h src scq o') (hd : Disjoint o o') (len : Nat) (w : World) (ios : List Attempt) :
    Option.Rel (Written2 h (o ∪ o')) (stealWithTempfiles h q src len w ios) (cq.stealWithTempfiles scq len w ios) :=
  stealWithTempfiles_go_rel hr hs hd rfl (Nat.lt_succ_of_le hs.length_le)

end LinkedQueue
end Lighttpd
