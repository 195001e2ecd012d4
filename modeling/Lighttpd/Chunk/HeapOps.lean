import Lighttpd.Chunk.Content
import Lighttpd.Chunk.HeapRefine

/-!
# The operations of the linked queue

For each operation of `Chunk/Heap.lean` the theorem that it acts as its counterpart of `Chunk/Queue.lean` does. The
loops are followed chunk by chunk; the count that bounds them is never used up, because a queue has at most as many
chunks as the heap has nodes.
-/

namespace Lighttpd
open Linked

namespace LinkedQueue

variable {h : ChunkHeap} {q : LinkedQueue} {cq : Chunkqueue} {o : Set Ptr}

/-! ## Appending -/

/-- An unused chunk that is filled in by `f`. -/
theorem newChunk_rep (hr : Rep h q cq o) (f : Chunk → Chunk) :
    ∃ p h₁ q₁ h₂ o₁, getUnusedChunk h q = some (p, h₁, q₁) ∧ setChunk h₁ p f = some h₂ ∧
      Rep h₂ q₁ cq.getUnusedChunk.2 o₁ ∧ p ∉ o₁ ∧ (∃ n, h₂.node p = some ⟨f cq.getUnusedChunk.1, n⟩) ∧
      Step h o h₂ (insert p o₁) := by
  obtain ⟨p, h₁, q₁, o₁, heq, hr₁, hp, ⟨n, hn⟩, hs⟩ := getUnusedChunk_rep hr
  obtain ⟨h₂, hset, hput⟩ := modify_put hn fun n => { n with val := f n.val }
  exact ⟨p, h₁, q₁, h₂, o₁, heq, hset, hr₁.frame_put hput hp, hp, ⟨n, hput.here⟩,
    hs.trans (.of_put hput (Set.mem_insert _ _))⟩

theorem appendUnused_rel (hr : Rep h q cq o) (f : Chunk → Chunk) :
    Option.Rel (Sim h o) (appendUnused h q f) (cq.getUnusedChunk.2.appendChunk (f cq.getUnusedChunk.1)) := by
  obtain ⟨p, h₁, q₁, h₂, o₁, heq, hset, hr₂, hp, ⟨n, hn⟩, hs⟩ := newChunk_rep hr f
  have happ : appendUnused h q f = appendChunk h₂ q₁ p := by simp [appendUnused, heq, hset]
  rw [happ]
  exact OptionRel.mono (appendChunk_rel hr₂ hp hn) fun _ _ => .of_step hs

theorem appendFileFd_rel (hr : Rep h q cq o) (fn : Path) (fd : Fd) (offset len : Nat) :
    Option.Rel (Sim h o) (appendFileFd h q fn fd offset len) (cq.appendFileFd fn fd offset len) :=
  OptionRel.ite (fun _ => .some (.refl hr)) fun _ => appendUnused_rel hr _

theorem appendFile_rel (hr : Rep h q cq o) (fn : Path) (offset len : Nat) :
    Option.Rel (Sim h o) (appendFile h q fn offset len) (cq.appendFile fn offset len) :=
  OptionRel.ite (fun _ => .some (.refl hr)) fun _ => appendUnused_rel hr _

theorem appendMem_rel (hr : Rep h q cq o) (mem : Bytes) :
    Option.Rel (Sim h o) (appendMem h q mem) (cq.appendMem mem) :=
  OptionRel.ite (fun _ => .some (.refl hr)) fun _ => appendUnused_rel hr _

theorem appendBuffer_rel (hr : Rep h q cq o) (mem : Buffer) :
    Option.Rel (fun r b => Sim h o r b.1) (appendBuffer h q mem) (cq.appendBuffer mem) := by
  refine OptionRel.ite (fun _ => .some (.refl hr)) fun _ => ?_
  have hrel := appendUnused_rel hr fun c => { c with type := .memChunk, mem := (c.mem.move mem).1 }
  rw [← bind_pure (appendUnused h q _)]
  exact OptionRel.bind hrel fun r b hsim => .some hsim

theorem prependBuffer_rel (hr : Rep h q cq o) (mem : Buffer) :
    Option.Rel (fun r b => Sim h o r b.1) (prependBuffer h q mem) (cq.prependBuffer mem) := by
  refine OptionRel.ite (fun _ => .some (.refl hr)) fun _ => ?_
  obtain ⟨p, h₁, q₁, h₂, o₁, heq, hset, hr₂, hp, ⟨n, hn⟩, hs⟩ := newChunk_rep hr
    fun c => { c with type := .memChunk, mem := (c.mem.move mem).1 }
  simp only [heq, hset, Option.bind_eq_bind, Option.bind_some]
  rw [← bind_pure (prependChunk h₂ q₁ p)]
  exact OptionRel.bind (prependChunk_rel hr₂ hp hn) fun r b hsim => .some (.of_step hs hsim)

theorem appendPart_rel (hr : Rep h q cq o) (c : Chunk) (use : Nat) :
    Option.Rel (Sim h o) (appendPart h q c use) (cq.appendPart c use) := by
  unfold appendPart Chunkqueue.appendPart
  cases c.type with
  | memChunk => exact appendMem_rel hr _
  | fileChunk => exact appendFile_rel hr _ _ _

/-! ## Memory at the end -/

theorem getMemory_fresh_rel (hr : Rep h q cq o) (allocSize : Nat) :
    Option.Rel (fun r b => Sim h o r.1 b.1 ∧ r.2 = b.2) (getMemory.fresh allocSize h q)
      (Chunkqueue.getMemory.fresh allocSize cq) := by
  obtain ⟨p, h₁, q₁, h₂, o₁, heq, hset, hr₂, hp, ⟨n, hn⟩, hs⟩ := newChunk_rep hr
    fun c => { c with type := .memChunk }
  obtain ⟨h₃, happ, hs₃, hr₃⟩ := appendChunk_spec hr₂ hp hn
  unfold getMemory.fresh Chunkqueue.getMemory.fresh
  simp only [heq, hset, happ, Option.bind_eq_bind, Option.bind_some, Chunkqueue.appendChunk]
  cases hlen : Chunk.remainingLength { cq.getUnusedChunk.1 with type := .memChunk } with
  | none => exact .none
  | some len =>
    obtain ⟨p', n', hl, hn', -, hset'⟩ := (hr₃ len).last List.getLast?_concat
    obtain rfl : p = p' := Option.some.inj hl
    obtain ⟨h₄, hset₄, hr₄, hs₄⟩ := hset' fun c => { c with
      mem := cq.getUnusedChunk.1.mem.stringPrepareAppend allocSize }
    simp only [Option.map_some, Option.bind_some, hn', hset₄]
    exact .some ⟨⟨_, hr₄, hs.trans (hs₃.trans hs₄)⟩, rfl⟩

theorem getMemory_rel (hr : Rep h q cq o) (minSize allocSize : Nat) :
    Option.Rel (fun r b => Sim h o r.1 b.1 ∧ r.2 = b.2) (getMemory h q minSize allocSize)
      (cq.getMemory minSize allocSize) := by
  unfold getMemory Chunkqueue.getMemory
  dsimp only
  generalize (if minSize = 0 then 1024 else minSize) = least
  generalize (if (if allocSize = 0 then 4096 else allocSize) < least then least
    else if allocSize = 0 then 4096 else allocSize) = alloc
  cases hlast : cq.chunks.getLast? with
  | none =>
    rw [hr.last_none hlast]
    exact getMemory_fresh_rel hr _
  | some c =>
    obtain ⟨p, n, hl, hn, -, hset⟩ := hr.last hlast
    simp only [hl, hn, Option.bind_eq_bind, Option.bind_some]
    refine OptionRel.ite (fun _ => ?_) fun _ => getMemory_fresh_rel hr _
    obtain ⟨h', hset', hr', hs'⟩ := hset fun d => { d with mem := Chunkqueue.reuseMemory c.mem least alloc }
    simp only [hset', Option.bind_some]
    refine OptionRel.ite (fun _ => .some ⟨⟨o, hr', hs'⟩, rfl⟩) fun _ => ?_
    exact OptionRel.mono (getMemory_fresh_rel hr' _) fun _ _ hsim => ⟨hsim.1.of_step hs', hsim.2⟩

theorem useMemory_rel (hr : Rep h q cq o) (mem : Bytes) :
    Option.Rel (Sim h o) (useMemory h q mem) (cq.useMemory mem) := by
  unfold useMemory Chunkqueue.useMemory
  cases hlast : cq.chunks.getLast? with
  | none =>
    rw [hr.last_none hlast]
    exact .none
  | some c =>
    obtain ⟨p, n, hl, hn, -, hset⟩ := hr.last hlast
    simp only [hl, hn, Option.bind_eq_bind, Option.bind_some]
    refine OptionRel.ite (fun _ => OptionRel.ite (fun _ => ?_) fun _ => OptionRel.ite (fun _ => ?_) fun _ => ?_)
      fun _ => .none
    · cases hb : c.mem.commit mem with
      | none => exact .none
      | some b =>
        obtain ⟨h', hset', hr', hs'⟩ := hset fun d => { d with mem := b }
        simp only [hset', Option.bind_some]
        have hsame := hr.same
        refine .some ⟨o, hr'.counters rfl hl.symm rfl rfl rfl rfl ?_, hs'⟩
        exact ⟨by rw [hsame.bytesIn], hsame.2, hsame.3, hsame.4, hsame.5⟩
    · obtain ⟨h', hset', hr', hs'⟩ := hset fun d => { d with mem := d.mem.reset }
      simp only [hset', Option.bind_some]
      exact .some ⟨o, hr', hs'⟩
    · exact .some (.refl hr)

/-! ## Taking chunks out -/

/-- The first chunk, perhaps with its value changed to `d`, goes to the idle ones. -/
theorem pop_rep {c : Chunk} {cs : List Chunk} (hr : Rep h q cq o) (hcs : cq.chunks = c :: cs) :
    ∃ p n, q.first = some p ∧ h.node p = some ⟨c, n⟩ ∧ ∀ h₁ d, Put h h₁ p ⟨d, n⟩ →
      ∃ h' q' o', pushUnusedChunk h₁ (q.dropFirst p n) p = some (h', q') ∧
        Rep h' q' (cq.dropFirst.pushUnusedChunk d) o' ∧ Step h o h' o' := by
  obtain ⟨p, n, hf, hn, hp, hdrop⟩ := hr.head hcs
  refine ⟨p, n, hf, hn, fun h₁ d hput => ?_⟩
  have hpn : p ∉ o \ {p} := fun hm => hm.2 rfl
  obtain ⟨h', q', o', heq, hr', hs'⟩ := pushUnusedChunk_rep (hdrop.frame_put hput hpn) hpn hput.here
  have hins : insert p (o \ {p}) = o := by
    ext r
    by_cases hrp : r = p <;> simp [hrp, hp]
  rw [hins] at hs'
  exact ⟨h', q', o', heq, hr', (Step.of_put hput hp).trans hs'⟩

theorem remainingLength_rel (c : Chunk) :
    Option.Rel (fun a b => a = b ∧ c.remainingLength = some a) c.remainingLength c.remainingLength := by
  cases c.remainingLength with
  | none => exact .none
  | some m => exact .some ⟨rfl, rfl⟩

theorem removeFinishedChunks_go_rel {cs : List Chunk} {k : Nat} (hr : Rep h q cq o) (hcs : cq.chunks = cs)
    (hk : cs.length < k) :
    Option.Rel (Sim h o) (removeFinishedChunks.go k h q) (Chunkqueue.removeFinishedChunks.go cs cq) := by
  induction cs generalizing k h q cq o with
  | nil =>
    obtain ⟨k, rfl⟩ := Nat.exists_eq_succ_of_ne_zero (Nat.ne_of_gt hk)
    rw [removeFinishedChunks.go, hr.first_none hcs]
    exact .some (.refl hr)
  | cons c cs ih =>
    obtain ⟨k, rfl⟩ := Nat.exists_eq_succ_of_ne_zero (Nat.ne_of_gt (Nat.zero_lt_of_lt hk))
    obtain ⟨p, n, hf, hn, hpop⟩ := pop_rep hr hcs
    simp only [removeFinishedChunks.go, Chunkqueue.removeFinishedChunks.go, hf, hn, Option.bind_eq_bind,
      Option.bind_some]
    apply OptionRel.bind (remainingLength_rel c)
    rintro len _ ⟨rfl, -⟩
    refine OptionRel.ite (fun _ => .some (.refl hr)) fun _ => ?_
    obtain ⟨h', q', o', heq, hr', hs⟩ := hpop h c (.refl hn)
    simp only [heq, Option.bind_some]
    have hcs' : (cq.dropFirst.pushUnusedChunk c).chunks = cs := by simp [Chunkqueue.dropFirst, hcs]
    exact OptionRel.mono (ih hr' hcs' (Nat.lt_of_succ_lt_succ hk)) fun _ _ => .of_step hs

theorem removeFinishedChunks_rel (hr : Rep h q cq o) :
    Option.Rel (Sim h o) (removeFinishedChunks h q) cq.removeFinishedChunks :=
  removeFinishedChunks_go_rel hr rfl (Nat.lt_succ_of_le hr.length_le)

theorem markWritten_go_rel {cs : List Chunk} {k written : Nat} (hr : Rep h q cq o) (hcs : cq.chunks = cs)
    (hk : cs.length < k) :
    Option.Rel (fun r b => Sim h o r.1 b.1 ∧ r.2 = b.2) (markWritten.go k h q written)
      (Chunkqueue.markWritten.go cs cq written) := by
  induction cs generalizing k h q cq o written with
  | nil =>
    obtain ⟨k, rfl⟩ := Nat.exists_eq_succ_of_ne_zero (Nat.ne_of_gt hk)
    rw [markWritten.go, hr.first_none hcs]
    exact .some ⟨.refl hr, rfl⟩
  | cons c cs ih =>
    obtain ⟨k, rfl⟩ := Nat.exists_eq_succ_of_ne_zero (Nat.ne_of_gt (Nat.zero_lt_of_lt hk))
    obtain ⟨p, n, hf, hn, hpop⟩ := pop_rep hr hcs
    simp only [markWritten.go, Chunkqueue.markWritten.go, hf, hn, Option.bind_eq_bind, Option.bind_some]
    apply OptionRel.bind (remainingLength_rel c)
    rintro len _ ⟨rfl, -⟩
    refine OptionRel.ite (fun _ => .some ⟨.refl hr, rfl⟩) fun _ => OptionRel.ite (fun _ => ?_) fun _ => ?_
    · obtain ⟨h₁, hset, hput⟩ := modify_put hn fun n => { n with val := n.val.advance len }
      obtain ⟨h', q', o', heq, hr', hs⟩ := hpop h₁ _ hput
      simp only [setChunk, hset, heq, Option.bind_some]
      have hcs' : (cq.dropFirst.pushUnusedChunk (c.advance len)).chunks = cs := by simp [Chunkqueue.dropFirst, hcs]
      exact OptionRel.mono (ih hr' hcs' (Nat.lt_of_succ_lt_succ hk)) fun _ _ hsim => ⟨hsim.1.of_step hs, hsim.2⟩
    · obtain ⟨h₁, hset, hr₁, hs₁⟩ := hr.setFirst hcs hf (·.advance written)
      simp only [hset, Option.bind_some]
      exact .some ⟨⟨o, hr₁, hs₁⟩, rfl⟩

theorem markWritten_rel (hr : Rep h q cq o) (len : Nat) :
    Option.Rel (Sim h o) (markWritten h q len) (cq.markWritten len) := by
  apply OptionRel.bind (markWritten_go_rel hr rfl (Nat.lt_succ_of_le hr.length_le))
  rintro ⟨⟨h', q'⟩, written⟩ ⟨cq', written'⟩ ⟨⟨o', hr', hs⟩, hw⟩
  obtain rfl : written = written' := hw
  refine OptionRel.ite (fun _ => .some ⟨o', hr'.counters rfl rfl rfl rfl rfl rfl ?_, hs⟩) fun _ => .none
  have := hr'.same
  exact ⟨this.1, by rw [this.bytesOut], this.3, this.4, this.5⟩

end LinkedQueue
end Lighttpd
