import Lighttpd.Chunk.Steal
import Lighttpd.Chunk.HeapTemp

/-!
# The representation invariant of the chunk queues

Any number of chunk queues share one heap, and operations act on one or two of them in any order. A run on the linked
queues is simulated by a run on the lists of chunks (`step_rel`), where the counters and the offsets are kept by every
operation (`astep_ok`); `run_invariant` brings the invariant back to the pointers.
-/

namespace Lighttpd
open Linked

/-! ## Runs of operations -/

/-- The operations on queues named by `ι`. -/
inductive QueueOp (ι : Type)
  | reset (i : ι)
  | appendFileFd (i : ι) (fn : Path) (fd : Fd) (offset len : Nat)
  | appendFile (i : ι) (fn : Path) (offset len : Nat)
  | appendBuffer (i : ι) (mem : Buffer)
  | prependBuffer (i : ι) (mem : Buffer)
  | appendMem (i : ι) (mem : Bytes)
  | appendChunkqueue (dest src : ι)
  | getMemory (i : ι) (minSize allocSize : Nat)
  | useMemory (i : ι) (mem : Bytes)
  | steal (dest src : ι) (len : Nat)
  | stealWithTempfiles (dest src : ι) (len : Nat) (ios : List Attempt)
  | appendMemToTempfile (dest : ι) (mem : Bytes) (ios : List Attempt)
  | markWritten (i : ι) (len : Nat)
  | removeFinishedChunks (i : ι)

/-- The linked queues with their heap and the files. -/
structure QueueState (ι : Type) where
  heap : ChunkHeap
  queue : ι → LinkedQueue
  world : World

/-- The queues as lists of chunks, and the files. -/
structure AbsState (ι : Type) where
  queue : ι → Chunkqueue
  world : World

variable {ι : Type} [DecidableEq ι]

namespace QueueState

/-- Every queue is fresh from `chunkqueue_init`. -/
def init (settings : ι → Option (List Path) × Nat) (w : World) : QueueState ι :=
  ⟨.empty, fun i => .init (settings i).1 (settings i).2, w⟩

def set (st : QueueState ι) (i : ι) (r : ChunkHeap × LinkedQueue) : QueueState ι :=
  { st with heap := r.1, queue := Function.update st.queue i r.2 }

def set2 (st : QueueState ι) (i j : ι) (r : ChunkHeap × LinkedQueue × LinkedQueue) : QueueState ι :=
  { st with heap := r.1, queue := Function.update (Function.update st.queue i r.2.1) j r.2.2 }

/-- One operation; those on two queues need different ones. -/
def step (st : QueueState ι) : QueueOp ι → Option (QueueState ι)
  | .reset i => (LinkedQueue.reset st.heap (st.queue i)).map (st.set i)
  | .appendFileFd i fn fd offset len =>
    (LinkedQueue.appendFileFd st.heap (st.queue i) fn fd offset len).map (st.set i)
  | .appendFile i fn offset len => (LinkedQueue.appendFile st.heap (st.queue i) fn offset len).map (st.set i)
  | .appendBuffer i mem => (LinkedQueue.appendBuffer st.heap (st.queue i) mem).map (st.set i)
  | .prependBuffer i mem => (LinkedQueue.prependBuffer st.heap (st.queue i) mem).map (st.set i)
  | .appendMem i mem => (LinkedQueue.appendMem st.heap (st.queue i) mem).map (st.set i)
  | .appendChunkqueue i j =>
    if i = j then none else (LinkedQueue.appendChunkqueue st.heap (st.queue i) (st.queue j)).map (st.set2 i j)
  | .getMemory i minSize allocSize =>
    (LinkedQueue.getMemory st.heap (st.queue i) minSize allocSize).map fun r => st.set i r.1
  | .useMemory i mem => (LinkedQueue.useMemory st.heap (st.queue i) mem).map (st.set i)
  | .steal i j len =>
    if i = j then none else (LinkedQueue.steal st.heap (st.queue i) (st.queue j) len).map (st.set2 i j)
  | .stealWithTempfiles i j len ios =>
    if i = j then none
    else (LinkedQueue.stealWithTempfiles st.heap (st.queue i) (st.queue j) len st.world ios).map fun r =>
      { st.set2 i j r.1.2.1 with world := r.1.2.2 }
  | .appendMemToTempfile i mem ios =>
    (LinkedQueue.appendMemToTempfile ios st.heap (st.queue i) st.world mem).map fun r =>
      { st.set i r.1.2.1 with world := r.1.2.2 }
  | .markWritten i len => (LinkedQueue.markWritten st.heap (st.queue i) len).map (st.set i)
  | .removeFinishedChunks i => (LinkedQueue.removeFinishedChunks st.heap (st.queue i)).map (st.set i)

def run (st : QueueState ι) (ops : List (QueueOp ι)) : Option (QueueState ι) := ops.foldlM step st

end QueueState

namespace AbsState

def init (settings : ι → Option (List Path) × Nat) (w : World) : AbsState ι :=
  ⟨fun i => .init (settings i).1 (settings i).2, w⟩

def set (a : AbsState ι) (i : ι) (cq : Chunkqueue) : AbsState ι := { a with queue := Function.update a.queue i cq }

def set2 (a : AbsState ι) (i j : ι) (r : Chunkqueue × Chunkqueue) : AbsState ι :=
  { a with queue := Function.update (Function.update a.queue i r.1) j r.2 }

/-- One operation on the lists of chunks. -/
def step (a : AbsState ι) : QueueOp ι → Option (AbsState ι)
  | .reset i => some (a.set i (a.queue i).reset)
  | .appendFileFd i fn fd offset len => ((a.queue i).appendFileFd fn fd offset len).map (a.set i)
  | .appendFile i fn offset len => ((a.queue i).appendFile fn offset len).map (a.set i)
  | .appendBuffer i mem => ((a.queue i).appendBuffer mem).map fun r => a.set i r.1
  | .prependBuffer i mem => ((a.queue i).prependBuffer mem).map fun r => a.set i r.1
  | .appendMem i mem => ((a.queue i).appendMem mem).map (a.set i)
  | .appendChunkqueue i j =>
    if i = j then none else some (a.set2 i j ((a.queue i).appendChunkqueue (a.queue j)))
  | .getMemory i minSize allocSize => ((a.queue i).getMemory minSize allocSize).map fun r => a.set i r.1
  | .useMemory i mem => ((a.queue i).useMemory mem).map (a.set i)
  | .steal i j len => if i = j then none else ((a.queue i).steal (a.queue j) len).map (a.set2 i j)
  | .stealWithTempfiles i j len ios =>
    if i = j then none
    else ((a.queue i).stealWithTempfiles (a.queue j) len a.world ios).map fun r =>
      { a.set2 i j (r.1.cq, r.2.1) with world := r.1.world }
  | .appendMemToTempfile i mem ios =>
    (Chunkqueue.appendMemToTempfile ios (a.queue i) a.world mem).map fun r =>
      { a.set i r.1.cq with world := r.1.world }
  | .markWritten i len => ((a.queue i).markWritten len).map (a.set i)
  | .removeFinishedChunks i => ((a.queue i).removeFinishedChunks).map (a.set i)

end AbsState

/-! ## The simulation -/

open LinkedQueue (Rep Sim Sim2)

/-- **Every linked queue represents its list of chunks, and no two queues share a node.** -/
def RepAll (st : QueueState ι) (a : AbsState ι) : Prop :=
  st.world = a.world ∧ ∃ o : ι → Set Ptr, (∀ i, Rep st.heap (st.queue i) (a.queue i) (o i)) ∧
    ∀ i j, i ≠ j → Disjoint (o i) (o j)

variable {a : AbsState ι} {st : QueueState ι} {i : ι}

theorem RepAll.set {o : ι → Set Ptr} {r : ChunkHeap × LinkedQueue}
    {cq : Chunkqueue} (hr : ∀ i, Rep st.heap (st.queue i) (a.queue i) (o i))
    (hd : ∀ i j, i ≠ j → Disjoint (o i) (o j)) (hsim : Sim st.heap (o i) r cq) (w : World) :
    RepAll { st.set i r with world := w } { a.set i cq with world := w } := by
  obtain ⟨o', hr', hs⟩ := hsim
  refine ⟨rfl, Function.update o i o', fun j => ?_, fun j k hjk => ?_⟩
  · by_cases hj : j = i
    · subst hj
      simpa [QueueState.set, AbsState.set] using hr'
    · simpa [QueueState.set, AbsState.set, hj] using (hr j).frame hs (hd i j (Ne.symm hj))
  · have hdis : ∀ k, k ≠ i → Disjoint o' (o k) := fun k hk =>
      hs.disjoint (hd i k (Ne.symm hk)) fun _ => (hr k).lt_fresh
    by_cases hj : j = i
    · subst hj
      simpa [Ne.symm hjk] using hdis k (Ne.symm hjk)
    · by_cases hk : k = i
      · subst hk
        simpa [hj] using (hdis j hj).symm
      · simpa [hj, hk] using hd j k hjk

theorem RepAll.set2 {o : ι → Set Ptr} {j : ι}
    {r : ChunkHeap × LinkedQueue × LinkedQueue} {cqs : Chunkqueue × Chunkqueue}
    (hr : ∀ i, Rep st.heap (st.queue i) (a.queue i) (o i)) (hd : ∀ i j, i ≠ j → Disjoint (o i) (o j)) (hij : i ≠ j)
    (hsim : Sim2 st.heap (o i ∪ o j) r cqs) (w : World) :
    RepAll { st.set2 i j r with world := w } { a.set2 i j cqs with world := w } := by
  obtain ⟨o₁, o₂, hr₁, hr₂, hd₁₂, hs⟩ := hsim
  have hother : ∀ k, k ≠ i → k ≠ j → Disjoint (o i ∪ o j) (o k) := fun k hi hj =>
    Disjoint.sup_left (hd i k (Ne.symm hi)) (hd j k (Ne.symm hj))
  have hdis : ∀ k, k ≠ i → k ≠ j → Disjoint (o₁ ∪ o₂) (o k) := fun k hi hj =>
    hs.disjoint (hother k hi hj) fun _ => (hr k).lt_fresh
  have hdis₁ : ∀ k, k ≠ i → k ≠ j → Disjoint o₁ (o k) := fun k hi hj =>
    (hdis k hi hj).mono_left Set.subset_union_left
  have hdis₂ : ∀ k, k ≠ i → k ≠ j → Disjoint o₂ (o k) := fun k hi hj =>
    (hdis k hi hj).mono_left Set.subset_union_right
  refine ⟨rfl, Function.update (Function.update o i o₁) j o₂, fun k => ?_, fun k l hkl => ?_⟩
  · by_cases hj : k = j
    · subst hj
      simpa [QueueState.set2, AbsState.set2] using hr₂
    · by_cases hi : k = i
      · subst hi
        simpa [QueueState.set2, AbsState.set2, hij] using hr₁
      · simpa [QueueState.set2, AbsState.set2, hi, hj] using (hr k).frame hs (hother k hi hj)
  · by_cases hkj : k = j
    · subst hkj
      by_cases hli : l = i
      · subst hli
        simpa [hij] using hd₁₂.symm
      · simpa [Ne.symm hkl, hli] using hdis₂ l hli (Ne.symm hkl)
    · by_cases hki : k = i
      · subst hki
        by_cases hlj : l = j
        · subst hlj
          simpa [hij] using hd₁₂
        · simpa [hij, hlj, Ne.symm hkl] using hdis₁ l (Ne.symm hkl) hlj
      · by_cases hlj : l = j
        · subst hlj
          simpa [hki, hkj] using (hdis₂ k hki hkj).symm
        · by_cases hli : l = i
          · subst hli
            simpa [hki, hkj, hlj] using (hdis₁ k hki hkj).symm
          · simpa [hki, hkj, hli, hlj] using hd k l hkl

/-- **Each operation on the linked queues is the operation on the lists of chunks.** -/
theorem step_rel (h : RepAll st a) (op : QueueOp ι) : Option.Rel RepAll (st.step op) (a.step op) := by
  obtain ⟨heap, queue, w⟩ := st
  obtain ⟨aqueue, w'⟩ := a
  obtain ⟨hw, o, hr, hd⟩ := h
  obtain rfl : w = w' := hw
  have one : ∀ {i : ι} {r : ChunkHeap × LinkedQueue} {cq : Chunkqueue}, Sim heap (o i) r cq →
      RepAll (QueueState.set ⟨heap, queue, w⟩ i r) (AbsState.set ⟨aqueue, w⟩ i cq) := fun hsim =>
    RepAll.set hr hd hsim w
  have two : ∀ {i j : ι} {r : ChunkHeap × LinkedQueue × LinkedQueue} {cqs : Chunkqueue × Chunkqueue}, i ≠ j →
      Sim2 heap (o i ∪ o j) r cqs →
      RepAll (QueueState.set2 ⟨heap, queue, w⟩ i j r) (AbsState.set2 ⟨aqueue, w⟩ i j cqs) := fun hij hsim =>
    RepAll.set2 hr hd hij hsim w
  cases op with
  | reset i =>
    obtain ⟨r, heq, hsim⟩ := LinkedQueue.reset_rep (hr i)
    simp only [QueueState.step, heq, Option.map_some]
    exact .some (one hsim)
  | appendFileFd i fn fd offset len =>
    exact OptionRel.map (LinkedQueue.appendFileFd_rel (hr i) fn fd offset len) fun _ _ => one
  | appendFile i fn offset len => exact OptionRel.map (LinkedQueue.appendFile_rel (hr i) fn offset len) fun _ _ => one
  | appendBuffer i mem => exact OptionRel.map (LinkedQueue.appendBuffer_rel (hr i) mem) fun _ _ => one
  | prependBuffer i mem => exact OptionRel.map (LinkedQueue.prependBuffer_rel (hr i) mem) fun _ _ => one
  | appendMem i mem => exact OptionRel.map (LinkedQueue.appendMem_rel (hr i) mem) fun _ _ => one
  | appendChunkqueue i j =>
    refine OptionRel.ite (fun _ => .none) fun hij => ?_
    obtain ⟨r, heq, hsim⟩ := LinkedQueue.appendChunkqueue_rep (hr i) (hr j) (hd i j hij)
    simp only [heq, Option.map_some]
    exact .some (two hij hsim)
  | getMemory i minSize allocSize =>
    exact OptionRel.map (LinkedQueue.getMemory_rel (hr i) minSize allocSize) fun _ _ hsim => one hsim.1
  | useMemory i mem => exact OptionRel.map (LinkedQueue.useMemory_rel (hr i) mem) fun _ _ => one
  | steal i j len =>
    refine OptionRel.ite (fun _ => .none) fun hij => ?_
    exact OptionRel.map (LinkedQueue.steal_rel (hr i) (hr j) (hd i j hij) len) fun _ _ => two hij
  | stealWithTempfiles i j len ios =>
    refine OptionRel.ite (fun _ => .none) fun hij => ?_
    refine OptionRel.map (LinkedQueue.stealWithTempfiles_rel (hr i) (hr j) (hd i j hij) len w ios) fun r b hsim => ?_
    rw [hsim.world]
    exact RepAll.set2 hr hd hij hsim.sim _
  | appendMemToTempfile i mem ios =>
    refine OptionRel.map (LinkedQueue.appendMemToTempfile_rel (hr i)) fun r b hsim => ?_
    rw [hsim.world]
    exact RepAll.set hr hd hsim.sim _
  | markWritten i len => exact OptionRel.map (LinkedQueue.markWritten_rel (hr i) len) fun _ _ => one
  | removeFinishedChunks i => exact OptionRel.map (LinkedQueue.removeFinishedChunks_rel (hr i)) fun _ _ => one

/-! ## The counters -/

/-- **The invariant of one queue**: no chunk is consumed beyond its end, and the counters tell the length. -/
structure QueueOk (cq : Chunkqueue) : Prop where
  wf : cq.WF
  balance : cq.bytesIn - cq.bytesOut = cq.total

namespace QueueOk

open Chunkqueue

variable {cq cq' : Chunkqueue}

theorem pushed {c : Chunk} (h : QueueOk cq) (hp : Pushed cq cq' c) (hc : c.OffsetOk) : QueueOk cq' := by
  refine ⟨hp.wf h.wf hc, ?_⟩
  have := h.balance
  rw [hp.bytesIn, hp.bytesOut, hp.total]
  omega

variable {n : Nat} {data : Bytes} {src : Chunkqueue}

theorem grown (h : QueueOk cq) (hg : Grown cq cq' data) : QueueOk cq' := by
  refine ⟨hg.wf, ?_⟩
  have := h.balance
  rw [hg.bytesIn, hg.bytesOut, hg.total]
  omega

theorem prefixed (h : QueueOk cq) (hg : Prefixed cq cq' data) : QueueOk cq' := by
  refine ⟨hg.wf, ?_⟩
  have := h.balance
  rw [hg.bytesIn, hg.bytesOut, hg.total]
  omega

theorem hasMemory (h : QueueOk cq) (hm : HasMemory cq cq' n) : QueueOk cq' := by
  refine ⟨hm.wf, ?_⟩
  rw [hm.bytesIn, hm.bytesOut, hm.total]
  exact h.balance

theorem drained (h : QueueOk cq) (hd : Drained cq cq' n) (hout : cq'.bytesOut = cq.bytesOut + n) : QueueOk cq' := by
  refine ⟨hd.wf, ?_⟩
  have := h.balance
  have := hd.total
  rw [hd.bytesIn, hout]
  omega

theorem tempStep {w w' : World} (h : QueueOk cq) (ht : TempStep cq cq' w w' data) : QueueOk cq' := by
  refine ⟨ht.wf, ?_⟩
  have := h.balance
  rw [ht.bytesIn, ht.bytesOut, ht.total]
  omega

theorem stolen {s : Chunkqueue} (h : QueueOk cq) (hs : QueueOk src) (hst : Stolen cq src cq' s n) :
    QueueOk cq' ∧ QueueOk s := by
  refine ⟨⟨hst.wf, ?_⟩, hs.drained hst.drained hst.srcOut⟩
  have := h.balance
  rw [hst.bytesIn, hst.bytesOut, hst.total]
  omega

theorem stolenTemp {s : Chunkqueue} {w w' : World} (h : QueueOk cq) (hs : QueueOk src)
    (hst : StolenTemp cq src cq' s w w' n) : QueueOk cq' ∧ QueueOk s := by
  have := h.balance
  have := hs.balance
  have := hst.srcTotal
  refine ⟨⟨hst.wf, ?_⟩, ⟨hst.srcWf, ?_⟩⟩
  · rw [hst.bytesIn, hst.bytesOut, hst.total]
    omega
  · rw [hst.srcIn, hst.srcOut]
    omega

theorem init (tempdirs : Option (List Path)) (size : Nat) : QueueOk (Chunkqueue.init tempdirs size) :=
  ⟨⟨nofun, nofun⟩, rfl⟩

theorem reset (h : QueueOk cq) : QueueOk cq.reset := by
  obtain ⟨hwf, hcs⟩ := reset_spec h.wf
  refine ⟨hwf, ?_⟩
  rw [total, hcs]
  rfl

/-- The source queue of `chunkqueue_append_chunkqueue` is left empty, and the other one counts its bytes. -/
theorem appendChunkqueue (h : QueueOk cq) (hs : QueueOk src) :
    QueueOk (cq.appendChunkqueue src).1 ∧ QueueOk (cq.appendChunkqueue src).2 := by
  have hb := h.balance
  have hb' := hs.balance
  unfold Chunkqueue.appendChunkqueue
  split
  · exact ⟨h, hs⟩
  · refine ⟨⟨⟨fun c hm => ?_, h.wf.idle⟩, ?_⟩, ⟨⟨nofun, hs.wf.idle⟩, ?_⟩⟩
    · rcases List.mem_append.mp hm with hm | hm
      · exact h.wf.offset c hm
      · exact hs.wf.offset c hm
    · simp only [total, totalOf_append] at hb hb' ⊢
      omega
    · simp [total]

end QueueOk

/-- The queues of `a.set i cq` are those of `a` and `cq`. -/
theorem AbsState.set_ok {cq : Chunkqueue} (h : ∀ i, QueueOk (a.queue i)) (hcq : QueueOk cq) :
    ∀ j, QueueOk ((a.set i cq).queue j) := by
  intro j
  by_cases hj : j = i
  · subst hj
    simpa [AbsState.set] using hcq
  · simpa [AbsState.set, hj] using h j

theorem AbsState.set2_ok {j : ι} {cqs : Chunkqueue × Chunkqueue} (h : ∀ i, QueueOk (a.queue i))
    (hcqs : QueueOk cqs.1 ∧ QueueOk cqs.2) : ∀ k, QueueOk ((a.set2 i j cqs).queue k) := by
  intro k
  by_cases hj : k = j
  · subst hj
    simpa [AbsState.set2] using hcqs.2
  · by_cases hi : k = i
    · subst hi
      simpa [AbsState.set2, hj] using hcqs.1
    · simpa [AbsState.set2, hi, hj] using h k

open Chunkqueue in
/-- **Every operation keeps the invariant of every queue.** -/
theorem astep_ok {a' : AbsState ι} (h : ∀ i, QueueOk (a.queue i)) (op : QueueOp ι) (heq : a.step op = some a') :
    ∀ i, QueueOk (a'.queue i) := by
  cases op with
  | reset i =>
    obtain rfl := Option.some.inj heq
    exact AbsState.set_ok h (h i).reset
  | appendFileFd i fn fd offset len =>
    obtain ⟨cq, hcq, rfl⟩ := Option.map_eq_some_iff.mp heq
    apply AbsState.set_ok h
    by_cases hl : len = 0
    · rw [appendFileFd, if_pos hl] at hcq
      exact Option.some.inj hcq ▸ h i
    · obtain ⟨c, cq', heq', hp, -, -, hoff⟩ := appendFileFd_spec (h i).wf fn fd offset hl
      obtain rfl := Option.some.inj (heq'.symm.trans hcq)
      exact (h i).pushed hp (Chunk.offsetOk_of_offset_eq_zero hoff)
  | appendFile i fn offset len =>
    obtain ⟨cq, hcq, rfl⟩ := Option.map_eq_some_iff.mp heq
    apply AbsState.set_ok h
    by_cases hl : len = 0
    · rw [appendFile, if_pos hl] at hcq
      exact Option.some.inj hcq ▸ h i
    · obtain ⟨c, cq', heq', hp, -, -, hoff⟩ := appendFile_spec (h i).wf fn offset hl
      obtain rfl := Option.some.inj (heq'.symm.trans hcq)
      exact (h i).pushed hp (Chunk.offsetOk_of_offset_eq_zero hoff)
  | appendBuffer i mem =>
    obtain ⟨r, hcq, rfl⟩ := Option.map_eq_some_iff.mp heq
    obtain ⟨cq', b, heq', hg, -⟩ := appendBuffer_grown (h i).wf mem
    obtain rfl := Option.some.inj (heq'.symm.trans hcq)
    exact AbsState.set_ok h ((h i).grown hg)
  | prependBuffer i mem =>
    obtain ⟨r, hcq, rfl⟩ := Option.map_eq_some_iff.mp heq
    obtain ⟨cq', b, heq', hg, -⟩ := prependBuffer_prefixed (h i).wf mem
    obtain rfl := Option.some.inj (heq'.symm.trans hcq)
    exact AbsState.set_ok h ((h i).prefixed hg)
  | appendMem i mem =>
    obtain ⟨cq, hcq, rfl⟩ := Option.map_eq_some_iff.mp heq
    obtain ⟨cq', heq', hg⟩ := appendMem_grown (h i).wf mem
    obtain rfl := Option.some.inj (heq'.symm.trans hcq)
    exact AbsState.set_ok h ((h i).grown hg)
  | appendChunkqueue i j =>
    rw [AbsState.step] at heq
    split at heq
    · cases heq
    · obtain rfl := Option.some.inj heq
      exact AbsState.set2_ok h ((h i).appendChunkqueue (h j))
  | getMemory i minSize allocSize =>
    obtain ⟨r, hcq, rfl⟩ := Option.map_eq_some_iff.mp heq
    obtain ⟨cq', space, heq', hm, -⟩ := getMemory_spec (h i).wf minSize allocSize
    obtain rfl := Option.some.inj (heq'.symm.trans hcq)
    exact AbsState.set_ok h ((h i).hasMemory hm)
  | useMemory i mem =>
    obtain ⟨cq, hcq, rfl⟩ := Option.map_eq_some_iff.mp heq
    exact AbsState.set_ok h ((h i).grown (useMemory_grown (h i).wf hcq))
  | steal i j len =>
    rw [AbsState.step] at heq
    split at heq
    · cases heq
    · obtain ⟨cqs, hcq, rfl⟩ := Option.map_eq_some_iff.mp heq
      obtain ⟨d, s, heq', hst⟩ := steal_spec (h i).wf (h j).wf len
      obtain rfl := Option.some.inj (heq'.symm.trans hcq)
      exact AbsState.set2_ok h ((h i).stolen (h j) hst)
  | stealWithTempfiles i j len ios =>
    rw [AbsState.step] at heq
    split at heq
    · cases heq
    · obtain ⟨⟨r, s, ios'⟩, hcq, rfl⟩ := Option.map_eq_some_iff.mp heq
      obtain ⟨-, d, w', data, n, hst, ht⟩ := stealWithTempfiles_spec (h i).wf (h j).wf hcq
      obtain ⟨hd, hs⟩ := (h i).stolenTemp (h j) hst
      have hset : ∀ k, QueueOk ((a.set2 i j (r.cq, s)).queue k) := AbsState.set2_ok h ⟨hd.tempStep ht, hs⟩
      exact hset
  | appendMemToTempfile i mem ios =>
    obtain ⟨⟨r, ios'⟩, hcq, rfl⟩ := Option.map_eq_some_iff.mp heq
    obtain ⟨data, -, -, ht⟩ := appendMemToTempfile_spec (h i).wf hcq
    have hset : ∀ k, QueueOk ((a.set i r.cq).queue k) := AbsState.set_ok h ((h i).tempStep ht)
    exact hset
  | markWritten i len =>
    obtain ⟨cq, hcq, rfl⟩ := Option.map_eq_some_iff.mp heq
    obtain ⟨cq', heq', hd, hout⟩ := markWritten_spec (h i).wf (markWritten_le (h i).wf hcq)
    obtain rfl := Option.some.inj (heq'.symm.trans hcq)
    exact AbsState.set_ok h ((h i).drained hd hout)
  | removeFinishedChunks i =>
    obtain ⟨cq, hcq, rfl⟩ := Option.map_eq_some_iff.mp heq
    obtain ⟨cq', heq', hd, hout, -⟩ := removeFinishedChunks_spec (h i).wf
    obtain rfl := Option.some.inj (heq'.symm.trans hcq)
    exact AbsState.set_ok h ((h i).drained hd (hout.trans (Int.add_zero _).symm))

/-! ## The invariant of the pointers -/

/-- **The representation invariant of a queue in the heap.** -/
structure RepInvariant (h : ChunkHeap) (q : LinkedQueue) : Prop where
  first_last : q.last = none ↔ q.first = none
  last_reached : ∀ p, q.last = some p → Reach h q.first p ∧ ∃ c, h.node p = some ⟨c, none⟩
  offset : ∀ p, Reach h q.first p → ∃ c n, h.node p = some ⟨c, n⟩ ∧ 0 ≤ c.offset ∧ c.offset ≤ c.size
  length : ∃ n, q.length h = some n ∧ q.bytesIn - q.bytesOut = n

theorem LinkedQueue.Rep.invariant {h : ChunkHeap} {q : LinkedQueue} {cq : Chunkqueue} {o : Set Ptr}
    (hr : Rep h q cq o) (hok : QueueOk cq) : RepInvariant h q := by
  have hlen := LinkedQueue.length_rep hr
  have hsame := hr.same
  obtain ⟨cells, idle, hat, -⟩ := hr
  refine ⟨?_, fun p hp => ?_, fun p hp => ?_, ⟨cq.total, ?_, ?_⟩⟩
  · rw [hat.first.first_eq_none, hat.last, List.getLast?_eq_none_iff, List.map_eq_nil_iff]
  · rw [hat.last] at hp
    rcases List.eq_nil_or_concat cells with rfl | ⟨xs, ⟨l, v⟩, rfl⟩
    · cases hp
    · rw [List.concat_eq_append] at *
      obtain rfl : l = p := by simpa [addrs_append] using hp
      obtain ⟨n, hn, hnil⟩ := hat.first.node
      rw [hnil.first_eq_none.mpr rfl] at hn
      exact ⟨hat.first.reach_iff.mpr (by simp), v, hn⟩
  · obtain ⟨c, n, hc, hn⟩ := hat.first.node_of_mem (hat.first.reach_iff.mp hp)
    have hmem : c ∈ cq.chunks := hat.chunks ▸ List.mem_map.mpr ⟨(p, c), hc, rfl⟩
    exact ⟨c, n, hn, Nat.zero_le _, hok.wf.offset c hmem⟩
  · rw [hlen, Chunkqueue.length_eq hok.wf]
  · rw [hsame.bytesIn, hsame.bytesOut, hok.balance]

omit [DecidableEq ι] in
theorem repAll_init (settings : ι → Option (List Path) × Nat) (w : World) :
    RepAll (QueueState.init settings w) (AbsState.init settings w) := by
  refine ⟨rfl, fun _ => LinkedQueue.own [] [], fun i => ?_, fun i j _ => ?_⟩
  · exact ⟨[], [], ⟨.nil, rfl, rfl, .nil, rfl, rfl, List.nodup_nil, ⟨rfl, rfl, rfl, rfl, rfl⟩⟩, rfl⟩
  · rw [Set.disjoint_left]
    intro p hp
    rcases LinkedQueue.mem_own.mp hp with hp | hp <;> cases hp

theorem run_sim {st' : QueueState ι} (h : RepAll st a) (hok : ∀ i, QueueOk (a.queue i))
    (ops : List (QueueOp ι)) (hrun : st.run ops = some st') : ∃ a', RepAll st' a' ∧ ∀ i, QueueOk (a'.queue i) := by
  induction ops generalizing st a with
  | nil =>
    obtain rfl := Option.some.inj hrun
    exact ⟨a, h, hok⟩
  | cons op ops ih =>
    rw [QueueState.run, List.foldlM_cons] at hrun
    obtain ⟨st₁, hstep, hrest⟩ := Option.bind_eq_some_iff.mp hrun
    obtain ⟨a₁, hastep, h₁⟩ := OptionRel.of_some (step_rel h op) hstep
    exact ih h₁ (astep_ok hok op hastep) hrest

/-- **The representation invariant holds of every queue after every sequence of operations.** -/
theorem run_invariant (settings : ι → Option (List Path) × Nat) (w : World) (ops : List (QueueOp ι))
    (st : QueueState ι) (hrun : (QueueState.init settings w).run ops = some st) (i : ι) :
    RepInvariant st.heap (st.queue i) := by
  obtain ⟨a, ⟨-, o, hr, -⟩, hok⟩ := run_sim (repAll_init settings w) (fun i => QueueOk.init _ _) ops hrun
  exact (hr i).invariant (hok i)

/-- Two queues; bytes are appended, a part is stolen, and a part of that is written. -/
def sampleOps : List (QueueOp Bool) :=
  [.appendMem true [1, 2, 3], .appendFile true (ascii "a") 0 4, .getMemory true 0 0, .useMemory true [7, 8],
    .steal false true 5, .markWritten false 4, .removeFinishedChunks true, .reset false]

theorem run_invariant_sample :
    ∃ st, (QueueState.init (fun _ => (none, 1024)) Chunkqueue.sampleWorld).run sampleOps = some st ∧
      RepInvariant st.heap (st.queue true) := by
  have hsome : ((QueueState.init (fun _ => (none, 1024)) Chunkqueue.sampleWorld).run sampleOps).isSome = true := by decide
  obtain ⟨st, hst⟩ := Option.isSome_iff_exists.mp hsome
  exact ⟨st, hst, run_invariant (fun _ => (none, 1024)) Chunkqueue.sampleWorld sampleOps st hst true⟩

end Lighttpd
