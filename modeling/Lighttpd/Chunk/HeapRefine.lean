import Lighttpd.Chunk.Heap
import Lighttpd.Lib.OptionRel

/-!
# The linked queue refines the queue of chunks

`Rep h q cq o` says that the pointers of `q` lead through the heap `h` to the chunks of `cq`, and that the nodes of `q`
are those at the addresses `o`. Every operation of `Chunk/Heap.lean` acts on the chunks as the operation of the same
name of `Chunk/Queue.lean` (the theorems `…_rel`): both fail, or both succeed with a queue that is represented again,
and no node of another queue is touched.
-/

namespace Lighttpd
open Linked

namespace LinkedQueue

/-- The counters and the settings of the two queues are the same. -/
structure Same (q : LinkedQueue) (cq : Chunkqueue) : Prop where
  bytesIn : q.bytesIn = cq.bytesIn
  bytesOut : q.bytesOut = cq.bytesOut
  tempdirs : q.tempdirs = cq.tempdirs
  uploadTempFileSize : q.uploadTempFileSize = cq.uploadTempFileSize
  tempdirIdx : q.tempdirIdx = cq.tempdirIdx

/-- The pointers of `q` lead through the cells `cells` and `idle` to the chunks of `cq`. -/
structure RepAt (h : ChunkHeap) (q : LinkedQueue) (cq : Chunkqueue) (cells idle : List (Ptr × Chunk)) : Prop where
  first : IsList h q.first cells
  last : q.last = (addrs cells).getLast?
  chunks : vals cells = cq.chunks
  unused : IsList h q.unused idle
  count : q.unusedChunks = idle.length
  idleChunks : vals idle = cq.unused
  nodup : (addrs (cells ++ idle)).Nodup
  same : Same q cq

/-- The addresses of the cells of a queue. -/
def own (cells idle : List (Ptr × Chunk)) : Set Ptr := {p | p ∈ addrs (cells ++ idle)}

/-- **The linked queue `q` represents `cq`**, and owns the nodes at `o`. -/
def Rep (h : ChunkHeap) (q : LinkedQueue) (cq : Chunkqueue) (o : Set Ptr) : Prop :=
  ∃ cells idle, RepAt h q cq cells idle ∧ o = own cells idle

/-- The outcome of an operation on one queue that owned the nodes at `o` of the heap `h`. -/
def Sim (h : ChunkHeap) (o : Set Ptr) (r : ChunkHeap × LinkedQueue) (cq : Chunkqueue) : Prop :=
  ∃ o', Rep r.1 r.2 cq o' ∧ Step h o r.1 o'

/-- The outcome of an operation on two queues. -/
def Sim2 (h : ChunkHeap) (o : Set Ptr) (r : ChunkHeap × LinkedQueue × LinkedQueue) (cqs : Chunkqueue × Chunkqueue) :
    Prop :=
  ∃ o₁ o₂, Rep r.1 r.2.1 cqs.1 o₁ ∧ Rep r.1 r.2.2 cqs.2 o₂ ∧ Disjoint o₁ o₂ ∧ Step h o r.1 (o₁ ∪ o₂)

/-! ## Representation and frames -/

section Frames

variable {h h' : ChunkHeap} {q : LinkedQueue} {cq : Chunkqueue} {o o' : Set Ptr}

theorem mem_own {cells idle : List (Ptr × Chunk)} {p : Ptr} :
    p ∈ own cells idle ↔ p ∈ addrs cells ∨ p ∈ addrs idle := by
  rw [own, Set.mem_ofPred_eq, addrs_append, List.mem_append]

theorem RepAt.frame {cells idle : List (Ptr × Chunk)} (hr : RepAt h q cq cells idle)
    (he : ∀ p ∈ own cells idle, h'.node p = h.node p) : RepAt h' q cq cells idle :=
  { hr with
    first := hr.first.frame fun p hp => he p (Iff.mpr mem_own (.inl hp))
    unused := hr.unused.frame fun p hp => he p (Iff.mpr mem_own (.inr hp)) }

theorem Rep.lt_fresh (hr : Rep h q cq o) {p : Ptr} (hp : p ∈ o) : p < h.fresh := by
  obtain ⟨cells, idle, hat, rfl⟩ := hr
  rcases Iff.mp mem_own hp with hp | hp
  · exact hat.first.lt_fresh hp
  · exact hat.unused.lt_fresh hp

theorem Rep.frame {p p' : Set Ptr} (hr : Rep h q cq o) (hs : Step h p h' p') (hd : Disjoint p o) : Rep h' q cq o := by
  have hlt : ∀ r ∈ o, r < h.fresh := fun r => hr.lt_fresh
  obtain ⟨cells, idle, hat, rfl⟩ := hr
  refine ⟨cells, idle, hat.frame fun r hr => ?_, rfl⟩
  exact hs.frame r (fun hp => Set.disjoint_left.mp hd hp hr) (hlt r hr)

theorem Rep.frame_put {p : Ptr} {n : Node Chunk} (hr : Rep h q cq o) (hput : Put h h' p n) (hp : p ∉ o) :
    Rep h' q cq o := by
  obtain ⟨cells, idle, hat, rfl⟩ := hr
  exact ⟨cells, idle, hat.frame fun r hr => hput.other r fun he => hp (he ▸ hr), rfl⟩

theorem Rep.counters {q' : LinkedQueue} {cq' : Chunkqueue} (hr : Rep h q cq o) (hf : q'.first = q.first)
    (hl : q'.last = q.last) (hu : q'.unused = q.unused) (hn : q'.unusedChunks = q.unusedChunks)
    (hc : cq'.chunks = cq.chunks) (hi : cq'.unused = cq.unused) (hs : Same q' cq') : Rep h q' cq' o := by
  obtain ⟨cells, idle, hat, rfl⟩ := hr
  exact ⟨cells, idle, ⟨hf ▸ hat.first, hl ▸ hat.last, hc ▸ hat.chunks, hu ▸ hat.unused, hn ▸ hat.count,
    hi ▸ hat.idleChunks, hat.nodup, hs⟩, rfl⟩

theorem Rep.same (hr : Rep h q cq o) : Same q cq := by
  obtain ⟨cells, idle, hat, -⟩ := hr
  exact hat.same

theorem Rep.length_le (hr : Rep h q cq o) : cq.chunks.length ≤ h.fresh := by
  obtain ⟨cells, idle, hat, -⟩ := hr
  rw [← hat.chunks, List.length_map]
  refine hat.first.length_le (hat.nodup.sublist ?_)
  rw [addrs_append]
  exact List.sublist_append_left _ _

theorem Sim.of_step {h₁ : ChunkHeap} {o₁ : Set Ptr} {r : ChunkHeap × LinkedQueue} (hs : Step h o h₁ o₁)
    (h' : Sim h₁ o₁ r cq) : Sim h o r cq := by
  obtain ⟨o', hr, hs'⟩ := h'
  exact ⟨o', hr, hs.trans hs'⟩

theorem Sim2.of_step {h₁ : ChunkHeap} {o₁ : Set Ptr} {r : ChunkHeap × LinkedQueue × LinkedQueue}
    {cqs : Chunkqueue × Chunkqueue} (hs : Step h o h₁ o₁) (h' : Sim2 h₁ o₁ r cqs) : Sim2 h o r cqs := by
  obtain ⟨o', o'', hr, hr', hd, hs'⟩ := h'
  exact ⟨o', o'', hr, hr', hd, hs.trans hs'⟩

theorem Sim.refl (hr : Rep h q cq o) : Sim h o (h, q) cq := ⟨o, hr, .refl h o⟩

end Frames

/-! ## Single steps -/

section Steps

variable {h : ChunkHeap} {q : LinkedQueue} {cq : Chunkqueue} {o : Set Ptr}

theorem getUnusedChunk_rep (hr : Rep h q cq o) :
    ∃ p h' q' o', getUnusedChunk h q = some (p, h', q') ∧ Rep h' q' cq.getUnusedChunk.2 o' ∧ p ∉ o' ∧
      (∃ n, h'.node p = some ⟨cq.getUnusedChunk.1, n⟩) ∧ Step h o h' (insert p o') := by
  obtain ⟨cells, idle, hat, rfl⟩ := hr
  cases idle with
  | nil =>
    have hu : q.unused = none := hat.unused.first_eq_none.mpr rfl
    have hcu : cq.unused = [] := hat.idleChunks.symm
    have hget : cq.getUnusedChunk = (Chunk.init, cq) := by rw [Chunkqueue.getUnusedChunk, hcu]
    have hfresh : h.fresh ∉ own cells [] := fun hp =>
      Nat.lt_irrefl _ (Rep.lt_fresh ⟨cells, [], hat, rfl⟩ hp)
    refine ⟨_, _, q, own cells [], ?_, ?_, hfresh, ⟨none, ?_⟩, .of_alloc h ⟨Chunk.init, none⟩ _⟩
    · simp only [getUnusedChunk, hu]
      rfl
    · rw [hget]
      exact Rep.frame_put ⟨cells, [], hat, rfl⟩ (alloc_put h _) hfresh
    · rw [hget]
      exact (alloc_put h _).here
  | cons cell idle =>
    obtain ⟨p, c⟩ := cell
    obtain ⟨hu, n, hn, hrest⟩ := IsList.cons_iff.mp hat.unused
    have hcu : cq.unused = c :: vals idle := hat.idleChunks.symm
    have hget : cq.getUnusedChunk = (c, { cq with unused := vals idle }) := by rw [Chunkqueue.getUnusedChunk, hcu]
    have hnd := hat.nodup
    rw [addrs_append, addrs_cons, List.nodup_middle, List.nodup_cons, ← addrs_append] at hnd
    obtain ⟨hp, hnd⟩ := hnd
    obtain ⟨h', hset, hput⟩ := modify_put hn fun n => { n with next := none }
    have hat' : RepAt h { q with unused := n, unusedChunks := q.unusedChunks - 1 } { cq with unused := vals idle }
        cells idle :=
      ⟨hat.first, hat.last, hat.chunks, hrest, by simp [hat.count], rfl, hnd, ⟨hat.same.1, hat.same.2, hat.same.3,
        hat.same.4, hat.same.5⟩⟩
    have hown : own cells ((p, c) :: idle) = insert p (own cells idle) := by
      ext r
      simp only [mem_own, Set.mem_insert_iff, addrs_cons, List.mem_cons]
      tauto
    refine ⟨p, h', { q with unused := n, unusedChunks := q.unusedChunks - 1 }, own cells idle, ?_, ?_, hp,
      ⟨none, ?_⟩, ?_⟩
    · simp [getUnusedChunk, hu, hn, setNext, hset]
    · rw [hget]
      exact Rep.frame_put ⟨cells, idle, hat', rfl⟩ hput hp
    · rw [hget]
      exact hput.here
    · rw [hown]
      exact .of_put hput (Set.mem_insert _ _)

def appended (q : LinkedQueue) (p : Ptr) (len : Nat) : LinkedQueue :=
  { q with last := some p, first := if q.first = none then some p else q.first, bytesIn := q.bytesIn + len }

variable {c : Chunk} {p : Ptr} {n : Option Ptr}

theorem appendChunk_spec (hr : Rep h q cq o) (hp : p ∉ o) (hn : h.node p = some ⟨c, n⟩) :
    ∃ h', appendChunk h q p = (c.remainingLength.map fun len => (h', q.appended p len)) ∧
      Step h (insert p o) h' (insert p o) ∧ ∀ len : Nat, Rep h' (q.appended p len)
        { cq with chunks := cq.chunks ++ [c], bytesIn := cq.bytesIn + len } (insert p o) := by
  obtain ⟨cells, idle, hat, rfl⟩ := hr
  obtain ⟨h₁, hset₁, hput₁⟩ := modify_put hn fun n => { n with next := none }
  have hs₁ : Step h (insert p (own cells idle)) h₁ (insert p (own cells idle)) := .of_put hput₁ (Set.mem_insert _ _)
  have hat₁ : RepAt h₁ q cq cells idle := hat.frame fun r hr => hput₁.other r fun he => hp (he ▸ hr)
  have hown : insert p (own cells idle) = own (cells ++ [(p, c)]) idle := by
    ext r
    simp only [mem_own, Set.mem_insert_iff, addrs_append, addrs_cons, List.mem_append, List.mem_cons, List.map_nil,
      List.not_mem_nil]
    tauto
  have hnodup : (addrs (cells ++ [(p, c)] ++ idle)).Nodup := by
    rw [List.append_assoc, List.singleton_append, addrs_append, addrs_cons, List.nodup_middle, List.nodup_cons,
      ← addrs_append]
    exact ⟨hp, hat.nodup⟩
  have hlast : (addrs (cells ++ [(p, c)])).getLast? = some p := by rw [addrs_append]; simp
  have hchunks : vals (cells ++ [(p, c)]) = cq.chunks ++ [c] := by rw [← hat.chunks]; simp
  have hsame : ∀ len : Nat, Same (q.appended p len)
      { cq with chunks := cq.chunks ++ [c], bytesIn := cq.bytesIn + len } := fun len =>
    ⟨by rw [appended, hat.same.bytesIn], hat.same.2, hat.same.3, hat.same.4, hat.same.5⟩
  rcases List.eq_nil_or_concat cells with rfl | ⟨xs, ⟨l, v⟩, rfl⟩
  · have hf : q.first = none := hat.first.first_eq_none.mpr rfl
    have hl : q.last = none := hat.last
    refine ⟨h₁, ?_, hs₁, fun len => ⟨_, idle, ⟨?_, hlast.symm, hchunks, hat₁.unused, hat.count, hat.idleChunks,
      hnodup, hsame len⟩, hown⟩⟩
    · cases hlen : c.remainingLength <;> simp [appendChunk, setNext, hset₁, hl, hput₁.here, hlen, appended]
    · rw [appended, if_pos hf]
      exact .cons hput₁.here .nil
  · rw [List.concat_eq_append] at *
    have hf : q.first ≠ none := fun he => by simpa using hat.first.first_eq_none.mp he
    have hl : q.last = some l := by rw [hat.last, addrs_append]; simp
    obtain ⟨nl, hnl, -⟩ := hat₁.first.node
    obtain ⟨h₂, hset₂, hput₂⟩ := modify_put hnl fun n => { n with next := some p }
    have hlmem : l ∈ own (xs ++ [(l, v)]) idle := mem_own.mpr (.inl (by simp))
    have hlp : p ≠ l := fun he => hp (he ▸ hlmem)
    have hnd := hat.nodup
    rw [List.append_assoc, List.singleton_append, addrs_append, addrs_cons, List.nodup_middle, List.nodup_cons,
      List.mem_append, not_or] at hnd
    refine ⟨h₂, ?_, hs₁.trans (.of_put hput₂ (Set.mem_insert_of_mem _ hlmem)), fun len => ⟨_, idle, ⟨?_, hlast.symm,
      hchunks, ?_, hat.count, hat.idleChunks, hnodup, hsame len⟩, hown⟩⟩
    · have hnp : h₂.node p = some ⟨c, none⟩ := (hput₂.other p hlp).trans hput₁.here
      cases hlen : c.remainingLength <;> simp [appendChunk, setNext, hset₁, hl, hset₂, hnp, hlen, appended]
    · rw [appended, if_neg hf, List.append_assoc]
      apply hat₁.first.splice hput₂ (.cons hput₁.here .nil) hnd.1.1
      simpa using hlp.symm
    · exact hat₁.unused.frame fun r hr => hput₂.other r fun he => hnd.1.2 (he ▸ hr)

theorem appendChunk_rel (hr : Rep h q cq o) (hp : p ∉ o)
    (hn : h.node p = some ⟨c, n⟩) : Option.Rel (Sim h (insert p o)) (appendChunk h q p) (cq.appendChunk c) := by
  obtain ⟨h', heq, hs, hr'⟩ := appendChunk_spec hr hp hn
  rw [heq, Chunkqueue.appendChunk]
  cases hlen : c.remainingLength with
  | some len => exact .some ⟨_, hr' len, hs⟩
  | none => exact .none

theorem prependChunk_rel (hr : Rep h q cq o) (hp : p ∉ o)
    (hn : h.node p = some ⟨c, n⟩) : Option.Rel (Sim h (insert p o)) (prependChunk h q p) (cq.prependChunk c) := by
  obtain ⟨cells, idle, hat, rfl⟩ := hr
  obtain ⟨h₁, hset₁, hput₁⟩ := modify_put hn fun n => { n with next := q.first }
  have hat₁ : RepAt h₁ q cq cells idle := hat.frame fun r hr => hput₁.other r fun he => hp (he ▸ hr)
  have hown : insert p (own cells idle) = own ((p, c) :: cells) idle := by
    ext r
    simp only [mem_own, Set.mem_insert_iff, addrs_cons, List.mem_cons]
    tauto
  have hlast : (if q.last = none then some p else q.last) = (addrs ((p, c) :: cells)).getLast? := by
    rw [hat.last, addrs_cons]
    cases hc : addrs cells with
    | nil => rfl
    | cons a as => simp [List.getLast?_cons]
  unfold prependChunk setNext
  rw [hset₁, Option.bind_eq_bind, Option.bind_some, hput₁.here, Option.bind_eq_bind, Option.bind_some,
    Chunkqueue.prependChunk]
  cases hlen : c.remainingLength with
  | none => exact .none
  | some len =>
    refine .some ⟨_, ⟨(p, c) :: cells, idle, ⟨.cons hput₁.here hat₁.first, hlast, ?_, hat₁.unused, hat.count,
      hat.idleChunks, ?_, ?_⟩, hown⟩, .of_put hput₁ (Set.mem_insert _ _)⟩
    · rw [← hat.chunks]; rfl
    · rw [List.cons_append, addrs_cons, List.nodup_cons]
      exact ⟨hp, hat.nodup⟩
    · exact ⟨by rw [hat.same.bytesIn], hat.same.2, hat.same.3, hat.same.4, hat.same.5⟩

/-- A chunk outside all lists goes to the idle ones, or is freed; the cells of the queue stay the same. -/
theorem pushUnusedChunk_repAt {cells idle : List (Ptr × Chunk)}
    (hat : RepAt h q cq cells idle) (hp : p ∉ own cells idle) (hn : h.node p = some ⟨c, n⟩) :
    ∃ h' q' idle', pushUnusedChunk h q p = some (h', q') ∧ RepAt h' q' (cq.pushUnusedChunk c) cells idle' ∧
      Step h (insert p (own cells idle)) h' (own cells idle') ∧ q'.last = q.last := by
  have hcount : q.unusedChunks = cq.unused.length := by rw [hat.count, ← hat.idleChunks, List.length_map]
  unfold pushUnusedChunk Chunkqueue.pushUnusedChunk
  by_cases hfull : q.unusedChunks > 4
  · obtain ⟨h', hfree, hother, hfresh⟩ := free_spec hn
    rw [if_pos hfull, if_pos (hcount ▸ hfull), hfree]
    refine ⟨h', q, idle, rfl, hat.frame fun r hr => ?_, ⟨fun r hr _ => ?_, ?_, hfresh⟩, rfl⟩
    · exact hother r fun he => hp (he ▸ hr)
    · exact hother r fun he => hr (he ▸ Set.mem_insert _ _)
    · exact fun r hr => .inl (Set.mem_insert_of_mem _ hr)
  · obtain ⟨h', hset, hput⟩ := modify_put hn fun n => ⟨n.val.reset, q.unused⟩
    have hat' : RepAt h' q cq cells idle := hat.frame fun r hr => hput.other r fun he => hp (he ▸ hr)
    have hown : insert p (own cells idle) = own cells ((p, c.reset) :: idle) := by
      ext r
      simp only [mem_own, Set.mem_insert_iff, addrs_cons, List.mem_cons]
      tauto
    rw [if_neg hfull, if_neg (hcount ▸ hfull), hset]
    refine ⟨h', _, (p, c.reset) :: idle, rfl, ⟨hat'.first, hat.last, hat.chunks, .cons hput.here hat'.unused, ?_, ?_,
      ?_, ⟨hat.same.1, hat.same.2, hat.same.3, hat.same.4, hat.same.5⟩⟩, hown ▸ .of_put hput (Set.mem_insert _ _), rfl⟩
    · rw [List.length_cons, hat.count]
    · rw [← hat.idleChunks]; rfl
    · rw [addrs_append, addrs_cons, List.nodup_middle, List.nodup_cons, ← addrs_append]
      exact ⟨hp, hat.nodup⟩

theorem pushUnusedChunk_rep (hr : Rep h q cq o) (hp : p ∉ o) (hn : h.node p = some ⟨c, n⟩) :
    ∃ h' q' o', pushUnusedChunk h q p = some (h', q') ∧ Rep h' q' (cq.pushUnusedChunk c) o' ∧
      Step h (insert p o) h' o' := by
  obtain ⟨cells, idle, hat, rfl⟩ := hr
  obtain ⟨h', q', idle', heq, hat', hs, -⟩ := pushUnusedChunk_repAt hat hp hn
  exact ⟨h', q', _, heq, ⟨cells, idle', hat', rfl⟩, hs⟩

theorem Rep.head {cs : List Chunk} (hr : Rep h q cq o) (hcs : cq.chunks = c :: cs) :
    ∃ p n, q.first = some p ∧ h.node p = some ⟨c, n⟩ ∧ p ∈ o ∧ Rep h (q.dropFirst p n) cq.dropFirst (o \ {p}) := by
  obtain ⟨cells, idle, hat, rfl⟩ := hr
  have hchunks := hat.chunks
  rw [hcs] at hchunks
  obtain ⟨⟨p, v⟩, cells, rfl, rfl, hvals⟩ := List.map_eq_cons_iff.mp hchunks
  obtain ⟨hf, n, hn, hrest⟩ := IsList.cons_iff.mp hat.first
  have hnd := hat.nodup
  rw [List.cons_append, addrs_cons, List.nodup_cons] at hnd
  have hown : own ((p, v) :: cells) idle \ {p} = own cells idle := by
    ext r
    have hp : p ∉ own cells idle := hnd.1
    simp only [Set.mem_sdiff, Set.mem_singleton_iff, mem_own, addrs_cons, List.mem_cons] at hp ⊢
    constructor
    · tauto
    · rintro hr
      refine ⟨by tauto, ?_⟩
      rintro rfl
      exact hp hr
  refine ⟨p, n, hf, hn, mem_own.mpr (.inl List.mem_cons_self), cells, idle, ⟨hrest, ?_, ?_, hat.unused, hat.count,
    hat.idleChunks, hnd.2, ⟨hat.same.1, hat.same.2, hat.same.3, hat.same.4, hat.same.5⟩⟩, hown⟩
  · have hl := hat.last
    rw [dropFirst]
    rcases List.eq_nil_or_concat cells with rfl | ⟨xs, ⟨l, u⟩, rfl⟩
    · simp only [hl]
      simp
    · have hl' : q.last = some l := by
        rw [hl, List.concat_eq_append, addrs_cons, addrs_append]
        simp [List.getLast?_cons]
      have hne : l ≠ p := by
        rintro rfl
        exact hnd.1 (by simp)
      simp only [hl', Option.some.injEq, if_neg hne]
      simp
  · rw [Chunkqueue.dropFirst, hcs]
    exact hvals

theorem Rep.first_none (hr : Rep h q cq o) (hcs : cq.chunks = []) : q.first = none := by
  obtain ⟨cells, idle, hat, rfl⟩ := hr
  have hnil : vals cells = [] := by rw [hat.chunks, hcs]
  exact hat.first.first_eq_none.mpr (List.map_eq_nil_iff.mp hnil)

theorem RepAt.setChunk {cells idle : List (Ptr × Chunk)} (hat : RepAt h q cq cells idle)
    (xs ys : List (Ptr × Chunk)) (hc : cells = xs ++ (p, c) :: ys) (f : Chunk → Chunk) :
    ∃ h', LinkedQueue.setChunk h p f = some h' ∧
      RepAt h' q { cq with chunks := vals xs ++ f c :: vals ys } (xs ++ (p, f c) :: ys) idle ∧
      Step h (own cells idle) h' (own cells idle) ∧ own (xs ++ (p, f c) :: ys) idle = own cells idle := by
  subst hc
  obtain ⟨n, hn, -⟩ := hat.first.node
  obtain ⟨h', hset, hput⟩ := modify_put hn fun n => { n with val := f n.val }
  have hnd := hat.nodup
  have hndc : (addrs (xs ++ (p, c) :: ys)).Nodup :=
    hnd.sublist ((List.sublist_append_left (xs ++ (p, c) :: ys) idle).map _)
  have haddrs : addrs (xs ++ (p, f c) :: ys) = addrs (xs ++ (p, c) :: ys) := by simp
  have hpi : p ∉ addrs idle := by
    rw [addrs_append, List.nodup_append'] at hnd
    exact List.disjoint_left.mp hnd.2.2 (by simp)
  refine ⟨h', hset, ⟨hat.first.put_val hn hput hndc, ?_, by simp, ?_, hat.count, hat.idleChunks, ?_, ⟨hat.same.1,
    hat.same.2, hat.same.3, hat.same.4, hat.same.5⟩⟩, ?_, ?_⟩
  · rw [hat.last, haddrs]
  · exact hat.unused.frame fun r hr => hput.other r fun he => hpi (he ▸ hr)
  · rw [addrs_append, haddrs, ← addrs_append]
    exact hnd
  · exact .of_put hput (mem_own.mpr (.inl (by simp)))
  · ext r
    simp only [mem_own, haddrs]

theorem Rep.setFirst {cs : List Chunk} (hr : Rep h q cq o) (hcs : cq.chunks = c :: cs)
    (hf : q.first = some p) (f : Chunk → Chunk) :
    ∃ h', setChunk h p f = some h' ∧ Rep h' q (cq.setFirst (f c)) o ∧ Step h o h' o := by
  obtain ⟨cells, idle, hat, rfl⟩ := hr
  have hchunks := hat.chunks
  rw [hcs] at hchunks
  obtain ⟨⟨p', v⟩, cells, rfl, rfl, hvals⟩ := List.map_eq_cons_iff.mp hchunks
  obtain ⟨hf', -⟩ := IsList.cons_iff.mp hat.first
  obtain rfl : p = p' := Option.some.inj (hf.symm.trans hf')
  obtain ⟨h', hset, hat', hs, hown⟩ := hat.setChunk [] cells rfl f
  refine ⟨h', hset, ⟨_, idle, ?_, hown.symm⟩, hs⟩
  have : cq.setFirst (f v) = { cq with chunks := vals [] ++ f v :: vals cells } := by
    simp [Chunkqueue.setFirst, hcs, hvals]
  exact this ▸ hat'

theorem Rep.last (hr : Rep h q cq o) (hlast : cq.chunks.getLast? = some c) :
    ∃ p n, q.last = some p ∧ h.node p = some ⟨c, n⟩ ∧ p ∈ o ∧ ∀ f : Chunk → Chunk,
      ∃ h', setChunk h p f = some h' ∧ Rep h' q (cq.setLast (f c)) o ∧ Step h o h' o := by
  obtain ⟨cells, idle, hat, rfl⟩ := hr
  rcases List.eq_nil_or_concat cells with rfl | ⟨xs, ⟨p, v⟩, rfl⟩
  · rw [← hat.chunks] at hlast
    cases hlast
  · rw [List.concat_eq_append] at *
    have hv : v = c := by
      rw [← hat.chunks] at hlast
      simpa using hlast
    subst hv
    obtain ⟨n, hn, -⟩ := hat.first.node
    refine ⟨p, n, ?_, hn, mem_own.mpr (.inl (by simp)), fun f => ?_⟩
    · rw [hat.last, addrs_append]
      simp
    · obtain ⟨h', hset, hat', hs, hown⟩ := hat.setChunk xs [] rfl f
      refine ⟨h', hset, ⟨_, idle, ?_, hown.symm⟩, hs⟩
      have : cq.setLast (f v) = { cq with chunks := vals xs ++ f v :: vals [] } := by
        simp [Chunkqueue.setLast, ← hat.chunks]
      exact this ▸ hat'

theorem Rep.last_none (hr : Rep h q cq o) (hlast : cq.chunks.getLast? = none) : q.last = none := by
  obtain ⟨cells, idle, hat, rfl⟩ := hr
  rw [← hat.chunks, List.getLast?_eq_none_iff, List.map_eq_nil_iff] at hlast
  rw [hat.last, hlast]
  rfl

end Steps

end LinkedQueue
end Lighttpd
