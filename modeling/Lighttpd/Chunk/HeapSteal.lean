import Lighttpd.Chunk.HeapOps
import Lighttpd.Chunk.Tempfile

/-!
# The linked queue: resetting, splicing, stealing and temp files

The remaining operations of `Chunk/Heap.lean`. Those on two queues own the nodes of both, which have none in common;
`steal_rel` and `stealWithTempfiles_rel` follow the loops of the source chunk by chunk.
-/

namespace Lighttpd
open Linked

namespace LinkedQueue

variable {h : ChunkHeap} {q : LinkedQueue} {cq : Chunkqueue} {o : Set Ptr}

/-! ## Reset and length -/

/-- The loop of `chunkqueue_reset` over the cells of a list that is not the queue's any more. -/
theorem reset_go_rep : ∀ {cells : List (Ptr × Chunk)} {k : Nat} {first : Option Ptr} {h : ChunkHeap} {q : LinkedQueue}
    {cq : Chunkqueue} {o : Set Ptr}, IsList h first cells → (addrs cells).Nodup → Rep h q cq o →
    (∀ p ∈ addrs cells, p ∉ o) → cells.length < k →
    ∃ h' q' o', reset.go k first h q = some (h', q') ∧
      Rep h' q' ((vals cells).foldl Chunkqueue.pushUnusedChunk cq) o' ∧ Step h ({p | p ∈ addrs cells} ∪ o) h' o' := by
  intro cells
  induction cells with
  | nil =>
    intro k first h q cq o hl _ hr _ hk
    obtain ⟨k, rfl⟩ := Nat.exists_eq_succ_of_ne_zero (Nat.ne_of_gt hk)
    rw [hl.first_eq_none.mpr rfl]
    exact ⟨h, q, o, rfl, hr, (Step.refl h o).weaken Set.subset_union_right (Set.Subset.refl _)⟩
  | cons cell cells ih =>
    intro k first h q cq o hl hnd hr hdis hk
    obtain ⟨p, c⟩ := cell
    obtain ⟨k, rfl⟩ := Nat.exists_eq_succ_of_ne_zero (Nat.ne_of_gt (Nat.zero_lt_of_lt hk))
    obtain ⟨rfl, n, hn, hrest⟩ := IsList.cons_iff.mp hl
    rw [addrs_cons, List.nodup_cons] at hnd
    have hp : p ∉ o := hdis p List.mem_cons_self
    obtain ⟨h₁, q₁, o₁, heq, hr₁, hs₁⟩ := pushUnusedChunk_rep hr hp hn
    have hlt : ∀ r ∈ addrs cells, r < h.fresh := fun r hm => hrest.lt_fresh hm
    have hout : ∀ r ∈ addrs cells, r ∉ insert p o := by
      intro r hm
      rw [Set.mem_insert_iff, not_or]
      exact ⟨fun he => hnd.1 (he ▸ hm), hdis r (List.mem_cons_of_mem _ hm)⟩
    have hrest₁ : IsList h₁ n cells := hrest.frame fun r hm => hs₁.frame r (hout r hm) (hlt r hm)
    have hdis₁ : ∀ r ∈ addrs cells, r ∉ o₁ := fun r hm hro =>
      (hs₁.owned r hro).elim (hout r hm) (Nat.not_le_of_lt (hlt r hm))
    obtain ⟨h₂, q₂, o₂, heq₂, hr₂, hs₂⟩ := ih hrest₁ hnd.2 hr₁ hdis₁ (Nat.lt_of_succ_lt_succ hk)
    refine ⟨h₂, q₂, o₂, ?_, hr₂, ?_⟩
    · simp only [reset.go, hn, Option.bind_eq_bind, Option.bind_some, heq]
      exact heq₂
    · rw [Set.union_comm] at hs₂
      refine ((hs₁.union _).trans hs₂).weaken ?_ (Set.Subset.refl _)
      intro r hm
      simp only [Set.mem_union, Set.mem_insert_iff, Set.mem_ofPred_eq, addrs_cons, List.mem_cons] at hm ⊢
      tauto

theorem reset_rep (hr : Rep h q cq o) : ∃ r, reset h q = some r ∧ Sim h o r cq.reset := by
  obtain ⟨cells, idle, hat, rfl⟩ := hr
  have hnd := hat.nodup
  rw [addrs_append, List.nodup_append'] at hnd
  have hempty : Rep h { q with first := none, last := none } { cq with chunks := [] } (own [] idle) :=
    ⟨[], idle, ⟨.nil, rfl, rfl, hat.unused, hat.count, hat.idleChunks, hnd.2.1, ⟨hat.same.1, hat.same.2, hat.same.3,
      hat.same.4, hat.same.5⟩⟩, rfl⟩
  have hdis : ∀ p ∈ addrs cells, p ∉ own [] idle := fun p hp hm => by
    rcases mem_own.mp hm with hm | hm
    · cases hm
    · exact List.disjoint_left.mp hnd.2.2 hp hm
  have hk : cells.length < h.fresh + 1 := Nat.lt_succ_of_le (hat.first.length_le hnd.1)
  obtain ⟨h', q', o', heq, hr', hs'⟩ := reset_go_rep hat.first hnd.1 hempty hdis hk
  refine ⟨(h', { q' with bytesIn := 0, bytesOut := 0, tempdirIdx := 0 }), ?_, o', ?_, hs'.weaken ?_ (Set.Subset.refl _)⟩
  · simp [reset, heq]
  · rw [hat.chunks] at hr'
    have := hr'.same
    exact hr'.counters rfl rfl rfl rfl rfl rfl ⟨rfl, rfl, this.3, this.4, rfl⟩
  · intro r hm
    rw [Set.mem_union, Set.mem_ofPred_eq, mem_own] at hm
    rw [mem_own]
    rcases hm with hm | hm | hm
    · exact .inl hm
    · cases hm
    · exact .inr hm

theorem length_go_eq {cells : List (Ptr × Chunk)} {k : Nat} {first : Option Ptr} (hl : IsList h first cells)
    (hk : cells.length < k) : length.go h k first = Chunkqueue.length.go (vals cells) := by
  induction hl generalizing k with
  | nil =>
    obtain ⟨k, rfl⟩ := Nat.exists_eq_succ_of_ne_zero (Nat.ne_of_gt hk)
    rfl
  | cons hn hl ih =>
    obtain ⟨k, rfl⟩ := Nat.exists_eq_succ_of_ne_zero (Nat.ne_of_gt (Nat.zero_lt_of_lt hk))
    simp only [length.go, hn, Option.bind_eq_bind, Option.bind_some, ih (Nat.lt_of_succ_lt_succ hk)]
    rfl

/-- `chunkqueue_length` is the length of the list of chunks. -/
theorem length_rep (hr : Rep h q cq o) : length h q = cq.length := by
  have hle := hr.length_le
  obtain ⟨cells, idle, hat, rfl⟩ := hr
  have hk : cells.length < h.fresh + 1 := by
    rw [← hat.chunks, List.length_map] at hle
    exact Nat.lt_succ_of_le hle
  rw [length, length_go_eq hat.first hk, hat.chunks]
  rfl

/-! ## Two queues -/

theorem Sim.beside {q' : LinkedQueue} {cq' : Chunkqueue} {o' : Set Ptr} {r : ChunkHeap × LinkedQueue}
    (hsim : Sim h o r cq) (hr : Rep h q' cq' o') (hd : Disjoint o o') :
    ∃ o₁, Rep r.1 r.2 cq o₁ ∧ Rep r.1 q' cq' o' ∧ Disjoint o₁ o' ∧ Step h (o ∪ o') r.1 (o₁ ∪ o') := by
  obtain ⟨o₁, hr₁, hs⟩ := hsim
  exact ⟨o₁, hr₁, hr.frame hs hd, hs.disjoint hd fun _ => hr.lt_fresh, hs.union o'⟩

/-- `chunkqueue_append_chunkqueue`. -/
theorem appendChunkqueue_rep {src : LinkedQueue} {scq : Chunkqueue} {o' : Set Ptr} (hr : Rep h q cq o)
    (hs : Rep h src scq o') (hd : Disjoint o o') :
    ∃ r, appendChunkqueue h q src = some r ∧ Sim2 h (o ∪ o') r (cq.appendChunkqueue scq) := by
  obtain ⟨cells, idle, hat, rfl⟩ := hr
  obtain ⟨cells', idle', hat', rfl⟩ := hs
  unfold appendChunkqueue Chunkqueue.appendChunkqueue
  cases hcells' : cells' with
  | nil =>
    subst hcells'
    have hnil : scq.chunks = [] := hat'.chunks.symm
    rw [hat'.first.first_eq_none.mpr rfl, hnil]
    exact ⟨_, rfl, _, _, ⟨cells, idle, hat, rfl⟩, ⟨[], idle', hat', rfl⟩, hd, .refl _ _⟩
  | cons cell ys =>
    obtain ⟨f, hf⟩ := Option.ne_none_iff_exists'.mp fun he => by
      have := hat'.first.first_eq_none.mp he
      rw [hcells'] at this
      cases this
    have hne : scq.chunks.isEmpty = false := by rw [← hat'.chunks, hcells']; rfl
    have hnd := hat.nodup
    have hnd' := hat'.nodup
    rw [addrs_append, List.nodup_append'] at hnd hnd'
    have hdis : ∀ r ∈ own cells idle, r ∉ own cells' idle' := fun r hm => Set.disjoint_left.mp hd hm
    -- the heap after the last chunk of `q` has been linked to the first one of `src`
    obtain ⟨h', hlink, hlist, hother, hstep⟩ : ∃ h', linkLast h q src.first = some h' ∧
        IsList h' (if q.first = none then src.first else q.first) (cells ++ cells') ∧
        (∀ r, r ∉ addrs cells → h'.node r = h.node r) ∧
        Step h (own cells idle ∪ own cells' idle') h' (own cells idle ∪ own cells' idle') := by
      rcases List.eq_nil_or_concat cells with rfl | ⟨xs, ⟨l, v⟩, rfl⟩
      · rw [linkLast, hat.first.first_eq_none.mpr rfl]
        exact ⟨h, rfl, hat'.first, fun _ _ => rfl, .refl _ _⟩
      · rw [List.concat_eq_append] at *
        obtain ⟨f', hf'⟩ := Option.ne_none_iff_exists'.mp fun he => by
          have := hat.first.first_eq_none.mp he
          simp at this
        have hl : q.last = some l := by rw [hat.last, addrs_append]; simp
        have hlmem : l ∈ own (xs ++ [(l, v)]) idle := mem_own.mpr (.inl (by simp))
        obtain ⟨nl, hnl, -⟩ := hat.first.node
        obtain ⟨h', hset, hput⟩ := modify_put hnl fun n => { n with next := src.first }
        refine ⟨h', by simp [linkLast, hf', hl, setNext, hset], ?_, fun r hr => hput.other r fun he => hr ?_, ?_⟩
        · rw [if_neg (by simp [hf']), List.append_assoc]
          refine hat.first.splice hput hat'.first ?_ fun hm => hdis l hlmem (mem_own.mpr (.inl hm))
          have := hnd.1
          rw [addrs_append, List.nodup_append'] at this
          exact List.disjoint_right.mp this.2.2 (by simp)
        · rw [he]
          simp
        · exact .of_put hput (.inl hlmem)
    have hlast : src.last = (addrs (cells ++ cells')).getLast? := by
      rw [hat'.last, hcells', addrs_append, addrs_cons]
      simp [List.getLast?_append, List.getLast?_cons]
    have hchunks : vals (cells ++ cells') = cq.chunks ++ scq.chunks := by
      rw [← hat.chunks, ← hat'.chunks]
      exact List.map_append
    have hidle : IsList h' q.unused idle := hat.unused.frame fun r hr => hother r fun hm =>
      List.disjoint_left.mp hnd.2.2 hm hr
    have hidle' : IsList h' src.unused idle' := hat'.unused.frame fun r hr => hother r fun hm =>
      hdis r (mem_own.mpr (.inl hm)) (mem_own.mpr (.inr hr))
    have hnodup : (addrs (cells ++ cells' ++ idle)).Nodup := by
      rw [List.append_assoc, addrs_append, addrs_append, List.nodup_append', List.nodup_append']
      refine ⟨hnd.1, ⟨hnd'.1, hnd.2.1, ?_⟩, ?_⟩
      · exact fun r hm hm' => hdis r (mem_own.mpr (.inr hm')) (mem_own.mpr (.inl hm))
      · intro r hm hm'
        rcases List.mem_append.mp hm' with hm' | hm'
        · exact hdis r (mem_own.mpr (.inl hm)) (mem_own.mpr (.inl hm'))
        · exact List.disjoint_left.mp hnd.2.2 hm hm'
    have hsame := hat.same
    have hsame' := hat'.same
    rw [hne, if_neg Bool.false_ne_true]
    rw [hf] at hlink hlist
    simp only [hf, hlink, Option.bind_eq_bind, Option.bind_some]
    refine ⟨_, rfl, _, _, ⟨cells ++ cells', idle, ⟨hlist, hlast, hchunks, hidle, hat.count, hat.idleChunks, hnodup, ?_⟩,
      rfl⟩, ⟨[], idle', ⟨.nil, rfl, rfl, hidle', hat'.count, hat'.idleChunks, hnd'.2.1, ?_⟩, rfl⟩, ?_, ?_⟩
    · exact ⟨by rw [hsame.bytesIn, hsame'.bytesIn, hsame'.bytesOut], hsame.2, hsame.3, hsame.4, hsame.5⟩
    · exact ⟨hsame'.1, by rw [hsame'.bytesIn], hsame'.3, hsame'.4, hsame'.5⟩
    · rw [Set.disjoint_left]
      intro r hm hm'
      have hm' : r ∈ addrs idle' := (mem_own.mp hm').resolve_left (by simp)
      rcases mem_own.mp hm with hm | hm
      · rw [addrs_append, List.mem_append] at hm
        rcases hm with hm | hm
        · exact hdis r (mem_own.mpr (.inl hm)) (mem_own.mpr (.inr hm'))
        · exact List.disjoint_left.mp hnd'.2.2 hm hm'
      · exact hdis r (mem_own.mpr (.inr hm)) (mem_own.mpr (.inr hm'))
    · rw [← hcells']
      refine hstep.weaken (Set.Subset.refl _) fun r hm => ?_
      simp only [Set.mem_union, mem_own, addrs_append, List.mem_append, List.map_nil, List.not_mem_nil, false_or] at hm ⊢
      tauto

section Source

variable {src : LinkedQueue} {scq : Chunkqueue} {o' : Set Ptr} {c : Chunk} {cs : List Chunk} {p : Ptr} {n : Option Ptr}

theorem Rep.addOut (hr : Rep h q cq o) (use : Nat) :
    Rep h { q with bytesOut := q.bytesOut + use } { cq with bytesOut := cq.bytesOut + use } o :=
  hr.counters rfl rfl rfl rfl rfl rfl ⟨hr.same.1, by rw [hr.same.bytesOut], hr.same.3, hr.same.4, hr.same.5⟩

/-- The first chunk of `src` goes to the idle ones, beside another queue. -/
theorem Rep.popBeside (hs : Rep h src scq o') (hr : Rep h q cq o) (hd : Disjoint o o') (hcs : scq.chunks = c :: cs)
    (hf : src.first = some p) (hn : h.node p = some ⟨c, n⟩) :
    ∃ h' s' o₁, pushUnusedChunk h (src.dropFirst p n) p = some (h', s') ∧
      Rep h' s' (scq.dropFirst.pushUnusedChunk c) o₁ ∧ Rep h' q cq o ∧ Disjoint o o₁ ∧
      Step h (o ∪ o') h' (o ∪ o₁) := by
  obtain ⟨p', n', hf', hn', hpop⟩ := pop_rep hs hcs
  obtain rfl : p = p' := Option.some.inj (hf.symm.trans hf')
  obtain rfl : n = n' := congrArg Node.next (Option.some.inj (hn.symm.trans hn'))
  obtain ⟨h', s', o₁, heq, hr', hstep⟩ := hpop h c (.refl hn)
  obtain ⟨o₁, hs₁, hr₁, hd₁, hstep₁⟩ := Sim.beside (r := (h', s')) ⟨o₁, hr', hstep⟩ hr hd.symm
  rw [Set.union_comm o₁, Set.union_comm o'] at hstep₁
  exact ⟨h', s', o₁, heq, hs₁, hr₁, hd₁.symm, hstep₁⟩

/-- The first chunk of `src` moves to the end of `q`. -/
theorem appendFirst_rel (hr : Rep h q cq o) (hs : Rep h src scq o') (hd : Disjoint o o') (hcs : scq.chunks = c :: cs)
    (hf : src.first = some p) (hn : h.node p = some ⟨c, n⟩) :
    Option.Rel (fun r cq' => Sim2 h (o ∪ o') (r.1, r.2, src.dropFirst p n) (cq', scq.dropFirst)) (appendChunk h q p)
      (cq.appendChunk c) := by
  obtain ⟨p', n', hf', hn', hp, hdrop⟩ := hs.head hcs
  obtain rfl : p = p' := Option.some.inj (hf.symm.trans hf')
  obtain rfl : n = n' := congrArg Node.next (Option.some.inj (hn.symm.trans hn'))
  have hpo : p ∉ o := fun hm => Set.disjoint_left.mp hd hm hp
  have hd' : Disjoint (insert p o) ( o' \ {p}) := by
    rw [Set.disjoint_left] at hd ⊢
    rintro r (rfl | hm) hm'
    · exact hm'.2 rfl
    · exact hd hm hm'.1
  have hown : insert p o ∪ o' \ {p} = o ∪ o' := by
    ext r
    by_cases hrp : r = p <;> simp [hrp, hp]
  refine OptionRel.mono (appendChunk_rel hr hpo hn) fun r cq' hsim => ?_
  obtain ⟨o₁, hr₁, hs₁, hd₁, hstep⟩ := hsim.beside hdrop hd'
  rw [hown] at hstep
  exact ⟨o₁, o' \ {p}, hr₁, hs₁, hd₁, hstep⟩

/-- After an operation on `q`, a part of the first chunk of `src` is consumed. -/
theorem Sim.advanceBeside {r : ChunkHeap × LinkedQueue} {dcq : Chunkqueue} (hsim : Sim h o r dcq) (hs : Rep h src scq o')
    (hd : Disjoint o o') (hcs : scq.chunks = c :: cs) (hf : src.first = some p) (use : Nat) :
    ∃ h' o₁ o₂, setChunk r.1 p (·.advance use) = some h' ∧ Rep h' r.2 dcq o₁ ∧
      Rep h' src (scq.setFirst (c.advance use)) o₂ ∧ Disjoint o₁ o₂ ∧ Step h (o ∪ o') h' (o₁ ∪ o₂) := by
  obtain ⟨o₁, hr₁, hs₁, hd₁, hstep⟩ := hsim.beside hs hd
  obtain ⟨h', hset, hs₂, hstep₂⟩ := hs₁.setFirst hcs hf (·.advance use)
  obtain ⟨o₂, hs₃, hr₃, hd₃, hstep₃⟩ := Sim.beside (r := (h', src)) ⟨o', hs₂, hstep₂⟩ hr₁ hd₁.symm
  rw [Set.union_comm o', Set.union_comm o₂] at hstep₃
  exact ⟨h', o₁, o₂, hset, hr₃, hs₃, hd₃.symm, hstep.trans hstep₃⟩

/-- The loop of `chunkqueue_steal`. -/
theorem steal_go_rel {k len : Nat} (hr : Rep h q cq o) (hs : Rep h src scq o') (hd : Disjoint o o')
    (hcs : scq.chunks = cs) (hk : cs.length < k) :
    Option.Rel (Sim2 h (o ∪ o')) (steal.go k h q src len) (Chunkqueue.steal.go cs cq scq len) := by
  induction cs generalizing k h q cq o src scq o' len with
  | nil =>
    obtain ⟨k, rfl⟩ := Nat.exists_eq_succ_of_ne_zero (Nat.ne_of_gt hk)
    rw [steal.go, hs.first_none hcs]
    exact .some ⟨o, o', hr, hs, hd, .refl _ _⟩
  | cons c cs ih =>
    obtain ⟨k, rfl⟩ := Nat.exists_eq_succ_of_ne_zero (Nat.ne_of_gt (Nat.zero_lt_of_lt hk))
    have hk' := Nat.lt_of_succ_lt_succ hk
    obtain ⟨p, n, hf, hn, -, -⟩ := hs.head hcs
    simp only [steal.go, Chunkqueue.steal.go, hf, hn]
    refine OptionRel.ite (fun _ => .some ⟨o, o', hr, hs, hd, .refl _ _⟩) fun _ => ?_
    rw [Option.bind_eq_bind, Option.bind_some]
    apply OptionRel.bind (remainingLength_rel c)
    rintro clen _ ⟨rfl, -⟩
    refine OptionRel.ite (fun _ => ?_) fun _ => ?_
    · obtain ⟨h', s', o₁, heq, hs₁, hr₁, hd₁, hstep⟩ := hs.popBeside hr hd hcs hf hn
      simp only [heq, Option.bind_eq_bind, Option.bind_some]
      have hcs' : (scq.dropFirst.pushUnusedChunk c).chunks = cs := by simp [Chunkqueue.dropFirst, hcs]
      exact OptionRel.mono (ih hr₁ hs₁ hd₁ hcs' hk') fun _ _ => .of_step hstep
    · generalize (if len ≥ clen then clen else len) = use
      refine OptionRel.ite (fun _ => ?_) fun _ => ?_
      · apply OptionRel.bind (appendFirst_rel hr hs hd hcs hf hn)
        rintro ⟨h', d'⟩ dcq ⟨o₁, o₂, hr₁, hs₁, hd₁, hstep⟩
        have hcs' : scq.dropFirst.chunks = cs := by simp [Chunkqueue.dropFirst, hcs]
        exact OptionRel.mono (ih hr₁ (hs₁.addOut use) hd₁ hcs' hk') fun _ _ => .of_step hstep
      · apply OptionRel.bind (appendPart_rel hr c use)
        rintro ⟨h', d'⟩ dcq hsim
        obtain ⟨h'', o₁, o₂, hset, hr₁, hs₁, hd₁, hstep⟩ := hsim.advanceBeside hs hd hcs hf use
        have hs₂ := hs₁.addOut use
        rw [hf] at hs₂
        simp only [hset, Option.bind_eq_bind, Option.bind_some]
        exact .some ⟨o₁, o₂, hr₁, hs₂, hd₁, hstep⟩

end Source

theorem steal_rel {src : LinkedQueue} {scq : Chunkqueue} {o' : Set Ptr} (hr : Rep h q cq o) (hs : Rep h src scq o')
    (hd : Disjoint o o') (len : Nat) :
    Option.Rel (Sim2 h (o ∪ o')) (steal h q src len) (cq.steal scq len) :=
  steal_go_rel hr hs hd rfl (Nat.lt_succ_of_le hs.length_le)

end LinkedQueue
end Lighttpd
