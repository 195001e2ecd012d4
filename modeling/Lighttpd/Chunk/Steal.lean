import Lighttpd.Chunk.Tempfile

/-!
# Stealing from a queue

`chunkqueue_steal` and `chunkqueue_steal_with_tempfiles` are two loops over the chunks of `src`. Both move a prefix of
the content of `src` to the end of `dest`: `Stolen` is the effect of a part of either loop, and the two runs are put
together from it chunk by chunk. `steal_conserves` is the main result: the plain variant never fails an assertion and
moves exactly the first `len` bytes, and the variant with temp files agrees with it whenever it succeeds.
-/

namespace Lighttpd
namespace Chunkqueue

/-- **The effect of moving the first `n` bytes of `src` to the end of `dest`.** -/
structure Stolen (dest src d s : Chunkqueue) (n : Nat) : Prop where
  wf : d.WF
  total : d.total = dest.total + n
  bytesIn : d.bytesIn = dest.bytesIn + n
  bytesOut : d.bytesOut = dest.bytesOut
  drained : Drained src s n
  srcOut : s.bytesOut = src.bytesOut + n
  inFiles : ∀ w, dest.InFiles w → src.InFiles w → d.InFiles w
  content : ∀ w, dest.InFiles w → src.InFiles w → d.content w = dest.content w ++ (src.content w).take n

variable {dest src d s : Chunkqueue} {c e : Chunk} {cs : List Chunk} {n : Nat} {w : World}

theorem Stolen.refl (hd : dest.WF) (hs : src.WF) : Stolen dest src dest src 0 :=
  ⟨hd, rfl, (Int.add_zero _).symm, rfl, .refl hs, (Int.add_zero _).symm, fun _ h _ => h,
    fun _ _ _ => (List.append_nil _).symm⟩

theorem Stolen.trans {d' s' : Chunkqueue} {m : Nat} (h : Stolen dest src d s n)
    (h' : Stolen d s d' s' m) : Stolen dest src d' s' (n + m) where
  wf := h'.wf
  total := by rw [h'.total, h.total, Nat.add_assoc]
  bytesIn := by rw [h'.bytesIn, h.bytesIn, Int.natCast_add, Int.add_assoc]
  bytesOut := h'.bytesOut.trans h.bytesOut
  drained := h.drained.trans h'.drained
  srcOut := by rw [h'.srcOut, h.srcOut, Int.natCast_add, Int.add_assoc]
  inFiles := fun w hd hs => h'.inFiles w (h.inFiles w hd hs) (h.drained.inFiles w hs)
  content := fun w hd hs => by
    rw [h'.content w (h.inFiles w hd hs) (h.drained.inFiles w hs), h.content w hd hs, h.drained.content w hs,
      List.append_assoc, List.take_add]

/-- An empty chunk of `src` is dropped. -/
theorem stolen_empty (hd : dest.WF) (hs : src.WF) (hcs : src.chunks = c :: cs) (h0 : c.size - c.offset = 0) :
    Stolen dest src dest (src.dropFirst.pushUnusedChunk c) 0 := by
  have hp := pop_drained hs hcs c
  rw [h0] at hp
  exact ⟨hd, rfl, (Int.add_zero _).symm, rfl, hp, by simp [dropFirst], fun _ h _ => h,
    fun _ _ _ => (List.append_nil _).symm⟩

/-- The first chunk of `src` as a whole moves to the end of `dest`. -/
theorem stolen_whole (hd : dest.WF) (hs : src.WF) (hcs : src.chunks = c :: cs) (hp : Pushed dest d c) :
    Stolen dest src d { src.dropFirst with bytesOut := src.bytesOut + (c.size - c.offset : Nat) }
      (c.size - c.offset) where
  wf := hp.wf hd (hs.offset c (by simp [hcs]))
  total := hp.total
  bytesIn := hp.bytesIn
  bytesOut := hp.bytesOut
  drained := (dropFirst_drained hs hcs).congr rfl rfl rfl
  srcOut := rfl
  inFiles := fun w hdw hsw => hp.inFiles hdw (hsw c (by simp [hcs]))
  content := fun w hdw hsw => by
    have hl := Chunk.length_bytes (hsw c (by simp [hcs]))
    rw [hp.content, Chunkqueue.content, Chunkqueue.content, hcs, List.flatMap_cons, ← hl, List.take_left]

/-- A part of the first chunk of `src` is copied to the end of `dest`. -/
theorem stolen_part (hd : dest.WF) (hs : src.WF)
    (hcs : src.chunks = c :: cs) (hn : n ≤ c.size - c.offset) (hp : Pushed dest d e)
    (hoff : e.offset = 0) (hsize : e.size = n)
    (he : ∀ w, c.InFile w → e.InFile w ∧ e.bytes w = (c.bytes w).take n) :
    Stolen dest src d { src.setFirst (c.advance n) with bytesOut := src.bytesOut + n } n where
  wf := hp.wf hd (Chunk.offsetOk_of_offset_eq_zero hoff)
  total := by rw [hp.total, hsize, hoff, Nat.sub_zero]
  bytesIn := by rw [hp.bytesIn, hsize, hoff, Nat.sub_zero]
  bytesOut := hp.bytesOut
  drained := (setFirst_drained hs hcs hn).congr rfl rfl rfl
  srcOut := rfl
  inFiles := fun w hdw hsw => hp.inFiles hdw (he w (hsw c (by simp [hcs]))).1
  content := fun w hdw hsw => by
    have hc := hsw c (by simp [hcs])
    have hl := Chunk.length_bytes hc
    rw [hp.content, (he w hc).2, Chunkqueue.content, Chunkqueue.content, hcs, List.flatMap_cons,
      List.take_append_of_le_length (by rw [hl]; exact hn)]

/-- The chunk that holds the first `n` bytes of a memory chunk. -/
theorem part_mem (hc : c.type = .memChunk) (he : e.type = .memChunk)
    (hstr : e.mem.str = (c.mem.str.drop c.offset).take n) (hoff : e.offset = 0) (hn : n ≤ c.size - c.offset) :
    e.size = n ∧ ∀ w, c.InFile w → e.InFile w ∧ e.bytes w = (c.bytes w).take n := by
  rw [Chunk.size_mem hc] at hn
  refine ⟨?_, fun w _ => ⟨Chunk.inFile_mem he, ?_⟩⟩
  · rw [Chunk.size_mem he, hstr, List.length_take, List.length_drop]
    exact Nat.min_eq_left hn
  · rw [Chunk.bytes_mem hc, Chunk.bytes_mem he, hstr, hoff, List.drop_zero]

/-- The chunk that holds the first `n` bytes of a file chunk. -/
theorem part_file (hc : c.type = .fileChunk) (he : e.type = .fileChunk)
    (hfile : e.file = { Chunk.noFile with name := c.file.name, start := c.file.start + c.offset, length := n })
    (hoff : e.offset = 0) (hn : n ≤ c.size - c.offset) (hok : c.OffsetOk) :
    e.size = n ∧ ∀ w, c.InFile w → e.InFile w ∧ e.bytes w = (c.bytes w).take n := by
  rw [Chunk.OffsetOk, Chunk.size_file hc] at hok
  rw [Chunk.size_file hc] at hn
  refine ⟨by rw [Chunk.size_file he, hfile], fun w hin => ⟨fun _ => ?_, ?_⟩⟩
  · have := hin hc
    rw [hfile]
    simp only
    omega
  · rw [Chunk.bytes_file hc, Chunk.bytes_file he, hfile, hoff, List.drop_zero, List.drop_take, List.drop_drop,
      List.take_take, Nat.min_eq_left hn]

/-- The partial copy of `chunkqueue_steal`. -/
theorem appendPart_spec (hd : dest.WF) (hc : c.OffsetOk) (h0 : n ≠ 0) (hn : n ≤ c.size - c.offset) :
    ∃ e d, dest.appendPart c n = some d ∧ Pushed dest d e ∧ e.offset = 0 ∧ e.size = n ∧
      ∀ w, c.InFile w → e.InFile w ∧ e.bytes w = (c.bytes w).take n := by
  unfold appendPart
  cases ht : c.type with
  | memChunk =>
    have hne : (c.mem.str.drop c.offset).take n ≠ [] := by
      rw [Chunk.size_mem ht] at hn
      intro hnil
      have := congrArg List.length hnil
      simp only [List.length_take, List.length_drop, List.length_nil] at this
      omega
    obtain ⟨e, d, heq, hp, he, hstr, hoff⟩ := appendMem_spec hd hne
    obtain ⟨hsize, hb⟩ := part_mem ht he hstr hoff hn
    exact ⟨e, d, heq, hp, hoff, hsize, hb⟩
  | fileChunk =>
    obtain ⟨e, d, heq, hp, he, hfile, hoff⟩ := appendFile_spec hd c.file.name (c.file.start + c.offset) h0
    obtain ⟨hsize, hb⟩ := part_file ht he hfile hoff hn hc
    exact ⟨e, d, heq, hp, hoff, hsize, hb⟩

/-- The loop of `chunkqueue_steal`, by induction on the chunks of `src`. -/
theorem steal_go_spec (len : Nat) (hd : dest.WF) (hs : src.WF) (hcs : src.chunks = cs) :
    ∃ d s, steal.go cs dest src len = some (d, s) ∧ Stolen dest src d s (min len src.total) := by
  induction cs generalizing dest src len with
  | nil =>
    refine ⟨dest, src, rfl, ?_⟩
    rw [total, hcs, totalOf_nil, Nat.min_zero]
    exact .refl hd hs
  | cons c cs ih =>
    have hc := hs.offset c (by simp [hcs])
    have hrem := Chunk.remainingLength_eq hc
    have htot : src.total = c.size - c.offset + totalOf cs := by rw [total, hcs, totalOf_cons]
    by_cases hl : len = 0
    · subst hl
      rw [Nat.zero_min]
      exact ⟨dest, src, by simp [steal.go], .refl hd hs⟩
    · by_cases h0 : c.size - c.offset = 0
      · have hst := stolen_empty hd hs hcs h0
        obtain ⟨d, s, heq, hst'⟩ := ih len hd hst.drained.wf (by simp [dropFirst, hcs])
        refine ⟨d, s, by simp [steal.go, hl, hrem, h0, heq], ?_⟩
        have htot' := hst.drained.total
        have := hst.trans hst'
        rwa [Nat.zero_add, show total _ = src.total from htot'] at this
      · by_cases hge : len ≥ c.size - c.offset
        · obtain ⟨d, happ, hp⟩ := appendChunk_spec dest hc
          have hst := stolen_whole hd hs hcs hp
          obtain ⟨d', s', heq, hst'⟩ := ih (len - (c.size - c.offset)) hst.wf hst.drained.wf
            (by simp [dropFirst, hcs])
          refine ⟨d', s', ?_, ?_⟩
          · rw [steal.go, if_neg hl, hrem, Option.bind_eq_bind, Option.bind_some, if_neg h0, if_pos hge]
            rw [if_pos rfl, happ]
            exact heq
          have htot' := hst.drained.total
          have hlen : c.size - c.offset + min (len - (c.size - c.offset))
              (total { src.dropFirst with bytesOut := src.bytesOut + (c.size - c.offset : Nat) }) =
              min len src.total := by omega
          rw [← hlen]
          exact hst.trans hst'
        · obtain ⟨e, d, happ, hp, hoff, hsize, hb⟩ := appendPart_spec hd hc hl (n := len) (by omega)
          have hst := stolen_part hd hs hcs (n := len) (by omega) hp hoff hsize hb
          have hlen : min len src.total = len := by omega
          have hne : len ≠ c.size - c.offset := by omega
          rw [hlen]
          refine ⟨d, _, ?_, hst⟩
          rw [steal.go, if_neg hl, hrem, Option.bind_eq_bind, Option.bind_some, if_neg h0, if_neg hge]
          rw [if_neg hne, happ]
          rfl

/-- **`chunkqueue_steal` fails no assertion and moves the first `len` bytes.** -/
theorem steal_spec (hd : dest.WF) (hs : src.WF) (len : Nat) :
    ∃ d s, dest.steal src len = some (d, s) ∧ Stolen dest src d s (min len src.total) :=
  steal_go_spec len hd hs rfl

/-! ## The variant with temp files -/

/-- **The effect of moving the first `n` bytes of `src` with temp files**, in a world of files. -/
structure StolenTemp (dest src d s : Chunkqueue) (w w' : World) (n : Nat) : Prop where
  wf : d.WF
  total : d.total = dest.total + n
  bytesIn : d.bytesIn = dest.bytesIn + n
  bytesOut : d.bytesOut = dest.bytesOut
  srcWf : s.WF
  srcTotal : s.total + n = src.total
  srcIn : s.bytesIn = src.bytesIn
  srcOut : s.bytesOut = src.bytesOut + n
  coherent : ∀ rs, Coherent w (dest.chunks ++ (src.chunks ++ rs)) → Coherent w' (d.chunks ++ (s.chunks ++ rs))
  extends' : ∀ rs, Coherent w (dest.chunks ++ (src.chunks ++ rs)) → w.Extends w'
  content : ∀ rs, Coherent w (dest.chunks ++ (src.chunks ++ rs)) →
    d.content w' = dest.content w ++ (src.content w).take n ∧ s.content w' = (src.content w).drop n

theorem StolenTemp.trans {d' s' : Chunkqueue} {w' w'' : World} {m : Nat}
    (h : StolenTemp dest src d s w w' n) (h' : StolenTemp d s d' s' w' w'' m) :
    StolenTemp dest src d' s' w w'' (n + m) where
  wf := h'.wf
  total := by rw [h'.total, h.total, Nat.add_assoc]
  bytesIn := by rw [h'.bytesIn, h.bytesIn, Int.natCast_add, Int.add_assoc]
  bytesOut := h'.bytesOut.trans h.bytesOut
  srcWf := h'.srcWf
  srcTotal := by have := h.srcTotal; have := h'.srcTotal; omega
  srcIn := h'.srcIn.trans h.srcIn
  srcOut := by rw [h'.srcOut, h.srcOut, Int.natCast_add, Int.add_assoc]
  coherent := fun rs hc => h'.coherent rs (h.coherent rs hc)
  extends' := fun rs hc => (h.extends' rs hc).trans (h'.extends' rs (h.coherent rs hc))
  content := fun rs hc => by
    obtain ⟨hd, hs⟩ := h.content rs hc
    obtain ⟨hd', hs'⟩ := h'.content rs (h.coherent rs hc)
    refine ⟨?_, by rw [hs', hs, List.drop_drop]⟩
    rw [hd', hd, hs, List.append_assoc, List.take_add]

theorem Stolen.withTemp (h : Stolen dest src d s n) (w : World)
    (hcoh : ∀ rs, Coherent w (dest.chunks ++ (src.chunks ++ rs)) → Coherent w (d.chunks ++ (s.chunks ++ rs))) :
    StolenTemp dest src d s w w n where
  wf := h.wf
  total := h.total
  bytesIn := h.bytesIn
  bytesOut := h.bytesOut
  srcWf := h.drained.wf
  srcTotal := h.drained.total
  srcIn := h.drained.bytesIn
  srcOut := h.srcOut
  coherent := hcoh
  extends' := fun _ _ => .refl w
  content := fun rs hc => by
    have hd : dest.InFiles w := fun c hm => hc.inFile c (List.mem_append_left _ hm)
    have hs : src.InFiles w := fun c hm => hc.inFile c (List.mem_append_right _ (List.mem_append_left _ hm))
    exact ⟨h.content w hd hs, h.drained.content w hs⟩

theorem StolenTemp.refl (hd : dest.WF) (hs : src.WF) (w : World) : StolenTemp dest src dest src w w 0 :=
  (Stolen.refl hd hs).withTemp w fun _ => id

/-- The first `n` bytes of a memory chunk of `src` are written to a temp file, and consumed (`hdr`, with `s` for the
source queue afterwards). -/
theorem TempStep.stolen {w' : World} {data : Bytes}
    (h : TempStep dest d w w' data) (hdr : Drained src s n) (hout : s.bytesOut = src.bytesOut + n)
    (hcs : src.chunks = c :: cs) (hc : c.type = .memChunk) (hdata : data = (c.mem.str.drop c.offset).take n)
    (hn : n ≤ c.size - c.offset)
    (hcoh : ∀ rs, Coherent w' (d.chunks ++ (src.chunks ++ rs)) → Coherent w' (d.chunks ++ (s.chunks ++ rs))) :
    StolenTemp dest src d s w w' n := by
  have hn' : n ≤ c.mem.str.length - c.offset := by rwa [Chunk.size_mem hc] at hn
  have hlen : data.length = n := by
    rw [hdata, List.length_take, List.length_drop]
    exact Nat.min_eq_left hn'
  refine ⟨h.wf, by rw [h.total, hlen], by rw [h.bytesIn, hlen], h.bytesOut, hdr.wf, hdr.total, hdr.bytesIn, hout,
    fun rs hc' => hcoh rs (h.coherent _ hc'), fun rs hc' => h.extends' _ hc', fun rs hc' => ⟨?_, ?_⟩⟩
  · have hl : n ≤ (c.bytes w).length := by rw [Chunk.bytes_mem hc, List.length_drop]; exact hn'
    rw [h.content _ hc', hdata, Chunkqueue.content, Chunkqueue.content, hcs, List.flatMap_cons,
      List.take_append_of_le_length hl, Chunk.bytes_mem hc]
  · have hs : src.InFiles w := fun e hm => hc'.inFile e (List.mem_append_right _ (List.mem_append_left _ hm))
    have he := h.extends' _ hc'
    rw [hdr.content w' fun e hm => (hs e hm).extends he, Chunkqueue.content, flatMap_bytes_extends he hs]
    rfl

/-- A temp file from which a part is stolen keeps its descriptor, but cannot be appended to any more; the file chunk in
`dest` has none. -/
theorem coherent_part {ds rs : List Chunk}
    (h : Coherent w (ds ++ (c :: cs ++ rs))) (hn : n ≠ 0) (he : e.InFile w) (hfd : e.file.fd = none) :
    Coherent w (ds ++ [e] ++ (c.advance n :: cs ++ rs)) := by
  have h₁ : Coherent w (ds ++ c.advance n :: (cs ++ rs)) :=
    h.replace (h.inFile c (by simp)) (not_appendable_of_offset (by rw [Chunk.advance_offset]; omega))
  have h₂ := h₁.insert (c := e) he (not_appendable_fd hfd)
  simpa using h₂

/-- An empty chunk of `src` is dropped. -/
theorem stolenTemp_empty (hd : dest.WF) (hs : src.WF)
    (hcs : src.chunks = c :: cs) (h0 : c.size - c.offset = 0) (w : World) :
    StolenTemp dest src dest (src.dropFirst.pushUnusedChunk c) w w 0 :=
  (stolen_empty hd hs hcs h0).withTemp w fun rs hcoh => by
    refine hcoh.sublist ((List.Sublist.refl _).append (List.Sublist.append ?_ (List.Sublist.refl rs)))
    rw [pushUnusedChunk_chunks]
    exact List.tail_sublist _

/-- A file chunk of `src` moves to `dest` as it is. -/
theorem stolenTemp_whole (hd : dest.WF) (hs : src.WF)
    (hcs : src.chunks = c :: cs) (hp : Pushed dest d c) (w : World) :
    StolenTemp dest src d { src.dropFirst with bytesOut := src.bytesOut + (c.size - c.offset : Nat) } w w
      (c.size - c.offset) :=
  (stolen_whole hd hs hcs hp).withTemp w fun rs hcoh => by
    have heq : d.chunks ++ (src.dropFirst.chunks ++ rs) = dest.chunks ++ (src.chunks ++ rs) := by
      simp [hp.chunks, dropFirst, hcs]
    exact heq ▸ hcoh

/-- A memory chunk of `src` has been written to a temp file. -/
theorem TempStep.stolen_whole {w' : World} {data : Bytes}
    (h : TempStep dest d w w' data) (hs : src.WF) (hcs : src.chunks = c :: cs) (hc : c.type = .memChunk)
    (hdata : data = (c.mem.str.drop c.offset).take (c.size - c.offset)) :
    StolenTemp dest src d
      { src.dropFirst.pushUnusedChunk c with bytesOut := src.bytesOut + (c.size - c.offset : Nat) } w w'
      (c.size - c.offset) := by
  refine h.stolen ((pop_drained hs hcs c).congr rfl rfl rfl) rfl hcs hc hdata (Nat.le_refl _) fun rs hcoh => ?_
  refine hcoh.sublist ((List.Sublist.refl _).append (List.Sublist.append ?_ (List.Sublist.refl rs)))
  simp only [pushUnusedChunk_chunks]
  exact List.tail_sublist _

/-- The loop of `chunkqueue_steal_with_tempfiles`: a failed call has still moved some prefix, and has written a part of
the next chunk as well. -/
theorem stealWithTempfiles_go_spec {len : Nat}
    {ios ios' : List Attempt} {r : TempResult} (hd : dest.WF) (hs : src.WF) (hcs : src.chunks = cs)
    (h : stealWithTempfiles.go cs dest src len w ios = some (r, s, ios')) :
    (r.ok = true → StolenTemp dest src r.cq s w r.world (min len src.total)) ∧
      ∃ d w' data n, StolenTemp dest src d s w w' n ∧ TempStep d r.cq w' r.world data := by
  induction cs generalizing dest src len w ios with
  | nil =>
    obtain ⟨rfl, hq⟩ := Prod.mk.inj (Option.some.inj h)
    obtain ⟨rfl, -⟩ := Prod.mk.inj hq
    refine ⟨fun _ => ?_, dest, w, [], 0, .refl hd hs w, .refl hd w⟩
    rw [total, hcs, totalOf_nil, Nat.min_zero]
    exact .refl hd hs w
  | cons c cs ih =>
    have hc := hs.offset c (by simp [hcs])
    have hrem := Chunk.remainingLength_eq hc
    have htot : src.total = c.size - c.offset + totalOf cs := by rw [total, hcs, totalOf_cons]
    unfold stealWithTempfiles.go at h
    by_cases hl : len = 0
    · subst hl
      rw [if_pos rfl] at h
      obtain ⟨rfl, hq⟩ := Prod.mk.inj (Option.some.inj h)
      obtain ⟨rfl, -⟩ := Prod.mk.inj hq
      rw [Nat.zero_min]
      exact ⟨fun _ => .refl hd hs w, dest, w, [], 0, .refl hd hs w, .refl hd w⟩
    · rw [if_neg hl, hrem, Option.bind_eq_bind, Option.bind_some] at h
      -- one more part of the loop in front of what the induction hypothesis gives
      have hcons : ∀ {d₁ s₁ : Chunkqueue} {w₁ : World} {n : Nat} {ios₁ : List Attempt},
          StolenTemp dest src d₁ s₁ w w₁ n → s₁.chunks = cs → n ≤ len →
          stealWithTempfiles.go cs d₁ s₁ (len - n) w₁ ios₁ = some (r, s, ios') →
          (r.ok = true → StolenTemp dest src r.cq s w r.world (min len src.total)) ∧
            ∃ d w' data n, StolenTemp dest src d s w w' n ∧ TempStep d r.cq w' r.world data := by
        intro d₁ s₁ w₁ n ios₁ hst hcs₁ hn hrest
        obtain ⟨hok, d, w', data, m, hst', hstep⟩ := ih hst.wf hst.srcWf hcs₁ hrest
        refine ⟨fun ht => ?_, d, w', data, n + m, hst.trans hst', hstep⟩
        have hlen : n + min (len - n) s₁.total = min len src.total := by
          have := hst.srcTotal
          omega
        rw [← hlen]
        exact hst.trans (hok ht)
      by_cases h0 : c.size - c.offset = 0
      · rw [if_pos h0] at h
        exact hcons (stolenTemp_empty hd hs hcs h0 w) (by simp [dropFirst, hcs]) (Nat.zero_le _) h
      · rw [if_neg h0] at h
        cases ht : c.type with
        | fileChunk =>
          simp only [ht] at h
          by_cases hge : len ≥ c.size - c.offset
          · simp only [if_pos hge, if_true] at h
            obtain ⟨d, happ, hp⟩ := appendChunk_spec dest hc
            rw [happ, Option.bind_eq_bind, Option.bind_some] at h
            exact hcons (stolenTemp_whole hd hs hcs hp w) (by simp [dropFirst, hcs]) hge h
          · have hne : len ≠ c.size - c.offset := by omega
            have hle : len ≤ c.size - c.offset := by omega
            simp only [if_neg hge, if_neg hne] at h
            obtain ⟨e, d, happ, hp, he, hfile, hoff⟩ := appendFile_spec hd c.file.name (c.file.start + c.offset) hl
            obtain ⟨hsize, hb⟩ := part_file ht he hfile hoff hle hc
            rw [happ, Option.bind_eq_bind, Option.bind_some] at h
            obtain ⟨rfl, hq⟩ := Prod.mk.inj (Option.some.inj h)
            obtain ⟨rfl, -⟩ := Prod.mk.inj hq
            have hst := (stolen_part hd hs hcs hle hp hoff hsize hb).withTemp w fun rs hcoh => by
              rw [hcs] at hcoh
              have hin := (hb w (hcoh.inFile c (by simp))).1
              have := coherent_part hcoh hl hin (by rw [hfile]; rfl)
              simpa [hp.chunks, setFirst, hcs] using this
            have hlen : min len src.total = len := by omega
            exact ⟨fun _ => hlen.symm ▸ hst, d, w, [], len, hst, .refl hst.wf w⟩
        | memChunk =>
          simp only [ht] at h
          obtain ⟨⟨r₁, ios₁⟩, happ, h⟩ := Option.bind_eq_some_iff.mp h
          obtain ⟨data, -, hok, hstep⟩ := appendMemToTempfile_spec hd happ
          by_cases hr : r₁.ok = true
          · simp only [hr, Bool.not_true, Bool.false_eq_true, if_false] at h
            have hdata := hok hr
            by_cases hge : len ≥ c.size - c.offset
            · simp only [if_pos hge, if_true] at h hdata
              exact hcons (hstep.stolen_whole hs hcs ht hdata) (by simp [dropFirst, hcs]) hge h
            · have hne : len ≠ c.size - c.offset := by omega
              have hle : len ≤ c.size - c.offset := by omega
              simp only [if_neg hge, if_neg hne] at h hdata
              obtain ⟨rfl, hq⟩ := Prod.mk.inj (Option.some.inj h)
              obtain ⟨rfl, -⟩ := Prod.mk.inj hq
              have hst := hstep.stolen (s := { src.setFirst (c.advance len) with
                bytesOut := src.bytesOut + len })
                ((setFirst_drained hs hcs hle).congr rfl rfl rfl) rfl hcs ht hdata hle fun rs hcoh => by
                  rw [hcs, List.cons_append] at hcoh
                  have := hcoh.replace (d := c.advance len) (Chunk.inFile_mem ht)
                    (not_appendable_mem ht)
                  simpa [setFirst, hcs] using this
              have hlen : min len src.total = len := by omega
              exact ⟨fun _ => hlen.symm ▸ hst, r₁.cq, r₁.world, [], len, hst, .refl hst.wf _⟩
          · simp only [Bool.not_eq_true] at hr
            simp only [hr, Bool.not_false, if_true] at h
            obtain ⟨rfl, hq⟩ := Prod.mk.inj (Option.some.inj h)
            obtain ⟨rfl, -⟩ := Prod.mk.inj hq
            refine ⟨fun ht' => ?_, dest, w, data, 0, .refl hd hs w, hstep⟩
            rw [hr] at ht'
            cases ht'

/-- **`chunkqueue_steal_with_tempfiles` for every sequence of results of its system calls.** -/
theorem stealWithTempfiles_spec {len : Nat} {ios ios' : List Attempt}
    {r : TempResult} (hd : dest.WF) (hs : src.WF) (h : stealWithTempfiles dest src len w ios = some (r, s, ios')) :
    (r.ok = true → StolenTemp dest src r.cq s w r.world (min len src.total)) ∧
      ∃ d w' data n, StolenTemp dest src d s w w' n ∧ TempStep d r.cq w' r.world data :=
  stealWithTempfiles_go_spec hd hs rfl h

/-! ## The two variants agree -/

/-- **Stealing conserves content, and the two variants agree.** The plain variant returns, moves exactly the first
`len` bytes of `src` to the end of `dest` and leaves the rest; whatever the system calls of the variant with temp files
return, it has the same contents in both queues when it succeeds. -/
theorem steal_conserves (dest src : Chunkqueue) (w : World) (len : Nat) (hd : dest.WF) (hs : src.WF)
    (hc : Coherent w (dest.chunks ++ src.chunks)) :
    ∃ d s, dest.steal src len = some (d, s) ∧ d.content w = dest.content w ++ (src.content w).take len ∧
      s.content w = (src.content w).drop len ∧
      ∀ ios r s' ios', stealWithTempfiles dest src len w ios = some (r, s', ios') → r.ok = true →
        r.cq.content r.world = d.content w ∧ s'.content r.world = s.content w := by
  have hdw : dest.InFiles w := fun c hm => hc.inFile c (List.mem_append_left _ hm)
  have hsw : src.InFiles w := fun c hm => hc.inFile c (List.mem_append_right _ hm)
  obtain ⟨d, s, heq, hst⟩ := steal_spec hd hs len
  have htake : (src.content w).take (min len src.total) = (src.content w).take len := by
    rw [← length_content hsw, ← List.take_eq_take_min]
  have hdrop : (src.content w).drop (min len src.total) = (src.content w).drop len := by
    rw [← length_content hsw]
    exact List.drop_eq_drop_min.symm
  have hdc : d.content w = dest.content w ++ (src.content w).take len := by rw [hst.content w hdw hsw, htake]
  have hsc : s.content w = (src.content w).drop len := by rw [hst.drained.content w hsw, hdrop]
  refine ⟨d, s, heq, hdc, hsc, fun ios r s' ios' h hok => ?_⟩
  have hst' := (stealWithTempfiles_spec hd hs h).1 hok
  have hc' : Coherent w (dest.chunks ++ (src.chunks ++ [])) := by rwa [List.append_nil]
  obtain ⟨hrd, hrs⟩ := hst'.content [] hc'
  exact ⟨by rw [hrd, hdc, htake], by rw [hrs, hsc, hdrop]⟩

/-! ### A run of both variants

The first memory chunk and a part of the file chunk move; `dest` ends with an open temp file of one byte. -/

def sampleWorld : World where
  files := fun p => if p = ascii "a" then some [1, 2, 3, 4, 5] else if p = ascii "t" then some [9] else none
  fdpos := fun fd => if fd = 7 then some 1 else none

def sampleTemp : Chunk := ⟨.fileChunk, .init, ⟨ascii "t", 0, 1, some 7, ⟨false, 0, 0⟩, true⟩, 0⟩

def sampleDest : Chunkqueue := ⟨[sampleTemp], [], 1, 0, none, 1024, 0⟩

def sampleSrc : Chunkqueue :=
  ⟨[⟨.memChunk, .ofString [10, 11, 12], Chunk.noFile, 1⟩,
    ⟨.fileChunk, .init, ⟨ascii "a", 1, 3, none, ⟨false, 0, 0⟩, false⟩, 0⟩], [], 6, 1, none, 1024, 0⟩

theorem sample_coherent : Coherent sampleWorld (sampleDest.chunks ++ sampleSrc.chunks) := by
  refine ⟨fun c hc => ?_, fun c hc ha => ?_, by decide, by decide⟩
  · simp only [sampleDest, sampleSrc, List.cons_append, List.nil_append, List.mem_cons, List.not_mem_nil,
      or_false] at hc
    rcases hc with rfl | rfl | rfl
    · intro _; decide
    · exact Chunk.inFile_mem rfl
    · intro _; decide
  · simp only [sampleDest, sampleSrc, List.cons_append, List.nil_append, List.mem_cons, List.not_mem_nil,
      or_false] at hc
    rcases hc with rfl | rfl | rfl
    · exact ⟨rfl, ⟨[9], rfl, rfl⟩, 7, rfl, rfl⟩
    · exact absurd ha (by decide)
    · exact absurd ha (by decide)

theorem steal_conserves_sample : ∃ d s, sampleDest.steal sampleSrc 4 = some (d, s) ∧
    d.content sampleWorld = sampleDest.content sampleWorld ++ (sampleSrc.content sampleWorld).take 4 ∧
    s.content sampleWorld = (sampleSrc.content sampleWorld).drop 4 ∧
    ∀ ios r s' ios', stealWithTempfiles sampleDest sampleSrc 4 sampleWorld ios = some (r, s', ios') → r.ok = true →
      r.cq.content r.world = d.content sampleWorld ∧ s'.content r.world = s.content sampleWorld :=
  steal_conserves sampleDest sampleSrc sampleWorld 4 ⟨by decide, nofun⟩ ⟨by decide, nofun⟩ sample_coherent

end Chunkqueue
end Lighttpd
