import Lighttpd.Chunk.Content
import Mathlib.Data.List.Nodup

/-!
# Temp files

`Coherent w cs` is what the operations on temp files rely on: the ranges of the chunks `cs` lie in their files, the
descriptor of a temp file that can be appended to stands at its end, and no two such chunks share a file or a
descriptor. `TempStep` is the effect of a function that writes temp files: it puts bytes at the end of its queue and
keeps the bytes of every other chunk. `appendMemToTempfile_spec` shows that `chunkqueue_append_mem_to_tempfile` is
such a step for every sequence of results of its system calls.
-/

namespace Lighttpd

/-! ## Files that grow -/

/-- The files of `w'` are those of `w`, perhaps with more at their ends. -/
def World.Extends (w w' : World) : Prop := ∀ name, w.content name <+: w'.content name

theorem World.Extends.refl (w : World) : w.Extends w := fun _ => List.prefix_refl _

theorem World.Extends.trans {w₁ w₂ w₃ : World} (h : w₁.Extends w₂) (h' : w₂.Extends w₃) : w₁.Extends w₃ :=
  fun name => (h name).trans (h' name)

theorem World.create_content (w : World) {name : Path} (h : w.files name = none) (fd : Fd) (p : Path) :
    (w.create name fd).content p = w.content p := by
  by_cases hp : p = name
  · subst hp
    simp [World.content, World.create, h]
  · simp [World.content, World.create, hp]

theorem World.create_extends (w : World) {name : Path} (h : w.files name = none) (fd : Fd) :
    w.Extends (w.create name fd) := fun p => by
  have hcontent : (w.create name fd).content p = w.content p := World.create_content w h fd p
  exact hcontent ▸ List.prefix_refl _

theorem writeAt_end (old data : Bytes) : writeAt old old.length data = old ++ data := by
  simp [writeAt]

theorem World.write_content {w : World} {name : Path} {fd : Fd} (h : w.fdpos fd = some (w.content name).length)
    (data : Bytes) (p : Path) :
    (w.write name fd data).content p = if p = name then w.content name ++ data else w.content p := by
  by_cases hp : p = name
  · subst hp
    rw [if_pos rfl, ← writeAt_end]
    simp [World.content, World.write, h]
  · simp [World.content, World.write, hp]

theorem World.write_extends {w : World} {name : Path} {fd : Fd} (h : w.fdpos fd = some (w.content name).length)
    (data : Bytes) : w.Extends (w.write name fd data) := fun p => by
  rw [World.write_content h]
  split
  · rename_i hp
    exact hp ▸ List.prefix_append _ _
  · exact List.prefix_refl _

namespace Chunk

variable {w w' : World} {c : Chunk}

theorem InFile.extends (h : c.InFile w) (he : w.Extends w') : c.InFile w' := fun ht =>
  Nat.le_trans (h ht) (he c.file.name).length_le

theorem bytes_extends (h : c.InFile w) (he : w.Extends w') : c.bytes w' = c.bytes w := by
  cases ht : c.type with
  | memChunk => rw [bytes_mem ht, bytes_mem ht]
  | fileChunk =>
    obtain ⟨t, ht'⟩ := he c.file.name
    have hlen := h ht
    have hs : c.file.start ≤ (w.content c.file.name).length := by omega
    have hd : c.file.length ≤ ((w.content c.file.name).drop c.file.start).length := by
      rw [List.length_drop]
      omega
    rw [bytes_file ht, bytes_file ht, ← ht', List.drop_append_of_le_length hs, List.take_append_of_le_length hd]

end Chunk

namespace Chunkqueue

variable {w w' : World} {c : Chunk} {cq cq' : Chunkqueue} {cs ds : List Chunk}

theorem flatMap_bytes_extends (he : w.Extends w') : ∀ {cs : List Chunk}, (∀ c ∈ cs, c.InFile w) →
    cs.flatMap (Chunk.bytes w') = cs.flatMap (Chunk.bytes w)
  | [], _ => rfl
  | c :: cs, h => by
    have ih : cs.flatMap (Chunk.bytes w') = cs.flatMap (Chunk.bytes w) :=
      flatMap_bytes_extends he fun d hd => h d (List.mem_cons_of_mem c hd)
    rw [List.flatMap_cons, List.flatMap_cons, ih, Chunk.bytes_extends (h c List.mem_cons_self) he]

/-! ## Coherent temp files -/

/-- The file of `c` holds exactly what was written to it, and its descriptor stands at the end. -/
structure TempFile (w : World) (c : Chunk) : Prop where
  start : c.file.start = 0
  file : ∃ bs, w.files c.file.name = some bs ∧ bs.length = c.file.length
  pos : ∃ fd, c.file.fd = some fd ∧ w.fdpos fd = some c.file.length

/-- **What the chunks of all queues must agree on** so that appending to a temp file changes none of the others. -/
structure Coherent (w : World) (cs : List Chunk) : Prop where
  inFile : ∀ c ∈ cs, c.InFile w
  temp : ∀ c ∈ cs, Appendable c → TempFile w c
  names : ((cs.filter fun c => Appendable c).map fun c => c.file.name).Nodup
  fds : ((cs.filter fun c => Appendable c).map fun c => c.file.fd).Nodup

theorem TempFile.content_length (h : TempFile w c) : (w.content c.file.name).length = c.file.length := by
  obtain ⟨bs, hbs, hlen⟩ := h.file
  simp [World.content, hbs, hlen]

theorem Coherent.nil (w : World) : Coherent w [] where
  inFile := by simp
  temp := by simp
  names := List.nodup_nil
  fds := List.nodup_nil

theorem Coherent.sublist (h : Coherent w cs) (hs : ds.Sublist cs) : Coherent w ds where
  inFile := fun c hc => h.inFile c (hs.subset hc)
  temp := fun c hc => h.temp c (hs.subset hc)
  names := h.names.sublist ((hs.filter _).map _)
  fds := h.fds.sublist ((hs.filter _).map _)

/-- The chunk `c` in the middle differs in `f` from the other chunks that can be appended to. -/
theorem nodup_appendable_middle {β : Type} (f : Chunk → β) (cs ds : List Chunk) (hc : Appendable c) :
    (((cs ++ c :: ds).filter fun c => Appendable c).map f).Nodup ↔
      (∀ d ∈ cs ++ ds, Appendable d → f d ≠ f c) ∧ (((cs ++ ds).filter fun c => Appendable c).map f).Nodup := by
  rw [List.filter_append, List.filter_cons_of_pos (by simpa using hc), List.map_append, List.map_cons,
    List.nodup_middle, ← List.map_append, ← List.filter_append, List.nodup_cons]
  refine and_congr_left fun _ => ⟨fun h d hd hda he => h ?_, fun h hm => ?_⟩
  · exact List.mem_map.mpr ⟨d, List.mem_filter.mpr ⟨hd, by simpa using hda⟩, he⟩
  · obtain ⟨d, hd, he⟩ := List.mem_map.mp hm
    obtain ⟨hd, hda⟩ := List.mem_filter.mp hd
    exact h d hd (by simpa using hda) he

/-- A chunk that cannot be appended to may stand in place of any other, or of none. -/
theorem Coherent.insert (h : Coherent w (cs ++ ds)) (hc : c.InFile w)
    (ha : ¬ Appendable c) : Coherent w (cs ++ c :: ds) where
  inFile := fun d hd => by
    rcases List.mem_append.mp hd with hd | hd
    · exact h.inFile d (List.mem_append_left _ hd)
    · rcases List.mem_cons.mp hd with rfl | hd
      · exact hc
      · exact h.inFile d (List.mem_append_right _ hd)
  temp := fun d hd hda => by
    rcases List.mem_append.mp hd with hd | hd
    · exact h.temp d (List.mem_append_left _ hd) hda
    · rcases List.mem_cons.mp hd with rfl | hd
      · exact absurd hda ha
      · exact h.temp d (List.mem_append_right _ hd) hda
  names := by simpa [List.filter_cons, ha] using h.names
  fds := by simpa [List.filter_cons, ha] using h.fds

theorem Coherent.replace {d : Chunk} (h : Coherent w (cs ++ c :: ds))
    (hd : d.InFile w) (ha : ¬ Appendable d) : Coherent w (cs ++ d :: ds) :=
  (h.sublist ((List.Sublist.refl cs).append (List.sublist_cons_self c ds))).insert hd ha

theorem not_appendable_of_offset (h : c.offset ≠ 0) : ¬ Appendable c := fun ha => h ha.2.2.2

theorem not_appendable_mem (h : c.type = .memChunk) : ¬ Appendable c := fun ha => by
  rw [ha.1] at h
  cases h

theorem not_appendable_fd (h : c.file.fd = none) : ¬ Appendable c := fun ha => by
  have := ha.2.2.1
  rw [h] at this
  cases this

/-- **A new temp file is coherent with the chunks there are.** -/
theorem Coherent.create {name : Path} {fd : Fd}
    (h : Coherent w (cs ++ ds)) (hname : w.files name = none) (hfd : w.fdpos fd = none) (hc : Appendable c)
    (hfile : c.file.name = name ∧ c.file.fd = some fd ∧ c.file.start = 0 ∧ c.file.length = 0) :
    Coherent (w.create name fd) (cs ++ c :: ds) := by
  obtain ⟨hn, hf, hs, hl⟩ := hfile
  have hother : ∀ d ∈ cs ++ ds, Appendable d → d.file.name ≠ name ∧ d.file.fd ≠ some fd := by
    intro d hd hda
    obtain ⟨-, ⟨bs, hbs, -⟩, fd', hfd', hpos⟩ := h.temp d hd hda
    refine ⟨fun he => ?_, fun he => ?_⟩
    · rw [he, hname] at hbs; cases hbs
    · rw [hfd'] at he
      rw [Option.some.inj he, hfd] at hpos
      cases hpos
  have hmem : ∀ d ∈ cs ++ c :: ds, d = c ∨ d ∈ cs ++ ds := by
    intro d hd
    simp only [List.mem_append, List.mem_cons] at hd ⊢
    tauto
  refine ⟨fun d hd => ?_, fun d hd hda => ?_, ?_, ?_⟩
  · rcases hmem d hd with rfl | hd
    · intro _
      rw [hs, hl]
      exact Nat.zero_le _
    · exact (h.inFile d hd).extends (w.create_extends hname fd)
  · rcases hmem d hd with rfl | hd
    · refine ⟨hs, ⟨[], ?_, hl.symm⟩, fd, hf, ?_⟩
      · simp [World.create, hn]
      · simp [World.create, hl]
    · obtain ⟨hne, hnf⟩ := hother d hd hda
      obtain ⟨hs', ⟨bs, hbs, hlen⟩, fd', hfd', hpos⟩ := h.temp d hd hda
      have hnf' : fd' ≠ fd := fun he => hnf (by rw [hfd', he])
      exact ⟨hs', ⟨bs, by simp [World.create, hne, hbs], hlen⟩, fd', hfd', by simp [World.create, hnf', hpos]⟩
  · refine (nodup_appendable_middle (fun c => c.file.name) cs ds hc).mpr ⟨fun d hd hda => ?_, h.names⟩
    rw [hn]
    exact (hother d hd hda).1
  · refine (nodup_appendable_middle (fun c => c.file.fd) cs ds hc).mpr ⟨fun d hd hda => ?_, h.fds⟩
    rw [hf]
    exact (hother d hd hda).2

/-- **Writing to a temp file keeps the chunks coherent.** -/
theorem Coherent.write {fd : Fd} (h : Coherent w (cs ++ c :: ds))
    (hc : Appendable c) (hfd : c.file.fd = some fd) (data : Bytes) :
    Coherent (w.write c.file.name fd data)
      (cs ++ { c with file := { c.file with length := c.file.length + data.length } } :: ds) := by
  obtain ⟨c', hc'⟩ : ∃ c', c' = { c with file := { c.file with length := c.file.length + data.length } } := ⟨_, rfl⟩
  have hca : Appendable c' := by rw [hc']; exact hc
  have htemp := h.temp c (by simp) hc
  have hlen := htemp.content_length
  obtain ⟨hs, ⟨bs, hbs, hbl⟩, fd', hfd', hpos⟩ := htemp
  obtain rfl : fd = fd' := Option.some.inj (hfd.symm.trans hfd')
  rw [← hlen] at hpos
  have hnames := (nodup_appendable_middle (fun c => c.file.name) cs ds hc).mp h.names
  have hfds := (nodup_appendable_middle (fun c => c.file.fd) cs ds hc).mp h.fds
  have hmem : ∀ d ∈ cs ++ c' :: ds, d = c' ∨ d ∈ cs ++ ds := by
    intro d hd
    simp only [List.mem_append, List.mem_cons] at hd ⊢
    tauto
  have hold : ∀ d ∈ cs ++ ds, d ∈ cs ++ c :: ds := by
    intro d hd
    simp only [List.mem_append, List.mem_cons] at hd ⊢
    tauto
  have hcont := World.write_content hpos data
  rw [← hc']
  refine ⟨fun d hd => ?_, fun d hd hda => ?_, ?_, ?_⟩
  · rcases hmem d hd with rfl | hd
    · intro _
      rw [hc', hcont, if_pos rfl, List.length_append]
      simp only
      omega
    · exact (h.inFile d (hold d hd)).extends (World.write_extends hpos data)
  · rcases hmem d hd with rfl | hd
    · refine ⟨by rw [hc']; exact hs, ⟨bs ++ data, ?_, ?_⟩, fd, by rw [hc']; exact hfd, ?_⟩
      · have hb : w.content c.file.name = bs := by simp [World.content, hbs]
        have hw : writeAt (w.content c.file.name) ((w.fdpos fd).getD 0) data = bs ++ data := by
          rw [hpos, Option.getD_some, writeAt_end, hb]
        simp [World.write, hc', hw]
      · rw [hc', List.length_append, hbl]
      · simp [World.write, hc', hpos, hlen]
    · have hne := hnames.1 d hd hda
      have hnf := hfds.1 d hd hda
      obtain ⟨hs', ⟨bs', hbs', hlen'⟩, fd', hfd', hpos'⟩ := h.temp d (hold d hd) hda
      have hnf' : fd' ≠ fd := fun he => hnf (by rw [hfd', hfd, he])
      exact ⟨hs', ⟨bs', by simp [World.write, hne, hbs'], hlen'⟩, fd', hfd', by simp [World.write, hnf', hpos']⟩
  · apply (nodup_appendable_middle (fun c => c.file.name) cs ds hca).mpr
    rw [hc']
    exact hnames
  · apply (nodup_appendable_middle (fun c => c.file.fd) cs ds hca).mpr
    rw [hc']
    exact hfds

/-! ## One step of writing temp files -/

/-- **The effect of writing `data` to temp files at the end of the queue**: with whatever chunks `rs` of other queues
the chunks were coherent, they stay so, and the bytes of `rs` stay the same. -/
structure TempStep (cq cq' : Chunkqueue) (w w' : World) (data : Bytes) : Prop where
  wf : cq'.WF
  total : cq'.total = cq.total + data.length
  bytesIn : cq'.bytesIn = cq.bytesIn + data.length
  bytesOut : cq'.bytesOut = cq.bytesOut
  extends' : ∀ rs, Coherent w (cq.chunks ++ rs) → w.Extends w'
  coherent : ∀ rs, Coherent w (cq.chunks ++ rs) → Coherent w' (cq'.chunks ++ rs)
  content : ∀ rs, Coherent w (cq.chunks ++ rs) → cq'.content w' = cq.content w ++ data

theorem TempStep.trans {cq'' : Chunkqueue} {w'' : World} {data data' : Bytes}
    (h : TempStep cq cq' w w' data) (h' : TempStep cq' cq'' w' w'' data') :
    TempStep cq cq'' w w'' (data ++ data') where
  wf := h'.wf
  total := by rw [h'.total, h.total, List.length_append, Nat.add_assoc]
  bytesIn := by rw [h'.bytesIn, h.bytesIn, List.length_append, Int.natCast_add, Int.add_assoc]
  bytesOut := h'.bytesOut.trans h.bytesOut
  extends' := fun rs hc => (h.extends' rs hc).trans (h'.extends' rs (h.coherent rs hc))
  coherent := fun rs hc => h'.coherent rs (h.coherent rs hc)
  content := fun rs hc => by rw [h'.content rs (h.coherent rs hc), h.content rs hc, List.append_assoc]

/-- Chunks may leave the queue, or change without changing their bytes, when no file changes. -/
theorem TempStep.of_same (w : World) (hwf : cq'.WF) (htot : cq'.total = cq.total)
    (hin : cq'.bytesIn = cq.bytesIn) (hout : cq'.bytesOut = cq.bytesOut)
    (hcoh : ∀ rs, Coherent w (cq.chunks ++ rs) → Coherent w (cq'.chunks ++ rs))
    (hcont : cq'.content w = cq.content w) : TempStep cq cq' w w [] where
  wf := hwf
  total := htot
  bytesIn := hin.trans (Int.add_zero _).symm
  bytesOut := hout
  extends' := fun _ _ => .refl w
  coherent := hcoh
  content := fun _ _ => hcont.trans (List.append_nil _).symm

theorem TempStep.refl (h : cq.WF) (w : World) : TempStep cq cq w w [] :=
  .of_same w h rfl rfl rfl (fun _ => id) rfl

theorem TempStep.congr {cq'' : Chunkqueue} {data : Bytes} (h : TempStep cq cq' w w' data)
    (hc : cq''.chunks = cq'.chunks) (hu : cq''.unused = cq'.unused) (hin : cq''.bytesIn = cq'.bytesIn)
    (hout : cq''.bytesOut = cq'.bytesOut) : TempStep cq cq'' w w' data where
  wf := ⟨fun c hm => h.wf.offset c (hc ▸ hm), fun c hm => h.wf.idle c (hu ▸ hm)⟩
  total := by rw [Chunkqueue.total, hc]; exact h.total
  bytesIn := hin.trans h.bytesIn
  bytesOut := hout.trans h.bytesOut
  extends' := h.extends'
  coherent := fun rs hcoh => hc ▸ h.coherent rs hcoh
  content := fun rs hcoh => by rw [Chunkqueue.content, hc]; exact h.content rs hcoh

/-- The last chunk is an open temp file from which nothing has been read. -/
structure EndsWith (cq : Chunkqueue) (c : Chunk) : Prop where
  last : cq.chunks.getLast? = some c
  appendable : Appendable c

theorem EndsWith.chunks (h : EndsWith cq c) : cq.chunks = cq.chunks.dropLast ++ [c] :=
  (List.dropLast_append_getLast? c h.last).symm

theorem close_spec (h : cq.WF) (hc : EndsWith cq c) (w : World) :
    TempStep cq (cq.setLast { c with file := { c.file with fd := none } }) w w [] := by
  have hcs := hc.chunks
  have hbytes : { c with file := { c.file with fd := none } }.bytes w = c.bytes w := rfl
  have hsize : { c with file := { c.file with fd := none } }.size = c.size := rfl
  have hmem : c ∈ cq.chunks := by rw [hcs]; simp
  refine .of_same w ⟨fun d hd => ?_, h.idle⟩ ?_ rfl rfl (fun rs hcoh => ?_) ?_
  · rcases List.mem_append.mp hd with hd | hd
    · exact h.offset d (List.dropLast_subset _ hd)
    · rw [List.mem_singleton.mp hd]
      exact h.offset c hmem
  · rw [total, total, hcs]
    simp [setLast, hsize]
  · rw [hcs, List.append_assoc, List.singleton_append] at hcoh
    rw [setLast, List.append_assoc, List.singleton_append]
    exact hcoh.replace (hcoh.inFile c (by simp)) (not_appendable_fd rfl)
  · rw [content, content, hcs]
    simp [setLast, hbytes]

theorem mkstempLoop_spec : ∀ {cq cq' : Chunkqueue} {dirs : List Path} {rs : List MkstempResult}
    {r : Option (Path × Fd)}, cq.mkstempLoop w dirs rs = some (r, cq') →
    (∃ i, cq' = { cq with tempdirIdx := i }) ∧ ∀ f, r = some f → w.files f.1 = none ∧ w.fdpos f.2 = none
  | cq, cq', [], _, r, h => by
    obtain ⟨rfl, rfl⟩ := Prod.mk.inj (Option.some.inj h)
    exact ⟨⟨cq.tempdirIdx, rfl⟩, fun f hf => by cases hf⟩
  | _, _, _ :: _, [], _, h => by cases h
  | cq, cq', dir :: dirs, x :: xs, r, h => by
    rw [mkstempLoop] at h
    cases hm : mkstemp w dir x with
    | none =>
      rw [hm] at h
      obtain ⟨⟨i, hi⟩, hf⟩ := mkstempLoop_spec h
      exact ⟨⟨i, hi⟩, hf⟩
    | some g =>
      rw [hm] at h
      obtain ⟨rfl, rfl⟩ := Prod.mk.inj (Option.some.inj h)
      refine ⟨⟨cq.tempdirIdx, rfl⟩, fun f hf => ?_⟩
      obtain rfl := Option.some.inj hf
      exact mkstemp_fresh hm
where
  /-- `mkstemp` gives a new file. -/
  mkstemp_fresh {w : World} {dir : Path} {x : MkstempResult} {f : Path × Fd} (h : mkstemp w dir x = some f) :
      w.files f.1 = none ∧ w.fdpos f.2 = none := by
    unfold mkstemp at h
    split at h
    · split at h
      · obtain rfl := Option.some.inj h
        assumption
      · cases h
    · cases h

theorem openTempfile_spec {rs : List MkstempResult} {r : Option (Path × Fd)}
    (h : cq.openTempfile w rs = some (r, cq')) :
    (∃ i, cq' = { cq with tempdirIdx := i }) ∧ ∀ f, r = some f → w.files f.1 = none ∧ w.fdpos f.2 = none := by
  unfold openTempfile at h
  split at h
  · exact mkstempLoop_spec h
  · obtain ⟨x, -, hx⟩ := Option.map_eq_some_iff.mp h
    obtain ⟨rfl, rfl⟩ := Prod.mk.inj hx
    exact ⟨⟨cq.tempdirIdx, rfl⟩, fun f hf => mkstempLoop_spec.mkstemp_fresh hf⟩

/-- **A new temp file at the end of the queue.** -/
theorem getAppendTempfile_spec {rs : List MkstempResult} {oc : Option Chunk}
    (h : cq.WF) (heq : cq.getAppendTempfile w rs = some (oc, cq', w')) :
    TempStep cq cq' w w' [] ∧ ∀ c, oc = some c → EndsWith cq' c := by
  unfold getAppendTempfile at heq
  obtain ⟨⟨r, cq₁⟩, ho, heq⟩ := Option.bind_eq_some_iff.mp heq
  obtain ⟨⟨i, rfl⟩, hfresh⟩ := openTempfile_spec ho
  have h₁ : WF { cq with tempdirIdx := i } := ⟨h.offset, h.idle⟩
  cases r with
  | none =>
    obtain ⟨rfl, hq⟩ := Prod.mk.inj (Option.some.inj heq)
    obtain ⟨rfl, rfl⟩ := Prod.mk.inj hq
    exact ⟨(TempStep.refl h w).congr rfl rfl rfl rfl, fun c hc => by cases hc⟩
  | some f =>
    obtain ⟨name, fd⟩ := f
    obtain ⟨hname, hfd⟩ := hfresh _ rfl
    obtain ⟨hidle, cq₂, happ, hp⟩ := append_unused_spec h₁
      (fun c => { c with
        type := .fileChunk
        file := { c.file with fd := some fd, isTemp := true, name := name, length := 0 } })
      (fun c hc => Chunk.offsetOk_of_offset_eq_zero hc.offset)
    obtain ⟨c, hc⟩ : ∃ c, c = { (getUnusedChunk { cq with tempdirIdx := i }).1 with
      type := ChunkType.fileChunk
      file := { (getUnusedChunk { cq with tempdirIdx := i }).1.file with
        fd := some fd, isTemp := true, name := name, length := 0 } } := ⟨_, rfl⟩
    obtain ⟨d, hd, hret⟩ := Option.bind_eq_some_iff.mp heq
    obtain rfl : cq₂ = d := Option.some.inj (happ.symm.trans hd)
    obtain ⟨rfl, hq⟩ := Prod.mk.inj (Option.some.inj hret)
    obtain ⟨rfl, rfl⟩ := Prod.mk.inj hq
    dsimp only at hp
    rw [← hc] at hp
    have hoff : c.offset = 0 := by rw [hc]; exact hidle.offset
    have hfile : c.file = { Chunk.noFile with name := name, fd := some fd, isTemp := true } := by
      rw [hc]
      simp only [hidle.file]
      rfl
    have htype : c.type = .fileChunk := by rw [hc]
    have hap : Appendable c := ⟨htype, by rw [hfile], by rw [hfile]; rfl, hoff⟩
    have hsize : c.size = 0 := by rw [Chunk.size_file htype, hfile]; rfl
    refine ⟨⟨hp.wf h₁ (Chunk.offsetOk_of_offset_eq_zero hoff), ?_, ?_, hp.bytesOut, ?_, ?_, ?_⟩, fun e he => ?_⟩
    · rw [hp.total, hsize, Nat.zero_sub]; rfl
    · rw [hp.bytesIn, hsize, Nat.zero_sub]; rfl
    · exact fun _ _ => w.create_extends hname fd
    · intro rs hcoh
      rw [hp.chunks, List.append_assoc, List.singleton_append]
      exact hcoh.create hname hfd hap ⟨by rw [hfile], by rw [hfile], by rw [hfile]; rfl, by rw [hfile]; rfl⟩
    · intro rs hcoh
      have hin : ∀ e ∈ cq.chunks, e.InFile w := fun e he => hcoh.inFile e (List.mem_append_left _ he)
      have hb : c.bytes (w.create name fd) = [] := Chunk.bytes_eq_nil (by rw [hsize, Nat.zero_sub]) _
      rw [hp.content, hb, List.append_nil, List.append_nil]
      exact flatMap_bytes_extends (w.create_extends hname fd) hin
    · obtain rfl : c = e := hc.trans (Option.some.inj he)
      exact ⟨by rw [hp.chunks, List.getLast?_concat], hap⟩

theorem selectTempfile_spec {io : Attempt} {oc : Option Chunk} (h : cq.WF)
    (heq : cq.selectTempfile w io = some (oc, cq', w')) :
    TempStep cq cq' w w' [] ∧ ∀ c, oc = some c → EndsWith cq' c := by
  unfold selectTempfile at heq
  cases hlast : cq.chunks.getLast? with
  | none =>
    rw [hlast] at heq
    exact getAppendTempfile_spec h heq
  | some c =>
    simp only [hlast] at heq
    by_cases ha : Appendable c
    · rw [if_pos ha] at heq
      have hc := close_spec h ⟨hlast, ha⟩ w
      by_cases hl : c.file.length ≥ cq.uploadTempFileSize
      · rw [if_pos hl] at heq
        by_cases hcl : io.closeLarge = true
        · rw [if_pos hcl] at heq
          obtain ⟨hs, he⟩ := getAppendTempfile_spec hc.wf heq
          exact ⟨hc.trans hs, he⟩
        · rw [if_neg hcl] at heq
          obtain ⟨rfl, hq⟩ := Prod.mk.inj (Option.some.inj heq)
          obtain ⟨rfl, rfl⟩ := Prod.mk.inj hq
          exact ⟨hc, fun d hd => by cases hd⟩
      · rw [if_neg hl] at heq
        obtain ⟨rfl, hq⟩ := Prod.mk.inj (Option.some.inj heq)
        obtain ⟨rfl, rfl⟩ := Prod.mk.inj hq
        refine ⟨.refl h w, fun d hd => ?_⟩
        obtain rfl := Option.some.inj hd
        exact ⟨hlast, ha⟩
    · rw [if_neg ha] at heq
      exact getAppendTempfile_spec h heq

/-- **A write to the last temp file puts its bytes at the end of the queue.** -/
theorem growTempfile_spec (h : cq.WF) (hc : EndsWith cq c) (w : World) (data : Bytes) :
    TempStep cq (cq.growTempfile w c data).1 w (cq.growTempfile w c data).2 data := by
  have hcs := hc.chunks
  have hap := hc.appendable
  obtain ⟨htype, -, hfd, hoff⟩ := hc.appendable
  obtain ⟨fd, hfd⟩ := Option.isSome_iff_exists.mp hfd
  have hworld : (cq.growTempfile w c data).2 = w.write c.file.name fd data := by simp [growTempfile, hfd]
  rw [hworld]
  obtain ⟨c', hc'⟩ : ∃ c', c' = { c with file := { c.file with length := c.file.length + data.length } } := ⟨_, rfl⟩
  have hchunks : (cq.growTempfile w c data).1.chunks = cq.chunks.dropLast ++ [c'] := by rw [hc']; rfl
  have hsize : c'.size = c.size + data.length := by
    have htype' : c'.type = .fileChunk := by rw [hc']; exact htype
    rw [Chunk.size_file htype, Chunk.size_file htype', hc']
  have hoff' : c'.offset = 0 := by rw [hc']; exact hoff
  have htemp : ∀ rs, Coherent w (cq.chunks ++ rs) → w.fdpos fd = some (w.content c.file.name).length := by
    intro rs hcoh
    have ht := hcoh.temp c (by rw [hcs]; simp) hap
    obtain ⟨fd', hfd', hpos⟩ := ht.pos
    rw [ht.content_length, ← hpos, Option.some.inj (hfd.symm.trans hfd')]
  refine ⟨⟨?_, h.idle⟩, ?_, rfl, rfl, ?_, ?_, ?_⟩
  · intro d hd
    rw [hchunks] at hd
    rcases List.mem_append.mp hd with hd | hd
    · exact h.offset d (List.dropLast_subset _ hd)
    · rw [List.mem_singleton.mp hd]
      exact Chunk.offsetOk_of_offset_eq_zero hoff'
  · rw [total, hchunks, total, hcs]
    simp only [List.dropLast_concat, totalOf_append, totalOf_cons, totalOf_nil, hsize, hoff, hoff']
    omega
  · exact fun rs hcoh => World.write_extends (htemp rs hcoh) data
  · intro rs hcoh
    rw [hchunks, hc', List.append_assoc, List.singleton_append]
    rw [hcs, List.append_assoc, List.singleton_append] at hcoh
    exact hcoh.write hap hfd data
  · intro rs hcoh
    have hpos := htemp rs hcoh
    have ht := hcoh.temp c (by rw [hcs]; simp) hap
    have hin : ∀ d ∈ cq.chunks.dropLast, d.InFile w := fun d hd =>
      hcoh.inFile d (List.mem_append_left _ (List.dropLast_subset _ hd))
    have hb : c.bytes w = w.content c.file.name := by
      rw [Chunk.bytes_file htype, ht.start, hoff, List.drop_zero, List.drop_zero, ← ht.content_length, List.take_length]
    have hb' : c'.bytes (w.write c.file.name fd data) = w.content c.file.name ++ data := by
      rw [Chunk.bytes_file (by rw [hc']; exact htype), hoff', List.drop_zero]
      simp only [hc', ht.start, List.drop_zero]
      rw [World.write_content hpos, if_pos rfl, ← ht.content_length, ← List.length_append, List.take_length]
    have hold : cq.content w = (cq.chunks.dropLast).flatMap (Chunk.bytes w) ++ c.bytes w := by
      conv_lhs => rw [content, hcs]
      simp
    rw [content, hchunks, hold, List.flatMap_append, flatMap_bytes_extends (World.write_extends hpos data) hin, hb]
    simp [hb']

/-- `chunkqueue_remove_empty_chunks` only takes chunks without bytes out of the queue. -/
theorem removeEmptyChunks_go_spec : ∀ {cs front : List Chunk} {cq cq' : Chunkqueue},
    (∀ c ∈ front ++ cs, c.OffsetOk) → (∀ c ∈ cq.unused, c.Idle) →
    removeEmptyChunks.go front cs cq = some cq' →
    cq'.WF ∧ cq'.chunks.Sublist (front ++ cs) ∧ totalOf cq'.chunks = totalOf (front ++ cs) ∧
      (∀ w, cq'.content w = (front ++ cs).flatMap (Chunk.bytes w)) ∧ cq'.bytesIn = cq.bytesIn ∧
      cq'.bytesOut = cq.bytesOut
  | [], front, cq, cq', hoff, hidle, h => by
    obtain rfl := Option.some.inj h
    rw [List.append_nil] at hoff ⊢
    exact ⟨⟨hoff, hidle⟩, List.Sublist.refl _, rfl, fun _ => rfl, rfl, rfl⟩
  | e :: cs, front, cq, cq', hoff, hidle, h => by
    have he := Chunk.remainingLength_eq (hoff e (by simp))
    unfold removeEmptyChunks.go at h
    rw [he, Option.bind_eq_bind, Option.bind_some] at h
    by_cases hn : e.size - e.offset = 0
    · rw [if_pos hn] at h
      match cs, h with
      | d :: ds, h =>
        have hsub : (front ++ d :: ds).Sublist (front ++ e :: d :: ds) :=
          (List.Sublist.refl front).append (List.sublist_cons_self e _)
        have heq : front ++ [d] ++ ds = front ++ d :: ds := by simp
        obtain ⟨hwf, hsub', htot, hcont, hin, hout⟩ :=
          removeEmptyChunks_go_spec (fun c hc => hoff c (hsub.subset (heq ▸ hc))) (pushUnusedChunk_idle hidle e) h
        rw [heq] at hsub' htot hcont
        refine ⟨hwf, hsub'.trans hsub, ?_, fun w => ?_, by simpa using hin, by simpa using hout⟩
        · rw [htot]
          simp [hn]
        · rw [hcont]
          simp [Chunk.bytes_eq_nil hn]
    · rw [if_neg hn] at h
      have heq : front ++ [e] ++ cs = front ++ e :: cs := by simp
      have ih := removeEmptyChunks_go_spec (fun c hc => hoff c (heq ▸ hc)) hidle h
      rwa [heq] at ih

theorem removeEmptyChunks_spec (h : cq.WF) (heq : cq.removeEmptyChunks = some cq') (w : World) :
    TempStep cq cq' w w [] := by
  obtain ⟨cq₁, hrem, hd, hout, hsuf⟩ := removeFinishedChunks_spec h
  have hcont₁ : ∀ rs, Coherent w (cq.chunks ++ rs) → cq₁.content w = cq.content w := fun rs hcoh =>
    hd.content w fun c hc => hcoh.inFile c (List.mem_append_left _ hc)
  have hstep₁ : TempStep cq cq₁ w w [] := by
    refine ⟨hd.wf, hd.total, hd.bytesIn.trans (Int.add_zero _).symm, hout, fun _ _ => .refl w, fun rs hcoh => ?_, ?_⟩
    · exact hcoh.sublist (hsuf.sublist.append (List.Sublist.refl rs))
    · exact fun rs hcoh => (hcont₁ rs hcoh).trans (List.append_nil _).symm
  unfold removeEmptyChunks at heq
  rw [hrem, Option.bind_eq_bind, Option.bind_some] at heq
  match hcs : cq₁.chunks, heq with
  | [], heq =>
    obtain rfl := Option.some.inj heq
    exact hstep₁
  | c :: cs, heq =>
    have hcs' : [c] ++ cs = cq₁.chunks := by rw [hcs]; rfl
    obtain ⟨hwf, hsub, htot, hcont, hin, hout'⟩ :=
      removeEmptyChunks_go_spec (fun d hm => hd.wf.offset d (hcs' ▸ hm)) hd.wf.idle heq
    rw [hcs'] at hsub htot hcont
    exact hstep₁.trans (.of_same w hwf htot hin hout'
      (fun rs hcoh => hcoh.sublist (hsub.append (List.Sublist.refl rs))) (hcont w))

theorem nextTempdir_spec (cq : Chunkqueue) (e : Errno) : ∃ i, (cq.nextTempdir e).1 = { cq with tempdirIdx := i } :=
  ⟨_, rfl⟩

theorem abandonTempfile_spec {closeFull closed : Bool} (h : cq.WF)
    (hc : EndsWith cq c) (heq : cq.abandonTempfile c closeFull = some (cq', closed)) (w : World) :
    TempStep cq cq' w w [] := by
  unfold abandonTempfile at heq
  obtain ⟨left, -, heq⟩ := Option.bind_eq_some_iff.mp heq
  split at heq
  · obtain ⟨cq₁, hrem, heq⟩ := Option.bind_eq_some_iff.mp heq
    obtain ⟨rfl, -⟩ := Prod.mk.inj (Option.some.inj heq)
    exact removeEmptyChunks_spec h hrem w
  · obtain ⟨rfl, -⟩ := Prod.mk.inj (Option.some.inj heq)
    exact close_spec h hc w

/-! ## The rounds of the loop -/

/-- The state before a round of the loop of `chunkqueue_append_mem_to_tempfile`, with the results of its system calls. -/
structure Round where
  io : Attempt
  cq : Chunkqueue
  world : World
  mem : Bytes

/-- A round returns, or there is another one. -/
inductive RoundEnd
  | ret (r : TempResult)
  | again (cq : Chunkqueue) (w : World) (mem : Bytes)

def Round.next (s : Round) : Option RoundEnd := do
  let (c, cq, w) ← s.cq.selectTempfile s.world s.io
  match c with
  | none => return .ret ⟨false, cq, w⟩
  | some c =>
    match s.io.write with
    | .wrote n =>
      let (cq, w) := cq.growTempfile w c (s.mem.take n)
      if n ≥ s.mem.length then return .ret ⟨true, cq, w⟩
      else return .again cq w (s.mem.drop n)
    | .error e =>
      if e = .eintr then return .again cq w s.mem
      else
        let (cq, retry) := cq.nextTempdir e
        let (cq, closed) ← cq.abandonTempfile c s.io.closeFull
        if closed ∧ retry then return .again cq w s.mem
        else return .ret ⟨false, cq, w⟩

/-- What the loop does after a round. -/
def RoundEnd.rest (ios : List Attempt) : RoundEnd → Option (TempResult × List Attempt)
  | .ret r => some (r, ios)
  | .again cq w mem => appendMemToTempfile ios cq w mem

theorem appendMemToTempfile_cons (io : Attempt) (ios : List Attempt) (cq : Chunkqueue) (w : World) (mem : Bytes) :
    appendMemToTempfile (io :: ios) cq w mem = (Round.next ⟨io, cq, w, mem⟩).bind (RoundEnd.rest ios) := by
  rw [appendMemToTempfile, Round.next]
  cases cq.selectTempfile w io with
  | none => rfl
  | some r =>
    obtain ⟨oc, cq₁, w₁⟩ := r
    cases oc with
    | none => rfl
    | some c =>
      simp only [Option.bind_eq_bind, Option.bind_some]
      cases io.write with
      | wrote n =>
        simp only
        split_ifs <;> rfl
      | error e =>
        simp only
        split_ifs with he
        · rfl
        · cases (cq₁.nextTempdir e).1.abandonTempfile c io.closeFull with
          | none => rfl
          | some r =>
            simp only [Option.bind_some]
            split_ifs <;> rfl

/-- What a round has written: the bytes that are left are those behind it, and a round that fails has written nothing. -/
def RoundEnd.Wrote (s : Round) (data : Bytes) : RoundEnd → Prop
  | .ret r => TempStep s.cq r.cq s.world r.world data ∧ data = if r.ok then s.mem else []
  | .again cq w mem => TempStep s.cq cq s.world w data ∧ data ++ mem = s.mem

theorem Round.next_spec {s : Round} {e : RoundEnd} (hwf : s.cq.WF) (h : s.next = some e) :
    ∃ data, e.Wrote s data := by
  rw [Round.next] at h
  obtain ⟨⟨oc, cq₁, w₁⟩, hsel, h⟩ := Option.bind_eq_some_iff.mp h
  obtain ⟨hs, hlast⟩ := selectTempfile_spec hwf hsel
  cases oc with
  | none =>
    obtain rfl := Option.some.inj h
    exact ⟨[], hs, rfl⟩
  | some c =>
    have hc := hlast c rfl
    cases hw : s.io.write with
    | wrote n =>
      simp only [hw] at h
      have hg := hs.trans (growTempfile_spec hs.wf hc w₁ (s.mem.take n))
      by_cases hn : n ≥ s.mem.length
      · rw [if_pos hn] at h
        obtain rfl := Option.some.inj h
        rw [List.take_of_length_le hn] at hg ⊢
        exact ⟨s.mem, hg, rfl⟩
      · rw [if_neg hn] at h
        obtain rfl := Option.some.inj h
        exact ⟨s.mem.take n, hg, List.take_append_drop n s.mem⟩
    | error e =>
      simp only [hw] at h
      by_cases he : e = .eintr
      · rw [if_pos he] at h
        obtain rfl := Option.some.inj h
        exact ⟨[], hs, rfl⟩
      · rw [if_neg he] at h
        obtain ⟨i, hi⟩ := nextTempdir_spec cq₁ e
        obtain ⟨⟨cq₂, closed⟩, hab, h⟩ := Option.bind_eq_some_iff.mp h
        rw [hi] at hab
        have hwf₁ : WF { cq₁ with tempdirIdx := i } := ⟨hs.wf.offset, hs.wf.idle⟩
        have hidx : TempStep cq₁ { cq₁ with tempdirIdx := i } w₁ w₁ [] :=
          (TempStep.refl hs.wf w₁).congr rfl rfl rfl rfl
        have ha := hs.trans (hidx.trans (abandonTempfile_spec hwf₁ ⟨hc.last, hc.appendable⟩ hab w₁))
        split at h
        · obtain rfl := Option.some.inj h
          exact ⟨[], ha, rfl⟩
        · obtain rfl := Option.some.inj h
          exact ⟨[], ha, rfl⟩

/-- **`chunkqueue_append_mem_to_tempfile` for every sequence of results**: the bytes written are a prefix of `mem`,
and all of `mem` when the call succeeds. -/
theorem appendMemToTempfile_spec : ∀ {ios ios' : List Attempt} {cq : Chunkqueue} {w : World} {mem : Bytes}
    {r : TempResult}, cq.WF → appendMemToTempfile ios cq w mem = some (r, ios') →
    ∃ data, data <+: mem ∧ (r.ok = true → data = mem) ∧ TempStep cq r.cq w r.world data
  | [], _, _, _, _, _, _, h => by cases h
  | io :: ios, ios', cq, w, mem, r, hwf, h => by
    rw [appendMemToTempfile_cons] at h
    obtain ⟨e, he, h⟩ := Option.bind_eq_some_iff.mp h
    obtain ⟨data, hdata⟩ := Round.next_spec hwf he
    cases e with
    | ret r' =>
      obtain ⟨rfl, -⟩ := Prod.mk.inj (Option.some.inj h)
      obtain ⟨hstep, hmem⟩ := hdata
      refine ⟨data, ?_, fun hok => by simpa [hok] using hmem, hstep⟩
      rw [hmem]
      split_ifs
      · exact List.prefix_refl _
      · exact List.nil_prefix
    | again cq₁ w₁ mem₁ =>
      obtain ⟨hstep, hmem⟩ : TempStep cq cq₁ w w₁ data ∧ data ++ mem₁ = mem := hdata
      obtain ⟨data₁, hpre, hok, hstep₁⟩ := appendMemToTempfile_spec hstep.wf h
      refine ⟨data ++ data₁, ?_, fun ht => ?_, hstep.trans hstep₁⟩
      · rw [← hmem]
        exact (List.prefix_append_right_inj data).mpr hpre
      · rw [hok ht, hmem]

end Chunkqueue
end Lighttpd
