import Lighttpd.Lib.Traverse
import Lighttpd.Response.ByteRange
import Lighttpd.Response.Open

/-!
# What a range request is answered with

The answer to a request for a file is the ranges that are asked for, 416, or all of the file, if every range of the list
is one of the file, or the first of them is refused with 416 (`send_answered_iff`). Otherwise ranges are queued before
an error is found, or the error leaves the status as it is, and nothing of the file is sent.

- `rangeParts_content`: the parts of a range response in the queue;
- `walk_done`, `walk_taken`: the loop ends well exactly if all elements are taken.
-/

namespace Lighttpd
namespace Respond
open Request Backend Chunkqueue Response

/-! ## The queue -/

def RangePart.bytes (file : Bytes) : RangePart → Bytes
  | .mem b => b
  | .file start len => (file.drop start).take len

def RangePart.InFile (file : Bytes) : RangePart → Prop
  | .mem _ => True
  | .file start len => start + len ≤ file.length

def Con.withQueue (c : Con) (cq : Chunkqueue) : Con := { c with out := { c.out with writeQueue := cq } }

theorem rangePart_content {c : Con} {path : Path} {p : RangePart} (h : Sound c.out.world c.out.writeQueue)
    (hp : p.InFile (c.out.world.content path)) : ∃ cq, Con.rangePart path c p = some (c.withQueue cq) ∧
      Extended c.out.world c.out.writeQueue c.out.world cq (p.bytes (c.out.world.content path)) := by
  cases p with
  | mem b =>
    have hstr : (Buffer.ofString b).str = b := rfl
    obtain ⟨⟨cq, b'⟩, hcq⟩ : ∃ r, c.out.writeQueue.appendBuffer (.ofString b) = some r := by
      by_cases hb : b = []
      · exact ⟨_, if_pos (by simpa [hstr] using hb)⟩
      · have hne : (Buffer.ofString b).str ≠ [] := hb
        obtain ⟨-, cq, b', heq, -⟩ := appendBuffer_spec h.wf hne
        exact ⟨_, heq⟩
    refine ⟨cq, ?_, hstr ▸ appendBuffer_extended h hcq⟩
    simp only [Con.rangePart, hcq, Option.map_some]
    rfl
  | file start len =>
    have hle : start + len ≤ fileSize c.out.world path := hp
    by_cases hlen : len = 0
    · subst hlen
      refine ⟨c.out.writeQueue, ?_, ?_⟩
      · simp only [Con.rangePart, if_pos hle, appendFile, if_true, Option.map_some]
        rfl
      · have hnil : RangePart.bytes (c.out.world.content path) (.file start 0) = [] := by
          simp [RangePart.bytes]
        rw [hnil]
        exact .refl h
    · obtain ⟨ch, cq, hcq, hpush, htype, hfile, hoff⟩ := appendFile_spec h.wf path start hlen
      have hin : ch.InFile c.out.world := fun _ => by rw [hfile]; exact hle
      have ha : ¬ Appendable ch := not_appendable_fd (by rw [hfile]; rfl)
      have hext := hpush.extended h (Chunk.offsetOk_of_offset_eq_zero hoff) hin ha
      have hbytes : ch.bytes c.out.world = RangePart.bytes (c.out.world.content path) (.file start len) := by
        simp [Chunk.bytes, Chunk.allBytes, htype, hfile, hoff, RangePart.bytes]
      refine ⟨cq, ?_, hbytes ▸ hext⟩
      simp only [Con.rangePart, if_pos hle, hcq, Option.map_some]
      rfl

/-- **The parts are queued.** -/
theorem rangeParts_content {path : Path} {ps : List RangePart} {c : Con} (h : Sound c.out.world c.out.writeQueue)
    (hp : ∀ p ∈ ps, p.InFile (c.out.world.content path)) :
    ∃ cq, ps.foldlM (Con.rangePart path) c = some (c.withQueue cq) ∧
      Extended c.out.world c.out.writeQueue c.out.world cq (ps.flatMap (RangePart.bytes (c.out.world.content path))) := by
  induction ps generalizing c with
  | nil => exact ⟨c.out.writeQueue, rfl, .refl h⟩
  | cons p ps ih =>
    obtain ⟨cq, heq, hext⟩ := rangePart_content h (hp p List.mem_cons_self)
    obtain ⟨cq', heq', hext'⟩ := ih (c := c.withQueue cq) hext.sound fun q hq => hp q (List.mem_cons_of_mem _ hq)
    refine ⟨cq', ?_, hext.trans hext'⟩
    rw [List.foldlM_cons, heq]
    exact heq'

/-! ## The list of ranges -/

variable {size : Nat} {e : Bytes} {es : List Bytes}

theorem positions_lt {a b : Nat} (h : positions size e = some (a, b)) : a ≤ b ∧ b < size := by
  obtain ⟨r, hr, hres⟩ := Option.bind_eq_some_iff.mp h
  have hok := byteRange_ok hr
  cases r with
  | suffix length =>
    have hlen : 0 < length := hok
    obtain ⟨hsize, heq⟩ := Option.ite_none_right_eq_some.mp hres
    cases heq
    omega
  | onward first =>
    obtain ⟨hsize, heq⟩ := Option.ite_none_right_eq_some.mp hres
    cases heq
    omega
  | between first last =>
    have hle : first ≤ last := hok
    obtain ⟨hsize, heq⟩ := Option.ite_none_right_eq_some.mp hres
    cases heq
    omega

theorem minus_mem_of_byteRange {r : ByteRange} (h : byteRange e = some r) : chr '-' ∈ e := by
  by_contra hnot
  unfold byteRange at h
  rw [List.dropWhile_eq_nil_iff.mpr (noMinus hnot)] at h
  cases h

theorem positions_minus (h : (positions size e).isSome) : chr '-' ∈ e := by
  obtain ⟨ab, hab⟩ := Option.isSome_iff_exists.mp h
  obtain ⟨r, hr, -⟩ := Option.bind_eq_some_iff.mp hab
  exact minus_mem_of_byteRange hr

theorem unsatisfiable_minus (h : Unsatisfiable size e) : chr '-' ∈ e := by
  rcases h with ⟨hhead, -⟩ | ⟨r, hr, -⟩
  · exact List.mem_of_head? hhead
  · exact minus_mem_of_byteRange hr

theorem positions_unsatisfiable (h : Unsatisfiable size e) : positions size e = none := by
  rcases h with ⟨hhead, hzero⟩ | ⟨r, hr, hres⟩
  · cases e with
    | nil => cases hhead
    | cons c post =>
      obtain rfl : c = chr '-' := Option.some.inj hhead
      have hnone : byteRange (chr '-' :: post) = none := by rw [byteRange_suffix, hzero, if_neg (by omega)]
      rw [positions, hnone]
      rfl
  · rw [positions, hr]
    exact hres

theorem walk_cons {ab : Nat × Nat} (h : positions size e = some ab) (es : List Bytes) :
    walk size (e :: es) = (ab :: (walk size es).1, (walk size es).2) := by
  have hminus := positions_minus (Option.isSome_iff_exists.mpr ⟨ab, h⟩)
  have hun : ¬ Unsatisfiable size e := fun hu => by
    rw [positions_unsatisfiable hu] at h
    cases h
  rw [walk, if_pos ⟨e, List.mem_cons_self, hminus⟩, if_neg hun, h]

theorem walk_unsatisfiable (h : Unsatisfiable size e) (es : List Bytes) :
    walk size (e :: es) = ([], .unsatisfiable) := by
  rw [walk, if_pos ⟨e, List.mem_cons_self, unsatisfiable_minus h⟩, if_pos h]

/-- **Every element is a range of the file**, but for empty ones at the end. -/
def AllTaken (size : Nat) (es : List Bytes) : Prop :=
  ∃ taken rest, es = taken ++ rest ∧ taken ≠ [] ∧ (∀ e ∈ taken, (positions size e).isSome) ∧ ∀ e ∈ rest, e = []

/-- **Where the loop ends well**, it has taken the elements in front of the rest. -/
theorem walk_done {rest : List Bytes} {abs : List (Nat × Nat)} (h : walk size es = (abs, .done rest)) :
    ∃ taken, es = taken ++ rest ∧ taken.mapM (positions size) = some abs ∧ ¬ ∃ e ∈ rest, chr '-' ∈ e := by
  induction es generalizing abs with
  | nil =>
    cases h
    exact ⟨[], rfl, rfl, nofun⟩
  | cons e es ih =>
    unfold walk at h
    split at h
    · split at h
      · cases h
      · cases hpos : positions size e with
        | none =>
          rw [hpos] at h
          cases h
        | some ab =>
          rw [hpos] at h
          dsimp only at h
          obtain ⟨rfl, hdone⟩ := Prod.mk.inj h
          obtain ⟨taken, rfl, htaken, hrest⟩ := ih (Prod.ext rfl hdone)
          refine ⟨e :: taken, rfl, ?_, hrest⟩
          rw [List.mapM_cons, hpos, htaken]
          rfl
    · rename_i hnot
      cases h
      exact ⟨[], rfl, rfl, hnot⟩

theorem walk_taken (h : AllTaken size es) : ∃ rest, (walk size es).2 = .done rest := by
  obtain ⟨taken, rest, rfl, -, htaken, hrest⟩ := h
  have hdone : ∀ rest : List Bytes, (∀ e ∈ rest, e = []) → walk size rest = ([], .done rest) := by
    intro rest hrest
    apply walk_noMinus size
    rintro ⟨e, he, hminus⟩
    rw [hrest e he] at hminus
    cases hminus
  induction taken with
  | nil => exact ⟨rest, by rw [List.nil_append, hdone rest hrest]⟩
  | cons e taken ih =>
    obtain ⟨ab, hab⟩ := Option.isSome_iff_exists.mp (htaken e List.mem_cons_self)
    obtain ⟨rest', hrest'⟩ := ih fun e' he' => htaken e' (List.mem_cons_of_mem _ he')
    exact ⟨rest', by rw [List.cons_append, walk_cons hab, hrest']⟩

theorem walk_refused (h : walk size es = ([], .unsatisfiable)) : ∃ e es', es = e :: es' ∧ Unsatisfiable size e := by
  cases es with
  | nil => cases h
  | cons e es =>
    unfold walk at h
    split at h
    · split at h
      · rename_i hun
        exact ⟨e, es, rfl, hun⟩
      · cases hpos : positions size e with
        | none =>
          rw [hpos] at h
          cases h
        | some ab =>
          rw [hpos] at h
          cases h
    · cases h

theorem walk_lt (size : Nat) (es : List Bytes) : ∀ ab ∈ (walk size es).1, ab.1 ≤ ab.2 ∧ ab.2 < size := by
  intro ab hab
  induction es with
  | nil => cases hab
  | cons e es ih =>
    unfold walk at hab
    split at hab
    · split at hab
      · cases hab
      · cases hpos : positions size e with
        | none =>
          rw [hpos] at hab
          cases hab
        | some ab' =>
          rw [hpos] at hab
          rcases List.mem_cons.mp hab with rfl | hab
          · exact positions_lt hpos
          · exact ih hab
    · cases hab

/-- **Where the loop ends well**, the positions are those of the whole list, if all of it is taken. -/
theorem taken_done {rest : List Bytes} {abs : List (Nat × Nat)} (h : walk size es = (abs, .done rest)) :
    (AllTaken size es → (es.filter (· ≠ [])).mapM (positions size) = some abs ∧ abs ≠ []) ∧
    ∀ abs', (es.filter (· ≠ [])).mapM (positions size) = some abs' → abs' ≠ [] → AllTaken size es := by
  obtain ⟨taken, rfl, htaken, hrest⟩ := walk_done h
  have hne : ∀ e ∈ taken, e ≠ [] := by
    rintro e he rfl
    cases positions_minus (Traverse.isSome htaken [] he)
  have hfilter : taken.filter (· ≠ []) = taken := List.filter_eq_self.mpr fun e he => decide_eq_true (hne e he)
  have hempty : (∀ e ∈ rest, e = []) → (taken ++ rest).filter (· ≠ []) = taken := by
    intro hall
    rw [List.filter_append, hfilter, List.filter_eq_nil_iff.mpr fun e he => by simp [hall e he], List.append_nil]
  refine ⟨?_, fun abs' habs' hne' => ?_⟩
  · rintro ⟨taken', rest', heq, hne', htaken', hrest'⟩
    have hall : ∀ e ∈ rest, e = [] := by
      intro e he
      have hmem : e ∈ taken' ++ rest' := heq ▸ List.mem_append_right taken he
      rcases List.mem_append.mp hmem with hm | hm
      · exact absurd ⟨e, he, positions_minus (htaken' e hm)⟩ hrest
      · exact hrest' e hm
    rw [hempty hall]
    refine ⟨htaken, ?_⟩
    rintro rfl
    -- nothing was taken, but some element has a minus
    obtain ⟨e, he⟩ := List.exists_mem_of_ne_nil _ hne'
    have hminus := positions_minus (htaken' e he)
    have hmem : e ∈ taken ++ rest := heq ▸ List.mem_append_left rest' he
    rcases List.mem_append.mp hmem with hm | hm
    · cases taken with
      | nil => cases hm
      | cons e' taken =>
        cases Traverse.length_eq htaken
    · exact hrest ⟨e, hm, hminus⟩
  · have hall : ∀ e ∈ rest, e = [] := by
      intro e he
      by_contra hn
      have hmem : e ∈ (taken ++ rest).filter (· ≠ []) :=
        List.mem_filter.mpr ⟨List.mem_append_right taken he, decide_eq_true hn⟩
      exact hrest ⟨e, he, positions_minus (Traverse.isSome habs' e hmem)⟩
    refine ⟨taken, rest, rfl, ?_, Traverse.isSome htaken, hall⟩
    rintro rfl
    rw [hempty hall] at habs'
    exact hne' (Option.some.inj habs').symm

/-! ## The answer -/

def slice (file : Bytes) (ab : Nat × Nat) : Bytes := (file.drop ab.1).take (ab.2 + 1 - ab.1)

/-- The positions that a field `Range` selects, if it is a list of ranges of the file. -/
def selected (size : Nat) (value : Bytes) : Option (List (Nat × Nat)) :=
  ((elements (cstr value)).filter (· ≠ [])).mapM (positions size)

/-- The body has the ranges: one of them as it is, or each of them as a part. -/
def RangeBody (contentType file : Bytes) (abs : List (Nat × Nat)) (body : Bytes) : Prop :=
  (∃ ab, abs = [ab] ∧ body = slice file ab) ∨
  abs ≠ [] ∧ body = (abs.flatMap fun ab => partHeader contentType ab.1 ab.2 file.length ++ slice file ab) ++ boundaryEnd

theorem parseRange_ended (contentType : Bytes) (size : Nat) (value : Bytes) :
    Ended contentType size (decide (1 < (elements (cstr value)).length ∧ chr '-' ∈ cstr value)) []
      (walk size (elements (cstr value))) (httpResponseParseRange contentType size value) := by
  have hz : (0 : Byte) ∉ cstr value := fun h => by simpa using List.mem_takeWhile_imp h
  have hlen : (cstr value).length < value.length + 1 :=
    Nat.lt_succ_of_le (List.takeWhile_prefix _).length_le
  exact rangeLoop_walk contentType size ⟨false, 0, size - 1, []⟩ hz hlen

theorem Ended.inFile {contentType : Bytes} {m : Bool} {r : Ranges}
    (h : Ended contentType size m [] (walk size es) r) (file : Bytes) (hsize : size = file.length) : ∀ p ∈ r.parts,
    p.InFile file := by
  subst hsize
  intro p hp
  rw [h.parts, List.nil_append] at hp
  rcases List.mem_append.mp hp with hp | hp
  · obtain ⟨ab, hab, hp⟩ := List.mem_flatMap.mp hp
    obtain ⟨hle, hlt⟩ := walk_lt _ _ ab hab
    rcases List.mem_append.mp hp with hp | hp
    · split at hp
      · rw [List.mem_singleton.mp hp]
        trivial
      · cases hp
    · rw [List.mem_singleton.mp hp]
      show ab.1 + (ab.2 + 1 - ab.1) ≤ file.length
      omega
  · split at hp
    · rw [List.mem_singleton.mp hp]
      trivial
    · cases hp

theorem Ended.bytes {contentType : Bytes} {m : Bool} {w : List (Nat × Nat) × Stop} {r : Ranges}
    (h : Ended contentType size m [] w r) (file : Bytes) : r.parts.flatMap (RangePart.bytes file) =
      (w.1.flatMap fun ab => (if m then partHeader contentType ab.1 ab.2 size else []) ++ slice file ab) ++
        (if m ∧ r.ok then boundaryEnd else []) := by
  have hend : (if m ∧ r.ok then [RangePart.mem boundaryEnd] else []).flatMap (RangePart.bytes file) =
      if m ∧ r.ok then boundaryEnd else [] := by
    split
    · exact List.append_nil _
    · rfl
  rw [h.parts, List.nil_append, List.flatMap_append, hend, List.flatMap_assoc]
  congr 1
  refine congrArg (fun g => List.flatMap g w.1) (funext fun ab => ?_)
  cases m with
  | true => simp [pieces, RangePart.bytes, slice]
  | false => simp [pieces, RangePart.bytes, slice]

theorem slice_ne_nil {file : Bytes} {ab : Nat × Nat} (hle : ab.1 ≤ ab.2) (hlt : ab.2 < file.length) :
    slice file ab ≠ [] := by
  intro h
  have := congrArg List.length h
  simp [slice] at this
  omega

namespace StaticFile

variable {f : StaticFile} {c c' : Con}

/-- **The file can be served**: it is a regular file of the size that the stat cache has, it can be opened, and no
validator answers the request. -/
structure Servable (f : StaticFile) (c : Con) : Prop where
  regular : f.entry = .regular
  cachable : f.allowCaching c → f.cachable = .goOn
  size : f.size = fileSize c.out.world f.path
  opened : (opens c.out.world f.path f.fd).isSome
  unsent : Open c.out

def queued (c : Con) : Bytes := c.out.writeQueue.content c.out.world

/-- **The three ways**: 206 with the ranges that are selected, 416, or all of the file. -/
def Answered (f : StaticFile) (c c' : Con) : Prop :=
  (c'.httpStatus = 206 ∧ ∃ value abs body, f.rangeValue c = some value ∧ selected f.size value = some abs ∧
    RangeBody (f.typeValue c) (c.out.world.content f.path) abs body ∧ queued c' = queued c ++ body) ∨
  c'.httpStatus = 416 ∨
  (c'.httpStatus = 0 ∨ c'.httpStatus = 200) ∧ queued c' = queued c ++ c.out.world.content f.path

/-- When `http_response_parse_range` fails, the write queue is as it was. -/
def QueueKept (f : StaticFile) (c c' : Con) : Prop :=
  ∀ value, f.rangeValue c = some value → (httpResponseParseRange (f.typeValue c) f.size value).ok = false →
    c'.out.writeQueue = c.out.writeQueue

theorem sendRanges_eq (path : Path) (r : Ranges) {c : Con} (h : Sound c.out.world c.out.writeQueue)
    (hp : ∀ p ∈ r.parts, p.InFile (c.out.world.content path)) :
    ∃ c', c.sendRanges path r = some c' ∧
      queued c' = queued c ++ r.parts.flatMap (RangePart.bytes (c.out.world.content path)) ∧
      (r.parts = [] → c'.out.writeQueue = c.out.writeQueue) ∧ c'.out.world = c.out.world ∧
      c'.httpStatus = if r.ok then 206 else if r.unsatisfiable then 416 else c.httpStatus := by
  obtain ⟨cq, heq, hext⟩ := rangeParts_content h hp
  have hnil : r.parts = [] → cq = c.out.writeQueue := by
    intro hnil
    rw [hnil] at heq
    exact (congrArg (fun c => c.out.writeQueue) (Option.some.inj heq)).symm
  unfold Con.sendRanges
  rw [heq]
  cases hok : r.ok with
  | true => exact ⟨_, rfl, hext.content, hnil, rfl, rfl⟩
  | false =>
    cases hun : r.unsatisfiable with
    | true => exact ⟨_, rfl, hext.content, hnil, rfl, rfl⟩
    | false => exact ⟨_, rfl, hext.content, hnil, rfl, rfl⟩

theorem sendWhole_eq (sf : SendFile) {c : Con} (h : Open c.out) (hsize : sf.size = fileSize c.out.world sf.path)
    (hopen : (opens c.out.world sf.path sf.fd).isSome) :
    ∃ c', c.sendWhole sf = some c' ∧ queued c' = queued c ++ c.out.world.content sf.path ∧ c'.httpStatus = 200 := by
  obtain ⟨fd, hfd⟩ := Option.isSome_iff_exists.mp hopen
  unfold Con.sendWhole
  by_cases hzero : sf.size = 0
  · rw [if_pos hzero]
    have hnil : c.out.world.content sf.path = [] := List.eq_nil_of_length_eq_zero (hsize.symm.trans hzero)
    exact ⟨_, rfl, by rw [hnil, List.append_nil]; rfl, rfl⟩
  · rw [if_neg hzero]
    have happ : ∃ out, c.out.httpChunkAppendFile sf.path sf.fd = some (true, out) := by
      obtain ⟨ch, cq, hcq, -⟩ := appendFileFd_spec h.good.sound.wf sf.path fd 0 (fun h0 => hzero (hsize.trans h0))
      refine ⟨{ c.out.openedFile fd with writeQueue := cq }, ?_⟩
      unfold httpChunkAppendFile
      rw [hfd]
      dsimp only
      rw [if_pos fun h0 => hzero (hsize.trans h0.symm)]
      simp only [httpChunkAppendFileFdRange, beginChunk, endChunk, openedFile, h.chunked, Bool.false_eq_true, if_false,
        Option.bind_eq_bind, Option.bind_some]
      rw [hcq]
      simp
    obtain ⟨out, hout⟩ := happ
    obtain ⟨ps, ha, hps, -⟩ := httpChunkAppendFile_appends h.good hout
    rw [hout]
    refine ⟨_, rfl, ?_, rfl⟩
    rw [if_pos hopen] at hps
    have hstream := ha.stream
    rw [(h.appends ha).stream, h.stream, h.chunked] at hstream
    exact hstream.trans (congrArg _ hps)

/-- The header fields do not matter for what is queued, nor for the status. -/
theorem withFields (fields : Headers) (c : Con) :
    (fields.foldl (fun c ds => c.responseHeaderOverwrite ds.key ds.value) c).out = c.out ∧
    (fields.foldl (fun c ds => c.responseHeaderOverwrite ds.key ds.value) c).httpStatus = c.httpStatus := by
  induction fields generalizing c with
  | nil => exact ⟨rfl, rfl⟩
  | cons ds fields ih => exact ih _

/-- **Without a range request, the whole file is sent.** -/
theorem send_whole (h : Servable f c) (hnone : f.rangeValue c = none) :
    ∃ c', f.send c = some c' ∧ Answered f c c' := by
  obtain ⟨hout, -⟩ := withFields (f.fields c) c
  have hcachable : (f.sendFile c).cachable = .goOn := by
    show (if f.allowCaching c then f.cachable else .goOn) = _
    split
    · rename_i hallow
      exact h.cachable hallow
    · rfl
  obtain ⟨c', hsend, hqueued, hstatus⟩ := sendWhole_eq (f.sendFile c)
    (c := (f.fields c).foldl (fun c ds => c.responseHeaderOverwrite ds.key ds.value) c) (hout ▸ h.unsent)
    (hout ▸ h.size) (hout ▸ h.opened)
  have hranges : (f.sendFile c).ranges = none := by
    show (f.rangeValue c).map _ = none
    rw [hnone]
    rfl
  refine ⟨c', ?_, Or.inr (Or.inr ⟨Or.inr hstatus, ?_⟩)⟩
  · unfold send Con.httpResponseSendFile
    rw [show (f.sendFile c).entry = .regular from h.regular, hcachable, hranges]
    exact hsend
  · rw [hqueued, queued, hout]
    rfl

/-- **What a range request leaves behind**: the parts in the queue, and the status. -/
structure SentRanges (f : StaticFile) (c : Con) (r : Ranges) (c' : Con) : Prop where
  queued : queued c' = queued c ++ r.parts.flatMap (RangePart.bytes (c.out.world.content f.path))
  kept : r.parts = [] → c'.out.writeQueue = c.out.writeQueue
  world : c'.out.world = c.out.world
  status : c'.httpStatus = if r.ok then 206 else if r.unsatisfiable then 416 else c.httpStatus

theorem send_ranges (h : Servable f c) {value : Bytes} (hvalue : f.rangeValue c = some value) :
    ∃ c', f.send c = some c' ∧ SentRanges f c (httpResponseParseRange (f.typeValue c) f.size value) c' := by
  obtain ⟨hout, hstatus⟩ := withFields (f.fields c) c
  have hcachable : (f.sendFile c).cachable = .goOn := by
    show (if f.allowCaching c then f.cachable else .goOn) = _
    split
    · rename_i hallow
      exact h.cachable hallow
    · rfl
  have hended := parseRange_ended (f.typeValue c) f.size value
  have hin := hended.inFile (c.out.world.content f.path) h.size
  obtain ⟨c', hsend, hrest⟩ := sendRanges_eq f.path (httpResponseParseRange (f.typeValue c) f.size value)
    (c := (f.fields c).foldl (fun c ds => c.responseHeaderOverwrite ds.key ds.value) c) (hout ▸ h.unsent.good.sound)
    (hout ▸ hin)
  have hranges : (f.sendFile c).ranges = some (httpResponseParseRange (f.typeValue c) f.size value) := by
    show (f.rangeValue c).map _ = _
    rw [hvalue]
    rfl
  refine ⟨c', ?_, ?_⟩
  · unfold send Con.httpResponseSendFile
    rw [show (f.sendFile c).entry = .regular from h.regular, hcachable, hranges]
    exact hsend
  · rw [StaticFile.queued, StaticFile.queued, hout, hstatus] at hrest
    exact ⟨hrest.1, hrest.2.1, hrest.2.2.1, hrest.2.2.2⟩

section
variable {value : Bytes} {abs : List (Nat × Nat)} {stop : Stop} {r : Ranges} {m : Bool}

/-- A range request is only looked at when the status is that of a success. -/
theorem rangeValue_status (hvalue : f.rangeValue c = some value) : c.httpStatus = 0 ∨ c.httpStatus = 200 := by
  unfold rangeValue at hvalue
  split at hvalue
  · rename_i hcond
    simp only [success, Bool.and_eq_true, Bool.or_eq_true, beq_iff_eq] at hcond
    exact hcond.1.1.2
  · cases hvalue

theorem SentRanges.kept_iff (hs : SentRanges f c r c') (hsize : f.size = (c.out.world.content f.path).length)
    (hended : Ended (f.typeValue c) f.size m [] (abs, stop) r) (hlt : ∀ ab ∈ abs, ab.1 ≤ ab.2 ∧ ab.2 < f.size)
    (hok : r.ok = false) : c'.out.writeQueue = c.out.writeQueue ↔ abs = [] := by
  constructor
  · intro hq
    have hsame : StaticFile.queued c' = StaticFile.queued c := by rw [StaticFile.queued, hq, hs.world, StaticFile.queued]
    have hnil := hs.queued
    rw [hsame, hended.bytes, hok, if_neg (by simp), List.append_nil] at hnil
    have hbytes := List.self_eq_append_right.mp hnil
    rw [List.flatMap_eq_nil_iff] at hbytes
    by_contra hne
    obtain ⟨ab, hab⟩ := List.exists_mem_of_ne_nil _ hne
    obtain ⟨hle, hltab⟩ := hlt ab hab
    exact slice_ne_nil hle (hsize ▸ hltab) (List.append_eq_nil_iff.mp (hbytes ab hab)).2
  · rintro rfl
    apply hs.kept
    rw [hended.parts, hok]
    simp

theorem walk_empty {es : List Bytes} (hw : walk 0 es = (abs, stop)) : abs = [] := by
  by_contra hne
  obtain ⟨ab, hab⟩ := List.exists_mem_of_ne_nil _ hne
  have hlt := (walk_lt 0 es ab (by rw [hw]; exact hab)).2
  exact absurd hlt (Nat.not_lt_zero _)

theorem walk_minus {size : Nat} {v : Bytes} (hw : walk size (elements v) = (abs, stop)) (hstop : ∀ rest, stop ≠ .done rest) :
    chr '-' ∈ v := by
  by_contra hnot
  have hnone : ¬ ∃ e ∈ elements v, chr '-' ∈ e := fun h => hnot ((mem_elements (by decide) (Nat.le_refl _)).mpr h)
  rw [walk_noMinus size hnone] at hw
  exact hstop _ (Prod.mk.inj hw).2.symm

theorem rangeBody_taken {size : Nat} {es rest : List Bytes} {v contentType file : Bytes} (hes : es = elements v)
    (hw : walk size es = (abs, .done rest)) (ht : AllTaken size es) (hsize : size = file.length) :
    RangeBody contentType file abs
      ((abs.flatMap fun ab =>
          (if decide (1 < es.length ∧ chr '-' ∈ v) then partHeader contentType ab.1 ab.2 size else []) ++ slice file ab) ++
        (if decide (1 < es.length ∧ chr '-' ∈ v) then boundaryEnd else [])) := by
  have hne := ((taken_done hw).1 ht).2
  have hminus : chr '-' ∈ v := by
    obtain ⟨taken, rest', heq, hne', htaken', -⟩ := ht
    obtain ⟨e, he⟩ := List.exists_mem_of_ne_nil _ hne'
    refine (mem_elements (by decide) (Nat.le_refl _)).mpr ⟨e, ?_, positions_minus (htaken' e he)⟩
    rw [← hes, heq]
    exact List.mem_append_left rest' he
  by_cases hlen : 1 < es.length
  · simp only [hlen, hminus, and_self, decide_true, if_true]
    exact Or.inr ⟨hne, by rw [hsize]⟩
  · -- a single element is sent without a boundary
    obtain ⟨taken, heq, htaken, -⟩ := walk_done hw
    have hle : taken.length ≤ 1 := by
      have := congrArg List.length heq
      rw [List.length_append] at this
      omega
    simp only [hlen, false_and, decide_false, Bool.false_eq_true, if_false, List.nil_append, List.append_nil]
    match taken, htaken, hle with
    | [], htaken, _ =>
      cases htaken
      exact absurd rfl hne
    | [e], htaken, _ =>
      rw [List.mapM_cons] at htaken
      obtain ⟨ab, -, htaken⟩ := Option.bind_eq_some_iff.mp htaken
      cases htaken
      exact Or.inl ⟨ab, rfl, List.append_nil _⟩

/-- The condition for one value of the field. -/
def ValueFits (size : Nat) (v : Bytes) : Prop :=
  AllTaken size (elements v) ∨ (∃ e es, elements v = e :: es ∧ Unsatisfiable size e) ∨ (size = 0 ∧ chr '-' ∈ v)

theorem walk_first {size : Nat} {es : List Bytes} (hw : walk size es = (abs, stop))
    (h : ∃ e es', es = e :: es' ∧ Unsatisfiable size e) : abs = [] ∧ stop = .unsatisfiable := by
  obtain ⟨e, es', rfl, hun⟩ := h
  rw [walk_unsatisfiable hun] at hw
  exact ⟨(Prod.mk.inj hw).1.symm, (Prod.mk.inj hw).2.symm⟩

/-- **The loop ends well**: the answer is 206, with what is selected if all is taken. -/
theorem answered_done {rest : List Bytes} (hvalue : f.rangeValue c = some value)
    (hsize : f.size = (c.out.world.content f.path).length) (hs : SentRanges f c r c')
    (hw : walk f.size (elements (cstr value)) = (abs, .done rest))
    (hended : Ended (f.typeValue c) f.size (decide (1 < (elements (cstr value)).length ∧ chr '-' ∈ cstr value)) []
      (abs, .done rest) r) : Answered f c c' ↔ ValueFits f.size (cstr value) := by
  have hok : r.ok = true := hended.ok.mpr ⟨rest, rfl⟩
  have hstatus := hs.status
  rw [hok, if_pos rfl] at hstatus
  constructor
  · rintro (⟨-, v, abs', body, hv, hsel, hbody, -⟩ | h416 | ⟨h0, -⟩)
    · rw [hvalue] at hv
      cases hv
      refine Or.inl ((taken_done hw).2 abs' hsel ?_)
      rcases hbody with ⟨ab, rfl, -⟩ | ⟨hne, -⟩
      · exact List.cons_ne_nil _ _
      · exact hne
    · omega
    · omega
  · intro hcond
    have ht : AllTaken f.size (elements (cstr value)) := by
      rcases hcond with ht | hfirst | ⟨hzero, hminus⟩
      · exact ht
      · cases (walk_first hw hfirst).2
      · obtain ⟨taken, heq, htk, hno⟩ := walk_done hw
        obtain ⟨e, he, hem⟩ := (mem_elements (by decide) (Nat.le_refl _)).mp hminus
        rw [heq] at he
        rcases List.mem_append.mp he with he | he
        · obtain ⟨ab, hab⟩ := Option.isSome_iff_exists.mp (Traverse.isSome htk e he)
          have := (positions_lt hab).2
          omega
        · exact absurd ⟨e, he, hem⟩ hno
    refine Or.inl ⟨hstatus, value, abs, _, hvalue, ((taken_done hw).1 ht).1, ?_, hs.queued⟩
    rw [hended.bytes, hok]
    simp only [and_true]
    exact rangeBody_taken rfl hw ht hsize

/-- **An error without a status**: nothing is sent, and the answer is a success. -/
theorem answered_error (hvalue : f.rangeValue c = some value) (hsize : f.size = (c.out.world.content f.path).length)
    (hs : SentRanges f c r c') (hw : walk f.size (elements (cstr value)) = (abs, .error)) (hok : r.ok = false)
    (hun : r.unsatisfiable = false) (hkept : c'.out.writeQueue = c.out.writeQueue ↔ abs = []) :
    Answered f c c' ∧ c'.out.writeQueue = c.out.writeQueue ↔ ValueFits f.size (cstr value) := by
  have hstatus : c'.httpStatus = c.httpStatus := by
    rw [hs.status, hok, hun]
    rfl
  have hsuccess := rangeValue_status hvalue
  have hsame : c'.out.writeQueue = c.out.writeQueue → queued c' = queued c := fun hq => by
    rw [queued, hq, hs.world, queued]
  constructor
  · rintro ⟨⟨h206, -⟩ | h416 | ⟨-, hwhole⟩, hq⟩
    · omega
    · omega
    · rw [hsame hq] at hwhole
      have hnil := List.self_eq_append_right.mp hwhole
      refine Or.inr (Or.inr ⟨by rw [hsize, hnil]; rfl, ?_⟩)
      exact walk_minus hw nofun
  · intro hcond
    have hzero : f.size = 0 := by
      rcases hcond with ht | hfirst | ⟨hzero, -⟩
      · obtain ⟨rest, hrest⟩ := walk_taken ht
        rw [hw] at hrest
        cases hrest
      · cases (walk_first hw hfirst).2
      · exact hzero
    have hq := hkept.mpr (walk_empty (hzero ▸ hw))
    have hfile : c.out.world.content f.path = [] := List.eq_nil_of_length_eq_zero (hsize.symm.trans hzero)
    refine ⟨Or.inr (Or.inr ⟨hstatus ▸ hsuccess, ?_⟩), hq⟩
    rw [hsame hq, hfile, List.append_nil]

/-- **A range that is refused**: the answer is 416. -/
theorem answered_unsatisfiable (hs : SentRanges f c r c')
    (hw : walk f.size (elements (cstr value)) = (abs, .unsatisfiable)) (hok : r.ok = false)
    (hun : r.unsatisfiable = true) (hkept : c'.out.writeQueue = c.out.writeQueue ↔ abs = []) :
    Answered f c c' ∧ c'.out.writeQueue = c.out.writeQueue ↔ ValueFits f.size (cstr value) := by
  have hstatus : c'.httpStatus = 416 := by
    rw [hs.status, hok, hun]
    rfl
  constructor
  · rintro ⟨-, hq⟩
    rw [hkept.mp hq] at hw
    exact Or.inr (Or.inl (walk_refused hw))
  · intro hcond
    refine ⟨Or.inr (Or.inl hstatus), hkept.mpr ?_⟩
    rcases hcond with ht | hfirst | ⟨hzero, -⟩
    · obtain ⟨rest, hrest⟩ := walk_taken ht
      rw [hw] at hrest
      cases hrest
    · exact (walk_first hw hfirst).1
    · exact walk_empty (hzero ▸ hw)

end

/-- **Every element of the field is a range of the file, or the first one is refused, or the file is empty.** -/
def RangesFit (f : StaticFile) (c : Con) : Prop := ∀ value, f.rangeValue c = some value → ValueFits f.size (cstr value)

/-- **The answer is one of the three, and a failed parse leaves the queue as it was, exactly if the ranges fit.** -/
theorem send_answered_iff (h : Servable f c) :
    ∃ c', f.send c = some c' ∧ (Answered f c c' ∧ QueueKept f c c' ↔ RangesFit f c) := by
  cases hvalue : f.rangeValue c with
  | none =>
    have hnone : ∀ value, f.rangeValue c ≠ some value := fun value => by
      rw [hvalue]
      nofun
    obtain ⟨c', hsend, hans⟩ := send_whole h hvalue
    exact ⟨c', hsend, iff_of_true ⟨hans, fun value hv => absurd hv (hnone value)⟩ fun value hv => absurd hv (hnone value)⟩
  | some value =>
    obtain ⟨c', hsend, hs⟩ := send_ranges h hvalue
    have honly : ∀ {p : Bytes → Prop}, (∀ v, f.rangeValue c = some v → p v) ↔ p value := by
      intro p
      rw [hvalue]
      simp
    refine ⟨c', hsend, ?_⟩
    unfold QueueKept RangesFit
    rw [honly, honly]
    have hended := parseRange_ended (f.typeValue c) f.size value
    have hlt := walk_lt f.size (elements (cstr value))
    generalize httpResponseParseRange (f.typeValue c) f.size value = r at hs hended
    cases hw : walk f.size (elements (cstr value)) with
    | mk abs stop =>
      rw [hw] at hended hlt
      have hfails : (∀ rest, stop ≠ .done rest) → r.ok = false := fun hstop => Bool.eq_false_iff.mpr fun hr => by
        obtain ⟨rest, hrest⟩ := hended.ok.mp hr
        exact hstop rest hrest
      cases stop with
      | done rest =>
        have hok : r.ok = true := hended.ok.mpr ⟨rest, rfl⟩
        have hkept : (r.ok = false → c'.out.writeQueue = c.out.writeQueue) ↔ True := by simp [hok]
        rw [hkept, and_true]
        exact answered_done hvalue h.size hs hw hended
      | error =>
        have hok := hfails nofun
        have hun : r.unsatisfiable = false := Bool.eq_false_iff.mpr fun hr => by cases hended.unsatisfiable.mp hr
        rw [forall_prop_of_true hok]
        exact answered_error hvalue h.size hs hw hok hun (hs.kept_iff h.size hended hlt hok)
      | unsatisfiable =>
        have hok := hfails nofun
        rw [forall_prop_of_true hok]
        exact answered_unsatisfiable hs hw hok (hended.unsatisfiable.mpr rfl) (hs.kept_iff h.size hended hlt hok)

def rangeWorld : World := ⟨fun p => if p = ascii "/12345.txt" then some (ascii "12345\n") else none, fun _ => none⟩

def rangeCon : Con where
  reply := .init
  lengthReset := false
  out := { sampleResponse with world := rangeWorld }
  direct := true
  hctx := false
  sendContentBody := false
  fileStarted := false
  httpMethod := some .get
  uriPath := ascii "/12345.txt"
  errorHandlerSavedStatus := 0
  errorHandlerSavedMethod := none
  bytesHeader := 0

def textFile (range : Bytes) : StaticFile where
  entry := .regular
  path := ascii "/12345.txt"
  fd := some 9
  size := 6
  contentType := ascii "text/plain"
  etag := []
  mutated := []
  physicalEtag := []
  mtime := ascii "Thu, 01 Jan 1970 00:00:00 GMT"
  etagFlags := false
  rangeRequests := true
  cachable := .goOn
  httpRange := some range
  ifRange := none

theorem textFile_servable (range : Bytes) : Servable (textFile range) rangeCon where
  regular := rfl
  cachable := fun _ => rfl
  size := by
    show 6 = fileSize rangeWorld (ascii "/12345.txt")
    decide
  opened := by
    show (opens rangeWorld (ascii "/12345.txt") (some 9)).isSome = true
    decide
  unsent := ⟨⟨sound_nil ⟨nofun, nofun⟩ rfl, fun _ => rfl⟩, rfl, rfl⟩

theorem send_answered_iff_sample : ∃ c', (textFile (ascii "0-1,3-4")).send rangeCon = some c' ∧
    (Answered (textFile (ascii "0-1,3-4")) rangeCon c' ∧ QueueKept (textFile (ascii "0-1,3-4")) rangeCon c' ↔
      RangesFit (textFile (ascii "0-1,3-4")) rangeCon) :=
  send_answered_iff (textFile_servable (ascii "0-1,3-4"))

/-- **A range that cannot be read** leaves the status as it is, and nothing of the file is sent. -/
theorem range_truncated : Servable (textFile (ascii "0--")) rangeCon ∧
    ∃ c', (textFile (ascii "0--")).send rangeCon = some c' ∧ c'.out.fileFinished = true ∧
      ¬ Answered (textFile (ascii "0--")) rangeCon c' := by
  have hsend : ((textFile (ascii "0--")).send rangeCon).map (fun c' =>
      (c'.out.fileFinished, c'.httpStatus, queued c')) = some (true, 0, []) := by decide
  obtain ⟨c', hsend, heq⟩ := Option.map_eq_some_iff.mp hsend
  obtain ⟨hfinished, hrest⟩ := Prod.mk.inj heq
  obtain ⟨hstatus, hqueued⟩ := Prod.mk.inj hrest
  refine ⟨textFile_servable _, c', hsend, hfinished, ?_⟩
  rintro (⟨h206, -⟩ | h416 | ⟨-, hwhole⟩)
  · omega
  · omega
  · rw [hqueued] at hwhole
    revert hwhole
    decide

end StaticFile
end Respond
end Lighttpd
