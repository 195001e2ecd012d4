import Lighttpd.Base.Strtol
import Lighttpd.Lib.Traverse
import Lighttpd.Response.Open
import Lighttpd.Uri.Target

/-!
# Files that a backend names (`http-header-glue.c`, `mod_fastcgi.c`, `mod_cgi.c`)

A backend answers with the name of a file in `X-Sendfile` or `X-LIGHTTPD-send-file`, or with several names and ranges in
`X-Sendfile2`. With `x-sendfile-docroot`, only files below the directories that it lists are sent.

- `underXdocroot_iff`: what the comparison with the directories decides;
- `httpResponseXsendfile_addsOnly`: the file that is sent is the one that has been named;
- `parseSendfile2_step`: what the parser of `X-Sendfile2` makes of one name;
- `xsendfile_confined`: the two kinds of header fields.
-/

namespace Lighttpd.Respond

open Request Backend Chunkqueue Uri PathName

/-! ## The source -/

/-- `x-sendfile-docroot`, as `mod_cgi_set_defaults` and `mod_fastcgi_set_defaults` make it of the entries of the
configuration. -/
def xsendfileDocroot (entries : List Bytes) : Option (List Bytes) :=
  entries.mapM fun entry =>
    if entry.head? ≠ some (chr '/') then none else some (appendSlash (pathSimplify entry))

def sendfilePath (forceLowercase : Bool) (path : Bytes) : Bytes :=
  let path := pathSimplify (urldecodePath path)
  if forceLowercase then path.map toLower else path

/-- The path begins with one of the directories: the same loop in both functions. -/
def underXdocroot (forceLowercase : Bool) (xdocroot : List Bytes) (path : Bytes) : Bool :=
  xdocroot.any fun d =>
    d.length ≤ path.length &&
      -- `memcmp`, or `strncasecmp` of strings without a NUL
      if !forceLowercase then path.take d.length == d else (path.take d.length).map toLower == d.map toLower

/-- What `stat_cache_get_entry` and `open` say of a file, and what `http_response_send_file` finds. -/
structure FileEnv where
  stat : Path → Option (Bool × Nat)
  openFd : Path → Option Fd
  sendFile : Con → Path → SendFile
  sendFile_path : ∀ c path, (sendFile c path).path = path

def xsendfile (env : FileEnv) (forceLowercase : Bool) (xdocroot : List Bytes) (path : Bytes) (c : Con) : Option Con :=
  let path := sendfilePath forceLowercase path
  let valid := xdocroot.isEmpty || underXdocroot forceLowercase xdocroot path
  c.httpResponseXsendfile (env.sendFile (Con.forgetLength { c with fileStarted := true }) path) valid

/-- `errno` after `strtoll`: the number is out of range. -/
def strtollRange (s : Bytes) : Bool :=
  let (neg, t) := readSign ((cstr s).dropWhile isspace)
  let n := (readDigits 10 0 t).1
  if neg then longMax + 1 < n else longMax < n

def isRangeChar (c : Byte) : Bool := c != chr ' ' && c != chr ','

/-- The range of a file of `X-Sendfile2`, from its first to its last byte. -/
def sendfile2Range (size : Nat) (range : Bytes) : Option (Int × Int) :=
  let pos := range.dropWhile isRangeChar
  let (beginRange, rpos) := strtol 10 range
  if strtollRange range ∨ beginRange < 0 ∨ rpos = range then none
  else if rpos.head? ≠ some (chr '-') then none
  else if rpos.tail = pos then some (beginRange, (size : Int) - 1)
  else
    let (endRange, end') := strtol 10 rpos.tail
    if strtollRange rpos.tail ∨ endRange < 0 ∨ end' = rpos.tail then none
    else if end' ≠ pos then none
    else some (beginRange, endRange)

def behindRange (range : Bytes) : Bytes := (range.dropWhile isRangeChar).dropWhile (· == chr ' ')

def nextFile (pos : Bytes) : Bytes := if pos.head? = some (chr ',') then pos.tail else pos

theorem length_behindRange (range : Bytes) : (behindRange range).length ≤ range.length :=
  (List.dropWhile_suffix _).length_le.trans (List.dropWhile_suffix _).length_le

theorem length_nextFile (range : Bytes) : (nextFile (behindRange range)).length ≤ range.length := by
  have hbehind := length_behindRange range
  unfold nextFile
  split_ifs
  · rw [List.length_tail]
    omega
  · exact hbehind

/-- The loop over the files of `X-Sendfile2`, for the rest `pos` of the value. -/
def parseSendfile2 (env : FileEnv) (forceLowercase : Bool) (xdocroot : List Bytes) (pos : Bytes) : List Sendfile2 :=
  match _hpos : pos.dropWhile (· == chr ' ') with
  | [] => []
  | c :: cs =>
    match (c :: cs).idxOf? (chr ' ') with
    | none => [.refused 502]
    | some k =>
      let range := (c :: cs).drop (k + 1)
      let path := sendfilePath forceLowercase ((c :: cs).take k)
      if !xdocroot.isEmpty && !underXdocroot forceLowercase xdocroot path then [.refused 403]
      else match env.stat path with
        | none => [.refused 404]
        | some (isReg, size) =>
          if !isReg then [.refused 502]
          else match sendfile2Range size range with
            | none => [.refused 502]
            | some (beginRange, endRange) =>
              if behindRange range ≠ [] ∧ (behindRange range).head? ≠ some (chr ',') then [.refused 502]
              else
                let rangeLen := endRange - beginRange + 1
                if rangeLen < 0 then [.refused 502]
                else
                  .range path (env.openFd path) beginRange.toNat rangeLen.toNat ::
                    parseSendfile2 env forceLowercase xdocroot (nextFile (behindRange range))
termination_by pos.length
decreasing_by
  have hle : (c :: cs).length ≤ pos.length := _hpos ▸ (List.dropWhile_suffix _).length_le
  have hnext := length_nextFile ((c :: cs).drop (k + 1))
  rw [List.length_drop] at hnext
  rw [List.length_cons] at *
  omega

/-- `X-Sendfile2`: the status with which the parser gives up or the length of all files, and the write queue. -/
def sendfile2 (env : FileEnv) (forceLowercase : Bool) (xdocroot : List Bytes) (value : Bytes) (out : Response) :
    Nat × Response × Int :=
  sendfile2Files out 0 (parseSendfile2 env forceLowercase xdocroot (cstr value))

/-- **The names in a value of `X-Sendfile2`**, whatever the directories are: after blanks, a name up to a blank and a
range up to a blank or a comma; then blanks, and a comma before the next name. -/
def sendfile2Names (value : Bytes) : List Bytes :=
  match _hvalue : value.dropWhile (· == chr ' ') with
  | [] => []
  | c :: cs =>
    match (c :: cs).idxOf? (chr ' ') with
    | none => []
    | some k =>
      let behind := behindRange ((c :: cs).drop (k + 1))
      if behind.head? = some (chr ',') then (c :: cs).take k :: sendfile2Names behind.tail else [(c :: cs).take k]
termination_by value.length
decreasing_by
  have hle : (c :: cs).length ≤ value.length := _hvalue ▸ (List.dropWhile_suffix _).length_le
  have hbehind := length_behindRange ((c :: cs).drop (k + 1))
  rw [List.length_drop] at hbehind
  rw [List.length_tail]
  rw [List.length_cons] at *
  omega

/-! ## The directories -/

/-- The same letters, if the names of files are in lower case. -/
def Same (forceLowercase : Bool) (a b : Bytes) : Prop :=
  if forceLowercase then a.map toLower = b.map toLower else a = b

/-- **The path is below one of the entries**: a `/` of it stands behind the directory. -/
def Confined (forceLowercase : Bool) (entries : List Bytes) (path : Bytes) : Prop :=
  ∃ entry ∈ entries, ∃ dir rest, path = dir ++ chr '/' :: rest ∧
    Same forceLowercase (dir ++ [chr '/']) (appendSlash (pathSimplify entry))

variable {s : Bytes} {forceLowercase : Bool} {fn : Path}

theorem appendSlash_concat (h : s ≠ []) : ∃ dir, appendSlash s = dir ++ [chr '/'] := by
  unfold appendSlash
  split_ifs with hlast
  · exact ⟨s, rfl⟩
  · have hlen : 0 < s.length := List.length_pos_iff.mpr h
    exact List.getLast?_eq_some_iff.mp (by_contra fun hne => hlast ⟨hlen, hne⟩)

/-- A simplified path begins with a `/`, and it has no dots. -/
theorem pathSimplify_clean (h : s ≠ []) : Clean (chr '/') (chr '.') (pathSimplify s) := by
  rw [pathSimplify_eq h]
  exact clean_normal (by simp) fun t ht => (mem_rootSegments ht).1

theorem pathSimplify_ne_nil (h : s ≠ []) : pathSimplify s ≠ [] := by
  intro hnil
  have hroot := (pathSimplify_clean h).rooted
  rw [hnil] at hroot
  cases hroot

theorem xsendfileDocroot_mem {entries roots : List Bytes} (h : xsendfileDocroot entries = some roots) :
    (∀ entry ∈ entries, entry ≠ []) ∧
      ∀ d, d ∈ roots ↔ ∃ entry ∈ entries, d = appendSlash (pathSimplify entry) := by
  have hone : ∀ entry d, (if entry.head? ≠ some (chr '/') then none else some (appendSlash (pathSimplify entry))) = some d →
      entry ≠ [] ∧ d = appendSlash (pathSimplify entry) := by
    intro entry d hd
    split_ifs at hd with hslash
    refine ⟨?_, (Option.some.inj hd).symm⟩
    rintro rfl
    exact hslash nofun
  refine ⟨fun entry hentry => ?_, fun d => ?_⟩
  · obtain ⟨d, hd⟩ := Option.isSome_iff_exists.mp (Traverse.isSome h entry hentry)
    exact (hone entry d hd).1
  · rw [Traverse.mem_iff h]
    constructor
    · rintro ⟨entry, hentry, hd⟩
      exact ⟨entry, hentry, (hone entry d hd).2⟩
    · rintro ⟨entry, hentry, rfl⟩
      obtain ⟨d, hd⟩ := Option.isSome_iff_exists.mp (Traverse.isSome h entry hentry)
      exact ⟨entry, hentry, by rw [hd, (hone entry d hd).2]⟩

theorem same_concat {t dir : Bytes} (h : Same forceLowercase s t)
    (ht : t = dir ++ [chr '/']) : ∃ front, s = front ++ [chr '/'] := by
  subst ht
  unfold Same at h
  split_ifs at h
  · rw [List.map_append] at h
    obtain ⟨front, back, rfl, -, hback⟩ := List.map_eq_append_iff.mp h
    obtain ⟨c, rest, rfl, hc, hrest⟩ := List.map_eq_cons_iff.mp hback
    rw [List.map_eq_nil_iff.mp hrest, (toLower_eq_iff (by decide)).mp hc]
    exact ⟨front, rfl⟩
  · exact ⟨dir, h⟩

theorem same_length {t : Bytes} (h : Same forceLowercase s t) : s.length = t.length := by
  unfold Same at h
  split_ifs at h
  · simpa using congrArg List.length h
  · rw [h]

/-- **What the comparison decides.** -/
theorem underXdocroot_iff {entries roots : List Bytes} (h : xsendfileDocroot entries = some roots)
    (path : Bytes) : underXdocroot forceLowercase roots path = true ↔ Confined forceLowercase entries path := by
  have hsame : ∀ d : Bytes, ((if !forceLowercase then path.take d.length == d
      else (path.take d.length).map toLower == d.map toLower) = true) ↔ Same forceLowercase (path.take d.length) d := by
    intro d
    unfold Same
    cases forceLowercase <;> simp
  obtain ⟨hne, hmem⟩ := xsendfileDocroot_mem h
  unfold underXdocroot Confined
  simp only [List.any_eq_true, Bool.and_eq_true, decide_eq_true_eq, hsame]
  constructor
  · rintro ⟨d, hd, -, heq⟩
    obtain ⟨entry, hentry, rfl⟩ := (hmem d).mp hd
    obtain ⟨dir, hdir⟩ := appendSlash_concat (pathSimplify_ne_nil (hne entry hentry))
    obtain ⟨front, hfront⟩ := same_concat heq hdir
    refine ⟨entry, hentry, front, path.drop (appendSlash (pathSimplify entry)).length, ?_, ?_⟩
    · rw [List.append_cons, ← hfront, List.take_append_drop]
    · rwa [hfront] at heq
  · rintro ⟨entry, hentry, dir, rest, rfl, heq⟩
    have hlen := same_length heq
    have hcons : dir ++ chr '/' :: rest = (dir ++ [chr '/']) ++ rest := List.append_cons _ _ _
    have htake : (dir ++ chr '/' :: rest).take (appendSlash (pathSimplify entry)).length = dir ++ [chr '/'] := by
      rw [← hlen, hcons, List.take_left]
    refine ⟨_, (hmem _).mpr ⟨entry, hentry, rfl⟩, ?_, by rwa [htake]⟩
    rw [← hlen, hcons]
    exact (List.prefix_append _ _).length_le

/-! ## The write queue -/

/-- Every file in the queue was there before, or is one of these. -/
def AddsOnly (p : Path → Prop) (cq cq' : Chunkqueue) : Prop :=
  ∀ ck ∈ cq'.chunks, ck.type = .fileChunk → ck ∈ cq.chunks ∨ p ck.file.name

namespace AddsOnly
variable {p : Path → Prop} {cq cq₁ cq₂ : Chunkqueue}

theorem refl (cq : Chunkqueue) : AddsOnly p cq cq := fun _ hck _ => .inl hck

theorem trans (h : AddsOnly p cq cq₁) (h' : AddsOnly p cq₁ cq₂) : AddsOnly p cq cq₂ := by
  intro ck hck htype
  rcases h' ck hck htype with hmem | hp
  · exact h ck hmem htype
  · exact .inr hp

theorem mono {q : Path → Prop} (h : AddsOnly p cq cq₁) (hpq : ∀ fn, p fn → q fn) : AddsOnly q cq cq₁ :=
  fun ck hck htype => (h ck hck htype).imp_right (hpq _)

theorem chunk {c : Chunk} (heq : cq.appendChunk c = some cq₁) (hc : c.type = .fileChunk → p c.file.name) :
    AddsOnly p cq cq₁ := by
  obtain ⟨n, -, heq⟩ := Option.bind_eq_some_iff.mp heq
  cases heq
  intro ck hck htype
  rcases List.mem_append.mp hck with hmem | hmem
  · exact .inl hmem
  · rw [List.mem_singleton.mp hmem] at htype ⊢
    exact .inr (hc htype)

theorem getUnusedChunk (cq : Chunkqueue) : cq.getUnusedChunk.2.chunks = cq.chunks := by
  unfold Chunkqueue.getUnusedChunk
  split <;> rfl

theorem ofChunks (h : AddsOnly p cq₁ cq₂) (heq : cq₁.chunks = cq.chunks) : AddsOnly p cq cq₂ := by
  intro ck hck htype
  rw [← heq]
  exact h ck hck htype

theorem appendFile {fn : Path} {offset len : Nat} (heq : cq.appendFile fn offset len = some cq₁) :
    AddsOnly (· = fn) cq cq₁ := by
  unfold Chunkqueue.appendFile at heq
  split_ifs at heq
  · cases heq
    exact refl _
  · exact (chunk (p := (· = fn)) heq fun _ => rfl).ofChunks (getUnusedChunk cq)

theorem appendFileFd {fn : Path} {fd : Fd} {offset len : Nat} (heq : cq.appendFileFd fn fd offset len = some cq₁) :
    AddsOnly (· = fn) cq cq₁ := by
  unfold Chunkqueue.appendFileFd at heq
  split_ifs at heq
  · cases heq
    exact refl _
  · exact (chunk (p := (· = fn)) heq fun _ => rfl).ofChunks (getUnusedChunk cq)

theorem appendBuffer {mem : Buffer} {r : Chunkqueue × Buffer} (heq : cq.appendBuffer mem = some r) :
    AddsOnly p cq r.1 := by
  unfold Chunkqueue.appendBuffer at heq
  split_ifs at heq
  · cases heq
    exact refl _
  · obtain ⟨cq₁, h₁, heq⟩ := Option.bind_eq_some_iff.mp heq
    cases heq
    exact (chunk h₁ fun h => by cases h).ofChunks (getUnusedChunk cq)

theorem appendMem {mem : Bytes} (heq : cq.appendMem mem = some cq₁) : AddsOnly p cq cq₁ := by
  unfold Chunkqueue.appendMem at heq
  split_ifs at heq
  · cases heq
    exact refl _
  · exact (chunk heq fun h => by cases h).ofChunks (getUnusedChunk cq)

end AddsOnly

variable {p : Path → Prop} {r r' : Response}

theorem beginChunk_addsOnly {n : Nat} (h : r.beginChunk n = some r') : AddsOnly p r.writeQueue r'.writeQueue := by
  unfold Response.beginChunk at h
  split_ifs at h
  · simp only [Response.httpChunkAppendLen, Option.bind_eq_bind] at h
    obtain ⟨⟨cq, b⟩, hcq, h⟩ := Option.bind_eq_some_iff.mp h
    cases h
    exact AddsOnly.appendBuffer hcq
  · cases h
    exact .refl _

theorem endChunk_addsOnly (h : r.endChunk = some r') : AddsOnly p r.writeQueue r'.writeQueue := by
  unfold Response.endChunk at h
  split_ifs at h
  · obtain ⟨cq, hcq, h⟩ := Option.bind_eq_some_iff.mp h
    cases h
    exact AddsOnly.appendMem hcq
  · cases h
    exact .refl _

theorem fileFdRange_addsOnly {fd : Fd} {offset len : Nat}
    (h : r.httpChunkAppendFileFdRange fn fd offset len = some r') :
    AddsOnly (· = fn) r.writeQueue r'.writeQueue := by
  simp only [Response.httpChunkAppendFileFdRange, Option.bind_eq_bind] at h
  obtain ⟨r₁, h₁, h⟩ := Option.bind_eq_some_iff.mp h
  obtain ⟨cq, hcq, h⟩ := Option.bind_eq_some_iff.mp h
  exact ((beginChunk_addsOnly h₁).trans (AddsOnly.appendFileFd hcq)).trans (endChunk_addsOnly h)

theorem fileRange_addsOnly {fd : Option Fd} {offset : Nat} {len : Option Nat} {ok : Bool}
    (h : r.httpChunkAppendFileRange fn fd offset len = some (ok, r')) : AddsOnly (· = fn) r.writeQueue r'.writeQueue := by
  unfold Response.httpChunkAppendFileRange at h
  cases hopen : Response.opens r.world fn fd with
  | none =>
    rw [hopen] at h
    cases h
    exact .refl _
  | some fd' =>
    simp only [hopen] at h
    cases len with
    | none =>
      simp only at h
      split at h
      · cases h
        exact .refl _
      · obtain ⟨r₁, h₁, heq⟩ := Option.map_eq_some_iff.mp h
        cases heq
        have hqueue := fileFdRange_addsOnly h₁
        exact hqueue
    | some len =>
      simp only at h
      split at h
      · cases h
        exact .refl _
      · obtain ⟨r₁, h₁, heq⟩ := Option.map_eq_some_iff.mp h
        cases heq
        have hqueue := fileFdRange_addsOnly h₁
        exact hqueue

theorem file_addsOnly {fd : Option Fd} {ok : Bool}
    (h : r.httpChunkAppendFile fn fd = some (ok, r')) : AddsOnly (· = fn) r.writeQueue r'.writeQueue := by
  unfold Response.httpChunkAppendFile at h
  cases hopen : Response.opens r.world fn fd with
  | none =>
    rw [hopen] at h
    cases h
    exact .refl _
  | some fd' =>
    simp only [hopen] at h
    split at h
    · obtain ⟨r₁, h₁, heq⟩ := Option.map_eq_some_iff.mp h
      cases heq
      have hqueue := fileFdRange_addsOnly h₁
      exact hqueue
    · cases h
      exact .refl _

/-! ## `X-Sendfile` -/

variable {c c' : Con}

theorem rangeParts_addsOnly {path : Path} {ps : List RangePart} (h : ps.foldlM (Con.rangePart path) c = some c') :
    AddsOnly (· = path) c.out.writeQueue c'.out.writeQueue := by
  induction ps generalizing c with
  | nil =>
    cases h
    exact .refl _
  | cons part ps ih =>
    rw [List.foldlM_cons] at h
    obtain ⟨c₁, h₁, h⟩ := Option.bind_eq_some_iff.mp h
    refine AddsOnly.trans ?_ (ih h)
    cases part with
    | mem b =>
      obtain ⟨⟨cq, b'⟩, hcq, rfl⟩ := Option.map_eq_some_iff.mp h₁
      exact AddsOnly.appendBuffer hcq
    | file start len =>
      simp only [Con.rangePart] at h₁
      split_ifs at h₁
      obtain ⟨cq, hcq, rfl⟩ := Option.map_eq_some_iff.mp h₁
      exact AddsOnly.appendFile hcq

/-- `http_response_send_file` puts nothing but its file into the queue. -/
theorem sendFile_addsOnly {f : SendFile} (h : c.httpResponseSendFile f = some c') :
    AddsOnly (· = f.path) c.out.writeQueue c'.out.writeQueue := by
  unfold Con.httpResponseSendFile at h
  have hfields := Con.overwriteAll_out f.fields c
  generalize f.fields.foldl (fun c ds => c.responseHeaderOverwrite ds.key ds.value) c = c₀ at h hfields
  rw [← hfields]
  dsimp only at h
  split at h
  · cases h
    exact hfields ▸ .refl _
  · cases h
    exact hfields ▸ .refl _
  · split at h
    · cases h
      exact .refl _
    · cases h
      exact .refl _
    · cases h
      exact .refl _
    · obtain ⟨c₁, h₁, h⟩ := Option.bind_eq_some_iff.mp h
      have hparts := rangeParts_addsOnly h₁
      split_ifs at h
      · cases h
        exact hparts
      · cases h
        exact hparts
      · cases h
        exact hparts
    · unfold Con.sendWhole at h
      split_ifs at h
      · cases h
        exact .refl _
      · obtain ⟨⟨ok, out⟩, hfile, h⟩ := Option.map_eq_some_iff.mp h
        have hqueue := file_addsOnly hfile
        cases ok with
        | true =>
          cases h
          exact hqueue
        | false =>
          cases h
          exact hqueue

theorem forgetLength_out (c : Con) : c.forgetLength.out = c.out := by
  unfold Con.forgetLength
  split_ifs <;> rfl

/-- **A file that is sent is the one that the backend has named.** -/
theorem httpResponseXsendfile_addsOnly {f : SendFile} {valid : Bool} (h : c.httpResponseXsendfile f valid = some c') :
    AddsOnly (· = f.path) c.out.writeQueue c'.out.writeQueue := by
  obtain ⟨c₁, h₁, rfl⟩ := Option.map_eq_some_iff.mp h
  have hsent : AddsOnly (· = f.path) c.out.writeQueue c₁.out.writeQueue := by
    have hout := forgetLength_out { c with fileStarted := true }
    unfold Con.sendValid at h₁
    split_ifs at h₁
    · have hsend := sendFile_addsOnly h₁
      rwa [hout] at hsend
    · cases h₁
      rw [Con.setStatus, hout]
      exact .refl _
  split_ifs
  · exact hsent
  · exact hsent
  · exact hsent

variable {env : FileEnv} {entries roots : List Bytes}

theorem isEmpty_roots (hroots : xsendfileDocroot entries = some roots) (hne : entries ≠ []) : roots.isEmpty = false := by
  obtain ⟨entry, hentry⟩ := List.exists_mem_of_ne_nil _ hne
  have hmem := ((xsendfileDocroot_mem hroots).2 _).mpr ⟨entry, hentry, rfl⟩
  rw [Bool.eq_false_iff, ne_eq, List.isEmpty_iff]
  rintro rfl
  cases hmem

theorem Confined.clean {path : Bytes} (h : Confined forceLowercase entries (sendfilePath forceLowercase path)) :
    Clean (chr '/') (chr '.') (sendfilePath forceLowercase path) := by
  obtain ⟨entry, -, dir, rest, heq, -⟩ := h
  have hne : urldecodePath path ≠ [] := by
    intro hnil
    have hempty : sendfilePath forceLowercase path = [] := by
      unfold sendfilePath
      rw [hnil]
      cases forceLowercase <;> rfl
    rw [hempty] at heq
    simp at heq
  have hclean := pathSimplify_clean hne
  unfold sendfilePath
  dsimp only
  split_ifs
  · exact hclean.map (fun _ => toLower_eq_iff (by decide)) fun _ => toLower_eq_iff (by decide)
  · exact hclean

/-- **A path that is not below a directory**: the queue is left alone, and a status from 300 on is kept. -/
theorem xsendfile_refused (hroots : xsendfileDocroot entries = some roots) (hne : entries ≠ []) {path : Bytes}
    (h : ¬ Confined forceLowercase entries (sendfilePath forceLowercase path)) (c : Con) :
    ∃ c', xsendfile env forceLowercase roots path c = some c' ∧ c'.out.writeQueue = c.out.writeQueue ∧
      c'.httpStatus = if c.httpStatus < 300 then 403 else c.httpStatus := by
  have hunder := Bool.eq_false_of_not_eq_true (mt (underXdocroot_iff hroots _).mp h)
  have hout := forgetLength_out { c with fileStarted := true }
  unfold xsendfile
  simp only [hunder, isEmpty_roots hroots hne, Bool.or_false]
  unfold Con.httpResponseXsendfile Con.sendValid
  refine ⟨_, rfl, ?_⟩
  dsimp only
  by_cases hstatus : c.httpStatus < 300
  · have hforbidden : 400 ≤ ((Con.forgetLength { c with fileStarted := true }).setStatus 403).httpStatus := by
      simp [Con.setStatus, Con.httpStatus]
    rw [if_pos ⟨hforbidden, hstatus⟩, if_pos hstatus]
    exact ⟨congrArg (·.writeQueue) hout, rfl⟩
  · have hkeep : c.httpStatus ≠ 0 ∧ c.httpStatus ≠ 200 := by omega
    rw [if_neg fun h => hstatus h.2, if_pos hkeep, if_neg hstatus]
    exact ⟨congrArg (·.writeQueue) hout, rfl⟩

/-! ## `X-Sendfile2` -/

/-- What a name of `X-Sendfile2` stands for: the decoded and simplified path, which has to be below a directory. -/
def Named (forceLowercase : Bool) (entries : List Bytes) (names : List Bytes) (fn : Path) : Prop :=
  ∃ name ∈ names, fn = sendfilePath forceLowercase name ∧ Clean (chr '/') (chr '.') fn ∧ Confined forceLowercase entries fn

/-- **One turn of the parser.** It gives up, with 403 if and only if the path of the name is not below one of the
directories, or it takes this path and goes on with the other names. -/
theorem parseSendfile2_step (env : FileEnv) (forceLowercase : Bool) (hroots : xsendfileDocroot entries = some roots)
    (hne : entries ≠ []) (pos : Bytes) :
    (sendfile2Names pos = [] ∧ ∀ file ∈ parseSendfile2 env forceLowercase roots pos, file = .refused 502) ∨
    ∃ name names, sendfile2Names pos = name :: names ∧
      ((∃ status, parseSendfile2 env forceLowercase roots pos = [.refused status] ∧ status ≠ 0 ∧
        (status = 403 ↔ ¬ Confined forceLowercase entries (sendfilePath forceLowercase name))) ∨
      ∃ fd offset len pos', parseSendfile2 env forceLowercase roots pos =
          .range (sendfilePath forceLowercase name) fd offset len :: parseSendfile2 env forceLowercase roots pos' ∧
        names = sendfile2Names pos' ∧ Confined forceLowercase entries (sendfilePath forceLowercase name)) := by
  have hconfined : ∀ path, Confined forceLowercase entries path ↔
      (!roots.isEmpty && !underXdocroot forceLowercase roots path) = false := by
    intro path
    rw [← underXdocroot_iff hroots, isEmpty_roots hroots hne]
    simp
  have hother : ∀ {name : Bytes}, Confined forceLowercase entries (sendfilePath forceLowercase name) → ∀ {status},
      status ≠ 403 → (status = 403 ↔ ¬ Confined forceLowercase entries (sendfilePath forceLowercase name)) :=
    fun h _ hstatus => ⟨fun heq => absurd heq hstatus, fun hno => absurd h hno⟩
  rw [parseSendfile2, sendfile2Names]
  split
  · exact .inl ⟨rfl, nofun⟩
  · rename_i c cs _
    cases hidx : (c :: cs).idxOf? (chr ' ') with
    | none => exact .inl ⟨rfl, fun file hfile => List.mem_singleton.mp hfile⟩
    | some k =>
      refine .inr ?_
      dsimp only
      generalize hbehind : behindRange ((c :: cs).drop (k + 1)) = behind
      obtain ⟨names, hnames, hnext⟩ : ∃ names, (if behind.head? = some (chr ',') then
          (c :: cs).take k :: sendfile2Names behind.tail else [(c :: cs).take k]) = (c :: cs).take k :: names ∧
          (¬(behind ≠ [] ∧ behind.head? ≠ some (chr ',')) → names = sendfile2Names (nextFile behind)) := by
        split_ifs with hcomma
        · refine ⟨_, rfl, fun _ => ?_⟩
          rw [nextFile, if_pos hcomma]
        · refine ⟨[], rfl, fun hend => ?_⟩
          obtain rfl : behind = [] := by_contra fun hbehind => hend ⟨hbehind, hcomma⟩
          rw [nextFile, if_neg hcomma, sendfile2Names]
          rfl
      refine ⟨(c :: cs).take k, names, hnames, ?_⟩
      by_cases hunder : Confined forceLowercase entries (sendfilePath forceLowercase ((c :: cs).take k))
      · rw [if_neg (by rw [(hconfined _).mp hunder]; exact Bool.false_ne_true)]
        split
        · exact .inl ⟨404, rfl, by decide, hother hunder (by decide)⟩
        · split
          · exact .inl ⟨502, rfl, by decide, hother hunder (by decide)⟩
          · split
            · exact .inl ⟨502, rfl, by decide, hother hunder (by decide)⟩
            · split_ifs with hend
              · exact .inl ⟨502, rfl, by decide, hother hunder (by decide)⟩
              · exact .inl ⟨502, rfl, by decide, hother hunder (by decide)⟩
              · exact .inr ⟨_, _, _, _, rfl, hnext hend, hunder⟩
      · rw [if_pos (Bool.eq_true_of_not_eq_false (mt (hconfined _).mpr hunder))]
        exact .inl ⟨403, rfl, by decide, fun _ => hunder, fun _ => rfl⟩

/-- **Each file that is put into the queue is one of the names.** -/
theorem parseSendfile2_named (hroots : xsendfileDocroot entries = some roots) (hne : entries ≠ []) (pos : Bytes) :
    ∀ fn fd offset len, .range fn fd offset len ∈ parseSendfile2 env forceLowercase roots pos →
      Named forceLowercase entries (sendfile2Names pos) fn := by
  generalize hnames : sendfile2Names pos = names
  intro fn fd offset len hmem
  induction names generalizing pos with
  | nil =>
    rcases parseSendfile2_step env forceLowercase hroots hne pos with ⟨-, hall⟩ | ⟨_, _, hcons, -⟩
    · cases hall _ hmem
    · rw [hnames] at hcons
      cases hcons
  | cons name names ih =>
    rcases parseSendfile2_step env forceLowercase hroots hne pos with ⟨hnil, -⟩ | ⟨_, _, hcons, hturn⟩
    · rw [hnames] at hnil
      cases hnil
    · rw [hnames] at hcons
      obtain ⟨rfl, rfl⟩ := List.cons.inj hcons
      rcases hturn with ⟨status, heq, -, -⟩ | ⟨fd', offset', len', pos', heq, hrest, hconfined⟩
      · rw [heq] at hmem
        cases List.mem_singleton.mp hmem
      · rw [heq] at hmem
        rcases List.mem_cons.mp hmem with hfile | hmem
        · cases hfile
          exact ⟨name, List.mem_cons_self, rfl, hconfined.clean, hconfined⟩
        · obtain ⟨name', hname', hfn⟩ := ih pos' hrest.symm hmem
          exact ⟨name', List.mem_cons_of_mem _ hname', hfn⟩

/-- **A name behind files that have been queued.** The parser gives up with 403, and nothing more is queued, if and only
if the path of the name is not below one of the directories. -/
theorem parseSendfile2_decided (hroots : xsendfileDocroot entries = some roots) (hne : entries ≠ []) {pos : Bytes} {k : Nat}
    {name : Bytes} (hname : (sendfile2Names pos)[k]? = some name) {out : Response} {length : Nat}
    (hfirst : (sendfile2Files out length ((parseSendfile2 env forceLowercase roots pos).take k)).1 = 0) :
    ((parseSendfile2 env forceLowercase roots pos)[k]? = some (.refused 403) ↔
      ¬ Confined forceLowercase entries (sendfilePath forceLowercase name)) ∧
    (¬ Confined forceLowercase entries (sendfilePath forceLowercase name) →
      sendfile2Files out length (parseSendfile2 env forceLowercase roots pos) =
        (403, (sendfile2Files out length ((parseSendfile2 env forceLowercase roots pos).take k)).2)) := by
  induction k generalizing pos out length with
  | zero =>
    rcases parseSendfile2_step env forceLowercase hroots hne pos with ⟨hnil, -⟩ | ⟨_, _, hcons, hturn⟩
    · rw [hnil] at hname
      cases hname
    · rw [hcons] at hname
      cases hname
      rcases hturn with ⟨status, heq, -, hstatus⟩ | ⟨fd, offset, len, pos', heq, -, hconfined⟩
      · rw [heq, ← hstatus]
        refine ⟨by simp, ?_⟩
        rintro rfl
        rfl
      · rw [heq]
        exact ⟨⟨nofun, fun hno => absurd hconfined hno⟩, fun hno => absurd hconfined hno⟩
  | succ k ih =>
    rcases parseSendfile2_step env forceLowercase hroots hne pos with ⟨hnil, -⟩ | ⟨_, _, hcons, hturn⟩
    · rw [hnil] at hname
      cases hname
    · rw [hcons, List.getElem?_cons_succ] at hname
      rcases hturn with ⟨status, heq, hzero, -⟩ | ⟨fd, offset, len, pos', heq, rfl, -⟩
      · rw [heq] at hfirst
        exact absurd hfirst hzero
      · rw [heq, List.take_succ_cons] at hfirst ⊢
        rw [List.getElem?_cons_succ]
        unfold sendfile2Files at hfirst ⊢
        split_ifs at hfirst ⊢ with hlen
        · exact ih hname hfirst
        · split at hfirst
          · exact ih hname hfirst
          · cases hfirst
          · cases hfirst

theorem sendfile2Files_addsOnly {q : Path → Prop} {files : List Sendfile2} {out : Response} {length : Nat}
    (h : ∀ fn fd offset len, .range fn fd offset len ∈ files → q fn) :
    AddsOnly q out.writeQueue (sendfile2Files out length files).2.1.writeQueue := by
  induction files generalizing out length with
  | nil => exact .refl _
  | cons file files ih =>
    have hrest : ∀ {out : Response} {length : Nat},
        AddsOnly q out.writeQueue (sendfile2Files out length files).2.1.writeQueue :=
      ih fun fn fd offset len hmem => h fn fd offset len (List.mem_cons_of_mem _ hmem)
    cases file with
    | refused status => exact .refl _
    | range fn fd offset len =>
      have hfn : q fn := h fn fd offset len List.mem_cons_self
      unfold sendfile2Files
      split_ifs
      · exact hrest
      · split
        · rename_i out₁ happend
          have hqueue := (fileRange_addsOnly happend).mono fun _ heq => heq ▸ hfn
          exact hqueue.trans hrest
        · rename_i out₁ happend
          exact (fileRange_addsOnly happend).mono fun _ heq => heq ▸ hfn
        · exact .refl _

/-! ## Confinement -/

/-- **What is sent of the files that a backend names**, by `X-Sendfile` (`served`, `refused`) and by `X-Sendfile2`. -/
structure XsendfileConfined (env : FileEnv) (forceLowercase : Bool) (entries roots : List Bytes) : Prop where
  served : ∀ path c c', Confined forceLowercase entries (sendfilePath forceLowercase path) →
    xsendfile env forceLowercase roots path c = some c' →
    Clean (chr '/') (chr '.') (sendfilePath forceLowercase path) ∧
      AddsOnly (· = sendfilePath forceLowercase path) c.out.writeQueue c'.out.writeQueue
  refused : ∀ path c, ¬ Confined forceLowercase entries (sendfilePath forceLowercase path) →
    ∃ c', xsendfile env forceLowercase roots path c = some c' ∧ c'.out.writeQueue = c.out.writeQueue ∧
      c'.httpStatus = if c.httpStatus < 300 then 403 else c.httpStatus
  served2 : ∀ value out, AddsOnly (Named forceLowercase entries (sendfile2Names (cstr value))) out.writeQueue
    (sendfile2 env forceLowercase roots value out).2.1.writeQueue
  refused2 : ∀ value out k name, (sendfile2Names (cstr value))[k]? = some name →
    (sendfile2Files out 0 ((parseSendfile2 env forceLowercase roots (cstr value)).take k)).1 = 0 →
    ((parseSendfile2 env forceLowercase roots (cstr value))[k]? = some (.refused 403) ↔
      ¬ Confined forceLowercase entries (sendfilePath forceLowercase name)) ∧
    (¬ Confined forceLowercase entries (sendfilePath forceLowercase name) →
      sendfile2 env forceLowercase roots value out =
        (403, (sendfile2Files out 0 ((parseSendfile2 env forceLowercase roots (cstr value)).take k)).2))

/-- **Only files below `x-sendfile-docroot` are sent**, and both kinds of header fields are decided in the same way. -/
theorem xsendfile_confined (env : FileEnv) (forceLowercase : Bool) {entries roots : List Bytes}
    (hroots : xsendfileDocroot entries = some roots) (hne : entries ≠ []) :
    XsendfileConfined env forceLowercase entries roots where
  served := by
    intro path c c' hconfined h
    have hqueue := httpResponseXsendfile_addsOnly h
    rw [env.sendFile_path] at hqueue
    exact ⟨hconfined.clean, hqueue⟩
  refused := fun path c h => xsendfile_refused hroots hne h c
  served2 := fun value out => sendfile2Files_addsOnly (parseSendfile2_named hroots hne _)
  refused2 := fun value out k name hname hfirst => parseSendfile2_decided hroots hne hname hfirst

def oneFile : FileEnv where
  stat := fun path => if path = ascii "/srv/files/a" then some (true, 3) else none
  openFd := fun path => if path = ascii "/srv/files/a" then some 7 else none
  sendFile := fun _ path =>
    if path = ascii "/srv/files/a" then ⟨.regular, path, some 7, 3, [], .goOn, none⟩
    else ⟨.missing, path, none, 0, [], .goOn, none⟩
  sendFile_path := fun _ path => by split <;> rfl

def oneFileResponse : Response :=
  { Response.sampleResponse with
    world := ⟨fun path => if path = ascii "/srv/files/a" then some [1, 2, 3] else none, fun _ => none⟩ }

/-- What `/srv/x/../files/a 0-1, /srv/files/../etc 0-1` gives. -/
def twoNames : Nat × Response × Int :=
  sendfile2 oneFile false [ascii "/srv/files/"] (ascii "/srv/x/../files/a 0-1, /srv/files/../etc 0-1") oneFileResponse

/-- The first file is queued, and the second one is refused. -/
theorem xsendfile_confined_srv :
    XsendfileConfined oneFile false [ascii "/srv/./files"] [ascii "/srv/files/"] ∧ twoNames.1 = 403 ∧
      twoNames.2.1.writeQueue.chunks.map (fun ck => ck.file.name) = [ascii "/srv/files/a"] :=
  ⟨xsendfile_confined oneFile false (by decide) (by decide), by decide +kernel, by decide +kernel⟩

/-- A backend has redirected the client, with a file in the same response. -/
def redirected : Con where
  reply := { Reply.init with httpStatus := 302 }
  lengthReset := false
  out := Response.sampleResponse
  direct := false
  hctx := true
  sendContentBody := true
  fileStarted := false
  httpMethod := some .get
  uriPath := ascii "/index.php"
  errorHandlerSavedStatus := 0
  errorHandlerSavedMethod := none
  bytesHeader := 0

/-- Its status is kept when the file is not below the directory. -/
theorem xsendfile_keeps_status :
    underXdocroot false [ascii "/srv/files/"] (sendfilePath false (ascii "/etc/passwd")) = false ∧
      (xsendfile oneFile false [ascii "/srv/files/"] (ascii "/etc/passwd") redirected).map Con.httpStatus = some 302 :=
  ⟨by decide +kernel, by decide +kernel⟩

end Lighttpd.Respond
