import Lighttpd.Request.KeepAlive

/-!
# Accepted requests and the framing of their body (`request.c`)

What the parser has read of the header is compared with the fields of the block (`Request/Fields`).

- `ModeOf` says what the loop over the header has read of the current line, `Read` what the lines before it have left in
  the connection; `headerLoop_read` is the loop, `accepted_read` the whole parser;
- `accepted_delimited_iff`: exactly when the body of an accepted request is delimited as its header announces.
-/

namespace Lighttpd

namespace Request

/-! ## The line that is being read -/

/-- A character of a name: no blank and no colon. -/
def NameChar (c : Byte) : Prop := isWs c = false ∧ c ≠ chr ':'

/-- What a mode says about the bytes of the line that have been read. -/
def ModeOf (pre : Bytes) : Mode → Prop
  | .key token => pre = token ∧ ∀ c ∈ token, NameChar c
  | .colon key => ∃ ws, pre = key ++ ws ∧ (∀ c ∈ key, NameChar c) ∧ key ≠ [] ∧ ∀ c ∈ ws, isWs c = true
  | .value key value => ∃ ws ws', pre = key ++ ws ++ chr ':' :: (ws' ++ value) ∧ (∀ c ∈ key, NameChar c) ∧
      (key = [] → ws = []) ∧ (∀ c ∈ ws, isWs c = true) ∧ (∀ c ∈ ws', isWs c = true) ∧
      ∀ c, value.head? = some c → isWs c = false
  | .folding value => pre = value ∧ isFold value = true

variable {f : Field} {method : Option Method} {v : Vars} {pre : Bytes} {fs : List Field}

theorem headerChar_modeOf (o : Options) (con : Con) {c : Byte} {m : Mode} (h : ModeOf pre m) :
    Ends (fun _ => True) (fun m' => ModeOf (pre ++ [c]) m') (headerChar o con c m) := by
  cases m with
  | key token =>
    obtain ⟨rfl, hname⟩ := h
    refine Ends.ite (fun hc => ?_) fun hcolon => ?_
    · subst hc
      exact ⟨[], [], by simp, hname, fun _ => rfl, by simp, by simp, by simp⟩
    refine Ends.ite (fun _ => trivial) fun _ => ?_
    refine Ends.ite (fun hws => ?_) fun hws => ?_
    · by_cases hpre : pre = []
      · subst hpre
        exact ⟨rfl, by simpa [isFold] using hws⟩
      · have hne : pre.isEmpty = false := List.isEmpty_eq_false_iff.mpr hpre
        rw [hne]
        exact ⟨[c], rfl, hname, hpre, by simpa using hws⟩
    · refine Ends.ite (fun _ => trivial) fun _ => ⟨rfl, fun d hd => ?_⟩
      rcases List.mem_append.mp hd with hd | hd
      · exact hname d hd
      · obtain rfl := List.mem_singleton.mp hd
        exact ⟨by simpa using hws, hcolon⟩
  | colon key =>
    obtain ⟨ws, rfl, hname, hkey, hws⟩ := h
    refine Ends.ite (fun hc => ?_) fun _ => ?_
    · refine ⟨ws ++ [c], by simp, hname, hkey, fun d hd => ?_⟩
      rcases List.mem_append.mp hd with hd | hd
      · exact hws d hd
      · obtain rfl := List.mem_singleton.mp hd
        exact hc
    · refine Ends.ite (fun hc => ?_) fun _ => trivial
      subst hc
      exact ⟨ws, [], by simp, hname, fun h => absurd h hkey, hws, by simp, by simp⟩
  | value key value =>
    obtain ⟨ws, ws', rfl, hname, hkey, hws, hws', hvalue⟩ := h
    refine Ends.ite (fun hc => ?_) fun hc => ?_
    · cases value with
      | nil =>
        refine ⟨ws, ws' ++ [c], by simp, hname, hkey, hws, fun d hd => ?_, by simp⟩
        rcases List.mem_append.mp hd with hd | hd
        · exact hws' d hd
        · obtain rfl := List.mem_singleton.mp hd
          exact hc
      | cons d value => exact ⟨ws, ws', by simp, hname, hkey, hws, hws', hvalue⟩
    · refine Ends.ite (fun _ => trivial) fun _ => ⟨ws, ws', by simp, hname, hkey, hws, hws', fun d hd => ?_⟩
      cases value with
      | nil =>
        obtain rfl : c = d := by simpa using hd
        simpa using hc
      | cons e value => exact hvalue d hd
  | folding value =>
    obtain ⟨rfl, hfold⟩ := h
    have hfold' : isFold (pre ++ [c]) = true := by
      cases pre with
      | nil => cases hfold
      | cons d pre => exact hfold
    refine Ends.ite (fun _ => ⟨rfl, hfold'⟩) fun _ => ?_
    exact Ends.ite (fun _ => trivial) fun _ => ⟨rfl, hfold'⟩

theorem ModeOf.value_line {key value : Bytes} (h : ModeOf pre (.value key value)) :
    isFold pre = false ∧ parseLine pre = ⟨key, value.rdropWhile isWs, []⟩ ∧ pre ≠ [] := by
  obtain ⟨ws, ws', rfl, hname, hkey, hws, hws', hvalue⟩ := h
  refine ⟨?_, parseLine_eq hname hws hws' hvalue, by simp⟩
  cases key with
  | nil =>
    rw [hkey rfl]
    rfl
  | cons c key => exact (hname c List.mem_cons_self).1

/-! ## The lines that have been read -/

def Field.counts (f : Field) : Bool := caselessCompare (ascii "Content-Length") f.name == 0 && !f.value.isEmpty

/-- The `Content-Length` fields with a value on their first line. -/
def lengths (fs : List Field) : List Field := fs.filter Field.counts

theorem lengths_cons_pos (fs : List Field) (h : f.counts = true) : lengths (f :: fs) = f :: lengths fs :=
  List.filter_cons_of_pos h

theorem lengths_cons_neg (fs : List Field) (h : f.counts = false) : lengths (f :: fs) = lengths fs :=
  List.filter_cons_of_neg (by rw [h]; decide)

/-- **What the fields `fs`, the last one first, leave in the connection.** -/
structure Read (method : Option Method) (v : Vars) (fs : List Field) : Prop where
  method_eq : v.con.request.httpMethod = method
  key_eq : v.key = fs.head?.map Field.name
  transferEncoding : (v.con.request.headers.getElement (ascii "Transfer-Encoding")).isSome ↔
    ∃ f ∈ fs, f.Named "Transfer-Encoding" ∧ f.value ≠ []
  length_eq : (lengths fs = [] ∧ v.conLengthSet = false ∧ v.con.request.contentLength = 0) ∨
    ∃ f n, lengths fs = [f] ∧ v.conLengthSet = true ∧ decimalValue f.value = some n ∧
      v.con.request.contentLength = min n ulongMax

theorem Read.fold (h : Read method v (f :: fs)) (line : Bytes) (headers : Headers)
    (hkeys : headers.map DataString.key = v.con.request.headers.map DataString.key) :
    Read method { v with con := { v.con with request := { v.con.request with headers := headers } } }
      ({ f with folds := f.folds ++ [line] } :: fs) where
  method_eq := h.method_eq
  key_eq := h.key_eq
  transferEncoding := by
    rw [Headers.getElement_isSome]
    dsimp only
    rw [hkeys, ← Headers.getElement_isSome, h.transferEncoding]
    simp [Field.Named]
  length_eq := by
    have hlen := h.length_eq
    cases hf : f.counts with
    | false =>
      rw [lengths_cons_neg fs hf] at hlen
      rw [lengths_cons_neg fs (f := { f with folds := f.folds ++ [line] }) hf]
      exact hlen
    | true =>
      rw [lengths_cons_pos fs hf] at hlen
      rw [lengths_cons_pos fs (f := { f with folds := f.folds ++ [line] }) hf]
      rcases hlen with ⟨hnil, -⟩ | ⟨g, n, hg, hset, hdec, hlen⟩
      · cases hnil
      · obtain ⟨rfl, hfs⟩ := List.cons.inj hg
        rw [hfs]
        exact Or.inr ⟨_, n, rfl, hset, hdec, hlen⟩

/-- The decimal value of digits is what `strtoul` reads. -/
theorem strtoul_digits {s : Bytes} (hne : s ≠ []) (h : s.all lightIsdigit = true) :
    ∃ n, decimalValue s = some n ∧ strtoul s = (min n ulongMax, []) := by
  have hcstr : cstr s = s := cstr_eq_self fun hc => absurd (List.all_eq_true.mp h _ hc) (by decide)
  refine ⟨_, if_pos ⟨hne, h⟩, ?_⟩
  unfold strtoul
  rw [hcstr, readDigits_digits h]

/-- A header field has been read: what the rest of the parser sees of it, but for the length. -/
structure Follows (v : Vars) (ds : DataString) (v' : Vars) : Prop where
  method_eq : v'.con.request.httpMethod = v.con.request.httpMethod
  key_eq : v'.key = v.key
  transferEncoding : ( v'.con.request.headers.getElement (ascii "Transfer-Encoding")).isSome ↔
    (v.con.request.headers.getElement (ascii "Transfer-Encoding")).isSome ∨
      caselessCompare (ascii "Transfer-Encoding") ds.key = 0

def SameLength (v v' : Vars) : Prop :=
  v'.conLengthSet = v.conLengthSet ∧ v'.con.request.contentLength = v.con.request.contentLength

theorem Vars.insert_follows (v : Vars) (ds : DataString) : Follows v ds (v.insert ds) :=
  ⟨rfl, rfl, Headers.getElement_insertUnique _ _ _⟩

theorem Follows.skip (v : Vars) {ds : DataString} {name : FieldName} (h : findName ds.key fieldNames = some name) :
    Follows v ds v := by
  refine ⟨rfl, rfl, Iff.symm (or_iff_left fun hte => ?_)⟩
  rw [findName_transferEncoding hte] at h
  cases h

/-- **Any field but `Content-Length`.** -/
theorem setField_follows (o : Options) (host : Bool) (v : Vars) {ds : DataString}
    (h : caselessCompare (ascii "Content-Length") ds.key ≠ 0) :
    Ends (fun _ => True) (fun v' => Follows v ds v' ∧ SameLength v v') (setField o host v ds) := by
  have hins : Follows v ds (v.insert ds) := v.insert_follows ds
  unfold setField
  cases hname : findName ds.key fieldNames with
  | none => exact ⟨hins, rfl, rfl⟩
  | some name =>
    have hskip : Follows v ds v := Follows.skip v hname
    cases name with
    | connection => exact ⟨⟨rfl, rfl, hins.transferEncoding⟩, rfl, rfl⟩
    | contentLength => exact absurd ((findName_contentLength ds.key).mp hname) h
    | contentType =>
      dsimp only
      unfold setContentType
      cases v.con.request.httpContentType with
      | none => exact ⟨⟨rfl, rfl, hins.transferEncoding⟩, rfl, rfl⟩
      | some p => trivial
    | expect => exact Ends.ite (fun _ => trivial) fun _ => ⟨hins, rfl, rfl⟩
    | host =>
      dsimp only
      unfold setHost
      refine Ends.ite (fun _ => ⟨hskip, rfl, rfl⟩) fun _ => ?_
      cases v.con.request.httpHost with
      | none => exact ⟨⟨rfl, rfl, hins.transferEncoding⟩, rfl, rfl⟩
      | some p => trivial
    | ifModifiedSince =>
      dsimp only
      unfold setIfModifiedSince
      cases v.con.request.httpIfModifiedSince with
      | none => exact ⟨⟨rfl, rfl, hins.transferEncoding⟩, rfl, rfl⟩
      | some p => exact Ends.ite (fun _ => ⟨hskip, rfl, rfl⟩) fun _ => trivial
    | ifNoneMatch =>
      dsimp only
      unfold setIfNoneMatch
      cases v.con.request.httpIfNoneMatch with
      | none => exact ⟨⟨rfl, rfl, hins.transferEncoding⟩, rfl, rfl⟩
      | some p => exact ⟨hskip, rfl, rfl⟩
    | range =>
      dsimp only
      unfold setRange
      cases v.con.request.httpRange with
      | none =>
        exact Ends.ite (fun _ => ⟨⟨rfl, rfl, hins.transferEncoding⟩, rfl, rfl⟩) fun _ =>
          ⟨⟨rfl, rfl, hins.transferEncoding⟩, rfl, rfl⟩
      | some p => trivial

/-- **`Content-Length`: the first one, and digits only.** -/
theorem setContentLength_follows (v : Vars) {ds : DataString} (hne : ds.value ≠ []) :
    Ends (fun _ => True) (fun v' => Follows v ds v' ∧ v.conLengthSet = false ∧ v'.conLengthSet = true ∧
      ∃ n, decimalValue ds.value = some n ∧ v'.con.request.contentLength = min n ulongMax)
      (setContentLength v ds) := by
  unfold setContentLength
  refine Ends.ite (fun _ => trivial) fun hset => ?_
  refine Ends.ite (fun _ => trivial) fun hdigits => ?_
  rw [Bool.not_eq_true, Bool.not_eq_false'] at hdigits
  obtain ⟨n, hdec, hread⟩ := strtoul_digits hne hdigits
  rw [hread]
  dsimp only
  rw [if_pos rfl]
  refine ⟨⟨rfl, rfl, ?_⟩, by simpa using hset, rfl, n, hdec, rfl⟩
  exact (v.insert_follows ds).transferEncoding

/-- **The end of a header line adds its field.** -/
theorem endOfHeaderLine_read (o : Options) (host : Bool) (h : Read method v fs) (key value : Bytes) :
    Ends (fun _ => True) (fun v' => Read method v' (⟨key, value.rdropWhile isWs, []⟩ :: fs))
      (endOfHeaderLine o host v key value) := by
  unfold endOfHeaderLine
  dsimp only
  generalize value.rdropWhile isWs = value
  have hte : ∀ P : Prop, (P ↔ (v.con.request.headers.getElement (ascii "Transfer-Encoding")).isSome ∨
      caselessCompare (ascii "Transfer-Encoding") key = 0 ∧ value ≠ []) →
      (P ↔ ∃ f ∈ (⟨key, value, []⟩ : Field) :: fs, f.Named "Transfer-Encoding" ∧ f.value ≠ []) := by
    intro P hP
    rw [hP, h.transferEncoding, List.exists_mem_cons_iff, or_comm]
    rfl
  refine Ends.ite (fun hempty => ?_) fun hempty => ?_
  · have hnil : value = [] := List.isEmpty_iff.mp hempty
    have hcounts : (⟨key, value, []⟩ : Field).counts = false := by
      rw [hnil]
      exact Bool.and_false _
    refine ⟨h.method_eq, rfl, hte _ ?_, ?_⟩
    · exact (or_iff_left fun hc => hc.2 hnil).symm
    · rw [lengths_cons_neg fs hcounts]
      exact h.length_eq
  · have hne : value ≠ [] := fun hnil => hempty (List.isEmpty_iff.mpr hnil)
    have hvalue : value.isEmpty = false := List.isEmpty_eq_false_iff.mpr hne
    have hor : ∀ P Q : Prop, (P ∨ Q ↔ P ∨ Q ∧ value ≠ []) := fun P Q => by simp [hne]
    by_cases hcl : caselessCompare (ascii "Content-Length") key = 0
    · have hcounts : (⟨key, value, []⟩ : Field).counts = true := by
        unfold Field.counts
        rw [hcl, hvalue]
        rfl
      have hname : findName key fieldNames = some .contentLength := (findName_contentLength key).mpr hcl
      unfold setField
      rw [hname]
      refine (@setContentLength_follows { v with key := some key } ⟨key, value⟩ hne).mono (fun _ _ => trivial) ?_
      rintro v' ⟨hf, hset, hset', n, hdec, hlen⟩
      refine ⟨hf.method_eq.trans h.method_eq, hf.key_eq, hte _ (hf.transferEncoding.trans (hor _ _)), ?_⟩
      rw [lengths_cons_pos fs hcounts]
      rcases h.length_eq with ⟨hnil, -⟩ | ⟨g, m, -, hset'', -⟩
      · rw [hnil]
        exact Or.inr ⟨_, n, rfl, hset', hdec, hlen⟩
      · exact absurd (hset.symm.trans hset'') (by decide)
    · have hcounts : (⟨key, value, []⟩ : Field).counts = false := by
        unfold Field.counts
        rw [beq_eq_false_iff_ne.mpr hcl]
        rfl
      refine (@setField_follows o host { v with key := some key } ⟨key, value⟩ hcl).mono (fun _ _ => trivial) ?_
      rintro v' ⟨hf, hset, hlen⟩
      refine ⟨hf.method_eq.trans h.method_eq, hf.key_eq, hte _ (hf.transferEncoding.trans (hor _ _)), ?_⟩
      rw [lengths_cons_neg fs hcounts, hset, hlen]
      exact h.length_eq

theorem crlf_key (token : Bytes) : crlf (.key token) = if token.isEmpty then .header else .nothing := rfl

/-- **The end of a line adds it to the fields.** -/
theorem endOfLine_read (o : Options) (host : Bool)
    {m : Mode} (h : Read method v fs) (hm : ModeOf pre m) (hline : crlf m = .line) :
    pre ≠ [] ∧ Ends (fun _ => True) (fun v' => Read method v' (addLine fs pre)) (endOfLine o host v m) := by
  cases m with
  | key token =>
    rw [crlf_key] at hline
    split at hline <;> cases hline
  | colon key => cases hline
  | value key value =>
    obtain ⟨hfold, hparse, hne⟩ := hm.value_line
    refine ⟨hne, ?_⟩
    unfold addLine
    rw [if_neg (by rw [hfold]; decide), hparse]
    exact endOfHeaderLine_read o host h key value
  | folding value =>
    obtain ⟨rfl, hfold⟩ := hm
    refine ⟨fun hnil => ?_, ?_⟩
    · rw [hnil] at hfold
      cases hfold
    · show Ends _ _ (endOfFoldedLine v pre)
      unfold addLine endOfFoldedLine
      rw [if_pos hfold]
      have hkey := h.key_eq
      cases hv : v.key with
      | none => trivial
      | some key =>
        cases key with
        | nil => trivial
        | cons c key =>
          cases fs with
          | nil =>
            rw [hv] at hkey
            cases hkey
          | cons f fs =>
            have hread := h.fold pre _ (Headers.map_key_appendValue v.con.request.headers (c :: key) pre)
            rw [hv] at hread
            exact hread

/-- **The loop over the header takes the lines up to the empty line.** -/
theorem headerLoop_read (o : Options) (host : Bool)
    {m : Mode} (h : Read method v fs) (hm : ModeOf pre m) (s : Bytes) :
    Ends (fun _ => True) (fun r => ∃ ls more, Lines.linesFrom (chr '\r') (chr '\n') pre s = ls ++ [] :: more ∧
      (∀ l ∈ ls, l ≠ []) ∧ Read method r.1 (ls.foldl addLine fs)) (headerLoop o host m v s) := by
  fun_induction headerLoop o host m v s generalizing fs pre with
  | case1 => trivial
  | case2 m v m' hchar =>
    obtain ⟨con', hcon, -⟩ := headerChar_nul o v.con m
    rw [hcon] at hchar
    cases hchar
  | case3 => trivial
  | case4 => trivial
  | case5 m v d s' hd hcr =>
    rw [not_not] at hd
    subst hd
    have hpre : pre = [] := by
      cases m with
      | key token =>
        rw [crlf_key] at hcr
        split at hcr
        · rw [hm.1]
          exact List.isEmpty_iff.mp ‹_›
        · cases hcr
      | colon key => cases hcr
      | value key value => cases hcr
      | folding value => cases hcr
    refine ⟨[], Lines.lines (chr '\r') (chr '\n') s', ?_, by simp, h⟩
    rw [Lines.linesFrom_end, hpre]
    rfl
  | case6 => trivial
  | case7 => trivial
  | case8 m v d s' hd hcr v' hend ih =>
    rw [not_not] at hd
    subst hd
    obtain ⟨hne, hread⟩ := endOfLine_read o host h hm hcr
    have hm' : ModeOf [] (.key []) := ⟨rfl, by simp⟩
    apply (ih (hread.of_ok hend) hm').mono (fun _ _ => trivial)
    rintro r ⟨ls, more, hlines, hls, hr⟩
    refine ⟨pre :: ls, more, ?_, ?_, hr⟩
    · rw [Lines.linesFrom_end, Lines.lines, hlines]
      rfl
    · intro l hl
      rcases List.mem_cons.mp hl with rfl | hl
      · exact hne
      · exact hls l hl
  | case9 => trivial
  | case10 m v c s hc m' hchar ih =>
    have hm' : ModeOf (pre ++ [c]) m' := (headerChar_modeOf o v.con hm).of_ok hchar
    rw [Lines.linesFrom_cons pre s hc]
    exact ih h hm'

/-! ## The whole parser -/

/-- The methods for which the parser does not look for a `Transfer-Encoding`. -/
def LooksNotAtCoding (method : Option Method) : Prop :=
  method = some .get ∨ method = some .head ∨ method = some .post

theorem setUri_keeps (o : Options) (con : Con) (uri : Bytes) :
    Ends (fun _ => True) (fun r => r.1.request.httpMethod = con.request.httpMethod ∧
      r.1.request.headers = con.request.headers ∧ r.1.request.contentLength = con.request.contentLength)
      (setUri o con uri) := by
  unfold setUri
  exact Ends.ite (fun _ => trivial) fun _ => ⟨rfl, rfl, rfl⟩

theorem endOfRequestLine_keeps (o : Options) (con : Con) (l : ReqLine) :
    Ends (fun _ => True) (fun r => l.stage = 2 ∧ r.1.request.httpMethod = getHttpMethodKey l.method ∧
      r.1.request.headers = con.request.headers ∧ r.1.request.contentLength = con.request.contentLength)
      (endOfRequestLine o con l) := by
  unfold endOfRequestLine
  refine Ends.ite (fun _ => trivial) fun hstage => ?_
  rw [not_not] at hstage
  cases hm : getHttpMethodKey l.method with
  | none => trivial
  | some r =>
    dsimp only
    unfold setVersion
    cases protoVersion (cstr l.token) with
    | none => trivial
    | some version =>
      refine Ends.ite (fun _ => ?_) fun _ => ?_
      · exact (setUri_keeps o _ _).mono (fun _ h => h) fun r' h => ⟨hstage, h⟩
      · refine Ends.ite (fun _ => ?_) fun _ => trivial
        exact (setUri_keeps o _ _).mono (fun _ h => h) fun r' h => ⟨hstage, h⟩

/-- The post-processing changes neither the length nor the names of the fields, and looks at both. -/
theorem postProcess_keeps (o : Options) (v : Vars) :
    Ends (fun _ => True) (fun r => r.2.request.contentLength = v.con.request.contentLength ∧
      (LooksNotAtCoding v.con.request.httpMethod ∨
        ¬ (v.con.request.headers.getElement (ascii "Transfer-Encoding")).isSome) ∧
      (v.conLengthSet = true → v.con.request.contentLength ≤ ssizeMax)) (postProcess o v) := by
  have hhost : ∀ con : Con, Ends (fun _ => True) (fun con' =>
      con'.request.httpMethod = con.request.httpMethod ∧
      con'.request.contentLength = con.request.contentLength ∧
      con'.request.headers.map DataString.key = con.request.headers.map DataString.key) (checkHost o con) := by
    intro con
    unfold checkHost
    split
    · exact ⟨rfl, rfl, rfl⟩
    · refine Ends.ite (fun _ => trivial) fun _ => ?_
      refine Ends.ite (fun _ => trivial) fun _ => ?_
      cases o.hostNormalize <;> cases o.hostStrict <;> refine ⟨rfl, rfl, ?_⟩
      · rfl
      · exact Headers.map_key_setValue _ _ _
      · exact Headers.map_key_setValue _ _ _
      · exact (Headers.map_key_setValue _ _ _).trans (Headers.map_key_setValue _ _ _)
  have hmethod : ∀ con : Con, Ends (fun _ => True) (fun con' => con' = con ∧
      (LooksNotAtCoding con.request.httpMethod ∨
        ¬ (con.request.headers.getElement (ascii "Transfer-Encoding")).isSome))
      (checkMethod con v.conLengthSet) := by
    intro con
    unfold checkMethod
    split
    · exact Ends.ite (fun _ => trivial) fun _ => ⟨rfl, Or.inl (Or.inl ‹_›)⟩
    · exact Ends.ite (fun _ => trivial) fun _ => ⟨rfl, Or.inl (Or.inr (Or.inl ‹_›))⟩
    · exact Ends.ite (fun _ => trivial) fun _ => ⟨rfl, Or.inl (Or.inr (Or.inr ‹_›))⟩
    · exact Ends.ite (fun _ => trivial) fun h => ⟨rfl, Or.inr h⟩
  unfold postProcess
  refine (setKeepAlive_request v).bind fun con hcon => ?_
  refine (hhost con).bind fun con' hcon' => ?_
  apply (hmethod con').bind
  rintro _ ⟨rfl, hte⟩
  obtain ⟨hm, hlen, hkeys⟩ := hcon'
  rw [hcon] at hm hlen hkeys
  rw [hm, Headers.getElement_isSome, hkeys, ← Headers.getElement_isSome] at hte
  unfold checkLength
  refine Ends.ite (fun _ => ?_) fun hset => ⟨hlen, hte, fun h => absurd h hset⟩
  refine Ends.ite (fun _ => trivial) fun hle => ⟨hlen, hte, fun _ => ?_⟩
  rw [hlen] at hle
  omega

def blockMethod (block : Bytes) : Option Method :=
  (blockLines block).head?.bind fun line => getHttpMethodKey (line.takeWhile (· ≠ chr ' '))

/-- A connection that is reset and has read the header block of its next request. -/
def nextRequest (con : Con) (requestCount : Nat) (block : Bytes) : Con :=
  let con := connectionReset con
  { con with request := { con.request with request := block }, requestCount := requestCount, state := .requestEnd }

/-- **What an accepted request has in common with the fields of its block.** -/
theorem parse_read (o : Options) (con : Con) (requestCount : Nat) (block : Bytes) :
    Ends (fun _ => True) (fun r => ∃ v, Read (blockMethod (parseRequest (nextRequest con requestCount block))) v
        ((headerLines (parseRequest (nextRequest con requestCount block))).foldl addLine []) ∧
      r.2.request.contentLength = v.con.request.contentLength ∧
      (LooksNotAtCoding v.con.request.httpMethod ∨
        ¬ (v.con.request.headers.getElement (ascii "Transfer-Encoding")).isSome) ∧
      (v.conLengthSet = true → v.con.request.contentLength ≤ ssizeMax))
      (parse o (nextRequest con requestCount block)) := by
  generalize hcon : nextRequest con requestCount block = con₀
  have hheaders : con₀.request.headers = [] := by rw [← hcon]; rfl
  have hlength : con₀.request.contentLength = 0 := by rw [← hcon]; rfl
  have huri : con₀.request.uri = [] := by rw [← hcon]; rfl
  have hline := requestLineLoop_lines o con₀ ⟨0, [], [], [], []⟩ [] (parseRequest con₀)
  unfold LineOutcome at hline
  unfold parse
  dsimp only
  split at hline
  · rcases hline with hline | ⟨token, hline⟩
    · rw [hline]
      trivial
    · rw [hline]
      show Ends _ _ (afterLine o _ _)
      unfold afterLine
      exact Ends.ite (fun _ => trivial) fun h => absurd (by rw [huri]; rfl) h
  · rename_i line more hlines
    obtain ⟨t, rest, ht, hmore, hline⟩ := hline
    rw [List.nil_append] at ht
    subst ht
    rw [hline]
    have hblock : blockLines (parseRequest con₀) = line :: blockLines rest := by
      rw [blockLines, Lines.lines, hlines, hmore]
    cases hfeed : feed ⟨0, [], [], [], []⟩ line with
    | none => trivial
    | some l =>
      refine ((endOfRequestLine_keeps o con₀ l).map
        (R := fun l' : LineEnd => l'.token = [] ∧ l'.rest = rest ∧ l.stage = 2 ∧
          l'.con.request.httpMethod = getHttpMethodKey l.method ∧
          l'.con.request.headers = [] ∧ l'.con.request.contentLength = 0) fun r hr => ?_).bind ?_
      · exact ⟨rfl, rfl, hr.1, hr.2.1, hr.2.2.1.trans hheaders, hr.2.2.2.trans hlength⟩
      rintro l' ⟨htoken, hrest, hstage, hmethod, hheaders', hlength'⟩
      obtain ⟨m, u, v, hl, rfl⟩ := isRequestLine_of_feed hfeed hstage
      have hbm : blockMethod (parseRequest con₀) = getHttpMethodKey m := by
        unfold blockMethod
        rw [hblock, List.head?_cons, Option.bind_some, hl.line_eq, List.takeWhile_append_of_pos fun c hc => ?_,
          List.takeWhile_cons_of_neg (by decide), List.append_nil]
        rw [decide_eq_true_eq]
        rintro rfl
        exact hl.method hc
      unfold afterLine
      refine Ends.ite (fun _ => trivial) fun _ => ?_
      dsimp only
      have hread : Read (getHttpMethodKey m)
          ⟨insertReqlineHost l'.con l'.reqlineHost, none, .unset, false⟩ [] := by
        refine ⟨?_, rfl, ?_, Or.inl ⟨rfl, rfl, ?_⟩⟩
        · cases l'.reqlineHost <;> exact hmethod
        · rw [Headers.getElement_isSome]
          cases l'.reqlineHost with
          | none => simp [insertReqlineHost, hheaders']
          | some host =>
            have hhost : (insertReqlineHost l'.con (some host)).request.headers = [⟨ascii "Host", host⟩] := by
              simp [insertReqlineHost, Con.insert, Headers.insertUnique, Headers.getIndex, hheaders']
            rw [hhost]
            simp only [List.map_cons, List.map_nil, List.mem_singleton, exists_eq_left, List.not_mem_nil, false_and,
              exists_false, iff_false]
            decide
        · cases l'.reqlineHost <;> exact hlength'
      rw [htoken, hrest]
      have hkey : ModeOf [] (.key []) := ⟨rfl, by simp⟩
      apply (headerLoop_read o _ hread hkey rest).bind
      rintro ⟨v', rest'⟩ ⟨ls, more', hls, hne, hr⟩
      apply (postProcess_keeps o _).mono (fun _ h => h)
      rintro r ⟨hlen, hte, hset⟩
      refine ⟨v', ?_, hlen, hte, hset⟩
      have hlines' : headerLines (parseRequest con₀) = ls := by
        unfold headerLines
        rw [hblock, List.tail_cons, blockLines, Lines.lines, hls]
        rw [List.takeWhile_append_of_pos fun l hl => ?_, List.takeWhile_cons_of_neg (by decide), List.append_nil]
        simpa using hne l hl
      rw [hbm, hlines']
      exact hr

/-! ## The length of the body -/

theorem isWs_digit {c : Byte} (h : lightIsdigit c = true) : isWs c = false := by
  cases hws : isWs c with
  | false => rfl
  | true =>
    simp only [isWs, Bool.or_eq_true, beq_iff_eq] at hws
    rcases hws with rfl | rfl <;> exact absurd h (by decide)

theorem decimalValue_digits {s : Bytes} {n : Nat} (h : decimalValue s = some n) :
    s ≠ [] ∧ ∀ c ∈ s, lightIsdigit c = true := by
  unfold decimalValue at h
  split at h
  · rename_i hs
    exact ⟨hs.1, List.all_eq_true.mp hs.2⟩
  · cases h

theorem continuation_blank (f : Field) : f.continuation.all isWs = true ↔ ∀ line ∈ f.folds, trim line = [] := by
  unfold Field.continuation
  rw [List.all_eq_true]
  constructor
  · intro hall line hl
    have hws : ∀ c ∈ trim line, isWs c = true := fun c hc =>
      hall c (List.mem_flatMap.mpr ⟨line, hl, List.mem_cons_of_mem _ hc⟩)
    by_contra htrim
    have := List.rdropWhile_last_not isWs (line.dropWhile isWs) htrim
    exact this (hws _ (List.getLast_mem _))
  · intro hall c hc
    obtain ⟨line, hl, hc⟩ := List.mem_flatMap.mp hc
    rw [hall line hl, List.mem_singleton] at hc
    rw [hc]
    rfl

theorem continuation_head (f : Field) {c : Byte} (h : f.continuation.head? = some c) : c = chr ' ' := by
  unfold Field.continuation at h
  cases hf : f.folds with
  | nil =>
    rw [hf] at h
    cases h
  | cons line folds =>
    rw [hf, List.flatMap_cons, List.cons_append, List.head?_cons] at h
    exact (Option.some.inj h).symm

theorem fullValue_number {n : Nat} (h : decimalValue f.value = some n) :
    f.fullValue = if f.continuation.all isWs then f.value else f.value ++ f.continuation.rdropWhile isWs := by
  obtain ⟨hne, hdigits⟩ := decimalValue_digits h
  have hnotWs : ∀ c ∈ f.value, isWs c = false := fun c hc => isWs_digit (hdigits c hc)
  unfold Field.fullValue trim
  rw [dropWhile_eq_self, rdropWhile_append, rdropWhile_eq_self hnotWs]
  intro c hc
  cases hv : f.value with
  | nil => exact absurd hv hne
  | cons d s =>
    rw [hv, List.cons_append, List.head?_cons] at hc
    exact Option.some.inj hc ▸ hnotWs d (hv ▸ List.mem_cons_self)

/-- **A number with continuation lines is the number on its first line, if these lines are blank, and else no number.** -/
theorem fullValue_decimal {n k : Nat} (h : decimalValue f.value = some n) :
    decimalValue f.fullValue = some k ↔ (∀ line ∈ f.folds, trim line = []) ∧ k = n := by
  rw [← continuation_blank, fullValue_number h]
  by_cases hall : f.continuation.all isWs = true
  · rw [if_pos hall, h, Option.some.injEq]
    exact ⟨fun hn => ⟨hall, hn.symm⟩, fun hn => hn.2.symm⟩
  · rw [if_neg hall]
    refine ⟨fun hk => absurd ?_ hall, fun hk => absurd hk.1 hall⟩
    have hdig := (decimalValue_digits hk).2
    cases hr : f.continuation.rdropWhile isWs with
    | nil =>
      rw [List.rdropWhile_eq_nil_iff] at hr
      exact List.all_eq_true.mpr hr
    | cons c t =>
      have hc : f.continuation.head? = some c := by
        obtain ⟨u, hu⟩ := List.rdropWhile_prefix isWs (l := f.continuation)
        rw [← hu, hr]
        rfl
      have hblank := hdig c (List.mem_append_right _ (by rw [hr]; exact List.mem_cons_self))
      rw [continuation_head f hc] at hblank
      exact absurd hblank (by decide)

/-! ## Delimited bodies -/

def lengthFields (block : Bytes) : List Field := (blockFields block).filter fun f => f.Named "Content-Length"

/-- **The body of a request is what its header announces**: there is no transfer coding, and the length is that of the
only `Content-Length` field, or `0` when there is none. -/
structure Delimited (block : Bytes) (contentLength : Nat) : Prop where
  coding : ∀ f ∈ blockFields block, ¬ f.Named "Transfer-Encoding"
  length : (lengthFields block = [] ∧ contentLength = 0) ∨
    ∃ f, lengthFields block = [f] ∧ decimalValue f.fullValue = some contentLength

/-- The blocks whose `Transfer-Encoding` and `Content-Length` fields are all looked at: a `Transfer-Encoding` has a
value on its first line and the method is not one of those that pass over it; a `Content-Length` has its value on the
first line and the lines that continue it are blank, or it is the only one and its value is zero. -/
structure LooksAtFraming (block : Bytes) : Prop where
  coding : ∀ f ∈ blockFields block, f.Named "Transfer-Encoding" →
    f.value ≠ [] ∧ ¬ LooksNotAtCoding (blockMethod block)
  length : ∀ f ∈ lengthFields block, (f.value ≠ [] ∧ ∀ line ∈ f.folds, trim line = []) ∨
    (f.value = [] ∧ lengthFields block = [f] ∧ decimalValue f.fullValue = some 0)

/-- The parser accepts a request, and the connection will be reused. -/
def Accepted (con : Con) : Prop := con.httpStatus = 0 ∧ con.keepAlive = true

instance (con : Con) : Decidable (Accepted con) := inferInstanceAs (Decidable (_ ∧ _))

theorem lengths_reverse (block : Bytes) :
    lengths ((headerLines block).foldl addLine []) = ((lengthFields block).filter fun f => !f.value.isEmpty).reverse := by
  unfold lengths lengthFields blockFields
  rw [← List.filter_reverse, ← List.filter_reverse, List.reverse_reverse, List.filter_filter]
  refine List.filter_congr fun f _ => ?_
  rw [Bool.and_comm]
  rfl

/-- **The length of a request.** -/
theorem length_iff {block : Bytes} (h : Read method v ((headerLines block).foldl addLine []))
    (hmax : v.conLengthSet = true → v.con.request.contentLength ≤ ssizeMax) :
    ((lengthFields block = [] ∧ v.con.request.contentLength = 0) ∨
      ∃ f, lengthFields block = [f] ∧ decimalValue f.fullValue = some v.con.request.contentLength) ↔
    ∀ f ∈ lengthFields block, (f.value ≠ [] ∧ ∀ line ∈ f.folds, trim line = []) ∨
      (f.value = [] ∧ lengthFields block = [f] ∧ decimalValue f.fullValue = some 0) := by
  have hlength := h.length_eq
  rw [lengths_reverse, List.reverse_eq_nil_iff] at hlength
  have hone : ∀ f n, ((lengthFields block).filter fun f => !f.value.isEmpty).reverse = [f] →
      decimalValue f.value = some n → v.conLengthSet = true → v.con.request.contentLength = min n ulongMax →
      (lengthFields block).filter (fun f => !f.value.isEmpty) = [f] ∧ v.con.request.contentLength = n := by
    intro f n hf _ hset hlen
    have hle := hmax hset
    constructor
    · rw [← List.reverse_reverse (List.filter _ _), hf]
      rfl
    · unfold ssizeMax at hle
      unfold ulongMax at hlen
      omega
  constructor
  · rintro (⟨hnil, -⟩ | ⟨f, hf, hdec⟩) g hg
    · rw [hnil] at hg
      cases hg
    · rw [hf, List.mem_singleton] at hg
      subst hg
      rcases hlength with ⟨hnil, -, hzero⟩ | ⟨g', n, hg', hset, hn, hlen⟩
      · right
        rw [hf, List.filter_eq_nil_iff] at hnil
        have hempty : g.value = [] := by simpa using hnil g List.mem_cons_self
        rw [hzero] at hdec
        exact ⟨hempty, hf, hdec⟩
      · left
        obtain ⟨hg', hlen⟩ := hone g' n hg' hn hset hlen
        have hmem : g' ∈ (lengthFields block).filter fun f => !f.value.isEmpty := by
          rw [hg']
          exact List.mem_cons_self
        rw [hf] at hmem
        obtain ⟨hmem, -⟩ := List.mem_filter.mp hmem
        rw [List.mem_singleton] at hmem
        subst hmem
        exact ⟨(decimalValue_digits hn).1, ((fullValue_decimal hn).mp hdec).1⟩
  · intro hall
    cases hfields : lengthFields block with
    | nil =>
      left
      refine ⟨rfl, ?_⟩
      rcases hlength with ⟨-, -, hzero⟩ | ⟨g, n, hg, -⟩
      · exact hzero
      · rw [hfields] at hg
        cases hg
    | cons f fs =>
      right
      by_cases hempty : ∃ g ∈ lengthFields block, g.value = []
      · obtain ⟨g, hg, hnil⟩ := hempty
        rcases hall g hg with ⟨hne, -⟩ | ⟨-, hsingle, hdec⟩
        · exact absurd hnil hne
        · refine ⟨g, hfields ▸ hsingle, ?_⟩
          rcases hlength with ⟨-, -, hzero⟩ | ⟨g', n, hg', -⟩
          · rw [hzero]
            exact hdec
          · rw [hsingle] at hg'
            simp [hnil] at hg'
      · have hcount : (lengthFields block).filter (fun f => !f.value.isEmpty) = lengthFields block := by
          rw [List.filter_eq_self]
          intro g hg
          simpa using fun hnil => hempty ⟨g, hg, hnil⟩
        rcases hlength with ⟨hnil, -⟩ | ⟨g, n, hg, hset, hn, hlen⟩
        · rw [hcount, hfields] at hnil
          cases hnil
        · obtain ⟨hg, hlen⟩ := hone g n hg hn hset hlen
          rw [hcount] at hg
          refine ⟨g, hfields ▸ hg, ?_⟩
          rw [fullValue_decimal hn]
          have hmem : g ∈ lengthFields block := by
            rw [hg]
            exact List.mem_cons_self
          rcases hall g hmem with ⟨-, hblank⟩ | ⟨hnil, -⟩
          · exact ⟨hblank, hlen⟩
          · exact absurd hnil (decimalValue_digits hn).1

theorem parse_error_status (o : Options) (con : Con) (requestCount : Nat) (block : Bytes) {con' : Con}
    (h : parse o (nextRequest con requestCount block) = .error con') : con'.httpStatus ≠ 0 := by
  by_cases hv : VersionUnsupported (parseRequest (nextRequest con requestCount block))
  · have h505 := (parse_unsupported o _ hv).1
    unfold httpRequestParse at h505
    rw [h] at h505
    dsimp only at h505
    omega
  · have := ((parse_ends o _ hv).of_error h).status
    omega

/-- The length of the body of an accepted request is at most `SSIZE_MAX`. -/
theorem contentLength_le (o : Options) (con : Con) (requestCount : Nat) (block : Bytes)
    (h : (httpRequestParse o (nextRequest con requestCount block)).2.httpStatus = 0) :
    (httpRequestParse o (nextRequest con requestCount block)).2.request.contentLength ≤ ssizeMax := by
  have hread := parse_read o con requestCount block
  unfold httpRequestParse at h ⊢
  cases hx : parse o (nextRequest con requestCount block) with
  | error con' =>
    rw [hx] at h
    exact absurd h (parse_error_status o con requestCount block hx)
  | ok r =>
    obtain ⟨v, hv, hlen, -, hmax⟩ := hread.of_ok hx
    dsimp only
    rw [hlen]
    rcases hv.length_eq with ⟨-, -, hzero⟩ | ⟨f, n, -, hset, -⟩
    · rw [hzero]
      exact Nat.zero_le _
    · exact hmax hset

/-- **The body of an accepted request is delimited as its header announces, if and only if the parser looks at all
fields that frame it.** -/
theorem accepted_delimited_iff (o : Options) (con : Con) (requestCount : Nat) (block : Bytes)
    (h : Accepted (httpRequestParse o (nextRequest con requestCount block)).2) :
    Delimited (parseRequest (nextRequest con requestCount block))
        (httpRequestParse o (nextRequest con requestCount block)).2.request.contentLength ↔
      LooksAtFraming (parseRequest (nextRequest con requestCount block)) := by
  have hread := parse_read o con requestCount block
  unfold httpRequestParse at h ⊢
  cases hx : parse o (nextRequest con requestCount block) with
  | error con' =>
    rw [hx] at h
    exact absurd h.1 (parse_error_status o con requestCount block hx)
  | ok r =>
    obtain ⟨v, hv, hlen, hte, hmax⟩ := hread.of_ok hx
    dsimp only
    rw [hlen]
    generalize parseRequest (nextRequest con requestCount block) = b at hv ⊢
    have hcoding : (v.con.request.headers.getElement (ascii "Transfer-Encoding")).isSome ↔
        ∃ f ∈ blockFields b, f.Named "Transfer-Encoding" ∧ f.value ≠ [] := by
      rw [hv.transferEncoding]
      unfold blockFields
      simp only [List.mem_reverse]
    rw [hv.method_eq, hcoding] at hte
    constructor
    · rintro ⟨hnone, hlength⟩
      exact ⟨fun f hf hnamed => absurd hnamed (hnone f hf), (length_iff hv hmax).mp hlength⟩
    · rintro ⟨hlook, hlength⟩
      refine ⟨fun f hf hnamed => ?_, (length_iff hv hmax).mpr hlength⟩
      obtain ⟨hne, hmethod⟩ := hlook f hf hnamed
      exact hte.resolve_left hmethod ⟨f, hf, hnamed, hne⟩

def sampleBlock : Bytes := ascii "POST / HTTP/1.1\r\nHost: a\r\nContent-Length: 02\r\n\r\n"

theorem accepted_delimited_iff_sample :
    Accepted (httpRequestParse sampleOptions (nextRequest (sampleCon "") 1 sampleBlock)).2 ∧
      (Delimited (parseRequest (nextRequest (sampleCon "") 1 sampleBlock))
        (httpRequestParse sampleOptions (nextRequest (sampleCon "") 1 sampleBlock)).2.request.contentLength ↔
      LooksAtFraming (parseRequest (nextRequest (sampleCon "") 1 sampleBlock))) :=
  have haccepted : Accepted (httpRequestParse sampleOptions (nextRequest (sampleCon "") 1 sampleBlock)).2 := by
    rw [sampleBlock, ascii_ofList]
    decide +kernel
  ⟨haccepted, accepted_delimited_iff sampleOptions (sampleCon "") 1 sampleBlock haccepted⟩

def codingBlock : Bytes := ascii "GET / HTTP/1.1\r\nHost: a\r\nTransfer-Encoding: chunked\r\n\r\n"

/-- **A `GET` request with a transfer coding is accepted.** -/
theorem accepted_not_delimited :
    ¬ (Accepted (httpRequestParse sampleOptions (nextRequest (sampleCon "") 1 codingBlock)).2 →
      Delimited (parseRequest (nextRequest (sampleCon "") 1 codingBlock))
        (httpRequestParse sampleOptions (nextRequest (sampleCon "") 1 codingBlock)).2.request.contentLength) := by
  rw [codingBlock, ascii_ofList]
  intro h
  have hcoding := (h (by decide +kernel)).coding
  revert hcoding
  decide

end Request

end Lighttpd
