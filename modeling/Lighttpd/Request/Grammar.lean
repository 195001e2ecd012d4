import Lighttpd.Request.RequestLine

/-!
# The grammar of the header (`request.c`)

With `header-strict`, the lines of an accepted header are fields `token ":" text` and lines that continue a field, and
`con->request.headers` is what these fields leave, stored one after the other.

* `Strict` is what the strict loop says about the line so far (`readLine_strict`, `headerLine_wellFormed`);
* `storeField` stores a field, `Stored` is what the fields so far have left (`Stored.endOfLine`, `Stored.lines`);
* `header_stored`: an accepted header is well formed and stored, one that is not well formed is rejected.
-/

namespace Lighttpd

namespace Request

/-! ## The grammar -/

def separators : Bytes := ascii "()<>@,;:\\\"/[]?=\x7b\x7d \t"

def tokenChar (c : Byte) : Bool := 31 < c && c < 127 && !separators.contains c

/-- A character of a text: no control character but the tab. -/
def textChar (c : Byte) : Bool := c == chr '\t' || 31 < c

/-- **A line of a header**: a line that continues a field, or the name of a field, blanks, a colon and its value. -/
def wellFormedLine (line : Bytes) : Bool :=
  if isFold line then line.all textChar
  else line.contains (chr ':') && (parseLine line).name.all tokenChar && (line.dropWhile (· ≠ chr ':')).all textChar

/-- The lines of a header: the first one does not continue a field. -/
def wellFormed (lines : List Bytes) : Bool := !lines.head?.any isFold && lines.all wellFormedLine

/-! ## The strict parser -/

variable {o : Options} {con : Con} {host : Bool} {v v' : Vars} {m m' : Mode} {pre s : Bytes} {c : Byte}

theorem tokenChar_of_key (hc : c ≠ chr ':') (hsep : isSeparator c = false) (hws : isWs c = false)
    (hbad : badKeyChar true c = false) : tokenChar c = true := by
  have hne : separators.contains c = false := by
    have hmem : ∀ d ∈ separators, d = chr ':' ∨ isSeparator d = true ∨ isWs d = true := by decide +kernel
    rw [← Bool.not_eq_true, List.contains_iff_mem]
    intro h
    rcases hmem c h with h | h | h
    · exact hc h
    · rw [hsep] at h
      cases h
    · rw [hws] at h
      cases h
  have hlt : ¬c < 32 ∧ ¬127 ≤ c := by simpa [badKeyChar] using hbad
  simp only [tokenChar, hne, Bool.not_false, Bool.and_true, Bool.and_eq_true, decide_eq_true_eq]
  simp only [UInt8.lt_iff_toNat_lt, UInt8.le_iff_toNat_le] at hlt ⊢
  have h31 : (31 : Byte).toNat = 31 := rfl
  have h32 : (32 : Byte).toNat = 32 := rfl
  have h127 : (127 : Byte).toNat = 127 := rfl
  omega

theorem textChar_of_ws (h : isWs c = true) : textChar c = true := by
  have hblank : c = chr ' ' ∨ c = chr '\t' := by simpa [isWs] using h
  rcases hblank with rfl | rfl <;> decide

theorem textChar_of_value (hbad : badValueChar true c = false) : textChar c = true := by
  have hlt : ¬c < 32 := by simpa [badValueChar] using hbad
  simp only [textChar, Bool.or_eq_true, decide_eq_true_eq]
  simp only [UInt8.lt_iff_toNat_lt] at hlt ⊢
  have h31 : (31 : Byte).toNat = 31 := rfl
  have h32 : (32 : Byte).toNat = 32 := rfl
  omega

/-- What the strict loop says about the line so far. -/
def Strict : Mode → Prop
  | .key token => token.all tokenChar = true
  | .colon key => key.all tokenChar = true
  | .value key value => key.all tokenChar = true ∧ value.all textChar = true
  | .folding value => value.all textChar = true

theorem headerChar_strict (hstrict : o.headerStrict = true) (con : Con) (h : Strict m) :
    Ends (fun _ => True) Strict (headerChar o con c m) := by
  cases m with
  | key token =>
    refine Ends.ite (fun _ => ⟨h, rfl⟩) fun hcolon => ?_
    refine Ends.ite (fun _ => trivial) fun hsep => ?_
    refine Ends.ite (fun hws => ?_) fun hws => ?_
    · by_cases hnil : token.isEmpty
      · simp [hnil, Strict, textChar_of_ws hws]
      · rw [if_neg hnil]
        exact h
    · refine Ends.ite (fun _ => trivial) fun hbad => ?_
      rw [hstrict] at hbad
      have hc := tokenChar_of_key hcolon (by simpa using hsep) (by simpa using hws) (by simpa using hbad)
      simp_all [Strict]
  | colon key =>
    refine Ends.ite (fun _ => h) fun _ => ?_
    exact Ends.ite (fun _ => ⟨h, rfl⟩) fun _ => trivial
  | value key value =>
    obtain ⟨hkey, hvalue⟩ := h
    refine Ends.ite (fun hws => ⟨hkey, ?_⟩) fun _ => ?_
    · split
      · rfl
      · simp [hvalue, textChar_of_ws hws]
    · refine Ends.ite (fun _ => trivial) fun hbad => ⟨hkey, ?_⟩
      rw [hstrict] at hbad
      simp [hvalue, textChar_of_value (by simpa using hbad)]
  | folding value =>
    have hvalue : value.all textChar = true := h
    refine Ends.ite (fun hws => ?_) fun _ => ?_
    · simp [Strict, hvalue, textChar_of_ws hws]
    · refine Ends.ite (fun _ => trivial) fun hbad => ?_
      rw [hstrict] at hbad
      simp [Strict, hvalue, textChar_of_value (by simpa using hbad)]

theorem readLine_strict (hstrict : o.headerStrict = true) (h : readLine o con m s = .ok m') (hm : Strict m) :
    Strict m' := by
  induction s generalizing m with
  | nil =>
    cases h
    exact hm
  | cons c s ih =>
    rw [readLine] at h
    split at h
    · cases h
    · cases hchar : headerChar o con c m with
      | error e => simp [hchar] at h
      | ok m₁ =>
        simp only [hchar] at h
        exact ih h ((headerChar_strict hstrict con hm).of_ok hchar)

theorem wellFormedLine_of_strict (hm : ModeOf pre m) (hstrict : Strict m) (hline : crlf m = .line) :
    wellFormedLine pre = true := by
  cases m with
  | key token =>
    rw [crlf_key] at hline
    split at hline <;> cases hline
  | colon key => cases hline
  | value key value =>
    obtain ⟨hfold, hparse, -⟩ := hm.value_line
    obtain ⟨ws, ws', rfl, hname, -, hws, hws', -⟩ := hm
    have hbefore : ∀ c ∈ key ++ ws, decide (c ≠ chr ':') = true := by
      intro c hc
      rw [decide_eq_true_eq]
      rintro rfl
      rcases List.mem_append.mp hc with hc | hc
      · exact (hname _ hc).2 rfl
      · exact absurd (hws _ hc) (by rw [isWs_colon]; decide)
    have hblank : ws'.all textChar = true := List.all_eq_true.mpr fun c hc => textChar_of_ws (hws' c hc)
    have hcolon : textChar (chr ':') = true := by decide
    rw [wellFormedLine, hfold, hparse, if_neg (by decide), List.dropWhile_append_of_pos hbefore]
    simp [hstrict.1, hstrict.2, hblank, hcolon]
  | folding value =>
    obtain ⟨rfl, hfold⟩ := hm
    rw [wellFormedLine, if_pos hfold]
    exact hstrict

variable {line : Bytes} {inet : Inet} {requestCount : Nat}

/-- **The strict parser takes well-formed lines only.** -/
theorem headerLine_wellFormed (hstrict : o.headerStrict = true)
    (h : headerLine o host v line = .ok v') : wellFormedLine line = true := by
  unfold headerLine at h
  cases hread : readLine o v.con (.key []) line with
  | error e => simp [hread] at h
  | ok m =>
    simp only [hread] at h
    split at h
    · rename_i hcr
      have hmode : ModeOf line m := by simpa using readLine_modeOf hread modeOf_start
      have hstart : Strict (.key []) := rfl
      exact wellFormedLine_of_strict hmode (readLine_strict hstrict hread hstart) hcr
    · cases h

/-! ## Storing the fields -/

/-- A field that is not stored: it has no value on its first line, it is a `Host` and the request line has one, or it is
the second one of a field that is kept once. -/
def isDropped (reqlineHost : Bool) (hs : Headers) (f : Field) : Bool :=
  f.value.isEmpty || (reqlineHost && decide (f.Named "Host")) ||
    ["If-Modified-Since", "If-None-Match"].any fun name => decide (f.Named name) && (hs.getElement (ascii name)).isSome

/-- **A field is stored**: it is joined to the value of a field of its name if there is one, and the lines that continue it
are appended as they are. -/
def storeField (reqlineHost : Bool) (hs : Headers) (f : Field) : Headers :=
  (if isDropped reqlineHost hs f then hs else (hs.insertUnique ⟨f.name, f.value⟩).1).appendValue f.name f.folds.flatten

/-- **The fields of a header, stored one after the other**, behind the `Host` of the request line. -/
def storedFields (reqlineHost : Option Bytes) (fs : List Field) : Headers :=
  fs.foldl (storeField reqlineHost.isSome) (reqlineHost.toList.map fun host => ⟨ascii "Host", host⟩)

variable {hs hs₀ : Headers} {f : Field} {fs : List Field} {key value : Bytes} {ds : DataString}

theorem modify_same (hs : Headers) (n : Nat) (g : DataString → DataString) (hg : ∀ ds, g ds = ds) : hs.modify n g = hs := by
  have hid : g = id := funext hg
  rw [hid, List.modify_id]

theorem appendValue_nil (hs : Headers) (key : Bytes) : hs.appendValue key [] = hs := by
  unfold Headers.appendValue
  split
  · exact modify_same hs _ _ fun ds => by simp
  · rfl

theorem appendValue_append (hs : Headers) (key a b : Bytes) :
    (hs.appendValue key a).appendValue key b = hs.appendValue key (a ++ b) := by
  have hindex := Headers.getIndex_congr (Headers.map_key_appendValue hs key a) key
  cases hkey : hs.getIndex key with
  | none => simp [Headers.appendValue, hkey]
  | some n =>
    rw [hkey] at hindex
    conv_lhs => rw [Headers.appendValue, hindex]
    simp [Headers.appendValue, hkey, List.modify_modify_eq, Function.comp_def]

theorem storeField_fold (host : Bool) (hs : Headers) (f : Field) (line : Bytes) :
    (storeField host hs f).appendValue f.name line = storeField host hs { f with folds := f.folds ++ [line] } := by
  have hsame : isDropped host hs { f with folds := f.folds ++ [line] } = isDropped host hs f := rfl
  rw [storeField, appendValue_append, storeField, hsame]
  simp

theorem isDropped_eq (hvalue : f.value ≠ []) (host : Bool) (hs : Headers) :
    isDropped host hs f =
      match findName f.name fieldNames with
      | some .host => host
      | some .ifModifiedSince => (hs.getElement (ascii "If-Modified-Since")).isSome
      | some .ifNoneMatch => (hs.getElement (ascii "If-None-Match")).isSome
      | _ => false := by
  have hhost : f.Named "Host" ↔ findName f.name fieldNames = some .host := (findName_iff (by simp [fieldNames])).symm
  have hims : f.Named "If-Modified-Since" ↔ findName f.name fieldNames = some .ifModifiedSince :=
    (findName_iff (by simp [fieldNames])).symm
  have hinm : f.Named "If-None-Match" ↔ findName f.name fieldNames = some .ifNoneMatch :=
    (findName_iff (by simp [fieldNames])).symm
  simp only [isDropped, hhost, hims, hinm, List.any_cons, List.any_nil, List.isEmpty_eq_false_iff.mpr hvalue]
  cases findName f.name fieldNames with
  | none => simp
  | some name => cases name <;> simp

/-- **What the fields `fs`, the last one first, leave of the headers.** -/
structure Stored (host : Bool) (hs₀ : Headers) (v : Vars) (fs : List Field) : Prop where
  headers : v.con.request.headers = fs.foldr (fun f hs => storeField host hs f) hs₀
  key : v.key = fs.head?.map Field.name
  ifModifiedSince : v.con.request.httpIfModifiedSince.isSome =
    (v.con.request.headers.getElement (ascii "If-Modified-Since")).isSome
  ifNoneMatch : v.con.request.httpIfNoneMatch.isSome =
    (v.con.request.headers.getElement (ascii "If-None-Match")).isSome

namespace Stored

theorem getElement_insert (hs : Headers) (ds : DataString) (name : Bytes) :
    ((hs.insertUnique ds).1.getElement name).isSome =
      ((hs.getElement name).isSome || decide (caselessCompare name ds.key = 0)) := by
  rw [Bool.eq_iff_iff, Headers.getElement_insertUnique, Bool.or_eq_true, decide_eq_true_eq]

theorem insert (h : Stored host hs₀ v fs) (hdrop : isDropped host v.con.request.headers ⟨ds.key, ds.value, []⟩ = false)
    (hkey : v'.key = some ds.key) (hhs : v'.con.request.headers = (v.con.request.headers.insertUnique ds).1)
    (hims : v'.con.request.httpIfModifiedSince.isSome = (v.con.request.httpIfModifiedSince.isSome ||
      decide (caselessCompare (ascii "If-Modified-Since") ds.key = 0)))
    (hinm : v'.con.request.httpIfNoneMatch.isSome = (v.con.request.httpIfNoneMatch.isSome ||
      decide (caselessCompare (ascii "If-None-Match") ds.key = 0))) :
    Stored host hs₀ v' (⟨ds.key, ds.value, []⟩ :: fs) where
  headers := by
    rw [List.foldr_cons, ← h.headers, hhs, storeField, hdrop]
    simp [appendValue_nil]
  key := hkey
  ifModifiedSince := by rw [hims, h.ifModifiedSince, hhs, getElement_insert]
  ifNoneMatch := by rw [hinm, h.ifNoneMatch, hhs, getElement_insert]

theorem skip (h : Stored host hs₀ v fs) (ds : DataString)
    (hdrop : isDropped host v.con.request.headers ⟨ds.key, ds.value, []⟩ = true)
    (hkey : v'.key = some ds.key) (hreq : v'.con.request = v.con.request) :
    Stored host hs₀ v' (⟨ds.key, ds.value, []⟩ :: fs) where
  headers := by
    rw [List.foldr_cons, ← h.headers, hreq, storeField, hdrop]
    simp [appendValue_nil]
  key := hkey
  ifModifiedSince := by rw [hreq, h.ifModifiedSince]
  ifNoneMatch := by rw [hreq, h.ifNoneMatch]

/-- **A field with a value.** -/
theorem setField (h : Stored host hs₀ v fs) (o : Options) (ds : DataString) (hvalue : ds.value ≠ []) :
    Ends (fun _ => True) (fun v' => Stored host hs₀ v' (⟨ds.key, ds.value, []⟩ :: fs))
      (setField o host { v with key := some ds.key } ds) := by
  have hdrop := @isDropped_eq ⟨ds.key, ds.value, []⟩ hvalue host v.con.request.headers
  have hims : caselessCompare (ascii "If-Modified-Since") ds.key = 0 ↔
      findName ds.key fieldNames = some .ifModifiedSince := (findName_iff (by simp [fieldNames])).symm
  have hinm : caselessCompare (ascii "If-None-Match") ds.key = 0 ↔ findName ds.key fieldNames = some .ifNoneMatch :=
    (findName_iff (by simp [fieldNames])).symm
  unfold Request.setField
  cases hfind : findName ds.key fieldNames with
  | none =>
    rw [hfind] at hims hinm hdrop
    exact h.insert hdrop rfl rfl (by simp [hims, Vars.insert, Con.insert]) (by simp [hinm, Vars.insert, Con.insert])
  | some name =>
    rw [hfind] at hims hinm hdrop
    cases name with
    | connection =>
      exact h.insert hdrop rfl rfl (by simp [hims, Vars.insert, Con.insert]) (by simp [hinm, Vars.insert, Con.insert])
    | contentLength =>
      dsimp only
      unfold setContentLength
      refine Ends.ite (fun _ => trivial) fun _ => ?_
      refine Ends.ite (fun _ => trivial) fun _ => ?_
      dsimp only
      refine Ends.ite (fun _ => ?_) fun _ => trivial
      exact h.insert hdrop rfl rfl (by simp [hims, Vars.insert, Con.insert]) (by simp [hinm, Vars.insert, Con.insert])
    | contentType =>
      dsimp only
      unfold setContentType
      cases v.con.request.httpContentType with
      | some p => trivial
      | none => exact h.insert hdrop rfl rfl (by simp [hims]) (by simp [hinm])
    | expect =>
      dsimp only
      unfold setExpect
      refine Ends.ite (fun _ => trivial) fun _ => ?_
      exact h.insert hdrop rfl rfl (by simp [hims, Vars.insert, Con.insert]) (by simp [hinm, Vars.insert, Con.insert])
    | host =>
      dsimp only
      unfold setHost
      cases host with
      | true => exact h.skip ds hdrop rfl rfl
      | false =>
        cases v.con.request.httpHost with
        | some p => trivial
        | none => exact h.insert hdrop rfl rfl (by simp [hims]) (by simp [hinm])
    | ifModifiedSince =>
      have hsome := h.ifModifiedSince
      dsimp only at hdrop ⊢
      unfold setIfModifiedSince
      rw [← hsome] at hdrop
      cases hp : v.con.request.httpIfModifiedSince with
      | some p =>
        rw [hp] at hdrop
        exact Ends.ite (fun _ => h.skip ds hdrop rfl rfl) fun _ => trivial
      | none =>
        rw [hp] at hdrop
        exact h.insert hdrop rfl rfl (by simp [hims]) (by simp [hinm])
    | ifNoneMatch =>
      have hsome := h.ifNoneMatch
      dsimp only at hdrop ⊢
      unfold setIfNoneMatch
      rw [← hsome] at hdrop
      cases hp : v.con.request.httpIfNoneMatch with
      | some p =>
        rw [hp] at hdrop
        exact h.skip ds hdrop rfl rfl
      | none =>
        rw [hp] at hdrop
        exact h.insert hdrop rfl rfl (by simp [hims]) (by simp [hinm])
    | range =>
      dsimp only
      unfold setRange
      cases v.con.request.httpRange with
      | some p => trivial
      | none =>
        dsimp only
        split <;> exact h.insert hdrop rfl rfl (by simp [hims, Con.insert]) (by simp [hinm, Con.insert])

/-- **A line that continues a field.** -/
theorem fold (h : Stored host hs₀ v (f :: fs)) (line : Bytes) :
    Ends (fun _ => True) (fun v' => Stored host hs₀ v' ({ f with folds := f.folds ++ [line] } :: fs))
      (endOfFoldedLine v line) := by
  have hkey : v.key = some f.name := h.key
  have hkeys := Headers.map_key_appendValue v.con.request.headers f.name line
  have hlookup : ∀ name, ((v.con.request.headers.appendValue f.name line).getElement name).isSome =
      (v.con.request.headers.getElement name).isSome := fun name => by
    rw [Bool.eq_iff_iff, Headers.getElement_isSome, Headers.getElement_isSome, hkeys]
  unfold endOfFoldedLine
  split
  · trivial
  · trivial
  · rename_i key _ hsome
    obtain rfl : f.name = key := Option.some.inj (hkey.symm.trans hsome)
    refine ⟨?_, h.key, h.ifModifiedSince.trans (hlookup _).symm, h.ifNoneMatch.trans (hlookup _).symm⟩
    dsimp only
    rw [h.headers, List.foldr_cons, List.foldr_cons, storeField_fold]

/-- **The end of a line adds it to the fields.** -/
theorem endOfLine (h : Stored host hs₀ v fs) (o : Options) (hm : ModeOf pre m) (hline : crlf m = .line) :
    Ends (fun _ => True) (fun v' => Stored host hs₀ v' (addLine fs pre) ∧ ¬(fs = [] ∧ isFold pre = true))
      (endOfLine o host v m) := by
  cases m with
  | key token =>
    rw [crlf_key] at hline
    split at hline <;> cases hline
  | colon key => cases hline
  | value key value =>
    obtain ⟨hfold, hparse, hne⟩ := hm.value_line
    unfold addLine
    rw [if_neg (by rw [hfold]; decide), hparse]
    show Ends _ _ (endOfHeaderLine o host v key value)
    unfold endOfHeaderLine
    dsimp only
    generalize value.rdropWhile isWs = value
    have hnot : ¬(fs = [] ∧ isFold pre = true) := by simp [hfold]
    refine Ends.ite (fun hempty => ⟨?_, hnot⟩) fun hempty => ?_
    · exact h.skip ⟨key, value⟩ (by simp [isDropped, hempty]) rfl rfl
    · exact (h.setField o ⟨key, value⟩ (by simpa using hempty)).mono (fun _ h => h) fun v' h => ⟨h, hnot⟩
  | folding value =>
    obtain ⟨rfl, hfold⟩ := hm
    unfold addLine
    rw [if_pos hfold]
    show Ends _ _ (endOfFoldedLine v pre)
    cases fs with
    | nil =>
      have hkey : v.key = none := h.key
      unfold endOfFoldedLine
      rw [hkey]
      trivial
    | cons f fs => exact (h.fold pre).mono (fun _ h => h) fun v' h => ⟨h, by simp⟩

end Stored

/-- **The lines of the header.** -/
theorem Stored.lines {ls : List Bytes} (h : Stored host hs₀ v fs) (hlines : ls.foldlM (headerLine o host) v = .ok v') :
    Stored host hs₀ v' (ls.foldl addLine fs) ∧ ¬(fs = [] ∧ ls.head?.any isFold = true) := by
  induction ls generalizing v fs with
  | nil =>
    cases hlines
    exact ⟨h, by simp⟩
  | cons line ls ih =>
    rw [List.foldlM_cons] at hlines
    cases hline : headerLine o host v line with
    | error e =>
      rw [hline] at hlines
      cases hlines
    | ok v₁ =>
      rw [hline] at hlines
      unfold headerLine at hline
      cases hread : readLine o v.con (.key []) line with
      | error e => simp [hread] at hline
      | ok m =>
        simp only [hread] at hline
        split at hline
        · rename_i hcr
          have hmode : ModeOf line m := by simpa using readLine_modeOf hread modeOf_start
          obtain ⟨hstored, hnot⟩ := (h.endOfLine o hmode hcr).of_ok hline
          exact ⟨(ih hstored hlines).1, by simpa using hnot⟩
        · cases hline

theorem lines_wellFormed (hstrict : o.headerStrict = true) {ls : List Bytes}
    (h : ls.foldlM (headerLine o host) v = .ok v') : ls.all wellFormedLine = true := by
  induction ls generalizing v with
  | nil => rfl
  | cons line ls ih =>
    rw [List.foldlM_cons] at h
    cases hline : headerLine o host v line with
    | error e =>
      rw [hline] at h
      cases h
    | ok v₁ =>
      rw [hline] at h
      simp [headerLine_wellFormed hstrict hline, ih h]

theorem modify_last (hs : Headers) (ds : DataString) (g : DataString → DataString) :
    List.modify (hs ++ [ds]) hs.length g = hs ++ [g ds] := by
  induction hs with
  | nil => rfl
  | cons d hs ih => simp [ih]

/-- **Fields of different names with a value are stored as they are.** -/
theorem storeField_foldl (hvalue : ∀ f ∈ fs, f.value ≠ [])
    (hnames : fs.Pairwise fun f g => caselessCompare g.name f.name ≠ 0)
    (hnew : ∀ f ∈ fs, ∀ ds ∈ hs, caselessCompare f.name ds.key ≠ 0) :
    fs.foldl (storeField false) hs = hs ++ fs.map fun f => ⟨f.name, f.value ++ f.folds.flatten⟩ := by
  induction fs generalizing hs with
  | nil => simp
  | cons f fs ih =>
    have habsent : ∀ key, (∀ ds ∈ hs, caselessCompare key ds.key ≠ 0) → hs.getIndex key = none := by
      intro key h
      rw [Headers.getIndex, List.findIdx?_eq_none_iff]
      simpa using h
    have hindex : hs.getIndex f.name = none := habsent _ (hnew f List.mem_cons_self)
    have hdrop : isDropped false hs f = false := by
      have honce : ∀ name, f.Named name → hs.getElement (ascii name) = none := by
        intro name hname
        rw [Headers.getElement, Headers.getIndex_caseless hname, hindex]
        rfl
      have hne := hvalue f List.mem_cons_self
      simp only [isDropped, List.isEmpty_eq_false_iff.mpr hne, Bool.false_and, Bool.or_self, Bool.false_or,
        List.any_eq_false, Bool.and_eq_true, decide_eq_true_eq, not_and, Bool.not_eq_true]
      intro name _ hname
      rw [honce name hname]
      rfl
    have hstore : storeField false hs f = hs ++ [⟨f.name, f.value ++ f.folds.flatten⟩] := by
      have hsame : caselessCompare f.name f.name = 0 := caselessCompare_eq_zero.mpr rfl
      rw [storeField, hdrop]
      simp [Headers.insertUnique, hindex, Headers.appendValue, Headers.getIndex_push, hsame, modify_last]
    obtain ⟨hfirst, hrest⟩ := List.pairwise_cons.mp hnames
    rw [List.foldl_cons, hstore, ih (fun g hg => hvalue g (List.mem_cons_of_mem _ hg)) hrest]
    · simp
    · intro g hg ds hds
      rcases List.mem_append.mp hds with hds | hds
      · exact hnew g (List.mem_cons_of_mem _ hg) ds hds
      · obtain rfl := List.mem_singleton.mp hds
        exact hfirst g hg

/-! ## The texts of the fields -/

/-- A field of the grammar. -/
structure Field.WellFormed (f : Field) : Prop where
  name : f.name.all tokenChar = true
  value : f.value.all textChar = true
  folds : f.folds.flatten.all textChar = true

theorem trim_subset (s : Bytes) : trim s ⊆ s := fun _ hc =>
  (List.dropWhile_suffix isWs).subset ((List.rdropWhile_prefix isWs _).subset hc)

theorem addLine_wellFormed (hline : wellFormedLine line = true) (h : ∀ f ∈ fs, f.WellFormed) :
    ∀ f ∈ addLine fs line, f.WellFormed := by
  unfold wellFormedLine at hline
  unfold addLine
  split
  · rename_i hfold
    rw [if_pos hfold] at hline
    cases fs with
    | nil => exact h
    | cons f fs =>
      obtain ⟨hname, hvalue, hfolds⟩ := h f List.mem_cons_self
      intro g hg
      rcases List.mem_cons.mp hg with rfl | hg
      · exact ⟨hname, hvalue, by simp [hfolds, hline]⟩
      · exact h g (List.mem_cons_of_mem _ hg)
  · rename_i hfold
    rw [if_neg hfold] at hline
    simp only [Bool.and_eq_true] at hline
    intro g hg
    rcases List.mem_cons.mp hg with rfl | hg
    · refine ⟨hline.1.2, List.all_eq_true.mpr fun c hc => ?_, rfl⟩
      exact List.all_eq_true.mp hline.2 c (List.mem_of_mem_tail (trim_subset _ hc))
    · exact h g hg

variable {block : Bytes}

theorem blockFields_wellFormed (h : (headerLines block).all wellFormedLine = true) :
    ∀ f ∈ blockFields block, f.WellFormed := by
  have hfold : ∀ (ls : List Bytes) (fs : List Field), ls.all wellFormedLine = true → (∀ f ∈ fs, f.WellFormed) →
      ∀ f ∈ ls.foldl addLine fs, f.WellFormed := by
    intro ls
    induction ls with
    | nil => exact fun fs _ hfs => hfs
    | cons line ls ih =>
      intro fs hls hfs
      rw [List.all_cons, Bool.and_eq_true] at hls
      exact ih _ hls.2 (addLine_wellFormed hls.1 hfs)
  intro f hf
  exact hfold _ [] h (by simp) f (List.mem_reverse.mp hf)

/-- **The names are tokens and the values are texts**, but for the value of a `Host` that the request line has. -/
def WellFormedHeaders (reqlineHost : Bool) (hs : Headers) : Prop :=
  ∀ ds ∈ hs, ds.key.all tokenChar = true ∧
    (ds.value.all textChar = true ∨ reqlineHost = true ∧ caselessCompare (ascii "Host") ds.key = 0)

namespace WellFormedHeaders

theorem modify (h : WellFormedHeaders host hs) (n : Nat) (g : DataString → Bytes)
    (hg : ∀ ds, hs[n]? = some ds → ds.value.all textChar = true → (g ds).all textChar = true) :
    WellFormedHeaders host (hs.modify n fun ds => { ds with value := g ds }) := by
  intro ds hds
  obtain ⟨k, hk, rfl⟩ := List.getElem_of_mem hds
  rw [List.length_modify] at hk
  obtain ⟨hkey, hvalue⟩ := h hs[k] (List.getElem_mem hk)
  rw [List.getElem_modify]
  split
  · rename_i hnk
    subst hnk
    exact ⟨hkey, hvalue.imp (hg _ (List.getElem?_eq_getElem hk)) id⟩
  · exact ⟨hkey, hvalue⟩

theorem insertUnique (h : WellFormedHeaders host hs) (hkey : ds.key.all tokenChar = true)
    (hvalue : ds.value.all textChar = true) : WellFormedHeaders host (hs.insertUnique ds).1 := by
  have hcomma : (ascii ", ").all textChar = true := by decide
  unfold Headers.insertUnique
  split
  · refine h.modify _ _ fun old _ hold => ?_
    simp only [List.all_append, hold, hcomma, hvalue, Bool.and_self]
  · intro ds' hds'
    rcases List.mem_append.mp hds' with hds' | hds'
    · exact h ds' hds'
    · obtain rfl := List.mem_singleton.mp hds'
      exact ⟨hkey, .inl hvalue⟩

theorem appendValue (h : WellFormedHeaders host hs) (key : Bytes) (hvalue : value.all textChar = true) :
    WellFormedHeaders host (hs.appendValue key value) := by
  unfold Headers.appendValue
  split
  · exact h.modify _ _ fun old _ hold => by rw [List.all_append, hold, hvalue, Bool.and_self]
  · exact h

theorem storeField (h : WellFormedHeaders host hs) (hf : f.WellFormed) : WellFormedHeaders host (storeField host hs f) := by
  unfold Request.storeField
  split
  · exact h.appendValue _ hf.folds
  · exact (h.insertUnique hf.name hf.value).appendValue _ hf.folds

theorem setValue (h : WellFormedHeaders host hs) (p : ValuePtr) (g : Bytes → Bytes)
    (hg : ∀ value, value.all textChar = true → (g value).all textChar = true) :
    WellFormedHeaders host (hs.setValue p (g (hs.deref p))) := by
  cases p with
  | freed value => exact h
  | slot n =>
    refine h.modify n (fun _ => g (hs.deref (.slot n))) fun ds hds hvalue => hg _ ?_
    simpa [Headers.deref, hds] using hvalue

end WellFormedHeaders

theorem storedFields_wellFormed (reqlineHost : Option Bytes) (h : ∀ f ∈ fs, f.WellFormed) :
    WellFormedHeaders reqlineHost.isSome (storedFields reqlineHost fs) := by
  have hstart : WellFormedHeaders reqlineHost.isSome (reqlineHost.toList.map fun host => ⟨ascii "Host", host⟩) := by
    intro ds hds
    obtain ⟨host, hhost, rfl⟩ := List.mem_map.mp hds
    rw [Option.mem_toList] at hhost
    rw [hhost]
    have hname : (ascii "Host").all tokenChar = true := by decide
    have hsame : caselessCompare (ascii "Host") (ascii "Host") = 0 := by decide
    exact ⟨hname, .inr ⟨rfl, hsame⟩⟩
  unfold storedFields
  generalize (reqlineHost.toList.map fun host => ⟨ascii "Host", host⟩ : Headers) = hs at hstart ⊢
  induction fs generalizing hs with
  | nil => exact hstart
  | cons f fs ih =>
    exact ih (fun g hg => h g (List.mem_cons_of_mem _ hg)) _ (hstart.storeField (h f List.mem_cons_self))

/-! ## The host -/

/-- The printed addresses are texts. -/
structure Inet.Prints (inet : Inet) : Prop where
  ntop : ∀ addr, (inet.ntop addr).all textChar = true
  ntop6 : ∀ addr, (inet.ntop6 addr).all textChar = true

theorem all_of_subset {p : Byte → Bool} {s t : Bytes} (h : s.all p = true) (hts : t ⊆ s) : t.all p = true :=
  List.all_eq_true.mpr fun c hc => List.all_eq_true.mp h c (hts hc)

theorem requestCheckHostname_text (h : value.all textChar = true) : (requestCheckHostname value).2.all textChar = true := by
  have hcut : ∀ n k, (value.take n ++ value.drop k).all textChar = true := fun n k => by
    rw [List.all_append, all_of_subset h (List.take_subset _ _), all_of_subset h (List.drop_subset _ _), Bool.and_self]
  unfold requestCheckHostname
  dsimp only
  split
  · split <;> exact h
  · split
    · exact h
    · split
      · exact h
      · split
        · split <;> exact hcut _ _
        · exact h

theorem intBytes_text (n : Nat) : (intBytes n).all textChar = true := by
  rw [intBytes, ascii, List.all_eq_true]
  intro c hc
  obtain ⟨d, hd, rfl⟩ := List.mem_map.mp hc
  have hdigit : d.isDigit = true := by
    rw [Nat.toString_eq_repr, Nat.toList_repr] at hd
    exact Nat.isDigit_of_mem_toDigits (by decide) (by decide) hd
  have hrange : 48 ≤ d.toNat ∧ d.toNat ≤ 57 := by
    simpa [Char.isDigit, UInt32.le_iff_toNat_le] using hdigit
  have h31 : (31 : Byte).toNat = 31 := rfl
  simp only [textChar, Bool.or_eq_true, decide_eq_true_eq, UInt8.lt_iff_toNat_lt, UInt8.toNat_ofNat']
  omega

theorem appendPort_text (h : value.all textChar = true) (port : Nat) : (appendPort value port).all textChar = true := by
  have hcolon : textChar (chr ':') = true := by decide
  unfold appendPort
  split
  · exact h
  · simp [h, hcolon, intBytes_text]

theorem normalizeName_text (hprints : inet.Prints) (h : value.all textChar = true) :
    (normalizeName inet value).all textChar = true := by
  unfold normalizeName
  split
  · split
    · exact hprints.ntop _
    · exact h
  · exact h

theorem normalizeBracket_text (hprints : inet.Prints) (h : value.all textChar = true) {bracket : Nat}
    {out : Bytes} (hout : normalizeBracket inet value bracket = some out) : out.all textChar = true := by
  have hopen : textChar (chr '[') = true := by decide
  have hclose : textChar (chr ']') = true := by decide
  unfold normalizeBracket at hout
  dsimp only at hout
  split at hout
  · cases hout
  · split at hout
    · cases hout
      simp [hopen, hclose, hprints.ntop6]
    · rename_i percent _
      split at hout
      · cases hout
      · split at hout
        · cases hout
        · cases hout
          have hpart : ((value.take bracket).drop percent).all textChar = true :=
            all_of_subset h (List.Subset.trans (List.drop_subset _ _) (List.take_subset _ _))
          simp only [List.cons_append, List.all_cons, List.all_append, hopen, hclose, hprints.ntop6, hpart,
            List.all_nil, Bool.and_self]

theorem httpRequestHostNormalize_text (hprints : inet.Prints) (h : value.all textChar = true) :
    (httpRequestHostNormalize inet value).2.all textChar = true := by
  unfold httpRequestHostNormalize
  split
  · split
    · exact normalizeName_text hprints h
    · exact h
    · split
      · exact h
      · exact appendPort_text (normalizeName_text hprints (all_of_subset h (List.take_subset _ _))) _
  · split
    · exact h
    · split
      · exact h
      · split
        · exact h
        · rename_i bracket port _ _ out hout
          exact appendPort_text (normalizeBracket_text hprints h hout) port

theorem WellFormedHeaders.hostChecked (h : WellFormedHeaders host hs) (hprints : o.inet.Prints) (p : Option ValuePtr) :
    WellFormedHeaders host (hostChecked o hs p) := by
  unfold Request.hostChecked
  cases p with
  | none => exact h
  | some p =>
    have hstrict : WellFormedHeaders host
        (if o.hostStrict then hs.setValue p (requestCheckHostname (hs.deref p)).2 else hs) := by
      split
      · exact h.setValue p (fun value => (requestCheckHostname value).2) fun _ => requestCheckHostname_text
      · exact h
    dsimp only
    split
    · exact hstrict.setValue p (fun value => (httpRequestHostNormalize o.inet value).2) fun _ =>
        httpRequestHostNormalize_text hprints
    · exact hstrict

/-! ## Rejected headers -/

/-- A field `Expect: 100-continue`. -/
def expectsContinue (line : Bytes) : Bool :=
  !isFold line && caselessCompare (ascii "Expect") (parseLine line).name == 0 &&
    caselessCompare (parseLine line).value (ascii "100-continue") == 0

/-- How a header with these lines is rejected: with 400, or with 417 for an `Expect` that is rejected. -/
def HeaderError (o : Options) (ls : List Bytes) (con : Con) : Prop :=
  con.httpStatus = 400 ∨ con.httpStatus = 417 ∧ o.rejectExpect100 = true ∧ ls.any expectsContinue = true

/-- A header field rejects the request with 400, but for `Expect`. -/
theorem setField_error (o : Options) (host : Bool) (v : Vars) (ds : DataString) :
    Ends (fun con => con.httpStatus = 400 ∨ con.httpStatus = 417 ∧ o.rejectExpect100 = true ∧
      caselessCompare (ascii "Expect") ds.key = 0 ∧ caselessCompare ds.value (ascii "100-continue") = 0)
      (fun _ => True) (setField o host v ds) := by
  have hexpect : findName ds.key fieldNames = some .expect ↔ caselessCompare (ascii "Expect") ds.key = 0 :=
    findName_iff (by simp [fieldNames])
  unfold setField
  cases hfind : findName ds.key fieldNames with
  | none => trivial
  | some name =>
    cases name with
    | connection => trivial
    | contentLength =>
      dsimp only
      unfold setContentLength
      refine Ends.ite (fun _ => .inl rfl) fun _ => ?_
      refine Ends.ite (fun _ => .inl rfl) fun _ => ?_
      exact Ends.ite (fun _ => trivial) fun _ => .inl rfl
    | contentType =>
      dsimp only
      unfold setContentType
      cases v.con.request.httpContentType with
      | none => trivial
      | some p => exact .inl rfl
    | expect =>
      dsimp only
      unfold setExpect
      exact Ends.ite (fun h => .inr ⟨rfl, h.1, hexpect.mp hfind, h.2⟩) fun _ => trivial
    | host =>
      dsimp only
      unfold setHost
      refine Ends.ite (fun _ => trivial) fun _ => ?_
      cases v.con.request.httpHost with
      | none => trivial
      | some p => exact .inl rfl
    | ifModifiedSince =>
      dsimp only
      unfold setIfModifiedSince
      cases v.con.request.httpIfModifiedSince with
      | none => trivial
      | some p => exact Ends.ite (fun _ => trivial) fun _ => .inl rfl
    | ifNoneMatch =>
      dsimp only
      unfold setIfNoneMatch
      cases v.con.request.httpIfNoneMatch with
      | none => trivial
      | some p => trivial
    | range =>
      dsimp only
      unfold setRange
      cases v.con.request.httpRange with
      | none => exact Ends.ite (fun _ => trivial) fun _ => trivial
      | some p => exact .inl rfl

theorem headerChar_error (o : Options) (con : Con) (c : Byte) (m : Mode) :
    Ends (fun con => con.httpStatus = 400) (fun _ => True) (headerChar o con c m) := by
  cases m with
  | key token =>
    refine Ends.ite (fun _ => trivial) fun _ => ?_
    refine Ends.ite (fun _ => rfl) fun _ => ?_
    refine Ends.ite (fun _ => trivial) fun _ => ?_
    exact Ends.ite (fun _ => rfl) fun _ => trivial
  | colon key =>
    refine Ends.ite (fun _ => trivial) fun _ => ?_
    exact Ends.ite (fun _ => trivial) fun _ => rfl
  | value key value =>
    refine Ends.ite (fun _ => trivial) fun _ => ?_
    exact Ends.ite (fun _ => rfl) fun _ => trivial
  | folding value =>
    refine Ends.ite (fun _ => trivial) fun _ => ?_
    exact Ends.ite (fun _ => rfl) fun _ => trivial

theorem endOfLine_error (o : Options) (host : Bool) (v : Vars) (hm : ModeOf pre m) :
    Ends (HeaderError o [pre]) (fun _ => True) (endOfLine o host v m) := by
  cases m with
  | key token => trivial
  | colon key => trivial
  | value key value =>
    obtain ⟨hfold, hparse, -⟩ := hm.value_line
    show Ends _ _ (endOfHeaderLine o host v key value)
    unfold endOfHeaderLine
    refine Ends.ite (fun _ => trivial) fun _ => (setField_error o host _ _).mono ?_ fun _ h => h
    rintro con (h400 | ⟨h417, hreject, hname, hvalue⟩)
    · exact .inl h400
    · refine .inr ⟨h417, hreject, ?_⟩
      simp only [List.any_cons, List.any_nil, Bool.or_false, expectsContinue, hfold, hparse]
      simp [hname, hvalue]
  | folding value =>
    show Ends _ _ (endOfFoldedLine v value)
    unfold endOfFoldedLine
    split
    · exact .inl rfl
    · exact .inl rfl
    · trivial

/-- **A header is rejected with 400, or for its `Expect`.** -/
theorem headerLoop_error (host : Bool) (h : readLine o v.con (.key []) pre = .ok m) (s : Bytes) :
    Ends (HeaderError o ((Lines.linesFrom (chr '\r') (chr '\n') pre s).takeWhile fun line => !line.isEmpty))
      (fun _ => True) (headerLoop o host m v s) := by
  fun_induction headerLoop o host m v s generalizing pre with
  | case1 m v con hchar => exact .inl ((headerChar_error o v.con 0 m).of_error hchar)
  | case2 => trivial
  | case3 => exact .inl rfl
  | case4 => exact .inl rfl
  | case5 => trivial
  | case6 => exact .inl rfl
  | case7 m v d s' hd hcr con hend =>
    rw [not_not] at hd
    subst hd
    have hmode : ModeOf pre m := by simpa using readLine_modeOf h modeOf_start
    have hne := readLine_ne_nil h hcr
    rcases (endOfLine_error o host v hmode).of_error hend with h400 | ⟨h417, hreject, hexpect⟩
    · exact .inl h400
    · refine .inr ⟨h417, hreject, ?_⟩
      rw [Lines.linesFrom_end, List.takeWhile_cons_of_pos (by simpa using hne), List.any_cons, Bool.or_eq_true]
      exact .inl (by simpa using hexpect)
  | case8 m v d s' hd hcr v₁ hend ih =>
    rw [not_not] at hd
    subst hd
    have hne := readLine_ne_nil h hcr
    have hstart : readLine o v₁.con (.key []) [] = .ok (.key []) := rfl
    refine (ih hstart).mono ?_ fun _ h => h
    rintro con (h400 | ⟨h417, hreject, hexpect⟩)
    · exact .inl h400
    · refine .inr ⟨h417, hreject, ?_⟩
      rw [Lines.linesFrom_end, List.takeWhile_cons_of_pos (by simpa using hne), List.any_cons, Bool.or_eq_true]
      exact .inr hexpect
  | case9 m v c s hc con hchar => exact .inl ((headerChar_error o v.con c m).of_error hchar)
  | case10 m v c s hc m' hchar ih =>
    rw [Lines.linesFrom_cons pre s hc]
    exact ih (readLine_concat h hc hchar)

/-! ## The whole parser -/

def blockHost (block : Bytes) : Option Bytes :=
  (blockLines block).head?.bind fun line => (splitUri ((line.splitOn (chr ' ')).getD 1 [])).1

/-- **What is stored of the header of a block**: all of its lines are well formed, and their fields are stored one after the
other; the host is checked behind. -/
structure HeaderStored (o : Options) (block : Bytes) (r : Request) : Prop where
  lines : wellFormed (headerLines block) = true
  headers : r.headers = hostChecked o (storedFields (blockHost block) (blockFields block)) r.httpHost
  text : WellFormedHeaders (blockHost block).isSome r.headers
  distinct : blockHost block = none → (∀ f ∈ blockFields block, f.value ≠ []) →
    ((blockFields block).Pairwise fun f g => caselessCompare g.name f.name ≠ 0) →
    r.headers = hostChecked o ((blockFields block).map fun f => ⟨f.name, f.value ++ f.folds.flatten⟩) r.httpHost

theorem stored_start (hheaders : con.request.headers = []) (hims : con.request.httpIfModifiedSince = none)
    (hinm : con.request.httpIfNoneMatch = none) (reqlineHost : Option Bytes) :
    Stored reqlineHost.isSome (reqlineHost.toList.map fun host => ⟨ascii "Host", host⟩) (varsOf con reqlineHost) [] := by
  cases reqlineHost with
  | none =>
    refine ⟨hheaders, rfl, ?_, ?_⟩
    · simp [varsOf, insertReqlineHost, hheaders, hims, Headers.getElement, Headers.getIndex]
    · simp [varsOf, insertReqlineHost, hheaders, hinm, Headers.getElement, Headers.getIndex]
  | some host =>
    have hne : caselessCompare (ascii "If-Modified-Since") (ascii "Host") ≠ 0 ∧
        caselessCompare (ascii "If-None-Match") (ascii "Host") ≠ 0 := by decide
    refine ⟨?_, rfl, ?_, ?_⟩
    · simp [varsOf, insertReqlineHost, Con.insert, Headers.insertUnique, Headers.getIndex, hheaders]
    · simp [varsOf, insertReqlineHost, Con.insert, Headers.insertUnique, Headers.getElement, Headers.getIndex, hheaders,
        hims, hne.1]
    · simp [varsOf, insertReqlineHost, Con.insert, Headers.insertUnique, Headers.getElement, Headers.getIndex, hheaders,
        hinm, hne.2]

theorem blockHost_eq {w : ReqLine} {r : Con × Option Bytes}
    (hhead : (blockLines block).head? = some line) (hfeed : feed ⟨0, [], [], [], []⟩ line = some w)
    (hend : endOfRequestLine o con w = .ok r) : blockHost block = r.2 := by
  have hstage := ((endOfRequestLine_keeps o con w).of_ok hend).1
  obtain ⟨m, u, proto, hwords, rfl⟩ := isRequestLine_of_feed hfeed hstage
  obtain ⟨method, version, v, -, -, -, rfl⟩ := (endOfRequestLine_request o con _).of_ok hend
  simp [blockHost, hhead, hwords.splitOn]

/-- **The lines that the strict parser takes are a well-formed header**, and its fields are stored. -/
theorem lines_stored (hstrict : o.headerStrict = true) (hheaders : con.request.headers = [])
    (hims : con.request.httpIfModifiedSince = none) (hinm : con.request.httpIfNoneMatch = none)
    {reqlineHost : Option Bytes}
    (h : (headerLines block).foldlM (headerLine o reqlineHost.isSome) (varsOf con reqlineHost) = .ok v) :
    wellFormed (headerLines block) = true ∧
      v.con.request.headers = storedFields reqlineHost (blockFields block) := by
  obtain ⟨hstored, hfirst⟩ := (stored_start hheaders hims hinm reqlineHost).lines h
  refine ⟨?_, ?_⟩
  · rw [wellFormed, lines_wellFormed hstrict h, Bool.and_true, Bool.not_eq_true', ← Bool.not_eq_true]
    exact fun hfold => hfirst ⟨rfl, hfold⟩
  · rw [hstored.headers, storedFields, blockFields, List.foldl_reverse]

theorem endOfRequestLine_start {w : ReqLine} {r : Con × Option Bytes}
    (h : endOfRequestLine o (nextRequest con requestCount block) w = .ok r) :
    r.1.request.headers = [] ∧ r.1.request.httpIfModifiedSince = none ∧ r.1.request.httpIfNoneMatch = none := by
  obtain ⟨method, version, v, -, -, -, rfl⟩ := (endOfRequestLine_request o _ w).of_ok h
  exact ⟨rfl, rfl, rfl⟩

theorem accepted_stored (hstrict : o.headerStrict = true) (hprints : o.inet.Prints)
    (h : (httpRequestParse o (nextRequest con requestCount block)).2.httpStatus = 0) :
    HeaderStored o (parseRequest (nextRequest con requestCount block))
      (httpRequestParse o (nextRequest con requestCount block)).2.request := by
  obtain ⟨ready, hparse⟩ := accepted_parse h
  generalize (httpRequestParse o (nextRequest con requestCount block)).2 = con₁ at hparse ⊢
  obtain ⟨line, w, con', reqlineHost, v, hacc⟩ := parse_accepts rfl hparse
  obtain ⟨n, hpost⟩ := hacc.post
  obtain ⟨hheaders, hims, hinm⟩ := endOfRequestLine_start hacc.line_eq
  obtain ⟨hwf, hstored⟩ := lines_stored hstrict hheaders hims hinm hacc.lines
  have hrequest := (postProcess_request o _).of_ok hpost
  dsimp only at hrequest
  have hhost : blockHost (parseRequest (nextRequest con requestCount block)) = reqlineHost :=
    blockHost_eq hacc.head hacc.feed_eq hacc.line_eq
  have hlines : (headerLines (parseRequest (nextRequest con requestCount block))).all wellFormedLine = true := by
    rw [wellFormed, Bool.and_eq_true] at hwf
    exact hwf.2
  have heq : con₁.request.headers = hostChecked o (storedFields
      (blockHost (parseRequest (nextRequest con requestCount block)))
      (blockFields (parseRequest (nextRequest con requestCount block)))) con₁.request.httpHost := by
    rw [hhost, hrequest, ← hstored]
  refine ⟨hwf, heq, ?_, fun hnone hvalue hnames => ?_⟩
  · rw [heq]
    exact (storedFields_wellFormed _ (blockFields_wellFormed hlines)).hostChecked hprints _
  · rw [heq, hnone, storedFields, Option.isSome_none]
    rw [storeField_foldl hvalue hnames (by simp)]
    simp

theorem rejected_grammar (hstrict : o.headerStrict = true)
    (hwf : wellFormed (headerLines (parseRequest (nextRequest con requestCount block))) = false) :
    (httpRequestParse o (nextRequest con requestCount block)).2.httpStatus ≠ 0 ∧
      ((passedLine o (nextRequest con requestCount block)).isSome →
        HeaderError o (headerLines (parseRequest (nextRequest con requestCount block)))
          (httpRequestParse o (nextRequest con requestCount block)).2) := by
  have hlines : ∀ (l : LineEnd) (w : ReqLine) (v : Vars),
      endOfRequestLine o (nextRequest con requestCount block) w = .ok (l.con, l.reqlineHost) →
      (headerLines (parseRequest (nextRequest con requestCount block))).foldlM (headerLine o l.reqlineHost.isSome)
        (varsOf l.con l.reqlineHost) ≠ .ok v := by
    intro l w v hend hfold
    obtain ⟨hheaders, hims, hinm⟩ := endOfRequestLine_start hend
    have hwf' := (lines_stored hstrict hheaders hims hinm hfold).1
    rw [hwf] at hwf'
    cases hwf'
  refine ⟨fun h => ?_, fun hpassed => ?_⟩
  · obtain ⟨ready, hparse⟩ := accepted_parse h
    obtain ⟨line, w, con', reqlineHost, v, hacc⟩ := parse_accepts rfl hparse
    exact hlines ⟨con', reqlineHost, [], []⟩ w v hacc.line_eq hacc.lines
  · obtain ⟨r, hr⟩ := Option.isSome_iff_exists.mp hpassed
    obtain ⟨l, hloop, rfl, huri⟩ := passedLine_some hr
    obtain ⟨line, w, hblock, -, hend, htoken⟩ := requestLineLoop_ok rfl hloop huri
    have hnonempty : l.con.request.uri.isEmpty = false := List.isEmpty_eq_false_iff.mpr huri
    have hstart : readLine o (varsOf l.con l.reqlineHost).con (.key []) [] = .ok (.key []) := rfl
    have herror := headerLoop_error l.reqlineHost.isSome hstart l.rest
    have hheader : headerLines (parseRequest (nextRequest con requestCount block)) =
        (Lines.linesFrom (chr '\r') (chr '\n') [] l.rest).takeWhile fun line => !line.isEmpty := by
      rw [headerLines, hblock]
      rfl
    rw [hheader]
    unfold httpRequestParse parse
    simp only [bind, Except.bind, hloop, afterLine, hnonempty, htoken]
    cases hx : headerLoop o l.reqlineHost.isSome (.key []) (varsOf l.con l.reqlineHost) l.rest with
    | error e =>
      rw [hx] at herror
      unfold varsOf at hx
      rw [hx]
      exact herror
    | ok r =>
      obtain ⟨v, rest'⟩ := r
      exact absurd (headerLoop_headerLines hblock hx) (hlines l w v hend)

/-- **The header grammar**: the header of an accepted request is well formed, and its fields are stored; a header that is
not well formed is rejected. -/
theorem header_stored (o : Options) (con : Con) (requestCount : Nat) (block : Bytes) (hstrict : o.headerStrict = true)
    (hprints : o.inet.Prints) :
    ((httpRequestParse o (nextRequest con requestCount block)).2.httpStatus = 0 →
      HeaderStored o (parseRequest (nextRequest con requestCount block))
        (httpRequestParse o (nextRequest con requestCount block)).2.request) ∧
    (wellFormed (headerLines (parseRequest (nextRequest con requestCount block))) = false →
      (httpRequestParse o (nextRequest con requestCount block)).2.httpStatus ≠ 0 ∧
      ((passedLine o (nextRequest con requestCount block)).isSome →
        HeaderError o (headerLines (parseRequest (nextRequest con requestCount block)))
          (httpRequestParse o (nextRequest con requestCount block)).2)) :=
  ⟨accepted_stored hstrict hprints, rejected_grammar hstrict⟩

/-- A request with a field that is continued and one that is joined to it. -/
def joinedBlock : Bytes := ascii "GET / HTTP/1.0\r\nA: b\r\n c\r\na: d\r\n\r\n"

def separatorBlock : Bytes := ascii "GET / HTTP/1.0\r\nA/B: c\r\n\r\n"

theorem header_stored_sample :
    HeaderStored sampleOptions (parseRequest (nextRequest (sampleCon "") 1 joinedBlock))
        (httpRequestParse sampleOptions (nextRequest (sampleCon "") 1 joinedBlock)).2.request ∧
      HeaderError sampleOptions (headerLines (parseRequest (nextRequest (sampleCon "") 1 separatorBlock)))
        (httpRequestParse sampleOptions (nextRequest (sampleCon "") 1 separatorBlock)).2 := by
  have hprints : sampleOptions.inet.Prints := ⟨fun _ => rfl, fun _ => rfl⟩
  refine ⟨(header_stored sampleOptions (sampleCon "") 1 joinedBlock rfl hprints).1 ?_,
    ((header_stored sampleOptions (sampleCon "") 1 separatorBlock rfl hprints).2 ?_).2 ?_⟩
  · decide +kernel
  · decide +kernel
  · decide +kernel

/-- **Fields of one name are stored as one field**, not as they stand in the header. -/
theorem fields_joined : (httpRequestParse sampleOptions (nextRequest (sampleCon "") 1 joinedBlock)).2.httpStatus = 0 ∧
    ((httpRequestParse sampleOptions (nextRequest (sampleCon "") 1 joinedBlock)).2.request.headers.map fun ds =>
      (ds.key, ds.value)) ≠
    (blockFields (parseRequest (nextRequest (sampleCon "") 1 joinedBlock))).map fun f => (f.name, f.fullValue) := by
  decide +kernel

end Request

end Lighttpd
