import Lighttpd.Request.Parse
import Lighttpd.Lib.Outcome
import Lighttpd.Request.Fields

/-!
# Rejected requests and the reuse of the connection (`request.c`, `connections.c`)

At the end of a response the connection is either closed or reset for the next request, as `keep_alive` says; only the
parser enables it. A rejected request may have a body that has not been read, so the parser has to disable it.

- `parse_ends`: every exit of the parser but one does so;
- `parse_unsupported`: the exit for an unsupported version leaves `keep_alive` as the previous request left it;
- `keepAlive_iff`: exactly when a rejected request closes the connection.
-/

namespace Lighttpd

namespace Request

/-! ## The end of a response -/

def connectionReset (con : Con) : Con :=
  { con with
    httpStatus := 0
    responseKeepAlive := false
    headerLen := 0
    bytesIn := 0
    request := {
      request := []
      requestLine := []
      uri := []
      origUri := con.request.origUri
      httpMethod := none
      httpVersion := none
      headers := []
      httpHost := none
      httpContentType := none
      httpIfModifiedSince := none
      httpIfNoneMatch := none
      httpRange := none
      contentLength := 0 } }

def connectionHandleShutdown (con : Con) (shutdownOk : Bool) : Con :=
  { connectionReset con with state := if shutdownOk then .close else .connect }

/-- The body has not been read completely, or there is an error. -/
def Con.bodyLeft (con : Con) : Bool :=
  (con.request.contentLength != 0 && decide ((con.request.contentLength : Int).bmod (2 ^ 64) > con.bytesIn))
    || con.state == .error

def connectionHandleResponseEndState (con : Con) (shutdownOk : Bool) : Con :=
  let con := if con.bodyLeft then { con with keepAlive := false } else con
  if con.keepAlive then { connectionReset con with state := .requestStart }
  else connectionHandleShutdown con shutdownOk

/-- Without `keep_alive`, the connection is not reused. -/
theorem responseEndState_closes {con : Con} (h : con.keepAlive = false) (shutdownOk : Bool) :
    (connectionHandleResponseEndState con shutdownOk).state ≠ .requestStart := by
  have hka : (if con.bodyLeft then { con with keepAlive := false } else con).keepAlive = false := by
    split
    · rfl
    · exact h
  unfold connectionHandleResponseEndState
  simp only [hka, Bool.false_eq_true, if_false]
  unfold connectionHandleShutdown
  cases shutdownOk <;> simp

/-! ## The exits of the parser -/

/-- A connection whose request is rejected, and that will not be reused. -/
structure Con.Rejected (con : Con) : Prop where
  status : 400 ≤ con.httpStatus
  keepAlive : con.keepAlive = false

theorem Con.refuse_rejected (con : Con) {status : Nat} (h : 400 ≤ status) : (con.refuse status).Rejected := ⟨h, rfl⟩

theorem Con.reject_rejected (con : Con) {status : Nat} (h : 400 ≤ status) : (con.reject status).Rejected := ⟨h, rfl⟩

abbrev KeepsStatus (n : Nat) (x : Except Con Vars) : Prop := Ends Con.Rejected (fun v => v.con.httpStatus = n) x

theorem setContentLength_status (v : Vars) (ds : DataString) :
    KeepsStatus v.con.httpStatus (setContentLength v ds) := by
  unfold setContentLength
  refine Ends.ite (fun _ => Con.refuse_rejected _ (by omega)) fun _ => ?_
  refine Ends.ite (fun _ => Con.refuse_rejected _ (by omega)) fun _ => ?_
  exact Ends.ite (fun _ => rfl) fun _ => Con.refuse_rejected _ (by omega)

theorem setContentType_status (v : Vars) (ds : DataString) : KeepsStatus v.con.httpStatus (setContentType v ds) := by
  unfold setContentType
  cases v.con.request.httpContentType with
  | none => rfl
  | some p => exact Con.refuse_rejected _ (by omega)

theorem setExpect_status (o : Options) (v : Vars) (ds : DataString) :
    KeepsStatus v.con.httpStatus (setExpect o v ds) := by
  unfold setExpect
  exact Ends.ite (fun _ => Con.refuse_rejected _ (by omega)) fun _ => rfl

theorem setHost_status (host : Bool) (v : Vars) (ds : DataString) :
    KeepsStatus v.con.httpStatus (setHost host v ds) := by
  unfold setHost
  refine Ends.ite (fun _ => rfl) fun _ => ?_
  cases v.con.request.httpHost with
  | none => rfl
  | some p => exact Con.refuse_rejected _ (by omega)

theorem setIfModifiedSince_status (v : Vars) (ds : DataString) :
    KeepsStatus v.con.httpStatus (setIfModifiedSince v ds) := by
  unfold setIfModifiedSince
  cases v.con.request.httpIfModifiedSince with
  | none => rfl
  | some p => exact Ends.ite (fun _ => rfl) fun _ => Con.refuse_rejected _ (by omega)

theorem setIfNoneMatch_status (v : Vars) (ds : DataString) :
    KeepsStatus v.con.httpStatus (setIfNoneMatch v ds) := by
  unfold setIfNoneMatch
  cases v.con.request.httpIfNoneMatch with
  | none => rfl
  | some p => rfl

theorem setRange_status (v : Vars) (ds : DataString) : KeepsStatus v.con.httpStatus (setRange v ds) := by
  unfold setRange
  cases v.con.request.httpRange with
  | none => exact Ends.ite (fun _ => rfl) fun _ => rfl
  | some p => exact Con.refuse_rejected _ (by omega)

theorem setField_status (o : Options) (host : Bool) (v : Vars) (ds : DataString) :
    KeepsStatus v.con.httpStatus (setField o host v ds) := by
  unfold setField
  cases findName ds.key fieldNames with
  | none => rfl
  | some name =>
    cases name with
    | connection => rfl
    | contentLength => exact setContentLength_status v ds
    | contentType => exact setContentType_status v ds
    | expect => exact setExpect_status o v ds
    | host => exact setHost_status host v ds
    | ifModifiedSince => exact setIfModifiedSince_status v ds
    | ifNoneMatch => exact setIfNoneMatch_status v ds
    | range => exact setRange_status v ds

theorem endOfLine_status (o : Options) (host : Bool) (v : Vars) (m : Mode) :
    KeepsStatus v.con.httpStatus (endOfLine o host v m) := by
  cases m with
  | key token => rfl
  | colon key => rfl
  | value key value =>
    exact Ends.ite (fun _ => rfl) fun _ => setField_status o host _ _
  | folding value =>
    show KeepsStatus v.con.httpStatus (endOfFoldedLine v value)
    unfold endOfFoldedLine
    split
    · exact Con.reject_rejected _ (by omega)
    · exact Con.reject_rejected _ (by omega)
    · rfl

theorem headerChar_rejected (o : Options) (con : Con) (c : Byte) (m : Mode) :
    Ends Con.Rejected (fun _ => True) (headerChar o con c m) := by
  cases m with
  | key token =>
    refine Ends.ite (fun _ => trivial) fun _ => ?_
    refine Ends.ite (fun _ => Con.reject_rejected _ (by omega)) fun _ => ?_
    refine Ends.ite (fun _ => trivial) fun _ => ?_
    exact Ends.ite (fun _ => Con.reject_rejected _ (by omega)) fun _ => trivial
  | colon key =>
    refine Ends.ite (fun _ => trivial) fun _ => ?_
    exact Ends.ite (fun _ => trivial) fun _ => Con.reject_rejected _ (by omega)
  | value key value =>
    refine Ends.ite (fun _ => trivial) fun _ => ?_
    exact Ends.ite (fun _ => Con.refuse_rejected _ (by omega)) fun _ => trivial
  | folding value =>
    refine Ends.ite (fun _ => trivial) fun _ => ?_
    exact Ends.ite (fun _ => Con.refuse_rejected _ (by omega)) fun _ => trivial

theorem headerChar_nul (o : Options) (con : Con) (m : Mode) :
    ∃ con', headerChar o con 0 m = .error con' ∧ con'.Rejected := by
  have hkey : badKeyChar o.headerStrict 0 = true := by cases o.headerStrict <;> decide
  have hvalue : badValueChar o.headerStrict 0 = true := by cases o.headerStrict <;> decide
  cases m with
  | key token =>
    refine ⟨con.reject 400, ?_, Con.reject_rejected _ (by omega)⟩
    simp [headerChar, hkey, show (0 : Byte) ≠ chr ':' from by decide, show isSeparator 0 = false from by decide,
      show isWs 0 = false from by decide]
  | colon key =>
    refine ⟨con.reject 400, ?_, Con.reject_rejected _ (by omega)⟩
    simp [headerChar, show (0 : Byte) ≠ chr ':' from by decide, show isWs 0 = false from by decide]
  | value key value =>
    refine ⟨con.refuse 400, ?_, Con.refuse_rejected _ (by omega)⟩
    simp [headerChar, hvalue, show isWs 0 = false from by decide]
  | folding value =>
    refine ⟨con.refuse 400, ?_, Con.refuse_rejected _ (by omega)⟩
    simp [headerChar, hvalue, show isWs 0 = false from by decide]

theorem headerLoop_nil (o : Options) (host : Bool) (m : Mode) (v : Vars) :
    headerLoop o host m v [] = match headerChar o v.con 0 m with
      | .error con => .error con
      | .ok _ => .ok (v, []) := by
  exact headerLoop.eq_def o host m v []

theorem headerLoop_status (o : Options) (host : Bool) (m : Mode) (v : Vars) (s : Bytes) :
    Ends Con.Rejected (fun r => r.1.con.httpStatus = v.con.httpStatus) (headerLoop o host m v s) := by
  fun_induction headerLoop o host m v s with
  | case1 m v con h => exact (headerChar_rejected o v.con 0 m).of_error h
  | case2 m v m' h => rfl
  | case3 m v => exact Con.reject_rejected _ (by omega)
  | case4 => exact Con.reject_rejected _ (by omega)
  | case5 => rfl
  | case6 => exact Con.reject_rejected _ (by omega)
  | case7 m v d s' _ _ con h => exact (endOfLine_status o host v m).of_error h
  | case8 m v d s' _ _ v' h ih =>
    have hv : v'.con.httpStatus = v.con.httpStatus := (endOfLine_status o host v m).of_ok h
    exact ih.mono (fun _ he => he) fun _ ha => ha.trans hv
  | case9 m v c s _ con h => exact (headerChar_rejected o v.con c m).of_error h
  | case10 m v c s _ m' h ih => exact ih

theorem setKeepAlive_request (v : Vars) :
    Ends (fun _ => True) (fun con => con.request = v.con.request) (setKeepAlive v) := by
  unfold setKeepAlive
  refine Ends.ite (fun _ => ?_) fun _ => rfl
  dsimp only
  split
  · trivial
  · exact Ends.ite (fun _ => trivial) fun _ => rfl

theorem setKeepAlive_status (v : Vars) :
    Ends Con.Rejected (fun con => con.httpStatus = v.con.httpStatus) (setKeepAlive v) := by
  unfold setKeepAlive
  refine Ends.ite (fun _ => ?_) fun _ => rfl
  dsimp only
  split
  · exact Con.reject_rejected _ (by omega)
  · exact Ends.ite (fun _ => Con.reject_rejected _ (by omega)) fun _ => rfl

theorem checkHost_status (o : Options) (con : Con) :
    Ends Con.Rejected (fun con' => con'.httpStatus = con.httpStatus) (checkHost o con) := by
  unfold checkHost
  split
  · rfl
  · rename_i p _
    refine Ends.ite (fun _ => Con.reject_rejected _ (by omega)) fun _ => ?_
    refine Ends.ite (fun _ => Con.reject_rejected _ (by omega)) fun _ => ?_
    cases o.hostNormalize <;> cases o.hostStrict <;> rfl

theorem checkMethod_same (con : Con) (conLengthSet : Bool) :
    Ends (fun _ => True) (fun con' => con' = con) (checkMethod con conLengthSet) := by
  unfold checkMethod
  split <;> exact Ends.ite (fun _ => trivial) fun _ => rfl

theorem checkMethod_status (con : Con) (conLengthSet : Bool) :
    Ends Con.Rejected (fun con' => con'.httpStatus = con.httpStatus) (checkMethod con conLengthSet) := by
  unfold checkMethod
  split
  · exact Ends.ite (fun _ => Con.refuse_rejected _ (by omega)) fun _ => rfl
  · exact Ends.ite (fun _ => Con.refuse_rejected _ (by omega)) fun _ => rfl
  · exact Ends.ite (fun _ => Con.refuse_rejected _ (by omega)) fun _ => rfl
  · exact Ends.ite (fun _ => Con.refuse_rejected _ (by omega)) fun _ => rfl

theorem checkLength_status (con : Con) (conLengthSet : Bool) :
    Ends Con.Rejected (fun r => r.2.httpStatus = con.httpStatus) (checkLength con conLengthSet) := by
  unfold checkLength
  refine Ends.ite (fun _ => ?_) fun _ => rfl
  exact Ends.ite (fun _ => Con.refuse_rejected _ (by omega)) fun _ => rfl

theorem postProcess_status (o : Options) (v : Vars) :
    Ends Con.Rejected (fun r => r.2.httpStatus = v.con.httpStatus) (postProcess o v) := by
  unfold postProcess
  refine (setKeepAlive_status v).bind fun con hcon => ?_
  refine (checkHost_status o con).bind fun con' hcon' => ?_
  refine (checkMethod_status con' v.conLengthSet).bind fun con'' hcon'' => ?_
  refine (checkLength_status con'' v.conLengthSet).mono (fun _ he => he) fun r hr => ?_
  exact hr.trans (hcon''.trans (hcon'.trans hcon))

/-! ## The request line -/

/-- The loop over the request line, in a line that has no CRLF: the variables, unless there is a blank too much. -/
def feed (l : ReqLine) : Bytes → Option ReqLine
  | [] => some l
  | c :: s => if c = chr ' ' then (lineBlank l).bind fun l => feed l s else feed (lineChar l c) s

/-- What the loop over the request line does, by the lines of what it reads. -/
def LineOutcome (o : Options) (con : Con) (l : ReqLine) (pre s : Bytes) (x : Except Con LineEnd) : Prop :=
  match Lines.linesFrom (chr '\r') (chr '\n') pre s with
  | [] => x = .error (con.reject 400) ∨ ∃ token, x = .ok ⟨con, none, token, []⟩
  | line :: more => ∃ t rest, line = pre ++ t ∧ more = blockLines rest ∧
      x = match feed l t with
        | none => .error (con.reject 400)
        | some l => (endOfRequestLine o con l).map fun r => ⟨r.1, r.2, [], rest⟩

theorem LineOutcome.cons {o : Options} {con : Con} {l l' : ReqLine} {pre s : Bytes} {c : Byte}
    {x : Except Con LineEnd} (hlines : Lines.linesFrom (chr '\r') (chr '\n') pre (c :: s)
      = Lines.linesFrom (chr '\r') (chr '\n') (pre ++ [c]) s)
    (hfeed : ∀ t, feed l (c :: t) = feed l' t) (h : LineOutcome o con l' (pre ++ [c]) s x) :
    LineOutcome o con l pre (c :: s) x := by
  unfold LineOutcome at h ⊢
  rw [hlines]
  cases hs : Lines.linesFrom (chr '\r') (chr '\n') (pre ++ [c]) s with
  | nil =>
    rw [hs] at h
    exact h
  | cons line more =>
    rw [hs] at h
    obtain ⟨t, rest, hline, hmore, hx⟩ := h
    refine ⟨c :: t, rest, ?_, hmore, ?_⟩
    · rw [hline, List.append_assoc, List.singleton_append]
    · rw [hfeed, hx]

/-- **The loop over the request line takes the first line of the block.** -/
theorem requestLineLoop_lines (o : Options) (con : Con) (l : ReqLine) (pre s : Bytes) :
    LineOutcome o con l pre s (requestLineLoop o con l s) := by
  have hblank : chr '\r' ≠ chr ' ' := by decide
  fun_induction requestLineLoop o con l s generalizing pre with
  | case1 l => exact Or.inr ⟨l.token, rfl⟩
  | case2 l ih => exact Or.inr ⟨_, rfl⟩
  | case3 l s' =>
    unfold LineOutcome
    rw [Lines.linesFrom_end]
    exact ⟨[], s', (List.append_nil pre).symm, rfl, rfl⟩
  | case4 l d s' hd ih =>
    refine LineOutcome.cons (Lines.linesFrom_cons_cons pre s' hd) (fun t => ?_) (ih _)
    rw [feed, if_neg hblank]
  | case5 l s _ hbl =>
    unfold LineOutcome
    rw [Lines.linesFrom_cons pre s hblank.symm]
    cases hs : Lines.linesFrom (chr '\r') (chr '\n') (pre ++ [chr ' ']) s with
    | nil => exact Or.inl rfl
    | cons line more =>
      obtain ⟨t, rest, hline, hmore⟩ := Lines.linesFrom_eq_cons hs
      refine ⟨chr ' ' :: t, rest, by simp [hline], hmore, ?_⟩
      rw [feed, if_pos rfl, ‹lineBlank l = none›, Option.bind_none]
  | case6 l s l' hl _ ih =>
    refine LineOutcome.cons (Lines.linesFrom_cons pre s hblank.symm) (fun t => ?_) (ih _)
    rw [feed, if_pos rfl, ‹lineBlank l = some _›, Option.bind_some]
  | case7 l c s hcr hbl ih =>
    refine LineOutcome.cons (Lines.linesFrom_cons pre s hcr) (fun t => ?_) (ih _)
    rw [feed, if_neg hbl]

/-- A request line: three words with a blank between them. -/
structure IsRequestLine (line m u v : Bytes) : Prop where
  line_eq : line = m ++ chr ' ' :: (u ++ chr ' ' :: v)
  method : chr ' ' ∉ m
  uri : chr ' ' ∉ u
  proto : chr ' ' ∉ v

theorem feed_word (l : ReqLine) (t s : Bytes) (h : chr ' ' ∉ t) :
    feed l (t ++ s) = feed { l with token := l.token ++ t, line := l.line ++ t } s := by
  induction t generalizing l with
  | nil => simp
  | cons c t ih =>
    rw [List.mem_cons, not_or] at h
    rw [List.cons_append, feed, if_neg (Ne.symm h.1), ih _ h.2]
    simp [lineChar]

theorem feed_first_blank (m u t n s : Bytes) :
    feed ⟨0, m, u, t, n⟩ (chr ' ' :: s) = feed ⟨1, t, u, [], n ++ [chr ' ']⟩ s := by
  rw [feed, if_pos rfl]
  rfl

theorem feed_second_blank (m u t n s : Bytes) :
    feed ⟨1, m, u, t, n⟩ (chr ' ' :: s) = feed ⟨2, m, t, [], n ++ [chr ' ']⟩ s := by
  rw [feed, if_pos rfl]
  rfl

theorem feed_third_blank (m u t n s : Bytes) : feed ⟨2, m, u, t, n⟩ (chr ' ' :: s) = none := by
  rw [feed, if_pos rfl]
  rfl

theorem feed_requestLine {line m u v : Bytes} (h : IsRequestLine line m u v) :
    feed ⟨0, [], [], [], []⟩ line = some ⟨2, m, u, v, line⟩ := by
  obtain ⟨rfl, hm, hu, hv⟩ := h
  have hlast : ∀ n : Bytes, feed ⟨2, m, u, [], n⟩ v = some ⟨2, m, u, v, n ++ v⟩ := by
    intro n
    have := feed_word ⟨2, m, u, [], n⟩ v [] hv
    rw [List.append_nil] at this
    exact this
  rw [feed_word _ _ _ hm, feed_first_blank, feed_word _ _ _ hu, feed_second_blank]
  apply (hlast _).trans
  simp

theorem isRequestLine_of_feed {line : Bytes} {l : ReqLine} (h : feed ⟨0, [], [], [], []⟩ line = some l)
    (hstage : l.stage = 2) : ∃ m u v, IsRequestLine line m u v ∧ l = ⟨2, m, u, v, line⟩ := by
  have hword : ∀ (l₀ : ReqLine) (t : Bytes), chr ' ' ∉ t → feed l₀ t = some l → l₀.stage = 2 := by
    intro l₀ t ht hl
    have := feed_word l₀ t [] ht
    rw [List.append_nil, hl, feed] at this
    rw [← hstage, Option.some.inj this]
  by_cases hm : chr ' ' ∈ line
  · obtain ⟨m, s, rfl, hm'⟩ := List.eq_append_cons_of_mem hm
    have h' := h
    rw [feed_word _ _ _ hm', feed_first_blank] at h'
    by_cases hu : chr ' ' ∈ s
    · obtain ⟨u, v, rfl, hu'⟩ := List.eq_append_cons_of_mem hu
      by_cases hv : chr ' ' ∈ v
      · obtain ⟨w, s, rfl, hw⟩ := List.eq_append_cons_of_mem hv
        rw [feed_word _ _ _ hu', feed_second_blank, feed_word _ _ _ hw, feed_third_blank] at h'
        cases h'
      · have hl : IsRequestLine (m ++ chr ' ' :: (u ++ chr ' ' :: v)) m u v := ⟨rfl, hm', hu', hv⟩
        exact ⟨m, u, v, hl, Option.some.inj (h.symm.trans (feed_requestLine hl))⟩
    · cases hword _ _ hu h'
  · cases hword _ _ hm h

/-- The request line asks for a version that the server does not know: three words, a known method and a valid version
other than 1.0 and 1.1. -/
def VersionUnsupported (block : Bytes) : Prop :=
  ∃ line m u v version, (blockLines block).head? = some line ∧ IsRequestLine line m u v ∧
    (getHttpMethodKey m).isSome ∧ protoVersion (cstr v) = some version ∧ version ≠ (1, 1) ∧ version ≠ (1, 0)

theorem setUri_status (o : Options) (con : Con) (uri : Bytes) :
    Ends Con.Rejected (fun r => r.1.httpStatus = 0) (setUri o con uri) := by
  unfold setUri
  exact Ends.ite (fun _ => Con.refuse_rejected _ (by omega)) fun _ => rfl

/-- The end of the request line rejects the request, or sets the status `0`, if the version is supported. -/
theorem endOfRequestLine_status (o : Options) (con : Con) (l : ReqLine)
    (h : ∀ version, l.stage = 2 → (getHttpMethodKey l.method).isSome → protoVersion (cstr l.token) = some version →
      version = (1, 1) ∨ version = (1, 0)) :
    Ends Con.Rejected (fun r => r.1.httpStatus = 0) (endOfRequestLine o con l) := by
  unfold endOfRequestLine
  refine Ends.ite (fun _ => Con.reject_rejected _ (by omega)) fun hstage => ?_
  rw [not_not] at hstage
  cases hm : getHttpMethodKey l.method with
  | none => exact Con.reject_rejected _ (by omega)
  | some r =>
    dsimp only
    unfold setVersion
    cases hp : protoVersion (cstr l.token) with
    | none => exact Con.refuse_rejected _ (by omega)
    | some version =>
      refine Ends.ite (fun _ => setUri_status _ _ _) fun h11 => ?_
      refine Ends.ite (fun _ => setUri_status _ _ _) fun h10 => ?_
      rcases h version hstage (by rw [hm]; rfl) hp with hv | hv
      · exact absurd hv h11
      · exact absurd hv h10

/-- An unsupported version ends the parser with 505, and `keep_alive` as it was. -/
theorem endOfRequestLine_unsupported (o : Options) (con : Con) {l : ReqLine} {version : Int × Int}
    (hstage : l.stage = 2) (hm : (getHttpMethodKey l.method).isSome) (hp : protoVersion (cstr l.token) = some version)
    (h11 : version ≠ (1, 1)) (h10 : version ≠ (1, 0)) :
    Ends (fun con' => con'.httpStatus = 505 ∧ con'.keepAlive = con.keepAlive) (fun _ => False)
      (endOfRequestLine o con l) := by
  obtain ⟨r, hr⟩ := Option.isSome_iff_exists.mp hm
  unfold endOfRequestLine
  rw [if_neg (not_not.mpr hstage), hr]
  dsimp only
  unfold setVersion
  rw [hp]
  dsimp only
  rw [if_neg h11, if_neg h10]
  exact ⟨rfl, rfl⟩

/-! ## The parser -/

theorem insertReqlineHost_httpStatus (con : Con) (host : Option Bytes) :
    (insertReqlineHost con host).httpStatus = con.httpStatus := by
  cases host <;> rfl

/-- Behind the request line, the parser rejects the request or leaves the status. -/
theorem afterLine_status (o : Options) (block : Bytes) (l : LineEnd) (h : l.con.httpStatus = 0 ∨ l.rest = []) :
    Ends Con.Rejected (fun r => r.2.httpStatus = 0) (afterLine o block l) := by
  unfold afterLine
  refine Ends.ite (fun _ => Con.reject_rejected _ (by omega)) fun _ => ?_
  rcases h with h | h
  · refine (headerLoop_status _ _ _ _ _).bind fun r hr => ?_
    refine (postProcess_status o _).mono (fun _ he => he) fun r' hr' => ?_
    exact hr'.trans (hr.trans ((insertReqlineHost_httpStatus _ _).trans h))
  · rw [h]
    obtain ⟨con', hcon, hrej⟩ := headerChar_nul o (insertReqlineHost l.con l.reqlineHost) (.key l.token)
    dsimp only
    rw [headerLoop_nil, hcon]
    exact hrej

/-- **Every exit of the parser but the one for an unsupported version disables `keep_alive`.** -/
theorem parse_ends (o : Options) (con : Con) (h : ¬ VersionUnsupported (parseRequest con)) :
    Ends Con.Rejected (fun r => r.2.httpStatus = 0) (parse o con) := by
  have hline := requestLineLoop_lines o con ⟨0, [], [], [], []⟩ [] (parseRequest con)
  unfold LineOutcome at hline
  unfold parse
  dsimp only
  split at hline
  · rcases hline with hline | ⟨token, hline⟩
    · rw [hline]
      exact Con.reject_rejected _ (by omega)
    · rw [hline]
      exact afterLine_status o _ _ (Or.inr rfl)
  · rename_i line more hlines
    obtain ⟨t, rest, ht, -, hline⟩ := hline
    rw [List.nil_append] at ht
    subst ht
    rw [hline]
    cases hfeed : feed ⟨0, [], [], [], []⟩ line with
    | none => exact Con.reject_rejected _ (by omega)
    | some l =>
      have hend : Ends Con.Rejected (fun r => r.1.httpStatus = 0) (endOfRequestLine o con l) := by
        refine endOfRequestLine_status o con l fun version hstage hm hp => ?_
        obtain ⟨m, u, v, hl, rfl⟩ := isRequestLine_of_feed hfeed hstage
        by_contra hne
        rw [not_or] at hne
        refine h ⟨line, m, u, v, version, ?_, hl, hm, hp, hne.1, hne.2⟩
        rw [blockLines, Lines.lines, hlines]
        rfl
      refine (hend.map fun r hr => ?_).bind fun l hl => afterLine_status o _ l (Or.inl hl)
      exact hr

/-- **An unsupported version leaves `keep_alive` as the previous request left it.** -/
theorem parse_unsupported (o : Options) (con : Con) (h : VersionUnsupported (parseRequest con)) :
    (httpRequestParse o con).2.httpStatus = 505 ∧ (httpRequestParse o con).2.keepAlive = con.keepAlive := by
  obtain ⟨line, m, u, v, version, hhead, hl, hm, hp, h11, h10⟩ := h
  have hline := requestLineLoop_lines o con ⟨0, [], [], [], []⟩ [] (parseRequest con)
  unfold LineOutcome at hline
  obtain ⟨more, hlines⟩ := List.head?_eq_some_iff.mp hhead
  rw [blockLines, Lines.lines] at hlines
  rw [hlines] at hline
  obtain ⟨t, rest, ht, -, hline⟩ := hline
  rw [List.nil_append] at ht
  subst ht
  rw [feed_requestLine hl] at hline
  have hend := endOfRequestLine_unsupported o con (l := ⟨2, m, u, v, line⟩) rfl hm hp h11 h10
  unfold httpRequestParse parse
  dsimp only
  rw [hline]
  dsimp only
  cases hx : endOfRequestLine o con ⟨2, m, u, v, line⟩ with
  | error con' => exact hend.of_error hx
  | ok r => exact (hend.of_ok hx).elim

/-- What happens to a connection behind the parser, up to the end of the response: nothing enables `keep_alive`. -/
def OnlyDisables (con con' : Con) : Prop := con'.keepAlive = true → con.keepAlive = true

/-- A rejected request closes the connection: `keep_alive` is off when the parser returns, and the end of the response
does not start another request. -/
def ClosesRejected (o : Options) (con : Con) : Prop :=
  400 ≤ (httpRequestParse o con).2.httpStatus →
    (httpRequestParse o con).2.keepAlive = false ∧
      ∀ con', OnlyDisables (httpRequestParse o con).2 con' →
        ∀ shutdownOk, (connectionHandleResponseEndState con' shutdownOk).state ≠ .requestStart

/-- **A rejected request closes the connection, unless the version is unsupported and the connection has been kept
alive before.** -/
theorem rejected_closes_iff (o : Options) (con : Con) :
    ClosesRejected o con ↔ con.keepAlive = false ∨ ¬ VersionUnsupported (parseRequest con) := by
  constructor
  · intro h
    by_cases hv : VersionUnsupported (parseRequest con)
    · obtain ⟨hstatus, hka⟩ := parse_unsupported o con hv
      left
      rw [← hka]
      exact (h (by omega)).1
    · exact Or.inr hv
  · intro h hstatus
    have hka : (httpRequestParse o con).2.keepAlive = false := by
      by_cases hv : VersionUnsupported (parseRequest con)
      · rw [(parse_unsupported o con hv).2]
        exact h.resolve_right (not_not.mpr hv)
      · have hends := parse_ends o con hv
        unfold httpRequestParse at hstatus ⊢
        cases hx : parse o con with
        | error con' => exact (hends.of_error hx).keepAlive
        | ok r =>
          have hr := hends.of_ok hx
          rw [hx] at hstatus
          dsimp only at hstatus
          omega
    refine ⟨hka, fun con' hcon' shutdownOk => responseEndState_closes ?_ shutdownOk⟩
    cases hcon : con'.keepAlive with
    | false => rfl
    | true => exact absurd (hcon' hcon) (by rw [hka]; decide)

/-- The default options. The hosts of the samples are no numeric addresses. -/
def sampleOptions : Options := ⟨true, true, true, true, true, ⟨fun _ => none, fun _ => [], fun _ => none, fun _ => []⟩⟩

def sampleCon (request : String) : Con :=
  ⟨⟨ascii request, [], [], [], none, none, [], none, none, none, none, none, 0⟩, 1, 0, 0, false, false, 0, .requestEnd⟩

/-- A connection that serves a request, is kept alive and reads another one. -/
def reusedCon (first second : String) : Con :=
  let con := connectionHandleResponseEndState (httpRequestParse sampleOptions (sampleCon first)).2 true
  { con with request := { con.request with request := ascii second }, requestCount := 2, state := .requestEnd }

/-- **A second request with an unsupported version does not close the connection.** -/
theorem unsupported_not_closed :
    ¬ ClosesRejected sampleOptions (reusedCon "GET / HTTP/1.1\r\nHost: a\r\n\r\n" "GET / HTTP/2.0\r\nHost: a\r\n\r\n") := by
  intro h
  have hka := (h (by decide +kernel)).1
  revert hka
  decide +kernel

end Request

end Lighttpd
