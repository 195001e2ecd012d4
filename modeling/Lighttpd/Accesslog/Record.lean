import Lighttpd.Accesslog.Write
import Lighttpd.Uri.Target

/-!
# The records of the access log (`mod_accesslog.c`)

A record is one line, from which the values can be read back that a client has sent, if every field is safe: most of what
a client controls is escaped, but neither the path of the file nor the name of the server is.

- `writeField_recovered`: a field is written so that it can be read back just when it is safe;
- `recorded_iff`: so a record is a line that can be read back just when every field of the format is safe, in the state
  of the log in which it is written.
-/

namespace Lighttpd.Accesslog
open Request

/-! ## What can be read back -/

/-- A value that a client has control over, and that is written by a field. -/
def clientValue (con : LogCon) (f : FormatField) : Option Bytes :=
  match f.type, f.field with
  | .format, .remoteAddr | .format, .remoteHost => some con.dstAddrBuf
  | .format, .remoteUser =>
    ((con.environment.getElement (ascii "REMOTE_USER")).map DataString.value).filter (· ≠ [])
  | .format, .requestLine => some con.requestLine
  | .format, .header => f.string.bind fun name => (con.requestHeaders.getElement (cstr name)).map DataString.value
  | .format, .responseHeader => f.string.bind fun name => (con.responseHeaders.getElement (cstr name)).map DataString.value
  | .format, .env => f.string.bind fun name => (con.environment.getElement (cstr name)).map DataString.value
  | .format, .filename => if con.physicalPath = [] then none else some con.physicalPath
  | .format, .serverName => if con.serverName = [] then none else some con.serverName
  | .format, .httpHost => if con.authority = [] then none else some con.authority
  | .format, .queryString => some con.query
  | .format, .url => some con.pathRaw
  | .format, .cookie =>
    f.string.bind fun name => (con.requestHeaders.getElement (ascii "Cookie")).bind fun ds => (cookieScan name ds.value).join
  | _, _ => none

/-- A text is on one line, and the value can be read back from it: so it has neither a control character nor a quote or a
backslash that is not escaped. -/
def Recovers (con : LogCon) (f : FormatField) (text : Bytes) : Prop :=
  chr '\n' ∉ text ∧ ∀ v ∈ clientValue con f, unescape text = some v

/-- The fields are written one behind the other, each with a text from which its value can be read back. -/
inductive Written (lib : LibC) (srv : LogServer) (con : LogCon) : List FormatField → LogState → LogState → Prop
  | nil (st : LogState) : Written lib srv con [] st st
  | cons {f : FormatField} {fields : List FormatField} {st st' st'' : LogState} {text : Bytes}
    (hfield : writeField lib srv con f st = .ok st') (htext : st'.buffer = st.buffer ++ text)
    (hvalue : Recovers con f text) (hrest : Written lib srv con fields st' st'') :
    Written lib srv con (f :: fields) st st''

def LogState.log (st : LogState) : Bytes := st.written ++ st.buffer

/-- **A record is one line**, and the values of the client can be read back from it. -/
def Recorded (lib : LibC) (srv : LogServer) (con : LogCon) (conf : LogConf) (fields : List FormatField)
    (st : LogState) : Prop :=
  (∃ st', Written lib srv con fields { st with newts := false } st') ∧
  ∃ out line, logAccessWrite lib srv con conf fields st = .ok out ∧ out.log = st.log ++ line ++ ascii "\n" ∧
    chr '\n' ∉ line

/-! ## Safe fields -/

/-- A timestamp that is safe: a time without a newline, or a fraction that is not rounded up to a whole second (or stands
behind the digit 1). -/
def TimestampSafe (lib : LibC) (srv : LogServer) (con : LogCon) (f : FormatField) (st : LogState) : Prop :=
  match f.opt.unit with
  | none =>
    if f.opt.atBegin = false ∧ srv.curTs = st.lastTs then chr '\n' ∉ st.tsStr
    else chr '\n' ∉ timeText lib f.string (secondOf srv con f)
  | some (.frac k) => (timeOf srv con f).nsec ≤ k.largest ∨ st.buffer.getLast? = some (chr '1')
  | some _ => True

/-- A placeholder that is safe. What is not escaped has nothing to escape; what looks up a name has one; and the search
for a cookie does not get behind the end of the header field. -/
def PlaceholderSafe (srv : LogServer) (con : LogCon) (f : FormatField) : Prop :=
  match f.field with
  | .remoteAddr | .remoteHost => ∀ c ∈ con.dstAddrBuf, isClean c = true
  | .filename => ∀ c ∈ con.physicalPath, isClean c = true
  | .serverName => ∀ c ∈ con.serverName, isClean c = true
  | .localAddr => chr '\n' ∉ localAddrText con
  | .serverPort => chr '\n' ∉ serverPortText srv con
  | .header | .responseHeader | .env => f.string ≠ none
  | .cookie =>
    ∀ ds, con.requestHeaders.getElement (ascii "Cookie") = some ds →
      ∃ name, f.string = some name ∧ ¬ Reached name (cstr ds.value) []
  | _ => True

def FieldSafe (lib : LibC) (srv : LogServer) (con : LogCon) (f : FormatField) (st : LogState) : Prop :=
  match f.type with
  | .string => chr '\n' ∉ f.string.getD []
  | .format => if f.field = .timestamp then TimestampSafe lib srv con f st else PlaceholderSafe srv con f

def AllSafe (lib : LibC) (srv : LogServer) (con : LogCon) : List FormatField → LogState → Prop
  | [], _ => True
  | f :: fields, st =>
    FieldSafe lib srv con f st ∧ ∀ st', writeField lib srv con f st = .ok st' → AllSafe lib srv con fields st'

/-! ## Texts on one line -/

variable {lib : LibC} {srv : LogServer} {con : LogCon} {f : FormatField} {st : LogState}

theorem newline_liItostrn (n : Int) : chr '\n' ∉ liItostrn n := by
  have hdigits : chr '\n' ∉ liUtostrn n.natAbs := fun h => absurd ((liUtostrn_spec n.natAbs).2.1 _ h) (by decide)
  unfold liItostrn
  split_ifs
  · rw [List.mem_cons, not_or]
    exact ⟨by decide, hdigits⟩
  · exact hdigits

theorem newline_countText (n shown : Int) : chr '\n' ∉ countText n shown := by
  unfold countText
  split_ifs
  · exact newline_liItostrn shown
  · decide

theorem newline_of_clean {s : Bytes} (h : ∀ c ∈ s, isClean c = true) : chr '\n' ∉ s :=
  fun hmem => absurd (h _ hmem) (by decide)

theorem newline_escape (s : Bytes) : chr '\n' ∉ escape s :=
  fun hmem => absurd ((unescape_spec (unescape_escape_self s)).1 _ hmem) (by decide)

theorem newline_timeUsedText (unit : Option TimeUnit) : chr '\n' ∉ timeUsedText srv con unit := by
  unfold timeUsedText
  dsimp only
  split_ifs
  · exact newline_liItostrn _
  · exact newline_liItostrn _
  · split <;> exact newline_liItostrn _

theorem newline_methodName (m : Option Method) : chr '\n' ∉ (m.map Backend.getHttpMethodName).getD [] := by
  rcases m with _ | m
  · nofun
  · cases m <;> decide +kernel

variable {text v : Bytes}

theorem recovers_escape (h : ∀ w ∈ clientValue con f, w = v) : Recovers con f (escape v) :=
  ⟨newline_escape v, fun w hw => by rw [h w hw]; exact unescape_escape_self v⟩

theorem recovers_iff_newline (h : clientValue con f = none) : Recovers con f text ↔ chr '\n' ∉ text := by
  simp [Recovers, h]

/-- What is not escaped can be read back just when there is nothing to escape. -/
theorem recovers_orDash (h : clientValue con f = if v = [] then none else some v) :
    Recovers con f (orDash v) ↔ ∀ c ∈ v, isClean c = true := by
  unfold Recovers orDash
  rw [h]
  split_ifs with hv
  · subst hv
    simp; decide
  · simp only [Option.mem_def, Option.some_inj, forall_eq', unescape_self_iff]
    exact and_iff_right_of_imp newline_of_clean

/-- What is written as it is can be read back just when there is nothing to escape. -/
theorem recovers_self (h : clientValue con f = some v) : Recovers con f v ↔ ∀ c ∈ v, isClean c = true := by
  unfold Recovers
  rw [h]
  simp only [Option.mem_def, Option.some_inj, forall_eq', unescape_self_iff]
  exact and_iff_right_of_imp newline_of_clean

/-! ## One field -/

/-- The field has a text from which its value can be read back. -/
def PlaceholderRecovered (srv : LogServer) (con : LogCon) (f : FormatField) : Prop :=
  ∃ text, formatText srv con f = .ok text ∧ Recovers con f text

theorem recovered_of_text (h : formatText srv con f = .ok text) :
    PlaceholderRecovered srv con f ↔ Recovers con f text := by
  unfold PlaceholderRecovered
  rw [h]
  simp only [Except.ok.injEq, exists_eq_left']

theorem recovered_of_newline (h : formatText srv con f = .ok text) (hclient : clientValue con f = none) :
    PlaceholderRecovered srv con f ↔ chr '\n' ∉ text := by
  rw [recovered_of_text h, recovers_iff_newline hclient]

theorem recovered_element {array : Headers} (h : formatText srv con f = elementText array f.string)
    (hclient : clientValue con f = f.string.bind fun name => (array.getElement (cstr name)).map DataString.value) :
    PlaceholderRecovered srv con f ↔ f.string ≠ none := by
  cases hstring : f.string with
  | none =>
    rw [hstring] at h
    refine iff_of_false ?_ (by simp)
    rintro ⟨text, htext, -⟩
    rw [h] at htext
    cases htext
  | some name =>
    rw [hstring] at h hclient
    refine iff_of_true ?_ (by simp)
    rw [Option.bind_some] at hclient
    unfold elementText at h
    cases hds : array.getElement (cstr name) with
    | none =>
      simp only [hds] at h
      rw [hds] at hclient
      exact (recovered_of_newline h hclient).mpr (by decide)
    | some ds =>
      simp only [hds] at h
      rw [hds] at hclient
      refine (recovered_of_text h).mpr (recovers_escape fun w hw => ?_)
      rw [hclient] at hw
      exact (Option.some.inj hw).symm

/-- The search for a cookie gets behind the value just when it gets to its end. -/
theorem cookieScan_none_iff {name value : Bytes} : cookieScan name value = none ↔ Reached name (cstr value) [] := by
  constructor
  · intro h
    by_contra hnil
    by_cases hnamed : ∃ t, Reached name (cstr value) t ∧ Named name t
    · obtain ⟨t, ht, hname⟩ := hnamed
      rw [cookieScan_named ht hname] at h
      cases h
    · rw [cookieScan_else (fun t ht hname => hnamed ⟨t, ht, hname⟩) hnil] at h
      cases h
  · exact cookieScan_nil

theorem recovered_cookie (htype : f.type = .format) (hfield : f.field = .cookie) :
    PlaceholderRecovered srv con f ↔ ∀ ds, con.requestHeaders.getElement (ascii "Cookie") = some ds →
      ∃ name, f.string = some name ∧ ¬ Reached name (cstr ds.value) [] := by
  have htext : formatText srv con f = cookieField con.requestHeaders f.string := by
    unfold formatText
    rw [hfield]
  have hclient : clientValue con f = f.string.bind fun name =>
      (con.requestHeaders.getElement (ascii "Cookie")).bind fun ds => (cookieScan name ds.value).join := by
    unfold clientValue
    rw [htype, hfield]
  unfold cookieField at htext
  cases hds : con.requestHeaders.getElement (ascii "Cookie") with
  | none =>
    rw [hds] at htext hclient
    refine iff_of_true ((recovered_of_newline htext ?_).mpr nofun) nofun
    rw [hclient]
    cases f.string <;> rfl
  | some ds =>
    rw [hds] at htext hclient
    simp only [Option.some_inj, forall_eq']
    cases hstring : f.string with
    | none =>
      rw [hstring] at htext
      refine iff_of_false ?_ (by simp)
      rintro ⟨text, heq, -⟩
      rw [htext] at heq
      cases heq
    | some name =>
      rw [hstring] at htext hclient
      simp only [Option.some_inj, exists_eq_left', ← cookieScan_none_iff]
      unfold cookieText at htext
      cases hscan : cookieScan name ds.value with
      | none =>
        simp only [hscan, Option.map_none] at htext
        refine iff_of_false ?_ (by simp)
        rintro ⟨text, heq, -⟩
        rw [htext] at heq
        cases heq
      | some cookie =>
        simp only [hscan, Option.map_some] at htext
        refine iff_of_true ((recovered_of_text htext).mpr ?_) (by simp)
        simp only [Option.bind_some, hscan, Option.join_some] at hclient
        cases cookie with
        | none => exact (recovers_iff_newline hclient).mpr nofun
        | some v =>
          refine recovers_escape fun w hw => ?_
          rw [hclient] at hw
          exact (Option.some.inj hw).symm

/-- A text that is always on one line, and that no client has control over. -/
theorem recovered_always (h : formatText srv con f = .ok text) (hclient : clientValue con f = none)
    (hline : chr '\n' ∉ text) : PlaceholderRecovered srv con f ↔ True :=
  iff_true_intro ((recovered_of_newline h hclient).mpr hline)

theorem recovered_escaped (h : formatText srv con f = .ok (escape v)) (hclient : clientValue con f = some v) :
    PlaceholderRecovered srv con f ↔ True := by
  refine iff_true_intro ((recovered_of_text h).mpr (recovers_escape fun w hw => ?_))
  rw [hclient] at hw
  exact (Option.some.inj hw).symm

theorem recovered_remoteUser (htype : f.type = .format) (hfield : f.field = .remoteUser) :
    PlaceholderRecovered srv con f ↔ True := by
  cases hds : con.environment.getElement (ascii "REMOTE_USER") with
  | none =>
    exact @recovered_always _ _ _ (ascii "-") (by simp only [formatText, hfield, hds])
      (by simp only [clientValue, htype, hfield, hds]; rfl) (by decide)
  | some ds =>
    by_cases hvalue : ds.value = []
    · exact @recovered_always _ _ _ (ascii "-") (by simp only [formatText, hfield, hds, hvalue, if_true])
        (by simp [clientValue, htype, hfield, hds, hvalue]) (by decide)
    · exact @recovered_escaped _ _ _ ds.value (by simp only [formatText, hfield, hds, hvalue, if_false])
        (by simp [clientValue, htype, hfield, hds, hvalue])

theorem recovered_httpHost (htype : f.type = .format) (hfield : f.field = .httpHost) :
    PlaceholderRecovered srv con f ↔ True := by
  by_cases hvalue : con.authority = []
  · exact @recovered_always _ _ _ (ascii "-") (by simp only [formatText, hfield, hvalue, if_true])
      (by simp only [clientValue, htype, hfield, hvalue, if_true]) (by decide)
  · exact @recovered_escaped _ _ _ con.authority (by simp only [formatText, hfield, hvalue, if_false])
      (by simp only [clientValue, htype, hfield, hvalue, if_false])

/-- **A placeholder has a text from which its value can be read back just when it is safe.** -/
theorem placeholder_recovered (htype : f.type = .format) :
    PlaceholderRecovered srv con f ↔ PlaceholderSafe srv con f := by
  unfold PlaceholderSafe
  cases hfield : f.field with
  | remoteAddr | remoteHost =>
    have htext : formatText srv con f = .ok con.dstAddrBuf := by simp only [formatText, hfield]
    rw [recovered_of_text htext]
    exact recovers_self (by simp only [clientValue, htype, hfield])
  | filename =>
    have htext : formatText srv con f = .ok (orDash con.physicalPath) := by simp only [formatText, hfield]
    rw [recovered_of_text htext]
    exact recovers_orDash (by simp only [clientValue, htype, hfield])
  | serverName =>
    have htext : formatText srv con f = .ok (orDash con.serverName) := by simp only [formatText, hfield]
    rw [recovered_of_text htext]
    exact recovers_orDash (by simp only [clientValue, htype, hfield])
  | localAddr | serverPort =>
    exact recovered_of_newline (by unfold formatText; rw [hfield]) (by simp only [clientValue, htype, hfield])
  | header =>
    exact @recovered_element _ _ _ con.requestHeaders (by unfold formatText; rw [hfield])
      (by simp only [clientValue, htype, hfield])
  | responseHeader =>
    exact @recovered_element _ _ _ con.responseHeaders (by unfold formatText; rw [hfield])
      (by simp only [clientValue, htype, hfield])
  | env =>
    exact @recovered_element _ _ _ con.environment (by unfold formatText; rw [hfield])
      (by simp only [clientValue, htype, hfield])
  | cookie => exact recovered_cookie htype hfield
  | remoteUser => exact recovered_remoteUser htype hfield
  | httpHost => exact recovered_httpHost htype hfield
  | requestLine | queryString | url =>
    exact recovered_escaped (by unfold formatText; rw [hfield]) (by simp only [clientValue, htype, hfield])
  | timeUsed | timeUsedUs =>
    exact recovered_always (by unfold formatText; rw [hfield]) (by simp only [clientValue, htype, hfield])
      (newline_timeUsedText _)
  | status =>
    exact recovered_always (by unfold formatText; rw [hfield]) (by simp only [clientValue, htype, hfield])
      (newline_liItostrn _)
  | bytesOutNoHeader | bytesOut | bytesIn =>
    exact recovered_always (by unfold formatText; rw [hfield]) (by simp only [clientValue, htype, hfield])
      (newline_countText _ _)
  | requestMethod =>
    exact recovered_always (by unfold formatText; rw [hfield]) (by simp only [clientValue, htype, hfield])
      (newline_methodName _)
  | requestProtocol =>
    refine recovered_always (by unfold formatText; rw [hfield]) (by simp only [clientValue, htype, hfield]) ?_
    split_ifs <;> decide
  | connectionStatus =>
    refine recovered_always (by unfold formatText; rw [hfield]) (by simp only [clientValue, htype, hfield]) ?_
    split_ifs <;> decide
  | keepaliveCount =>
    refine recovered_always (by unfold formatText; rw [hfield]) (by simp only [clientValue, htype, hfield]) ?_
    split_ifs
    · exact newline_liItostrn _
    · decide
  | remoteIdent | percent | unset | unsupported | timestamp =>
    exact recovered_always (by unfold formatText; rw [hfield]) (by simp only [clientValue, htype, hfield]) (by decide)

/-- The field is written, behind what there is, with a text from which its value can be read back. -/
def FieldRecovered (lib : LibC) (srv : LogServer) (con : LogCon) (f : FormatField) (st : LogState) : Prop :=
  ∃ st' text, writeField lib srv con f st = .ok st' ∧ st'.buffer = st.buffer ++ text ∧ Recovers con f text

theorem append_recovered {st₀ st : LogState} (hbuffer : st₀.buffer = st.buffer)
    (h : writeField lib srv con f st = .ok (st₀.append text)) : FieldRecovered lib srv con f st ↔ Recovers con f text := by
  unfold FieldRecovered
  constructor
  · rintro ⟨st', text', hwrite, htext, hvalue⟩
    rw [h] at hwrite
    cases hwrite
    have heq : text = text' := by
      rw [LogState.append, hbuffer] at htext
      exact List.append_cancel_left htext
    rwa [heq]
  · intro hvalue
    refine ⟨_, text, h, ?_, hvalue⟩
    rw [LogState.append, hbuffer]

theorem fraction_recovered {k : Fraction} (hclient : clientValue con f = none)
    (h : writeField lib srv con f st = match appendFraction k (timeOf srv con f).nsec st.buffer with
      | some buffer => .ok { st with buffer := buffer }
      | none => .error .beforeBuffer) :
    FieldRecovered lib srv con f st ↔
      (timeOf srv con f).nsec ≤ k.largest ∨ st.buffer.getLast? = some (chr '1') := by
  constructor
  · rintro ⟨st', text, hwrite, htext, -⟩
    rw [h] at hwrite
    cases hfraction : appendFraction k (timeOf srv con f).nsec st.buffer with
    | none => simp [hfraction] at hwrite
    | some buffer =>
      simp only [hfraction, Except.ok.injEq] at hwrite
      subst hwrite
      obtain rfl : buffer = st.buffer ++ text := htext
      exact appendFraction_kept (timeOf srv con f).lt hfraction
  · intro hsafe
    obtain ⟨digits, -, hdigits, hfraction⟩ := (appendFraction_iff (timeOf srv con f).lt st.buffer).mpr hsafe
    rw [hfraction] at h
    refine ⟨_, digits, h, rfl, (recovers_iff_newline hclient).mpr fun hmem => ?_⟩
    exact absurd (hdigits _ hmem) (by decide)

theorem timestamp_recovered (htype : f.type = .format) (hfield : f.field = .timestamp) :
    FieldRecovered lib srv con f st ↔ TimestampSafe lib srv con f st := by
  have hwrite : writeField lib srv con f st = writeTimestamp lib srv con f st := by
    simp only [writeField, htype, hfield, if_true]
  have hclient : clientValue con f = none := by
    simp only [clientValue, htype, hfield]
  have hnumber : ∀ n, writeField lib srv con f st = .ok (st.append (liItostrn n)) →
      (FieldRecovered lib srv con f st ↔ True) := fun n h =>
    iff_true_intro ((append_recovered rfl h).mpr ((recovers_iff_newline hclient).mpr (newline_liItostrn n)))
  unfold writeTimestamp at hwrite
  unfold TimestampSafe
  rcases hunit : f.opt.unit with _ | _ | _ | _ | _ | k
  · rw [hunit] at hwrite
    dsimp only at hwrite ⊢
    split_ifs at hwrite ⊢ with hcached hbegin
    · rw [append_recovered (by rfl) hwrite, recovers_iff_newline hclient]
    · rw [append_recovered (by rfl) hwrite, recovers_iff_newline hclient]
    · rw [append_recovered (by rfl) hwrite, recovers_iff_newline hclient]
  · rw [hunit] at hwrite
    exact hnumber _ hwrite
  · rw [hunit] at hwrite
    exact hnumber _ hwrite
  · rw [hunit] at hwrite
    exact hnumber _ hwrite
  · rw [hunit] at hwrite
    exact hnumber _ hwrite
  · rw [hunit] at hwrite
    exact fraction_recovered hclient hwrite

/-- **A field is written so that its value can be read back just when it is safe.** -/
theorem writeField_recovered : FieldRecovered lib srv con f st ↔ FieldSafe lib srv con f st := by
  unfold FieldSafe
  cases htype : f.type with
  | string =>
    have hwrite : writeField lib srv con f st = .ok (st.append (f.string.getD [])) := by
      simp only [writeField, htype]
    have hclient : clientValue con f = none := by
      unfold clientValue
      rw [htype]
    rw [append_recovered rfl hwrite, recovers_iff_newline hclient]
  | format =>
    dsimp only
    split_ifs with hfield
    · exact timestamp_recovered htype hfield
    · have hwrite : writeField lib srv con f st = (formatText srv con f).map st.append := by
        simp only [writeField, htype, if_neg hfield]
      rw [← placeholder_recovered htype]
      cases htext : formatText srv con f with
      | error e =>
        rw [htext] at hwrite
        refine iff_of_false ?_ ?_
        · rintro ⟨st', text, h, -⟩
          rw [hwrite] at h
          cases h
        · rintro ⟨text, h, -⟩
          rw [htext] at h
          cases h
      | ok text =>
        rw [htext] at hwrite
        rw [append_recovered rfl hwrite, recovered_of_text htext]

/-! ## One record -/

/-- **The fields are written so that their values can be read back just when all of them are safe.** -/
theorem written_iff (fields : List FormatField) (st : LogState) :
    (∃ st', Written lib srv con fields st st') ↔ AllSafe lib srv con fields st := by
  induction fields generalizing st with
  | nil => exact iff_of_true ⟨st, .nil st⟩ trivial
  | cons f fields ih =>
    rw [AllSafe, ← writeField_recovered]
    constructor
    · rintro ⟨st'', h⟩
      cases h with
      | @cons _ _ _ st' _ text hfield htext hvalue hrest =>
        refine ⟨⟨st', text, hfield, htext, hvalue⟩, fun st₁ hst₁ => ?_⟩
        rw [hfield] at hst₁
        cases hst₁
        exact (ih st').mp ⟨st'', hrest⟩
    · rintro ⟨⟨st', text, hfield, htext, hvalue⟩, hrest⟩
      obtain ⟨st'', hst''⟩ := (ih st').mpr (hrest st' hfield)
      exact ⟨st'', .cons hfield htext hvalue hst''⟩

theorem writeField_written {st' : LogState} (h : writeField lib srv con f st = .ok st') : st'.written = st.written := by
  unfold writeField at h
  split at h
  · cases h
    rfl
  · split_ifs at h
    · unfold writeTimestamp at h
      split at h
      · cases h
        rfl
      · split at h
        · cases h
          rfl
        · cases h
      · cases h
        rfl
      · split_ifs at h
        · cases h
          rfl
        · cases h
          rfl
        · cases h
          rfl
    · cases htext : formatText srv con f with
      | error e =>
        rw [htext] at h
        cases h
      | ok text =>
        rw [htext] at h
        cases h
        rfl

/-- **What has been written is a line so far.** -/
theorem Written.line {fields : List FormatField} {st st' : LogState} (h : Written lib srv con fields st st') :
    writeFields lib srv con fields st = .ok st' ∧ st'.written = st.written ∧
      ∃ line, st'.buffer = st.buffer ++ line ∧ chr '\n' ∉ line := by
  induction h with
  | nil st => exact ⟨rfl, rfl, [], (List.append_nil _).symm, nofun⟩
  | @cons f fields st st' st'' text hfield htext hvalue _ ih =>
    obtain ⟨hwrite, hwritten, line, hbuffer, hline⟩ := ih
    refine ⟨?_, hwritten.trans (writeField_written hfield), text ++ line, ?_, ?_⟩
    · rw [writeFields, hfield]
      exact hwrite
    · rw [hbuffer, htext, List.append_assoc]
    · rw [List.mem_append, not_or]
      exact ⟨hvalue.1, hline⟩

theorem endRecord_log {conf : LogConf} (hfile : conf.useSyslog = false) (hfd : conf.logAccessFd ≠ none)
    (st : LogState) : (endRecord conf st).log = st.log ++ ascii "\n" := by
  have hsome : conf.logAccessFd.isSome = true := Option.isSome_iff_ne_none.mpr hfd
  unfold endRecord LogState.log
  rw [if_neg (by simp [hfile])]
  dsimp only
  rw [if_pos hsome]
  split_ifs
  · simp
  · simp

/-- **A record is one line from which the values of the client can be read back** just when every field is safe; and what
is escaped is not written for another value. -/
theorem recorded_iff {conf : LogConf} (hfile : conf.useSyslog = false) (hfd : conf.logAccessFd ≠ none)
    (fields : List FormatField) (st : LogState) :
    (Recorded lib srv con conf fields st ∧
      ∀ dest s t, accesslogAppendEscaped dest s = accesslogAppendEscaped dest t → s = t) ↔
    AllSafe lib srv con fields { st with newts := false } := by
  rw [and_iff_left fun _ _ _ => accesslogAppendEscaped_inj, ← written_iff]
  constructor
  · rintro ⟨h, -⟩
    exact h
  · rintro ⟨st', h⟩
    obtain ⟨hwrite, hwritten, line, hbuffer, hline⟩ := h.line
    refine ⟨⟨st', h⟩, endRecord conf st', line, ?_, ?_, hline⟩
    · unfold logAccessWrite
      rw [if_neg fun hnone => hfd hnone.2, hwrite]
      rfl
    · rw [endRecord_log hfile hfd]
      unfold LogState.log
      rw [hwritten, hbuffer, List.append_assoc, List.append_assoc, List.append_assoc, List.append_assoc]

def clientFormat : List FormatField := [
  .placeholder none .remoteHost, .text (ascii " \""), .placeholder none .requestLine, .text (ascii "\" \""),
  .placeholder (some (ascii "User-Agent")) .header, .text (ascii "\"")]

/-- A client that sends quotes, a backslash and a tabulator. -/
def quotingCon : LogCon :=
  { plainCon with
    requestLine := ascii "GET /\"\\ HTTP/1.0"
    requestHeaders := [⟨ascii "User-Agent", ascii "a\"\tb"⟩] }

theorem recorded_sample : logAccessOpen (ascii "%h \"%r\" \"%\x7bUser-Agent\x7di\"") = .ok clientFormat ∧
    (logAccessWrite plainLib plainServer quotingCon fileConf clientFormat emptyLog).toOption.map LogState.log =
      some (ascii "127.0.0.1 \"GET /\\\"\\\\ HTTP/1.0\" \"a\\\"\\tb\"\n") ∧
    Recorded plainLib plainServer quotingCon fileConf clientFormat emptyLog := by
  refine ⟨by decide +kernel, by decide +kernel, ?_⟩
  have hclean : ∀ c ∈ quotingCon.dstAddrBuf, isClean c = true := by decide +kernel
  have hnewline : ∀ s, s = ascii " \"" ∨ s = ascii "\" \"" ∨ s = ascii "\"" → chr '\n' ∉ s := by
    rintro s (rfl | rfl | rfl) <;> decide +kernel
  have hsafe : AllSafe plainLib plainServer quotingCon clientFormat { emptyLog with newts := false } :=
    ⟨hclean, fun _ _ => ⟨hnewline _ (.inl rfl), fun _ _ => ⟨trivial, fun _ _ => ⟨hnewline _ (.inr (.inl rfl)),
      fun _ _ => ⟨Option.some_ne_none _, fun _ _ => ⟨hnewline _ (.inr (.inr rfl)), fun _ _ => trivial⟩⟩⟩⟩⟩⟩
  exact ((recorded_iff rfl (by decide) _ _).mpr hsafe).1

/-- The request `GET /a%22b HTTP/1.0`, for a file with a quote in its name. -/
def quoteBlock : Bytes := ascii "GET /a%22b HTTP/1.0\r\n\r\n"

/-- The connection with this request. -/
def quoteCon : LogCon :=
  { plainCon with
    requestLine := ascii "GET /a%22b HTTP/1.0"
    pathRaw := ascii "/a%22b"
    physicalPath := ascii "/srv" ++ Uri.pathOf sampleOptions quoteBlock }

/-- **The path of a file is not escaped**: the quote in it is logged as it is. -/
theorem recorded_quote :
    (httpRequestParse sampleOptions (nextRequest (sampleCon "") 1 quoteBlock)).2.httpStatus = 0 ∧
    logAccessOpen (ascii "%f") = .ok [.placeholder none .filename] ∧
    (logAccessWrite plainLib plainServer quoteCon fileConf [.placeholder none .filename] emptyLog).toOption.map
      LogState.log = some (ascii "/srv/a\"b\n") ∧
    ¬ Recorded plainLib plainServer quoteCon fileConf [.placeholder none .filename] emptyLog := by
  refine ⟨by decide +kernel, by decide, by decide +kernel, fun ⟨hwritten, _⟩ => ?_⟩
  have hsafe := (written_iff _ _).mp hwritten
  have hclean : ∀ c ∈ quoteCon.physicalPath, isClean c = true := hsafe.1
  exact absurd (hclean (chr '"') (by decide +kernel)) (by decide)

end Lighttpd.Accesslog
