import Lighttpd.Accesslog.Cookie
import Lighttpd.Accesslog.Format
import Lighttpd.Backend.Env
import Lighttpd.Base.Strftime

/-!
# The access log (`mod_accesslog.c`)

`log_access_write` puts the text of every field of the format behind the log buffer, and a newline behind the text.

- `writeField_fault`: a field looks for its name where it has none just when it is one that needs a name;
- `rendered_iff`: so the formats that can be written for every request are those in which every placeholder that looks up
  a name has one.
-/

namespace Lighttpd.Accesslog
open Request

/-! ## What is logged -/

structure Timespec where
  sec : Int
  nsec : Nat
  lt : nsec < 10 ^ 9 := by decide

/-- What the log reads of a connection. -/
structure LogCon where
  requestStart : Int
  requestStartHp : Timespec
  dstAddrBuf : Bytes
  environment : Headers
  requestLine : Bytes
  httpMethod : Option Method
  httpVersion : Option Version
  requestHeaders : Headers
  responseHeaders : Headers
  httpStatus : Int
  bytesWritten : Int
  bytesHeader : Int
  bytesRead : Int
  physicalPath : Bytes
  serverName : Bytes
  authority : Bytes
  pathRaw : Bytes
  query : Bytes
  srvToken : Bytes
  responseEnd : Bool
  keepAlive : Int
  requestCount : Nat

/-- What the log reads of the server; `realtime` is what `log_clock_gettime_realtime` gives, at most once for a record. -/
structure LogServer where
  curTs : Int
  realtime : Timespec
  port : Int

/-- `localtime_r`, with `tm_gmtoff`, and the text that `buffer_append_strftime` appends: they depend on the time zone and
on the locale. -/
structure LibC where
  localtime : Int → Tm × Int
  strftime : Bytes → Tm → Bytes

/-- The log buffer, the time that has been formatted last, and what has been handed to the log file. -/
structure LogState where
  buffer : Bytes
  lastTs : Int
  tsStr : Bytes
  newts : Bool
  written : Bytes

/-- `access_logfile`, `log_access_fd` and `use_syslog`. -/
structure LogConf where
  accessLogfile : Bytes
  logAccessFd : Option Nat
  useSyslog : Bool

/-- What goes wrong: `f->string->ptr` of a `NULL`, a byte in front of the buffer, a character behind a header field. -/
inductive Fault
  | nullString
  | beforeBuffer
  | behindValue
deriving DecidableEq, Repr

/-! ## The texts of the fields -/

/-- `-` where there is nothing. -/
def orDash (s : Bytes) : Bytes := if s = [] then ascii "-" else s

def countText (n : Int) (shown : Int) : Bytes := if 0 < n then liItostrn shown else ascii "-"

/-- The value of a name in an array. -/
def elementText (array : Headers) (string : Option Bytes) : Except Fault Bytes :=
  match string with
  | none => .error .nullString
  | some name =>
    match array.getElement (cstr name) with
    | some ds => .ok (escape ds.value)
    | none => .ok (ascii "-")

/-- The colon between the address and the port of a socket; before an address in brackets ends, it is the bracket. -/
def colonAt (srvToken : Bytes) : Option Nat :=
  if srvToken.head? = some (chr '[') then (Occurrence.firstEnd (ascii "]:") (cstr srvToken)).map (· - 2)
  else (cstr srvToken).idxOf? (chr ':')

def localAddrText (con : LogCon) : Bytes :=
  match colonAt con.srvToken with
  | some n => con.srvToken.take n
  | none => con.srvToken

def serverPortText (srv : LogServer) (con : LogCon) : Bytes :=
  match colonAt con.srvToken with
  | some n => (cstr con.srvToken).drop (n + 1)
  | none => liItostrn srv.port

def cookieField (headers : Headers) (string : Option Bytes) : Except Fault Bytes :=
  match headers.getElement (ascii "Cookie") with
  | none => .ok []
  | some ds =>
    match string with
    | none => .error .nullString
    | some name =>
      match cookieText name ds.value with
      | some text => .ok text
      | none => .error .behindValue

def timeUsedText (srv : LogServer) (con : LogCon) (unit : Option TimeUnit) : Bytes :=
  if unit = some .sec then liItostrn (srv.curTs - con.requestStart)
  else
    let bs := con.requestStartHp
    let tdiff := (srv.realtime.sec - bs.sec) * 1000000000 + ((srv.realtime.nsec : Int) - bs.nsec)
    if tdiff ≤ 0 then liItostrn (-1)
    else
      match unit with
      | some .msec => liItostrn ((tdiff + 999999) / 1000000)
      | some .usec => liItostrn ((tdiff + 999) / 1000)
      | _ => liItostrn tdiff

def formatText (srv : LogServer) (con : LogCon) (f : FormatField) : Except Fault Bytes :=
  match f.field with
  | .timeUsed | .timeUsedUs => .ok (timeUsedText srv con f.opt.unit)
  | .remoteAddr | .remoteHost => .ok con.dstAddrBuf
  | .remoteIdent => .ok (ascii "-")
  | .remoteUser =>
    match con.environment.getElement (ascii "REMOTE_USER") with
    | some ds => .ok (if ds.value = [] then ascii "-" else escape ds.value)
    | none => .ok (ascii "-")
  | .requestLine => .ok (escape con.requestLine)
  | .status => .ok (liItostrn con.httpStatus)
  | .bytesOutNoHeader => .ok (countText con.bytesWritten (max 0 (con.bytesWritten - con.bytesHeader)))
  | .header => elementText con.requestHeaders f.string
  | .responseHeader => elementText con.responseHeaders f.string
  | .env => elementText con.environment f.string
  | .filename => .ok (orDash con.physicalPath)
  | .bytesOut => .ok (countText con.bytesWritten con.bytesWritten)
  | .bytesIn => .ok (countText con.bytesRead con.bytesRead)
  | .serverName => .ok (orDash con.serverName)
  | .httpHost => .ok (if con.authority = [] then ascii "-" else escape con.authority)
  | .requestProtocol => .ok (if con.httpVersion = some .http11 then ascii "HTTP/1.1" else ascii "HTTP/1.0")
  | .requestMethod => .ok ((con.httpMethod.map Backend.getHttpMethodName).getD [])
  | .percent => .ok (ascii "%")
  | .localAddr => .ok (localAddrText con)
  | .serverPort => .ok (serverPortText srv con)
  | .queryString => .ok (escape con.query)
  | .url => .ok (escape con.pathRaw)
  | .connectionStatus =>
    .ok (if con.responseEnd then if con.keepAlive = 0 then ascii "-" else ascii "+" else ascii "X")
  | .keepaliveCount => .ok (if 1 < con.requestCount then liItostrn (con.requestCount - 1) else ascii "0")
  | .cookie => cookieField con.requestHeaders f.string
  | .unset | .unsupported | .timestamp => .ok []

/-- A time, in the format of the log or in that of the field. -/
def timeText (lib : LibC) (string : Option Bytes) (t : Int) : Bytes :=
  let (tm, gmtoff) := lib.localtime t
  match string with
  | none | some [] =>
    let scd := gmtoff.natAbs
    lib.strftime (ascii "[%d/%b/%Y:%H:%M:%S ") tm ++ (if 0 ≤ gmtoff then ascii "+" else ascii "-") ++ pad2 (scd / 3600) ++
      pad2 (scd % 3600 / 60) ++ ascii "]"
  | some format => lib.strftime (cstr format) tm

def sinceEpoch (unit : TimeUnit) (t : Timespec) : Int :=
  match unit with
  | .msec => t.sec * 1000 + ((t.nsec + 999999) / 1000000 : Nat)
  | .usec => t.sec * 1000000 + ((t.nsec + 999) / 1000 : Nat)
  | _ => t.sec * 1000000000 + t.nsec

def timeOf (srv : LogServer) (con : LogCon) (f : FormatField) : Timespec :=
  if f.opt.atBegin then con.requestStartHp else srv.realtime

def secondOf (srv : LogServer) (con : LogCon) (f : FormatField) : Int :=
  if f.opt.atBegin then con.requestStart else srv.curTs

def LogState.append (st : LogState) (text : Bytes) : LogState := { st with buffer := st.buffer ++ text }

def writeTimestamp (lib : LibC) (srv : LogServer) (con : LogCon) (f : FormatField) (st : LogState) :
    Except Fault LogState :=
  match f.opt.unit with
  | some .sec => .ok (st.append (liItostrn (secondOf srv con f)))
  | some (.frac k) =>
    match appendFraction k (timeOf srv con f).nsec st.buffer with
    | some buffer => .ok { st with buffer := buffer }
    | none => .error .beforeBuffer
  | some unit => .ok (st.append (liItostrn (sinceEpoch unit (timeOf srv con f))))
  | none =>
    if f.opt.atBegin = false ∧ srv.curTs = st.lastTs then .ok (st.append st.tsStr)
    else
      -- the cache has the text, but only the time of the server
      let st := if f.opt.atBegin then st else { st with lastTs := srv.curTs, newts := true }
      let tsStr := timeText lib f.string (secondOf srv con f)
      .ok ({ st with tsStr := tsStr }.append tsStr)

def writeField (lib : LibC) (srv : LogServer) (con : LogCon) (f : FormatField) (st : LogState) :
    Except Fault LogState :=
  match f.type with
  | .string => .ok (st.append (f.string.getD []))
  | .format =>
    if f.field = .timestamp then writeTimestamp lib srv con f st else (formatText srv con f).map st.append

def writeFields (lib : LibC) (srv : LogServer) (con : LogCon) : List FormatField → LogState → Except Fault LogState
  | [], st => .ok st
  | f :: fields, st =>
    match writeField lib srv con f st with
    | .ok st => writeFields lib srv con fields st
    | .error e => .error e

/-- The end of a record: the log is not kept back when the time is a new one. -/
def endRecord (conf : LogConf) (st : LogState) : LogState :=
  if conf.useSyslog then
    if st.buffer = [] then st else { st with buffer := [], written := st.written ++ st.buffer }
  else
    let b := st.buffer ++ ascii "\n"
    if conf.accessLogfile.head? = some (chr '|') ∨ st.newts ∨ 4096 ≤ b.length then
      { st with buffer := [], written := if conf.logAccessFd.isSome then st.written ++ b else st.written }
    else { st with buffer := b }

def logAccessWrite (lib : LibC) (srv : LogServer) (con : LogCon) (conf : LogConf) (fields : List FormatField)
    (st : LogState) : Except Fault LogState :=
  if conf.useSyslog = false ∧ conf.logAccessFd = none then .ok st
  else (writeFields lib srv con fields { st with newts := false }).map (endRecord conf)

/-! ## Fields without a name -/

variable {lib : LibC} {srv : LogServer} {con : LogCon} {f : FormatField} {fields : List FormatField}
variable {st : LogState} {e : Fault}

theorem map_append_error {x : Except Fault Bytes} (h : x.map st.append = .error e) : x = .error e := by
  cases x with
  | error e' => cases h; rfl
  | ok text => cases h

theorem elementText_ne (array : Headers) {string : Option Bytes} (h : string ≠ none) (e : Fault) :
    elementText array string ≠ .error e := by
  obtain ⟨name, rfl⟩ := Option.ne_none_iff_exists'.mp h
  unfold elementText
  dsimp only
  split <;> nofun

theorem cookieField_ne (headers : Headers) {string : Option Bytes} (h : string ≠ none) :
    cookieField headers string ≠ .error .nullString := by
  obtain ⟨name, rfl⟩ := Option.ne_none_iff_exists'.mp h
  unfold cookieField
  cases headers.getElement (ascii "Cookie") with
  | none => nofun
  | some ds =>
    dsimp only
    split <;> nofun

/-- A text that fails for want of a name belongs to a field that needs one. -/
theorem formatText_ne (hname : needsName f.field = true → f.string ≠ none)
    (hcookie : f.field = .cookie → f.string ≠ none) : formatText srv con f ≠ .error .nullString := by
  unfold formatText
  cases hfield : f.field with
  | header => exact elementText_ne _ (hname (by rw [hfield]; rfl)) _
  | responseHeader => exact elementText_ne _ (hname (by rw [hfield]; rfl)) _
  | env => exact elementText_ne _ (hname (by rw [hfield]; rfl)) _
  | cookie => exact cookieField_ne _ (hcookie hfield)
  | remoteUser =>
    dsimp only
    split <;> nofun
  | _ => nofun

theorem writeTimestamp_ne : writeTimestamp lib srv con f st ≠ .error .nullString := by
  unfold writeTimestamp
  split
  · nofun
  · split <;> nofun
  · nofun
  · split_ifs <;> nofun

/-- **A field with a name can be written**, or fails for something else. -/
theorem writeField_ne (hname : ¬ f.Nameless) (hcookie : f.type = .format → f.field = .cookie → f.string ≠ none)
    : writeField lib srv con f st ≠ .error .nullString := by
  unfold writeField
  cases htype : f.type with
  | string => nofun
  | format =>
    dsimp only
    split_ifs with hfield
    · exact writeTimestamp_ne
    · intro h
      exact formatText_ne (fun hneeds hnone => hname ⟨htype, hneeds, hnone⟩) (hcookie htype) (map_append_error h)

/-- **A field without a name cannot be written.** -/
theorem writeField_nameless (h : f.Nameless) : writeField lib srv con f st = .error .nullString := by
  obtain ⟨htype, hneeds, hnone⟩ := h
  have hfield : f.field ≠ .timestamp := by
    intro hfield
    rw [hfield] at hneeds
    cases hneeds
  have htext : formatText srv con f = .error .nullString := by
    unfold formatText
    cases hf : f.field with
    | header | responseHeader | env => simp only [elementText, hnone]
    | _ =>
      rw [hf] at hneeds
      cases hneeds
  unfold writeField
  rw [htype]
  dsimp only
  rw [if_neg hfield, htext]
  rfl

theorem writeFields_error (h : writeFields lib srv con fields st = .error e) :
    ∃ f ∈ fields, ∃ st', writeField lib srv con f st' = .error e := by
  induction fields generalizing st with
  | nil => cases h
  | cons f fields ih =>
    rw [writeFields] at h
    cases hfield : writeField lib srv con f st with
    | error e' =>
      rw [hfield] at h
      cases h
      exact ⟨f, List.mem_cons_self, st, hfield⟩
    | ok st' =>
      rw [hfield] at h
      obtain ⟨g, hg, hfail⟩ := ih h
      exact ⟨g, List.mem_cons_of_mem f hg, hfail⟩

/-- Where the fields can fail in one way only, one that does fail is come to. -/
theorem writeFields_fails (hall : ∀ f st e', writeField lib srv con f st = .error e' → e' = e)
    (hmem : f ∈ fields) (hf : ∀ st, writeField lib srv con f st = .error e) (st : LogState) :
    writeFields lib srv con fields st = .error e := by
  induction fields generalizing st with
  | nil => cases hmem
  | cons g fields ih =>
    rw [writeFields]
    cases hg : writeField lib srv con g st with
    | error e' => rw [hall g st e' hg]
    | ok st' =>
      rcases List.mem_cons.mp hmem with rfl | hmem
      · rw [hf] at hg
        cases hg
      · exact ih hmem st'

/-! ## Formats that can be written -/

/-- The fields of a format cover it, and no record of any request looks for a name where there is none. -/
def Rendered (format : Bytes) (fields : List FormatField) : Prop :=
  CoversExactly fields format ∧
  ∀ lib srv con conf st, logAccessWrite lib srv con conf fields st ≠ .error .nullString

def epoch : Timespec := { sec := 0, nsec := 0 }

def plainCon : LogCon where
  requestStart := 0
  requestStartHp := epoch
  dstAddrBuf := ascii "127.0.0.1"
  environment := []
  requestLine := ascii "GET / HTTP/1.0"
  httpMethod := some .get
  httpVersion := some .http10
  requestHeaders := []
  responseHeaders := []
  httpStatus := 200
  bytesWritten := 0
  bytesHeader := 0
  bytesRead := 0
  physicalPath := ascii "/srv/"
  serverName := []
  authority := []
  pathRaw := ascii "/"
  query := []
  srvToken := ascii "0.0.0.0:80"
  responseEnd := true
  keepAlive := 0
  requestCount := 1

/-- A server whose clock does not go. -/
def plainServer : LogServer := ⟨0, epoch, 80⟩

/-- A library that formats nothing. -/
def plainLib : LibC := ⟨fun _ => (⟨0, 0, 0, 1, 0, 70, 4⟩, 0), fun _ _ => []⟩

def fileConf : LogConf := ⟨ascii "/var/log/access.log", some 3, false⟩

def emptyLog : LogState := ⟨[], 0, [], false, []⟩

theorem elementText_nil {string : Option Bytes} (h : elementText [] string = .error e) : e = .nullString := by
  cases string with
  | none =>
    cases h
    rfl
  | some name => cases h

theorem formatText_plain (h : formatText plainServer plainCon f = .error e) : e = .nullString := by
  unfold formatText at h
  cases hfield : f.field with
  | header | responseHeader | env =>
    rw [hfield] at h
    exact elementText_nil h
  | _ =>
    rw [hfield] at h
    cases h

theorem writeField_plain (h : writeField plainLib plainServer plainCon f st = .error e) : e = .nullString := by
  unfold writeField at h
  cases htype : f.type with
  | string =>
    rw [htype] at h
    cases h
  | format =>
    rw [htype] at h
    dsimp only at h
    split_ifs at h with hfield
    · -- the fraction is zero
      have hns : (timeOf plainServer plainCon f).nsec = 0 := by
        unfold timeOf
        split_ifs <;> rfl
      unfold writeTimestamp at h
      rw [hns] at h
      split at h
      · cases h
      · rw [appendFraction_small (Nat.zero_le _)] at h
        cases h
      · cases h
      · split_ifs at h
    · exact formatText_plain (map_append_error h)

/-- **The formats that can be written for every request**: those in which every placeholder that looks up a name has
one. -/
theorem rendered_iff {format : Bytes} (h : logAccessOpen format = .ok fields) :
    Rendered format fields ↔ ¬ HasNameless format := by
  rw [← nameless_of_pieces h]
  constructor
  · rintro ⟨-, hwrite⟩ ⟨f, hmem, hf⟩
    apply hwrite plainLib plainServer plainCon fileConf emptyLog
    unfold logAccessWrite
    rw [if_neg (by simp [fileConf]), writeFields_fails (fun _ _ _ => writeField_plain) hmem
      fun _ => writeField_nameless hf]
    rfl
  · intro hnone
    refine ⟨logAccessOpen_covers h, fun lib srv con conf st hfault => ?_⟩
    unfold logAccessWrite at hfault
    split_ifs at hfault
    cases hfields : writeFields lib srv con fields { st with newts := false } with
    | ok st' =>
      rw [hfields] at hfault
      cases hfault
    | error e =>
      rw [hfields] at hfault
      cases hfault
      obtain ⟨f, hmem, st', hf⟩ := writeFields_error hfields
      refine writeField_ne (fun hname => hnone ⟨f, hmem, hname⟩) (fun htype hcookie hstring => ?_) hf
      obtain ⟨parsed, -, hchecked⟩ := logAccessOpen_parsed h
      obtain ⟨-, g, -, -, hg⟩ := forall₂_split hchecked.flip hmem
      exact hg.cookie htype hcookie (by rw [hstring]; rfl)

/-- The default format. -/
theorem rendered_default : ∃ fields, logAccessOpen defaultFormat = .ok fields ∧
    (Rendered defaultFormat fields ↔ ¬ HasNameless defaultFormat) := by
  cases h : logAccessOpen defaultFormat with
  | error e =>
    have hok : (logAccessOpen defaultFormat).toOption.isSome = true := by decide
    rw [h] at hok
    cases hok
  | ok fields => exact ⟨fields, rfl, rendered_iff h⟩

/-- `%i` is accepted, and cannot be written. -/
theorem rendered_header : ∃ fields, logAccessOpen (ascii "%i") = .ok fields ∧ ¬ Rendered (ascii "%i") fields := by
  have hopen : logAccessOpen (ascii "%i") = .ok [.placeholder none .header] := by decide
  refine ⟨_, hopen, fun ⟨_, hwrite⟩ => ?_⟩
  exact hwrite plainLib plainServer plainCon fileConf emptyLog rfl

end Lighttpd.Accesslog
