import Lighttpd.Base.Strtol
import Lighttpd.Response.Run

/-!
# Range requests (`http-header-glue.c`)

`http_response_parse_range` goes through the ranges of the field `Range` and queues each of them at once; `s` and
`minus` are pointers into the string, given by what is behind them. `response.content_length`, which it adds up, is
read by nothing.
-/

namespace Lighttpd
namespace Respond
open Request Backend

/-! ## `http_response_parse_range` -/

/-- One range as it is read, or the way in which it fails; `unsatisfiable` sets the status 416. -/
inductive RangeSpec
  | error
  | unsatisfiable
  | range (rest : Bytes) (comma : Bool) (start stop : Int)
deriving DecidableEq, Repr

/-- What follows a range: the end of the string or a comma. -/
def rangeEnd (err : Bytes) (start stop : Int) : RangeSpec :=
  match err with
  | [] => .range [] false start stop
  | c :: s => if c = chr ',' then .range s true start stop else .error

def readRange (size : Nat) (s minus : Bytes) : RangeSpec :=
  if s.length = minus.length then
    -- `-<stop>`
    let (le, err) := strtol 10 s
    if le = 0 then .unsatisfiable else rangeEnd err (size + le) (size - 1)
  else
    let (la, err) := strtol 10 s
    if minus.tail = [] ∨ minus.tail.head? = some (chr ',') then
      -- `<start>-`
      if err.length = minus.length then rangeEnd err.tail la (size - 1) else .error
    else if err.length = minus.length then
      -- `<start>-<stop>`
      let (le, err) := strtol 10 minus.tail
      if la > le then .error else rangeEnd err la le
    else .error

def cutRange (size : Nat) : RangeSpec → RangeSpec
  | .range rest comma start stop =>
    let start := if start < 0 then 0 else start
    let stop := if stop > (size : Int) - 1 then (size : Int) - 1 else stop
    if start > (size : Int) - 1 then .unsatisfiable else .range rest comma start stop
  | spec => spec

def boundary : Bytes := ascii "fkj49sn38dcn3"

def rangeText (start stop : Int) (size : Nat) : Bytes := liItostrn start ++ ascii "-" ++ liItostrn stop ++ ascii "/" ++ liUtostrn size
where
  /-- `buffer_append_int`. -/
  liItostrn (n : Int) : Bytes := if n < 0 then chr '-' :: liUtostrn n.natAbs else liUtostrn n.toNat

def partHeader (contentType : Bytes) (start stop : Int) (size : Nat) : Bytes :=
  ascii "\r\n--" ++ boundary ++ ascii "\r\nContent-Range: bytes " ++ rangeText start stop size ++
    ascii "\r\nContent-Type: " ++ contentType ++ ascii "\r\n\r\n"

/-- The end of a multipart body. -/
def boundaryEnd : Bytes := ascii "\r\n--" ++ boundary ++ ascii "--\r\n"

/-- The local variables of `http_response_parse_range`, with what it has queued. -/
structure RangeLoop where
  multipart : Bool
  start : Int
  stop : Int
  parts : List RangePart

def RangeLoop.queue (contentType : Bytes) (size : Nat) (l : RangeLoop) (comma : Bool) (start stop : Int) : RangeLoop :=
  let multipart := l.multipart || comma
  ⟨multipart, start, stop,
    l.parts ++ (if multipart then [.mem (partHeader contentType start stop size)] else []) ++
      [.file start.toNat (stop - start + 1).toNat]⟩

def RangeLoop.finish (size : Nat) (l : RangeLoop) : Ranges :=
  if l.multipart then
    ⟨l.parts ++ [.mem boundaryEnd], true, false,
      ⟨ascii "Content-Type", ascii "multipart/byteranges; boundary=" ++ boundary⟩⟩
  else ⟨l.parts, true, false, ⟨ascii "Content-Range", ascii "bytes " ++ rangeText l.start l.stop size⟩⟩

def RangeLoop.fail (l : RangeLoop) (unsatisfiable : Bool) : Ranges := ⟨l.parts, false, unsatisfiable, ⟨[], []⟩⟩

/-- The loop over the ranges. Each of them is a character long or longer, so that the fuel lasts. -/
def rangeLoop (contentType : Bytes) (size : Nat) : Nat → Bytes → RangeLoop → Ranges
  | 0, _, l => l.fail false
  | fuel + 1, s, l =>
    if chr '-' ∈ s then
      match cutRange size (readRange size s (s.dropWhile (· ≠ chr '-'))) with
      | .error => l.fail false
      | .unsatisfiable => l.fail true
      | .range rest comma start stop =>
        rangeLoop contentType size fuel rest (l.queue contentType size comma start stop)
    else l.finish size

def httpResponseParseRange (contentType : Bytes) (size : Nat) (httpRange : Bytes) : Ranges :=
  rangeLoop contentType size (httpRange.length + 1) (cstr httpRange) ⟨false, 0, size - 1, []⟩

/-! ## `http_response_send_file` -/

/-- What `http_response_send_file` reads of the stat cache, the configuration and the request. `etag` is that of the
stat cache, `mutated` what `etag_mutate` makes of it, and `physicalEtag` what is in `con->physical.etag` before;
`cachable` is the result of `http_response_handle_cachable`. -/
structure StaticFile where
  entry : Entry
  path : Path
  fd : Option Fd
  size : Nat
  contentType : Bytes
  etag : Bytes
  mutated : Bytes
  physicalEtag : Bytes
  mtime : Bytes
  etagFlags : Bool
  rangeRequests : Bool
  cachable : Cachable
  httpRange : Option Bytes
  ifRange : Option Bytes

namespace StaticFile

variable (f : StaticFile) (c : Con)

def field (key : String) : Option Bytes := (c.reply.headers.getElement (ascii key)).map DataString.value

def success : Bool := c.httpStatus == 0 || c.httpStatus == 200

/-- The type of the file, unless the field is set already. -/
def typeValue : Bytes :=
  (field c "Content-Type").getD (if f.contentType = [] then ascii "application/octet-stream" else f.contentType)

def allowCaching : Bool := success c && ((field c "Content-Type").isSome || f.contentType ≠ [])

/-- The ETag of the file is used. -/
def usesEtag : Bool := f.allowCaching c && f.etagFlags && f.etag ≠ [] && (field c "ETag").isNone

def lastModified : Option Bytes :=
  if f.allowCaching c then some ((field c "Last-Modified").getD f.mtime) else none

def fields : Headers :=
  (if (field c "Content-Type").isNone then [⟨ascii "Content-Type", f.typeValue c⟩] else []) ++
  (if f.rangeRequests then [⟨ascii "Accept-Ranges", ascii "bytes"⟩] else []) ++
  (if f.usesEtag c then [⟨ascii "ETag", f.mutated⟩] else []) ++
  (if f.allowCaching c && (field c "Last-Modified").isNone then [⟨ascii "Last-Modified", f.mtime⟩] else [])

/-- `do_range_request`: the field `If-Range` has the ETag or the date of the file. -/
def doRangeRequest : Bool :=
  match f.ifRange with
  | none => true
  | some value =>
    if value.head? = some (chr '"') then value == (if f.usesEtag c then f.mutated else f.physicalEtag)
    else match f.lastModified c with
      | none => false
      | some mtime => value == mtime

def rangeValue : Option Bytes :=
  if f.rangeRequests && success c && (field c "Content-Encoding").isNone && f.doRangeRequest c then f.httpRange else none

def sendFile : SendFile where
  entry := f.entry
  path := f.path
  fd := f.fd
  size := f.size
  fields := f.fields c
  cachable := if f.allowCaching c then f.cachable else .goOn
  ranges := (f.rangeValue c).map (httpResponseParseRange (f.typeValue c) f.size)

def send : Option Con := c.httpResponseSendFile (f.sendFile c)

end StaticFile
end Respond
end Lighttpd
