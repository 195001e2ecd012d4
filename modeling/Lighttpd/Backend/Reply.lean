import Lighttpd.Base.Strtol
import Lighttpd.Request.Headers
import Lighttpd.Lib.Lines
import Lighttpd.Http.Chunk

/-!
# The header of a backend's response

`cgi_response_parse`, `scgi_response_parse`, `fcgi_response_parse` and `proxy_response_parse` read the header that a
backend has sent into the response of the connection. The strings of the source end at their first NUL, so that nothing
behind one is read.
-/

namespace Lighttpd
namespace Backend
open Request

/-- The bits of `con->parsed_response`. -/
structure ParsedResponse where
  date : Bool
  status : Bool
  location : Bool
  connection : Bool
  contentLength : Bool
deriving DecidableEq, Repr

/-- What the parsers write of a connection: `http_status`, `parsed_response`, and `content_length`, `keep_alive` and
`headers` of `con->response`. -/
structure Reply where
  httpStatus : Nat
  parsed : ParsedResponse
  contentLength : Int
  keepAlive : Bool
  headers : Headers
deriving DecidableEq, Repr

/-- The response before a backend has answered (`connection_response_reset`). -/
def Reply.init : Reply := ⟨0, ⟨false, false, false, false, false⟩, -1, false, []⟩

/-- `data_response_insert_dup`: the new field becomes a line of its own in the value of the old one. -/
def responseInsertDup (new old : DataString) : DataString :=
  { old with value := old.value ++ ascii "\r\n" ++ old.key ++ ascii ": " ++ new.value }

def insertHeader (hs : Headers) (ds : DataString) : Headers :=
  match hs.getIndex ds.key with
  | some n => hs.modify n (responseInsertDup ds)
  | none => hs ++ [ds]

def replaceHeader (hs : Headers) (ds : DataString) : Headers :=
  match hs.getIndex ds.key with
  | some n => hs.modify n fun _ => ds
  | none => hs ++ [ds]

/-! ## Lines and fields -/

/-- The lines of `s` that end in LF, when `pre` has been read of the first one. -/
def lfLines (pre : Bytes) : Bytes → List Bytes
  | [] => []
  | c :: s => if c = 10 then pre :: lfLines [] s else lfLines (pre ++ [c]) s

def stripCr (line : Bytes) : Bytes := if line.getLast? = some 13 then line.dropLast else line

def anyLines (s : Bytes) : List Bytes := (lfLines [] (cstr s)).map stripCr

/-- The key and the value of a line; without a colon it is none. -/
def splitLine (line : Bytes) : Option (Bytes × Bytes) :=
  (line.idxOf? (chr ':')).map fun n => (line.take n, (line.drop (n + 1)).dropWhile isWs)

/-- `strncasecmp(key, name, key_len)` under the `case` for the length of `name`. -/
def isKey (key : Bytes) (name : String) : Bool := caselessCompare key (ascii name) == 0

/-- The flag of a header field that is only remembered. -/
def Reply.setDate (r : Reply) : Reply := { r with parsed := { r.parsed with date := true } }

def Reply.setLocation (r : Reply) : Reply := { r with parsed := { r.parsed with location := true } }

/-- A status of three digits. -/
def Reply.setStatus (r : Reply) (status : Nat) : Reply :=
  { r with httpStatus := status, parsed := { r.parsed with status := true } }

def Reply.setConnection (r : Reply) (value : Bytes) : Reply :=
  { r with keepAlive := caselessCompare value (ascii "Keep-Alive") == 0, parsed := { r.parsed with connection := true } }

def Reply.setContentLength (r : Reply) (value : Bytes) : Reply :=
  { r with contentLength := toOff (strtoulSigned value), parsed := { r.parsed with contentLength := true } }

def intValue (value : Bytes) : Int := toInt (strtol 10 value).1

def Reply.statusField (r : Reply) (value : Bytes) : Reply :=
  let status := intValue value
  if 100 ≤ status ∧ status < 1000 then r.setStatus status.toNat else { r with httpStatus := 502 }

/-- The `switch` of the parsers of CGI and SCGI. -/
def Reply.setField (r : Reply) (key value : Bytes) : Reply :=
  if isKey key "Date" then r.setDate
  else if isKey key "Status" then r.statusField value
  else if isKey key "Location" then r.setLocation
  else if isKey key "Connection" then r.setConnection value
  else if isKey key "Content-Length" then r.setContentLength value
  else r

def Reply.field (r : Reply) (line : Bytes) : Reply :=
  match splitLine line with
  | none => r
  | some (key, value) => ({ r with headers := insertHeader r.headers ⟨key, value⟩ }).setField key value

/-- The status line of a response that is not parsed. -/
def Reply.nphLine (r : Reply) (line : Bytes) : Reply :=
  match line.drop 7 with
  | v :: sp :: s =>
    if (v = chr '1' ∨ v = chr '0') ∧ sp = chr ' ' then
      let status := intValue s
      if 100 ≤ status ∧ status < 1000 then r.setStatus status.toNat else r
    else r
  | _ => r

def isNph (s : Bytes) : Bool := (ascii "HTTP/1.").isPrefixOf s

/-- A redirect without a status. -/
def Reply.locationStatus (r : Reply) : Reply :=
  if r.parsed.location && !r.parsed.status then { r with httpStatus := 302 } else r

def Reply.lines (r : Reply) : List Bytes → Reply
  | [] => r
  | line :: more => more.foldl Reply.field (if isNph line then r.nphLine line else r.field line)

/-! ## The parsers -/

def cgiResponseParse (r : Reply) (header : Bytes) : Reply := (r.lines (anyLines header)).locationStatus

inductive Eol
  | n
  | rn
deriving DecidableEq, Repr

/-- `scgi_response_parse`: all lines end the same way. -/
def scgiResponseParse (r : Reply) (header : Bytes) (eol : Eol) : Reply :=
  let lines := match eol with
    | .rn => Lines.lines 13 10 (cstr header)
    | .n => lfLines [] (cstr header)
  (r.lines lines).locationStatus

/-- What `fcgi_response_parse` looks at: an authorizer, and `X-Sendfile2`. `sendfile2` appends the ranges of files that
the field names and yields their length, or the status with which the parser gives up. -/
structure FcgiHost where
  authorizer : Bool
  xsendfileAllow : Bool
  sendfile2 : Bytes → Response → Nat × Response × Int

/-- The state of `fcgi_response_parse`; `sendfile2` is `sendfile2_content_length` when there is such a field. -/
structure FcgiParse where
  reply : Reply
  out : Response
  sendfile2 : Option Int

def isStatusPart (key : Bytes) : Bool := caselessCompare key ((ascii "Status").take key.length) == 0

def fcgiInsert (host : FcgiHost) (r : Reply) (key value : Bytes) : Reply :=
  if !host.authorizer || !(r.httpStatus == 0 || r.httpStatus == 200) then
    if isStatusPart key then r else { r with headers := insertHeader r.headers ⟨key, value⟩ }
  else r

/-- The loop over the lines; the result is the status with which the parser gives up. -/
def fcgiLines (host : FcgiHost) (sendContentBody : Bool) (p : FcgiParse) : List Bytes → Nat × FcgiParse
  | [] => (0, p)
  | line :: more =>
    match splitLine line with
    | none => fcgiLines host sendContentBody p more
    | some (key, value) =>
      let r := fcgiInsert host p.reply key value
      if isKey key "X-Sendfile2" ∧ host.xsendfileAllow ∧ sendContentBody then
        let (ret, out, len) := host.sendfile2 value p.out
        let p := { p with reply := r, out := out }
        if ret ≠ 0 then (ret, p)
        else fcgiLines host sendContentBody { p with sendfile2 := some (p.sendfile2.getD 0 + len) } more
      else if isKey key "Content-Length" then
        let r := r.setContentLength value
        let r := if r.contentLength < 0 then { r with contentLength := 0 } else r
        fcgiLines host sendContentBody { p with reply := r } more
      else fcgiLines host sendContentBody { p with reply := r.setField key value } more

def fcgiResponseParse (host : FcgiHost) (sendContentBody : Bool) (r : Reply) (out : Response) (header : Bytes) :
    Nat × Reply × Response :=
  match fcgiLines host sendContentBody ⟨r, out, none⟩ (anyLines header) with
  | (0, p) =>
    match p.sendfile2 with
    | some len =>
      let r := { p.reply with
        headers := replaceHeader p.reply.headers ⟨ascii "Content-Length", ascii (toString len)⟩
        parsed := { p.reply.parsed with contentLength := true }
        contentLength := len }
      (200, r, p.out)
    | none => (0, p.reply.locationStatus, p.out)
  | (ret, p) => (ret, p.reply, p.out)

def proxyStatus (line : Bytes) : Nat :=
  match line.dropWhile (· ≠ chr ' ') with
  | [] => 502
  | key =>
    let status := intValue key
    if status < 100 ∨ status ≥ 1000 then 502 else status.toNat

/-- A line with a header field of a proxied response: `Connection` is not copied. -/
def Reply.proxyField (r : Reply) (line : Bytes) : Reply :=
  match splitLine line with
  | none => r
  | some (key, value) =>
    let r' := if isKey key "Date" then r.setDate
      else if isKey key "Location" then r.setLocation
      else if isKey key "Content-Length" then r.setContentLength value
      else r
    if isKey key "Connection" then r'
    else { r' with headers := insertHeader r'.headers ⟨key, value⟩ }

/-- `proxy_response_parse`: the first line is the status line. -/
def proxyResponseParse (r : Reply) (header : Bytes) : Reply :=
  match anyLines header with
  | [] => r
  | line :: more => more.foldl Reply.proxyField (r.setStatus (proxyStatus line))

example : (cgiResponseParse .init (ascii "Status: 404\r\nX: a\nx: b\r\n")).httpStatus = 404 := by decide

end Backend
end Lighttpd
