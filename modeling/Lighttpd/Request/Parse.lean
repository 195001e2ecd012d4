import Lighttpd.Connection.Read
import Lighttpd.Request.Headers
import Lighttpd.Request.Host

/-!
# The request parser (`request.c`)

`http_request_parse` reads the header block that stands in `request.request`. The loops walk over the block byte by
byte; the pointers `first`, `value`, `key`, `method`, `uri` and `proto` into the block are modelled by the bytes
between them and the place where the token ends. The end of a list is the NUL that ends the buffer.
-/

namespace Lighttpd

namespace Request

inductive Method
  | get | head | post | put | delete | connect | options | trace | acl | baselineControl | bind | checkin | checkout
  | copy | label | link | lock | merge | mkactivity | mkcalendar | mkcol | mkredirectref | mkworkspace | move
  | orderpatch | patch | propfind | proppatch | rebind | report | search | unbind | uncheckout | unlink | unlock
  | update | updateredirectref | versionControl
deriving DecidableEq, Repr

def httpMethods : List (Method × String) :=
  [(.get, "GET"), (.head, "HEAD"), (.post, "POST"), (.put, "PUT"), (.delete, "DELETE"), (.connect, "CONNECT"),
   (.options, "OPTIONS"), (.trace, "TRACE"), (.acl, "ACL"), (.baselineControl, "BASELINE-CONTROL"), (.bind, "BIND"),
   (.checkin, "CHECKIN"), (.checkout, "CHECKOUT"), (.copy, "COPY"), (.label, "LABEL"), (.link, "LINK"),
   (.lock, "LOCK"), (.merge, "MERGE"), (.mkactivity, "MKACTIVITY"), (.mkcalendar, "MKCALENDAR"), (.mkcol, "MKCOL"),
   (.mkredirectref, "MKREDIRECTREF"), (.mkworkspace, "MKWORKSPACE"), (.move, "MOVE"), (.orderpatch, "ORDERPATCH"),
   (.patch, "PATCH"), (.propfind, "PROPFIND"), (.proppatch, "PROPPATCH"), (.rebind, "REBIND"), (.report, "REPORT"),
   (.search, "SEARCH"), (.unbind, "UNBIND"), (.uncheckout, "UNCHECKOUT"), (.unlink, "UNLINK"), (.unlock, "UNLOCK"),
   (.update, "UPDATE"), (.updateredirectref, "UPDATEREDIRECTREF"), (.versionControl, "VERSION-CONTROL")]

def getHttpMethodKey (s : Bytes) : Option Method :=
  (httpMethods.find? fun m => cstr s == ascii m.2).map Prod.fst

/-- `http_version_t`. -/
inductive Version
  | http10
  | http11
deriving DecidableEq, Repr

end Request

/-- What the parser reads and writes of `con->request`. The pointers are `NULL` when they are `none`. -/
structure Request where
  request : Bytes
  requestLine : Bytes
  uri : Bytes
  origUri : Bytes
  httpMethod : Option Request.Method
  httpVersion : Option Request.Version
  headers : Request.Headers
  httpHost : Option Request.ValuePtr
  httpContentType : Option Request.ValuePtr
  httpIfModifiedSince : Option Request.ValuePtr
  httpIfNoneMatch : Option Request.ValuePtr
  httpRange : Option Request.ValuePtr
  contentLength : Nat

namespace Request

/-- What the parser, and the end of a response, read and write of a connection. `bytesIn` is
`request_content_queue->bytes_in`. -/
structure Con where
  request : Request
  requestCount : Nat
  headerLen : Nat
  httpStatus : Nat
  keepAlive : Bool
  responseKeepAlive : Bool
  bytesIn : Nat
  state : ConState

/-- The options of the parser: the flags of `conf.http_parseopts`, `conf.allow_http11`,
`srvconf.reject_expect_100_with_417`, and the address functions of the C library. -/
structure Options where
  headerStrict : Bool
  hostStrict : Bool
  hostNormalize : Bool
  allowHttp11 : Bool
  rejectExpect100 : Bool
  inet : Inet

/-- An exit of the parser that resets `keep_alive` only. -/
def Con.refuse (con : Con) (status : Nat) : Con := { con with httpStatus := status, keepAlive := false }

/-- An exit of the parser that resets `response.keep_alive` as well. -/
def Con.reject (con : Con) (status : Nat) : Con :=
  { con with httpStatus := status, responseKeepAlive := false, keepAlive := false }

/-! ## The request line -/

def requestUriIsValidChar (c : Byte) : Bool :=
  if c ≤ 32 then false else if c = 127 then false else if c = 255 then false else true

/-- The major and the minor number behind `HTTP/`, or `none` for an unknown protocol. -/
def protoVersion (proto : Bytes) : Option (Int × Int) :=
  if !(ascii "HTTP/").isPrefixOf proto then none
  else
    let major := proto.drop 5
    match major.idxOf? (chr '.') with
    | none => none
    | some 0 => none
    | some k =>
      let minor := major.drop (k + 1)
      if minor.isEmpty then none
      else
        let (majorNum, err) := strtol 10 (major.take k)
        let (minorNum, err') := strtol 10 minor
        if err ≠ [] ∨ err' ≠ [] then none else some (toInt majorNum, toInt minorNum)

/-- The host of an absolute URI with this scheme, up to the `/` behind it. -/
def schemeHost (scheme uri : Bytes) : Option Bytes :=
  let s := cstr uri
  if scheme.isPrefixOf s ∧ chr '/' ∈ s.drop scheme.length then
    some ((s.drop scheme.length).takeWhile (· ≠ chr '/'))
  else none

/-- `reqline_host`, and the URI that goes to `request.uri`. -/
def splitUri (uri : Bytes) : Option Bytes × Bytes :=
  match schemeHost (ascii "http://") uri with
  | some host => (some host, uri.drop (7 + host.length))
  | none =>
    match schemeHost (ascii "https://") uri with
    | some host => (some host, uri.drop (8 + host.length))
    | none => (none, uri)

/-- Whether there is no invalid character in the URI. -/
def uriIsValid (headerStrict : Bool) (uri : Bytes) : Bool :=
  if headerStrict then uri.all requestUriIsValidChar else !uri.contains 0

/-- The variables of the loop over the request line: `request_line_stage`, the tokens behind `method` and `uri`, the
bytes from `first` on, and those from the start of the line on. -/
structure ReqLine where
  stage : Nat
  method : Bytes
  uri : Bytes
  token : Bytes
  line : Bytes
deriving DecidableEq, Repr

/-- The end of the request line behind the checks of the method and the version: the URI. -/
def setUri (o : Options) (con : Con) (uri : Bytes) : Except Con (Con × Option Bytes) :=
  let (reqlineHost, uri) := splitUri uri
  let con := { con with request := { con.request with uri := uri } }
  if !uriIsValid o.headerStrict uri then .error (con.refuse 400)
  else .ok ({ con with request := { con.request with origUri := uri }, httpStatus := 0 }, reqlineHost)

def setVersion (o : Options) (con : Con) (proto uri : Bytes) : Except Con (Con × Option Bytes) :=
  match protoVersion proto with
  | none => .error (con.refuse 400)
  | some version =>
    if version = (1, 1) then
      let v := if o.allowHttp11 then Version.http11 else Version.http10
      setUri o { con with request := { con.request with httpVersion := some v } } uri
    else if version = (1, 0) then
      setUri o { con with request := { con.request with httpVersion := some .http10 } } uri
    else .error { con with httpStatus := 505 }

def endOfRequestLine (o : Options) (con : Con) (l : ReqLine) : Except Con (Con × Option Bytes) :=
  let con := { con with request := { con.request with requestLine := l.line } }
  if l.stage ≠ 2 then .error (con.reject 400)
  else
    match getHttpMethodKey l.method with
    | none => .error (con.reject 501)
    | some r =>
      setVersion o { con with request := { con.request with httpMethod := some r } } (cstr l.token) l.uri

/-- A blank in the request line, or `none` when it is one too much. -/
def lineBlank (l : ReqLine) : Option ReqLine :=
  match l.stage with
  | 0 => some { l with stage := 1, method := l.token, token := [], line := l.line ++ [chr ' '] }
  | 1 => some { l with stage := 2, uri := l.token, token := [], line := l.line ++ [chr ' '] }
  | _ => none

def lineChar (l : ReqLine) (c : Byte) : ReqLine := { l with token := l.token ++ [c], line := l.line ++ [c] }

/-- Where the loop over the request line stops: the connection, `reqline_host`, the bytes from `first` on, and what
has not been read. -/
structure LineEnd where
  con : Con
  reqlineHost : Option Bytes
  token : Bytes
  rest : Bytes

def requestLineLoop (o : Options) (con : Con) (l : ReqLine) : Bytes → Except Con LineEnd
  | [] => .ok ⟨con, none, l.token, []⟩
  | c :: s =>
    if c = chr '\r' then
      match s with
      | [] => requestLineLoop o con (lineChar l c) []
      | d :: s' =>
        if d = chr '\n' then (endOfRequestLine o con l).map fun r => ⟨r.1, r.2, [], s'⟩
        else requestLineLoop o con (lineChar l c) (d :: s')
    else if c = chr ' ' then
      match lineBlank l with
      | none => .error (con.reject 400)
      | some l => requestLineLoop o con l s
    else requestLineLoop o con (lineChar l c) s

/-! ## The header fields -/

/-- `keep_alive_set`. -/
inductive ConnectionSet
  | unset
  | keepalive
  | close
deriving DecidableEq, Repr

/-- The variables of the loop over the header: `key` with its length, which is kept for a folded line,
`keep_alive_set` and `con_length_set`. -/
structure Vars where
  con : Con
  key : Option Bytes
  keepAliveSet : ConnectionSet
  conLengthSet : Bool

/-- `array_insert_unique` of a header field, and the pointer to its value. -/
def Con.insert (con : Con) (ds : DataString) : Con × ValuePtr :=
  let (headers, p) := con.request.headers.insertUnique ds
  ({ con with request := { con.request with headers := headers } }, p)

/-- `array_insert_unique` of a header field. -/
def Vars.insert (v : Vars) (ds : DataString) : Vars := { v with con := (v.con.insert ds).1 }

def connectionValue (set : ConnectionSet) : List Bytes → ConnectionSet
  | [] => set
  | t :: ts =>
    if caselessCompare t (ascii "keep-alive") = 0 then .keepalive
    else if caselessCompare t (ascii "close") = 0 then .close
    else connectionValue set ts

/-- `strncasecmp(value, "bytes=", 6)`, and a `-` behind it. -/
def isByteRange (value : Bytes) : Bool :=
  let s := cstr value
  caselessCompare (s.take 6) (ascii "bytes=") == 0 && (s.drop 6).contains (chr '-')

def setContentLength (v : Vars) (ds : DataString) : Except Con Vars :=
  let v' := v.insert ds
  if v.conLengthSet then .error (v'.con.refuse 400)
  else if !ds.value.all lightIsdigit then .error (v'.con.refuse 400)
  else
    let (r, err) := strtoul ds.value
    if err = [] then
      .ok { v' with
        conLengthSet := true
        con := { v'.con with request := { v'.con.request with contentLength := r } } }
    else .error (v'.con.refuse 400)

def setContentType (v : Vars) (ds : DataString) : Except Con Vars :=
  let (con, p) := v.con.insert ds
  match v.con.request.httpContentType with
  | none => .ok { v with con := { con with request := { con.request with httpContentType := some p } } }
  | some _ => .error (con.refuse 400)

def setExpect (o : Options) (v : Vars) (ds : DataString) : Except Con Vars :=
  let v' := v.insert ds
  if o.rejectExpect100 ∧ caselessCompare ds.value (ascii "100-continue") = 0 then .error (v'.con.refuse 417)
  else .ok v'

/-- `Host`, which is ignored when the request line has one. -/
def setHost (reqlineHost : Bool) (v : Vars) (ds : DataString) : Except Con Vars :=
  if reqlineHost then .ok v
  else
    let (con, p) := v.con.insert ds
    match v.con.request.httpHost with
    | none => .ok { v with con := { con with request := { con.request with httpHost := some p } } }
    | some _ => .error (con.refuse 400)

/-- `If-Modified-Since`: the same date again is ignored. -/
def setIfModifiedSince (v : Vars) (ds : DataString) : Except Con Vars :=
  let (con, p) := v.con.insert ds
  match v.con.request.httpIfModifiedSince with
  | none => .ok { v with con := { con with request := { con.request with httpIfModifiedSince := some p } } }
  | some old =>
    if caselessCompare (cstr (v.con.request.headers.deref old)) (cstr ds.value) = 0 then .ok v
    else .error (con.refuse 400)

/-- `If-None-Match`: only the first one is kept. -/
def setIfNoneMatch (v : Vars) (ds : DataString) : Except Con Vars :=
  match v.con.request.httpIfNoneMatch with
  | none =>
    let (con, p) := v.con.insert ds
    .ok { v with con := { con with request := { con.request with httpIfNoneMatch := some p } } }
  | some _ => .ok v

def setRange (v : Vars) (ds : DataString) : Except Con Vars :=
  let (con, p) := v.con.insert ds
  match v.con.request.httpRange with
  | none =>
    if isByteRange ds.value then
      .ok { v with con := { con with request := { con.request with httpRange := some p } } }
    else .ok { v with con := con }
  | some _ => .error (con.refuse 400)

def setField (o : Options) (reqlineHost : Bool) (v : Vars) (ds : DataString) : Except Con Vars :=
  match findName ds.key fieldNames with
  | some .connection =>
    .ok { v.insert ds with keepAliveSet := connectionValue v.keepAliveSet (httpRequestSplitValue ds.value) }
  | some .contentLength => setContentLength v ds
  | some .contentType => setContentType v ds
  | some .expect => setExpect o v ds
  | some .host => setHost reqlineHost v ds
  | some .ifModifiedSince => setIfModifiedSince v ds
  | some .ifNoneMatch => setIfNoneMatch v ds
  | some .range => setRange v ds
  | none => .ok (v.insert ds)

/-- The end of a header line. A header field without a value is ignored. -/
def endOfHeaderLine (o : Options) (reqlineHost : Bool) (v : Vars) (key value : Bytes) : Except Con Vars :=
  let value := value.rdropWhile isWs
  let v := { v with key := some key }
  if value.isEmpty then .ok v else setField o reqlineHost v ⟨key, value⟩

/-- The end of a folded line, which is appended to the last header field as it is. -/
def endOfFoldedLine (v : Vars) (value : Bytes) : Except Con Vars :=
  match v.key with
  | none => .error (v.con.reject 400)
  | some [] => .error (v.con.reject 400)
  | some key =>
    let headers := v.con.request.headers.appendValue key value
    .ok { v with con := { v.con with request := { v.con.request with headers := headers } } }

/-- The characters that end the parser in a key. -/
def isSeparator (c : Byte) : Bool := (ascii "()<>@,;\\\"/[]?={}").contains c

/-- The other characters that end the parser in a key. -/
def badKeyChar (headerStrict : Bool) (c : Byte) : Bool :=
  if headerStrict then c < 32 || 127 ≤ c else c == 0

def badValueChar (headerStrict : Bool) (c : Byte) : Bool :=
  if headerStrict then c < 32 else c == 0

/-- Where the loop over the header stands: in a key, of which the bytes from `first` on are read; behind a key, looking
for the colon; in a value, with the bytes from `value` on; in a folded line. -/
inductive Mode
  | key (token : Bytes)
  | colon (key : Bytes)
  | value (key value : Bytes)
  | folding (value : Bytes)
deriving DecidableEq, Repr

/-- The end of a line in a value or in a folded line. -/
def endOfLine (o : Options) (reqlineHost : Bool) (v : Vars) : Mode → Except Con Vars
  | .value key value => endOfHeaderLine o reqlineHost v key value
  | .folding value => endOfFoldedLine v value
  | _ => .ok v

/-- A byte other than a CR: the mode behind it, or the connection when the parser stops. -/
def headerChar (o : Options) (con : Con) (c : Byte) : Mode → Except Con Mode
  | .key token =>
    if c = chr ':' then .ok (.value token [])
    else if isSeparator c then .error (con.reject 400)
    else if isWs c then .ok (if token.isEmpty then .folding [c] else .colon token)
    else if badKeyChar o.headerStrict c then .error (con.reject 400)
    else .ok (.key (token ++ [c]))
  | .colon key =>
    if isWs c then .ok (.colon key)
    else if c = chr ':' then .ok (.value key [])
    else .error (con.reject 400)
  | .value key value =>
    if isWs c then .ok (.value key (if value.isEmpty then [] else value ++ [c]))
    else if badValueChar o.headerStrict c then .error (con.refuse 400)
    else .ok (.value key (value ++ [c]))
  | .folding value =>
    if isWs c then .ok (.folding (value ++ [c]))
    else if badValueChar o.headerStrict c then .error (con.refuse 400)
    else .ok (.folding (value ++ [c]))

/-- What a CR means: the end of the header in front of a key, the end of a line in a value. -/
inductive CrMeaning
  | header
  | line
  | nothing
deriving DecidableEq, Repr

def crlf : Mode → CrMeaning
  | .key token => if token.isEmpty then .header else .nothing
  | .colon _ => .nothing
  | .value .. => .line
  | .folding _ => .line

def headerLoop (o : Options) (reqlineHost : Bool) (m : Mode) (v : Vars) : Bytes → Except Con (Vars × Bytes)
  | [] =>
    match headerChar o v.con 0 m with
    | .error con => .error con
    | .ok _ => .ok (v, [])
  | c :: s =>
    if c = chr '\r' then
      match s with
      | [] => .error (v.con.reject 400)
      | d :: s' =>
        if d ≠ chr '\n' then .error (v.con.reject 400)
        else
          match crlf m with
          | .header => .ok (v, s')
          | .nothing => .error (v.con.reject 400)
          | .line =>
            match endOfLine o reqlineHost v m with
            | .error con => .error con
            | .ok v => headerLoop o reqlineHost (.key []) v s'
    else
      match headerChar o v.con c m with
      | .error con => .error con
      | .ok m => headerLoop o reqlineHost m v s

/-! ## Behind the header -/

/-- The keep-alive of the request, and the host that HTTP/1.1 requires. -/
def setKeepAlive (v : Vars) : Except Con Con :=
  if v.con.request.httpVersion = some .http11 then
    let con := { v.con with keepAlive := decide (v.keepAliveSet ≠ ConnectionSet.close) }
    match con.request.httpHost with
    | none => .error (con.reject 400)
    | some p => if (con.request.headers.deref p).isEmpty then .error (con.reject 400) else .ok con
  else .ok { v.con with keepAlive := decide (v.keepAliveSet = ConnectionSet.keepalive) }

def Con.withHost (con : Con) (p : ValuePtr) (check : Bytes → Bool × Bytes) : Bool × Con :=
  let (ok, host) := check (con.request.headers.deref p)
  (ok, { con with request := { con.request with headers := con.request.headers.setValue p host } })

def checkHost (o : Options) (con : Con) : Except Con Con :=
  match con.request.httpHost with
  | none => .ok con
  | some p =>
    let (ok, con) := if o.hostStrict then con.withHost p requestCheckHostname else (true, con)
    if !ok then .error (con.reject 400)
    else
      let (ok, con) := if o.hostNormalize then con.withHost p (httpRequestHostNormalize o.inet) else (true, con)
      if !ok then .error (con.reject 400) else .ok con

/-- What the method says about the content of the request. -/
def checkMethod (con : Con) (conLengthSet : Bool) : Except Con Con :=
  match con.request.httpMethod with
  | some .get | some .head =>
    if conLengthSet ∧ con.request.contentLength ≠ 0 then .error (con.refuse 400) else .ok con
  | some .post => if !conLengthSet then .error (con.refuse 411) else .ok con
  | _ =>
    if (con.request.headers.getElement (ascii "Transfer-Encoding")).isSome then .error (con.refuse 411)
    else .ok con

def ssizeMax : Nat := 2 ^ 63 - 1

/-- The length of the content: whether there is any. -/
def checkLength (con : Con) (conLengthSet : Bool) : Except Con (Bool × Con) :=
  if conLengthSet then
    if con.request.contentLength > ssizeMax then .error (con.refuse 413)
    else .ok (decide (con.request.contentLength ≠ 0), con)
  else .ok (false, con)

def postProcess (o : Options) (v : Vars) : Except Con (Bool × Con) := do
  let con ← setKeepAlive v
  let con ← checkHost o con
  let con ← checkMethod con v.conLengthSet
  checkLength con v.conLengthSet

/-! ## `http_request_parse` -/

/-- `parse_request`: a CRLF behind the previous request of the connection is left out. -/
def parseRequest (con : Con) : Bytes :=
  match con.request.request with
  | c :: d :: s => if con.requestCount > 1 ∧ c = chr '\r' ∧ d = chr '\n' then s else c :: d :: s
  | s => s

/-- The host of the request line becomes a header field. -/
def insertReqlineHost (con : Con) (reqlineHost : Option Bytes) : Con :=
  match reqlineHost with
  | none => con
  | some host =>
    let (con, p) := con.insert ⟨ascii "Host", host⟩
    { con with request := { con.request with httpHost := some p } }

/-- What follows the loop over the request line of `block`. -/
def afterLine (o : Options) (block : Bytes) (l : LineEnd) : Except Con (Bool × Con) :=
  if l.con.request.uri.isEmpty then .error (l.con.reject 400)
  else do
    let con := insertReqlineHost l.con l.reqlineHost
    let (v, rest) ← headerLoop o l.reqlineHost.isSome (.key l.token) ⟨con, none, .unset, false⟩ l.rest
    postProcess o { v with con := { v.con with headerLen := block.length - rest.length } }

/-- The parser; an early `return 0` is an error. -/
def parse (o : Options) (con : Con) : Except Con (Bool × Con) := do
  let block := parseRequest con
  let l ← requestLineLoop o con ⟨0, [], [], [], []⟩ block
  afterLine o block l

/-- `http_request_parse`: whether it returns `1`, and the connection. -/
def httpRequestParse (o : Options) (con : Con) : Bool × Con :=
  match parse o con with
  | .error con => (false, con)
  | .ok r => r

end Request

end Lighttpd
