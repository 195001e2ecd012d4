import Lighttpd.Base.Buffer
import Lighttpd.Base.Itostr
import Lighttpd.Lib.Occurrence
import Lighttpd.Request.Parse

/-!
# The environment of a backend request (`mod_fastcgi.c`, `mod_scgi.c`)

`fcgi_create_env` and `scgi_create_env` describe a request to the backend by pairs of a name and a value. `fcgiEnv` and
`scgiEnv` are the pairs in the order in which they are added; a value is `none` when the pointer to it is `NULL`.
-/

namespace Lighttpd

/-- `CONST_BUF_LEN`: the string of a buffer that has never been allocated is `NULL`. -/
def Buffer.constBufLen (b : Buffer) : Option Bytes := if b.size = 0 then none else some b.str

def Buffer.appendStringBuffer (b src : Buffer) : Buffer := b.appendStringLen src.str

def Buffer.isEqualCaselessString (b : Buffer) (s : Bytes) : Bool :=
  b.used == s.length + 1 && (cstr b.str).map toLower == s.map toLower

/-- `strncmp(a, b, n) == 0`. -/
def strncmpEqual (a b : Bytes) (n : Nat) : Bool := cstr (a.take n) == cstr (b.take n)

namespace Backend

/-- What the two functions read of a connection. `srvSocketAddr` is what `inet_ntop` makes of the address of the
server socket, `serverAddr` that of the local end of the connection, and `remoteAddr` that of the client. -/
structure EnvCon where
  serverTag : Buffer
  serverName : Buffer
  srvSocketAddr : Bytes
  serverPort : Nat
  serverAddr : Bytes
  remotePort : Nat
  remoteAddr : Bytes
  uriPath : Buffer
  uriQuery : Buffer
  uriScheme : Buffer
  pathinfo : Buffer
  physicalPath : Buffer
  physicalBasedir : Buffer
  uri : Buffer
  origUri : Buffer
  httpMethod : Request.Method
  httpVersion : Request.Version
  errorHandlerSavedStatus : Int
  headers : List (Buffer × Buffer)
  environment : List (Buffer × Buffer)

/-- `fcgi_extension_host`, and `scgi_extension_host`, as far as they are read here. `mode` is `FCGI_RESPONDER` or
`FCGI_AUTHORIZER`. -/
structure EnvHost where
  mode : Byte
  docroot : Buffer
  stripRequestUri : Buffer
  breakScriptfilenameForPhp : Bool

def authorizer : Byte := 2

abbrev EnvPair := Bytes × Option Bytes

def envString (name : String) (value : Bytes) : EnvPair := (ascii name, some value)

def envBuffer (name : String) (value : Buffer) : EnvPair := (ascii name, value.constBufLen)

def getHttpMethodName (m : Request.Method) : Bytes :=
  ((Request.httpMethods.find? fun e => e.1 == m).map fun e => ascii e.2).getD []

def getHttpVersionName : Request.Version → Bytes
  | .http11 => ascii "HTTP/1.1"
  | .http10 => ascii "HTTP/1.0"

/-- The length of the name without the port. -/
def serverNameLen (name : Bytes) : Nat :=
  if name.head? = some (chr '[') then
    match Occurrence.firstEnd (ascii "]:") (cstr name) with
    | some n => n - 1
    | none => name.length
  else if chr ':' ∈ cstr name then (cstr name).idxOf (chr ':')
  else name.length

namespace EnvCon

def serverNameValue (con : EnvCon) : Bytes :=
  if con.serverName.isEmpty then con.srvSocketAddr else con.serverName.str.take (serverNameLen con.serverName.str)

def cgiVarname (c : Byte) : Byte :=
  if lightIsalpha c then c &&& ~~~32 else if !lightIsdigit c then chr '_' else c

def encodedCgiVarname (s : Bytes) (isHttpHeader : Bool) : Bytes :=
  (if isHttpHeader && (cstr s).map toLower != ascii "content-type" then ascii "HTTP_" else []) ++ s.map cgiVarname

/-- `fcgi_env_add_request_headers` and `scgi_env_add_request_headers`. -/
def requestHeaders (con : EnvCon) : List EnvPair :=
  (con.headers.filter fun ds => !ds.2.isEmpty && !ds.1.isEmpty && !ds.1.isEqualCaselessString (ascii "Proxy")).map
      (fun ds => (encodedCgiVarname ds.1.str true, ds.2.constBufLen)) ++
    (con.environment.filter fun ds => !ds.2.isEmpty && !ds.1.isEmpty).map
      fun ds => (encodedCgiVarname ds.1.str false, ds.2.constBufLen)

/-- The pairs that both functions start with, behind the first ones. -/
def addresses (con : EnvCon) : List EnvPair :=
  [envString "SERVER_NAME" con.serverNameValue, envString "GATEWAY_INTERFACE" (ascii "CGI/1.1"),
    envString "SERVER_PORT" (liUtostrn con.serverPort), envString "SERVER_ADDR" con.serverAddr,
    envString "REMOTE_PORT" (liUtostrn con.remotePort), envString "REMOTE_ADDR" con.remoteAddr]

/-- `SCRIPT_NAME`, `PATH_INFO` and `PATH_TRANSLATED`. -/
def scriptName (con : EnvCon) (host : EnvHost) : List EnvPair :=
  envBuffer "SCRIPT_NAME" con.uriPath ::
    if con.pathinfo.stringIsEmpty then [envString "PATH_INFO" []]
    else
      let path := Buffer.init.copyBuffer (if host.docroot.stringIsEmpty then con.physicalBasedir else host.docroot)
      [envBuffer "PATH_INFO" con.pathinfo, envBuffer "PATH_TRANSLATED" (path.appendStringBuffer con.pathinfo)]

def scriptFilename (con : EnvCon) (host : EnvHost) : List EnvPair :=
  if host.docroot.stringIsEmpty then
    let path := Buffer.init.copyBuffer con.physicalPath
    let path := if host.breakScriptfilenameForPhp then path.appendStringBuffer con.pathinfo else path
    [envBuffer "SCRIPT_FILENAME" path, envBuffer "DOCUMENT_ROOT" con.physicalBasedir]
  else
    let path := Buffer.init.copyBuffer host.docroot
    [envBuffer "SCRIPT_FILENAME" (path.appendStringBuffer con.uriPath), envBuffer "DOCUMENT_ROOT" host.docroot]

/-- `strip-request-uri` with a slash at its end. -/
def strip (host : EnvHost) : Bytes :=
  if host.stripRequestUri.str.getLast? = some (chr '/') then host.stripRequestUri.str
  else host.stripRequestUri.str ++ ascii "/"

def requestUri (con : EnvCon) (host : EnvHost) : EnvPair :=
  if !host.stripRequestUri.stringIsEmpty && (strip host).length ≤ con.origUri.stringLength &&
      strncmpEqual con.origUri.str (strip host) (strip host).length then
    envString "REQUEST_URI" (con.origUri.str.drop ((strip host).length - 1))
  else envBuffer "REQUEST_URI" con.origUri

/-- The pairs from `REDIRECT_URI` to `SERVER_PROTOCOL`. -/
def requestLine (con : EnvCon) : List EnvPair :=
  (if con.uri.isEqual con.origUri then [] else [envBuffer "REDIRECT_URI" con.uri]) ++
    [if con.uriQuery.stringIsEmpty then envString "QUERY_STRING" [] else envBuffer "QUERY_STRING" con.uriQuery,
      envString "REQUEST_METHOD" (getHttpMethodName con.httpMethod)] ++
    (if con.errorHandlerSavedStatus = 0 then [envString "REDIRECT_STATUS" (ascii "200")] else []) ++
    [envString "SERVER_PROTOCOL" (getHttpVersionName con.httpVersion)]

def https (con : EnvCon) : List EnvPair :=
  if con.uriScheme.isEqualCaselessString (ascii "https") then [envString "HTTPS" (ascii "on")] else []

/-- **The calls of `fcgi_env_add` in `fcgi_create_env`.** -/
def fcgiEnv (con : EnvCon) (host : EnvHost) (contentLength : Nat) : List EnvPair :=
  envBuffer "SERVER_SOFTWARE" con.serverTag :: (con.addresses ++
    (if contentLength > 0 ∧ host.mode ≠ authorizer then [envString "CONTENT_LENGTH" (liUtostrn contentLength)]
      else []) ++
    (if host.mode ≠ authorizer then con.scriptName host else []) ++ con.scriptFilename host ++
    [con.requestUri host] ++ con.requestLine ++ con.https ++ con.requestHeaders)

/-- **The calls of `scgi_env_add` in `scgi_create_env`**; `useOpenssl` is `USE_OPENSSL`. There is no
`strip-request-uri`, and no `break-scriptfilename-for-php`. -/
def scgiEnv (useOpenssl : Bool) (con : EnvCon) (host : EnvHost) (contentLength : Nat) : List EnvPair :=
  [envString "CONTENT_LENGTH" (liUtostrn contentLength), envString "SCGI" (ascii "1"),
    envBuffer "SERVER_SOFTWARE" con.serverTag] ++ con.addresses ++ con.scriptName host ++
    con.scriptFilename { host with breakScriptfilenameForPhp := false } ++ [envBuffer "REQUEST_URI" con.origUri] ++
    con.requestLine ++ (if useOpenssl then con.https else []) ++ con.requestHeaders

end EnvCon
end Backend
end Lighttpd
