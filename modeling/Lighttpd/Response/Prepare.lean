import Lighttpd.Backend.Reply
import Lighttpd.Base.Itostr
import Lighttpd.Request.Parse

/-!
# The header of a response (`connections.c`, `response.c`)

When a response is to be sent, `connection_handle_write_prepare` replaces it by an error document if it is an error of
the server itself, decides how its end is announced, and `http_response_write_header` puts the header before what is in
the write queue.
-/

namespace Lighttpd
namespace Respond
open Request Backend

/-- What is read and written of a connection while a response is made. `reply` has the status and the header fields,
`out` the write queue, `transfer_encoding`, `file_finished` and `keep_alive`; `direct` is `mode == DIRECT`. `lengthReset`
says that the value of the field `Content-Length` has been reset, and `hctx` that a backend is connected;
`sendContentBody` is that of its handler. -/
structure Con where
  reply : Reply
  lengthReset : Bool
  out : Response
  direct : Bool
  hctx : Bool
  sendContentBody : Bool
  fileStarted : Bool
  httpMethod : Option Method
  uriPath : Bytes
  errorHandlerSavedStatus : Int
  errorHandlerSavedMethod : Option Method
  bytesHeader : Nat

/-- What is read of the configuration and of `srv`: `errorfile_prefix`, the descriptor when the error file is opened, its
type in the stat cache, the limits of keep-alive, the date and the encoded server tag. -/
structure Conf where
  errorfilePrefix : Bytes
  errorfileFd : Option Fd
  errorfileType : Option Bytes
  requestCount : Nat
  maxKeepAliveRequests : Nat
  maxKeepAliveIdle : Nat
  tsDateStr : Bytes
  serverTag : Bytes

namespace Con

def httpStatus (c : Con) : Nat := c.reply.httpStatus

def setStatus (c : Con) (status : Nat) : Con := { c with reply := { c.reply with httpStatus := status } }

def setHeaders (c : Con) (hs : Headers) : Con := { c with reply := { c.reply with headers := hs } }

/-- `con->parsed_response &= ~HTTP_CONTENT_LENGTH`. -/
def clearContentLength (c : Con) : Con :=
  { c with reply := { c.reply with parsed := { c.reply.parsed with contentLength := false } } }

/-! ## Header fields -/

def responseHeaderInsert (c : Con) (key value : Bytes) : Con := c.setHeaders (insertHeader c.reply.headers ⟨key, value⟩)

def overwriteHeader (hs : Headers) (key value : Bytes) : Headers :=
  match hs.getIndex key with
  | some n => hs.modify n fun ds => { ds with value := value }
  | none => hs ++ [⟨key, value⟩]

def responseHeaderOverwrite (c : Con) (key value : Bytes) : Con :=
  { c.setHeaders (overwriteHeader c.reply.headers key value) with
    lengthReset := c.lengthReset && !isKey key "Content-Length" }

/-- `buffer_reset` of the value of `Content-Length`. -/
def resetLengthField (c : Con) : Con := { c with lengthReset := true }

/-- `strncasecmp(key, name, strlen(name)) == 0`. -/
def hasPrefix (key : Bytes) (name : String) : Bool := isKey (key.take name.length) name

def isWritten (c : Con) (ds : DataString) : Bool :=
  !(c.lengthReset && isKey ds.key "Content-Length") && !hasPrefix ds.key "X-LIGHTTPD-" && !hasPrefix ds.key "X-Sendfile" &&
    !(isKey ds.key "Content-Encoding" && c.httpStatus == 304)

def fields (c : Con) : Headers := c.reply.headers.filter c.isWritten

end Con

def httpStatusNames : List (Nat × String) :=
  [(100, "Continue"), (101, "Switching Protocols"), (102, "Processing"), (200, "OK"), (201, "Created"),
   (202, "Accepted"), (203, "Non-Authoritative Information"), (204, "No Content"), (205, "Reset Content"),
   (206, "Partial Content"), (207, "Multi-status"), (300, "Multiple Choices"), (301, "Moved Permanently"),
   (302, "Found"), (303, "See Other"), (304, "Not Modified"), (305, "Use Proxy"), (306, "(Unused)"),
   (307, "Temporary Redirect"), (400, "Bad Request"), (401, "Unauthorized"), (402, "Payment Required"),
   (403, "Forbidden"), (404, "Not Found"), (405, "Method Not Allowed"), (406, "Not Acceptable"),
   (407, "Proxy Authentication Required"), (408, "Request Timeout"), (409, "Conflict"), (410, "Gone"),
   (411, "Length Required"), (412, "Precondition Failed"), (413, "Request Entity Too Large"),
   (414, "Request-URI Too Long"), (415, "Unsupported Media Type"), (416, "Requested Range Not Satisfiable"),
   (417, "Expectation Failed"), (422, "Unprocessable Entity"), (423, "Locked"), (424, "Failed Dependency"),
   (426, "Upgrade Required"), (500, "Internal Server Error"), (501, "Not Implemented"), (502, "Bad Gateway"),
   (503, "Service Not Available"), (504, "Gateway Timeout"), (505, "HTTP Version Not Supported"),
   (507, "Insufficient Storage")]

/-- `get_http_status_name`; there is no name for other numbers. -/
def getHttpStatusName (status : Nat) : Bytes := ascii ((httpStatusNames.lookup status).getD "")

namespace Con

def closes (conf : Conf) : Bool := conf.requestCount > conf.maxKeepAliveRequests || conf.maxKeepAliveIdle == 0

def limitKeepAlive (conf : Conf) (c : Con) : Con :=
  if closes conf then { c with out := { c.out with keepAlive := false } } else c

def connectionField (c : Con) : Con :=
  if !c.out.http11 || !c.out.keepAlive then
    c.responseHeaderOverwrite (ascii "Connection") (ascii (if c.out.keepAlive then "keep-alive" else "close"))
  else c

def chunkedField (c : Con) : Con :=
  if c.out.chunked then c.responseHeaderOverwrite (ascii "Transfer-Encoding") (ascii "chunked") else c

/-- The fields that announce the end of the connection and the transfer encoding. -/
def connectionFields (conf : Conf) (c : Con) : Con := (c.limitKeepAlive conf).connectionField.chunkedField

def fieldLine (ds : DataString) : Bytes := ascii "\r\n" ++ ds.key ++ ascii ": " ++ ds.value

def headerText (conf : Conf) (c : Con) : Bytes :=
  ascii (if c.out.http11 then "HTTP/1.1 " else "HTTP/1.0 ") ++ liUtostrn c.httpStatus ++ ascii " " ++
    getHttpStatusName c.httpStatus ++ c.fields.flatMap fieldLine ++
    (if c.fields.any fun ds => isKey ds.key "Date" then [] else ascii "\r\nDate: " ++ conf.tsDateStr) ++
    (if c.fields.any (fun ds => isKey ds.key "Server") || conf.serverTag == [] then []
      else ascii "\r\nServer: " ++ conf.serverTag) ++
    ascii "\r\n\r\n"

/-- `chunkqueue_prepend_buffer` of the header; the response is then in the state `CON_STATE_WRITE`. -/
def prependHeader (text : Bytes) (c : Con) : Option Con :=
  (c.out.writeQueue.prependBuffer (.ofString text)).map fun r =>
    { c with
      bytesHeader := (Buffer.ofString text).stringLength
      out := { c.out with writeQueue := r.1, headerWritten := true } }

def httpResponseWriteHeader (conf : Conf) (c : Con) : Option Con :=
  let c := c.connectionFields conf
  c.prependHeader (c.headerText conf)

/-! ## `connection_handle_write_prepare` -/

def resetQueue (c : Con) : Con := { c with out := { c.out with writeQueue := c.out.writeQueue.reset } }

/-- The response is finished, and has no body. -/
def emptyBody (c : Con) : Con :=
  let c := c.clearContentLength.resetQueue
  { c with out := { c.out with chunked := false, fileFinished := true } }

def answersOptions (c : Con) : Bool :=
  c.httpMethod == some .options && (c.httpStatus == 0 || c.httpStatus == 200) && c.uriPath != [] &&
    c.uriPath.head? != some (chr '*')

/-- The `switch` on the method of a request for a static file. -/
def staticMethod (c : Con) : Con :=
  match c.httpMethod with
  | some .get | some .post | some .head => c
  | some .options =>
    if c.answersOptions then
      ((c.responseHeaderInsert (ascii "Allow") (ascii "OPTIONS, GET, HEAD, POST")).emptyBody).setStatus 200
    else c
  | _ => if c.httpStatus = 0 then c.setStatus 501 else c

def withStatus (c : Con) : Con :=
  let c := if c.direct then c.staticMethod else c
  if c.httpStatus = 0 then c.setStatus 403 else c

def connectionHandleErrdocInit (c : Con) : Con :=
  let wwwAuth := if c.httpStatus = 401 then c.reply.headers.getElement (ascii "WWW-Authenticate") else none
  let c := { c.setHeaders [] with out := { c.out with chunked := false }, lengthReset := false }.resetQueue
  match wwwAuth with
  | some ds => c.responseHeaderInsert (ascii "WWW-Authenticate") ds.value
  | none => c

def errorPage (status : Nat) : Bytes :=
  let title := liUtostrn status ++ ascii " - " ++ getHttpStatusName status
  ascii ("<?xml version=\"1.0\" encoding=\"iso-8859-1\"?>\n" ++
    "<!DOCTYPE html PUBLIC \"-//W3C//DTD XHTML 1.0 Transitional//EN\"\n" ++
    "         \"http://www.w3.org/TR/xhtml1/DTD/xhtml1-transitional.dtd\">\n" ++
    "<html xmlns=\"http://www.w3.org/1999/xhtml\" xml:lang=\"en\" lang=\"en\">\n <head>\n  <title>") ++ title ++
    ascii "</title>\n </head>\n <body>\n  <h1>" ++ title ++ ascii "</h1>\n </body>\n</html>\n"

def errorfile (conf : Conf) (status : Nat) : Path := conf.errorfilePrefix ++ liUtostrn status ++ ascii ".html"

/-- The error file, if there is one; the result is whether it has been sent. -/
def sendErrorfile (conf : Conf) (c : Con) : Option (Bool × Con) :=
  if conf.errorfilePrefix = [] then some (false, c)
  else
    (c.out.httpChunkAppendFile (errorfile conf c.httpStatus) conf.errorfileFd).map fun r =>
      if r.1 then
        let c := { c with out := { r.2 with fileFinished := true } }
        (true, (conf.errorfileType.map (c.responseHeaderOverwrite (ascii "Content-Type"))).getD c)
      else (false, { c with out := r.2 })

def sendErrorPage (c : Con) : Option Con :=
  (Response.httpChunkAppendBuffer { c.out with fileFinished := true } [] (.ofString (errorPage c.httpStatus))).map fun r =>
    { c with out := r.2 }.responseHeaderOverwrite (ascii "Content-Type") (ascii "text/html")

def errorDocument (conf : Conf) (c : Con) : Option Con := do
  let c := connectionHandleErrdocInit { c with out := { c.out with fileFinished := false } }
  let (sent, c) ← c.sendErrorfile conf
  if sent then return c else c.sendErrorPage

def headerOnly (c : Con) : Bool := c.httpStatus == 204 || c.httpStatus == 205 || c.httpStatus == 304

/-- The response is replaced by an error document. -/
def isError (c : Con) : Bool := !c.headerOnly && c.direct && decide (400 ≤ c.httpStatus) && decide (c.httpStatus < 600)

/-- The `switch` on the status. -/
def withContent (conf : Conf) (c : Con) : Option Con :=
  if c.headerOnly then some c.emptyBody
  else if c.isError then c.errorDocument conf
  else some c

/-- A status without a body, and without a length. -/
def noLength (c : Con) : Bool :=
  (decide (100 ≤ c.httpStatus) && decide (c.httpStatus < 200)) || c.httpStatus == 204 || c.httpStatus == 304

def isHead (c : Con) : Bool := c.httpMethod == some .head

def finishedLength (c : Con) : Option Con :=
  if !c.reply.parsed.contentLength && !c.out.chunked then do
    let qlen ← c.out.writeQueue.length
    if c.noLength then return c.resetLengthField
    else if qlen > 0 ∨ !c.isHead then
      return c.responseHeaderOverwrite (ascii "Content-Length") (liUtostrn qlen)
    else return c
  else some c

/-- The transfer encoding of a response that is not finished, and the wish of the backend to close the connection. -/
def unfinishedEncoding (c : Con) : Option Con := do
  let out ← Response.chooseTransferEncoding { c.out with contentLength := c.reply.parsed.contentLength }
  let keepAlive := out.keepAlive && !(c.reply.parsed.connection && !c.reply.keepAlive)
  return { c with out := { out with keepAlive := keepAlive } }

def dropHeadBody (c : Con) : Con :=
  if c.isHead then
    let c := c.resetQueue
    { c with out := { c.out with fileFinished := true, chunked := false } }
  else c

def announceEnd (c : Con) : Option Con := if c.out.fileFinished then c.finishedLength else c.unfinishedEncoding

/-- The second half of `connection_handle_write_prepare`. -/
def announce (conf : Conf) (c : Con) : Option Con := do
  let c ← c.announceEnd
  c.dropHeadBody.httpResponseWriteHeader conf

def connectionHandleWritePrepare (conf : Conf) (c : Con) : Option Con := do
  let c ← c.withStatus.withContent conf
  c.announce conf

end Con
end Respond
end Lighttpd
