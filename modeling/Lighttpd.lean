import Lighttpd.Base.Buffer
import Lighttpd.Chunk.Chunk
import Lighttpd.Chunk.Invariant
import Lighttpd.Chunk.Steal
import Lighttpd.Network.Shaping
import Lighttpd.Lib.ChunkedCoding
import Lighttpd.Http.Chunk
import Lighttpd.Http.ChunkStream
import Lighttpd.Connection.Limit
import Lighttpd.Connection.Content
import Lighttpd.Request.Accepted
import Lighttpd.Lib.Splitter
import Lighttpd.Backend.Reply
import Lighttpd.Backend.Split
import Lighttpd.Backend.Env
import Lighttpd.Backend.Sender
import Lighttpd.Backend.Retry
import Lighttpd.Lib.Netstring
import Lighttpd.Lib.Run
import Lighttpd.Lib.Captures
import Lighttpd.Lib.Traverse
import Lighttpd.Scgi.Request
import Lighttpd.Scgi.Send
import Lighttpd.Fcgi.Demux
import Lighttpd.Fcgi.Split
import Lighttpd.Fcgi.Request
import Lighttpd.Fcgi.Send
import Lighttpd.Fcgi.Balance
import Lighttpd.Scgi.Accounts
import Lighttpd.Response.Framing
import Lighttpd.Scgi.ProcList
import Lighttpd.Scgi.Balance
import Lighttpd.Lib.MessageLength
import Lighttpd.Connection.NextRequest
import Lighttpd.Connection.Sweep
import Lighttpd.Array.Map
import Lighttpd.Response.RangeExact
import Lighttpd.Luna.Authorised
import Lighttpd.StatCache.Coherence
import Lighttpd.Uri.Target
import Lighttpd.Webdav.Loss
import Lighttpd.Webdav.Locks
import Lighttpd.Webdav.Delete
import Lighttpd.Webdav.Put
import Lighttpd.Request.Cached
import Lighttpd.Request.RequestLine
import Lighttpd.Request.Grammar
import Lighttpd.Request.HostGrammar
import Lighttpd.Uri.Encoding
import Lighttpd.Uri.Simplify
import Lighttpd.Request.HostNormal
import Lighttpd.Config.RemoteIp
import Lighttpd.Config.Condition
import Lighttpd.Config.CondCache
import Lighttpd.Response.Etag
import Lighttpd.Response.Cachable
import Lighttpd.Config.ArrayLiteral
import Lighttpd.Config.Values
import Lighttpd.Config.Tokenizer
import Lighttpd.Base.Base64
import Lighttpd.Base.Md5
import Lighttpd.Auth.Digest
import Lighttpd.Lib.SlotTable
import Lighttpd.Event.Dispatch
import Lighttpd.Auth.Rules
import Lighttpd.Secdownload.Handler
import Lighttpd.Response.Pathinfo
import Lighttpd.Base.Strftime
import Lighttpd.Lib.Service
import Lighttpd.Response.MtimeCache
import Lighttpd.Network.InetNtopCache
import Lighttpd.Response.Xsendfile
import Lighttpd.Chunk.TempFailure
import Lighttpd.Ssi.Conditional
import Lighttpd.Ssi.Statement
import Lighttpd.Ssi.Reader
import Lighttpd.Ssi.Expr
import Lighttpd.Rewrite.Requests
import Lighttpd.Extforward.Handler
import Lighttpd.Evhost.DocRoot
import Lighttpd.Alias.Physical
import Lighttpd.Alias.Shadow
import Lighttpd.Userdir.Docroot
import Lighttpd.Fcgi.Choice
import Lighttpd.Proxy.Rounds
import Lighttpd.Scgi.Encode
import Lighttpd.Dirlisting.Sort
import Lighttpd.Accesslog.Record
import Lighttpd.Expire.Offset
import Lighttpd.Luna.Parameter
import Lighttpd.Luna.Decode
import Lighttpd.Luna.Record
import Lighttpd.Luna.Handler
import Lighttpd.Request.SplitValue
import Lighttpd.Config.Meaning
import Lighttpd.Cgi.Children
import Lighttpd.Response.Relay
