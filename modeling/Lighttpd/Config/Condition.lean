import Lighttpd.Base.Buffer
import Lighttpd.Config.RemoteIp
import Lighttpd.Request.Host

/-!
# Conditions of the configuration (`configfile-glue.c`)

A condition stands in a block (its parent) and may be the else branch of another one (its predecessor). A connection
caches its result, the result without its preconditions, and what its regular expression has captured.
-/

namespace Lighttpd.Config

/-! ## The conditions -/

/-- `comp_key_t`. -/
inductive Comp
  | unset
  | serverSocket
  | httpUrl
  | httpHost
  | httpReferer
  | httpUserAgent
  | httpLanguage
  | httpCookie
  | httpRemoteIp
  | httpQueryString
  | httpScheme
  | httpRequestMethod
deriving DecidableEq, Repr

/-- `data_config`: the links are indices in `config_context`. -/
structure DataConfig where
  comp : Comp := .unset
  cond : ConfigCond := .unset
  string : Buffer := Buffer.init
  parent : Option Nat := none
  prev : Option Nat := none
  next : Option Nat := none
  children : List Nat := []

def dcOf (dcs : List DataConfig) (i : Nat) : DataConfig := dcs.getD i {}

/-- **The links as the parser makes them**: a parent and a predecessor come first, and each link has its counterpart. -/
structure WellLinked (dcs : List DataConfig) : Prop where
  parent : ∀ i < dcs.length, ∀ p ∈ (dcOf dcs i).parent, p < i ∧ i ∈ (dcOf dcs p).children
  children : ∀ i < dcs.length, ∀ c ∈ (dcOf dcs i).children, i ∈ (dcOf dcs c).parent
  prev : ∀ i < dcs.length, ∀ p ∈ (dcOf dcs i).prev, p < i ∧ i ∈ (dcOf dcs p).next ∧
    (dcOf dcs p).parent = (dcOf dcs i).parent
  next : ∀ i < dcs.length, ∀ n ∈ (dcOf dcs i).next, i ∈ (dcOf dcs n).prev

/-- `srv->config_context`. -/
structure Tree where
  dcs : List DataConfig
  linked : WellLinked dcs

def Tree.dc (t : Tree) (i : Nat) : DataConfig := dcOf t.dcs i

/-- `config_context->used`. -/
def Tree.used (t : Tree) : Nat := t.dcs.length

/-! ## The connection -/

/-- What the conditions look at. -/
structure Fields where
  authority : Buffer
  tlsextServerName : Buffer
  port : Nat
  dstAddr : SockAddr
  dstAddrBuf : Buffer
  scheme : Buffer
  path : Buffer
  query : Buffer
  srvToken : Buffer
  referer : Option Buffer
  cookie : Option Buffer
  userAgent : Option Buffer
  acceptLanguage : Option Buffer
  method : Bytes

/-- Where the pointer to a buffer goes. -/
inductive BufPtr
  | authority
  | tlsextServerName
  | condCheckBuf
  | dstAddrBuf
  | scheme
  | path
  | query
  | srvToken
  | referer
  | cookie
  | userAgent
  | acceptLanguage
  | tmpBuf
  | emptyString
deriving DecidableEq, Repr

structure CondCache where
  result : CondResult := .unset
  localResult : CondResult := .unset
  patterncount : Int := 0
  matchOffsets : List Int := []
  compValue : Option BufPtr := none
deriving DecidableEq, Repr

/-- The connection, and the two buffers of the server that are written. -/
structure Con where
  fields : Fields
  valid : Comp → Bool
  caches : Nat → CondCache
  tmpBuf : Bytes
  condCheckBuf : Bytes

def Con.deref (con : Con) : BufPtr → Bytes
  | .authority => con.fields.authority.str
  | .tlsextServerName => con.fields.tlsextServerName.str
  | .condCheckBuf => con.condCheckBuf
  | .dstAddrBuf => con.fields.dstAddrBuf.str
  | .scheme => con.fields.scheme.str
  | .path => con.fields.path.str
  | .query => con.fields.query.str
  | .srvToken => con.fields.srvToken.str
  | .referer => (con.fields.referer.map Buffer.str).getD []
  | .cookie => (con.fields.cookie.map Buffer.str).getD []
  | .userAgent => (con.fields.userAgent.map Buffer.str).getD []
  | .acceptLanguage => (con.fields.acceptLanguage.map Buffer.str).getD []
  | .tmpBuf => con.tmpBuf
  | .emptyString => []

/-- Functions of libraries: `inet_pton`, and `pcre_exec` with the pattern, which returns the count and the offsets. -/
structure Env where
  pton : Pton
  pcreExec : Bytes → Bytes → Int × List Int

/-! ## The condition itself -/

def emptyString : Buffer := Buffer.ofString []

/-- The buffer for `COMP_HTTP_HOST`: for `==` and `!=`, a port is added or dropped as the condition has one. -/
def httpHostBuf (f : Fields) (dc : DataConfig) : BufPtr × Buffer :=
  if !f.authority.stringIsEmpty then
    if dc.cond = .ne ∨ dc.cond = .eq then
      let ckColon := (cstr dc.string.str).idxOf? (chr ':')
      match ckColon, (cstr f.authority.str).idxOf? (chr ':') with
      | some _, none => (.condCheckBuf, Buffer.ofString (f.authority.str ++ chr ':' :: Request.intBytes f.port))
      | none, some valColon => (.condCheckBuf, Buffer.ofString (f.authority.str.take valColon))
      | _, _ => (.authority, f.authority)
    else (.authority, f.authority)
  else if !f.tlsextServerName.stringIsEmpty then (.tlsextServerName, f.tlsextServerName)
  else (.emptyString, emptyString)

def headerBuf (p : BufPtr) (value : Option Buffer) : BufPtr × Buffer :=
  match value with
  | some b => (p, b)
  | none => (.emptyString, emptyString)

/-- The buffer that is compared, `none` for the members of `comp_key_t` that have none. -/
def compareBuf (f : Fields) (dc : DataConfig) : Option (BufPtr × Buffer) :=
  match dc.comp with
  | .httpHost => some (httpHostBuf f dc)
  | .httpRemoteIp => some (.dstAddrBuf, f.dstAddrBuf)
  | .httpScheme => some (.scheme, f.scheme)
  | .httpUrl => some (.path, f.path)
  | .httpQueryString => some (.query, f.query)
  | .serverSocket => some (.srvToken, f.srvToken)
  | .httpReferer => some (headerBuf .referer f.referer)
  | .httpCookie => some (headerBuf .cookie f.cookie)
  | .httpUserAgent => some (headerBuf .userAgent f.userAgent)
  | .httpRequestMethod => some (.tmpBuf, Buffer.ofString f.method)
  | .httpLanguage => some (headerBuf .acceptLanguage f.acceptLanguage)
  | .unset => none

/-- The comparison of `config_check_cond_nocache`. -/
def checkLocal (env : Env) (f : Fields) (dc : DataConfig) (cache : CondCache) : CondResult × CondCache :=
  match if dc.comp = .httpRemoteIp then remoteIpMask env.pton dc.cond dc.string.str f.dstAddr else none with
  | some r => (r, cache)
  | none =>
    match compareBuf f dc with
    | none => (.false, cache)
    | some (l, b) =>
      match dc.cond with
      | .eq => (if b.isEqual dc.string then .true else .false, cache)
      | .ne => (if b.isEqual dc.string then .false else .true, cache)
      | .isMatch =>
        let (n, ovector) := env.pcreExec dc.string.str b.str
        let cache := { cache with patterncount := n, matchOffsets := ovector }
        if n > 0 then (.true, { cache with compValue := some l }) else (.false, cache)
      | .noMatch =>
        let (n, ovector) := env.pcreExec dc.string.str b.str
        let cache := { cache with patterncount := n, matchOffsets := ovector }
        if n > 0 then (.false, { cache with compValue := some l }) else (.true, cache)
      | .unset => (.false, cache)

/-- What the comparison writes to `srv->tmp_buf` and `srv->cond_check_buf`. -/
def Con.scratch (con : Con) (dc : DataConfig) : Con :=
  match compareBuf con.fields dc with
  | some (.tmpBuf, b) => { con with tmpBuf := b.str }
  | some (.condCheckBuf, b) => { con with condCheckBuf := b.str }
  | _ => con

/-! ## The cache -/

/-- The parent, which is not looked at when it is the global block. -/
def DataConfig.block (dc : DataConfig) : Option Nat := dc.parent.filter (· ≠ 0)

def Con.setCache (con : Con) (i : Nat) (c : CondCache) : Con := { con with caches := Function.update con.caches i c }

/-- The result of a parent or a predecessor, `r` when there is none. -/
def checkLink (cached : Con → Nat → CondResult × Con) (con : Con) (link : Option Nat) (r : CondResult) :
    CondResult × Con :=
  match link with
  | none => (r, con)
  | some p => cached con p

def configCheckCondNocache (env : Env) (t : Tree) (cached : Con → Nat → CondResult × Con) (con : Con) (i : Nat) :
    CondResult × Con :=
  let dc := t.dc i
  -- check parent first
  match checkLink cached con dc.block .true with
  | (.unset, con) => (.unset, con)
  | (.skip, con) => (.skip, con)
  | (.false, con) => (.skip, con)
  | (.true, con) =>
    -- make sure prev is checked first
    match checkLink cached con dc.prev .false with
    | (.unset, con) => (.unset, con)
    | (.skip, con) => (.skip, con)
    | (.true, con) => (.skip, con)
    | (.false, con) =>
      if !con.valid dc.comp then (.unset, con)
      else
        match (con.caches i).localResult with
        | .true => (.true, con)
        | .false => (.false, con)
        | _ =>
          let (r, cache) := checkLocal env con.fields dc (con.caches i)
          (r, (con.scratch dc).setCache i cache)

def configCheckCondCached (env : Env) (t : Tree) : Nat → Con → Nat → CondResult × Con
  | 0, con, _ => (.unset, con)
  | n + 1, con, i =>
    if (con.caches i).result = .unset then
      let (r, con) := configCheckCondNocache env t (configCheckCondCached env t n) con i
      let cache := { con.caches i with result := r }
      -- remember result of local condition for a partial reset
      let cache := if r = .false ∨ r = .true then { cache with localResult := r } else cache
      (r, con.setCache i cache)
    else ((con.caches i).result, con)

/-- `config_check_cond`: every link goes to a smaller index. -/
def configCheckCond (env : Env) (t : Tree) (con : Con) (i : Nat) : Bool × Con :=
  let (r, con) := configCheckCondCached env t (i + 1) con i
  (r == .true, con)

/-- What `config_cond_clear_node` does with one node. -/
def CondCache.wipe (c : CondCache) : CondCache := { c with patterncount := 0, compValue := none, result := .unset }

/-- The else branch is cleared when there is one. -/
def clearNext (clear : (Nat → CondCache) → Nat → Nat → CondCache) (caches : Nat → CondCache) (next : Option Nat) :
    Nat → CondCache :=
  match next with
  | none => caches
  | some next => clear caches next

def configCondClearNode (t : Tree) : Nat → (Nat → CondCache) → Nat → Nat → CondCache
  | 0, caches, _ => caches
  | n + 1, caches, i =>
    if (caches i).result ≠ .unset then
      let caches := Function.update caches i (caches i).wipe
      -- only call for first node in if-else chain
      let caches := ((t.dc i).children.filter fun c => (t.dc c).prev = none).foldl (configCondClearNode t n) caches
      clearNext (configCondClearNode t n) caches (t.dc i).next
    else caches

def resetNode (t : Tree) (item : Comp) (caches : Nat → CondCache) (i : Nat) : Nat → CondCache :=
  if item = (t.dc i).comp then
    configCondClearNode t t.used (Function.update caches i { caches i with localResult := .unset }) i
  else caches

def configCondCacheResetItem (t : Tree) (con : Con) (item : Comp) : Con :=
  { con with caches := (List.range t.used).foldl (resetNode t item) con.caches }

def configCondCacheReset (con : Con) : Con :=
  { con with
    caches := fun i => { (con.caches i).wipe with localResult := .unset }
    valid := fun _ => false }

/-- `config_append_cond_match_buffer`: what is appended, `none` when it returns `0`. -/
def configAppendCondMatchBuffer (con : Con) (i n : Nat) : Option Bytes :=
  let cache := con.caches i
  if (n : Int) ≥ cache.patterncount then none
  else
    let start := cache.matchOffsets.getD (2 * n) 0
    some (((cache.compValue.map con.deref).getD [] |>.drop start.toNat).take
      (cache.matchOffsets.getD (2 * n + 1) 0 - start).toNat)

/-! ## Changes of the connection -/

/-- A change of what the conditions of one kind look at. The socket of a connection keeps its port. -/
inductive Change
  | socket (srvToken : Buffer)
  | url (path : Buffer)
  | host (authority tlsextServerName : Buffer)
  | referer (value : Option Buffer)
  | userAgent (value : Option Buffer)
  | language (value : Option Buffer)
  | cookie (value : Option Buffer)
  | remoteIp (dstAddr : SockAddr) (dstAddrBuf : Buffer)
  | queryString (query : Buffer)
  | scheme (value : Buffer)
  | requestMethod (method : Bytes)

namespace Change

/-- The conditions that look at it. -/
def item : Change → Comp
  | socket _ => .serverSocket
  | url _ => .httpUrl
  | host _ _ => .httpHost
  | referer _ => .httpReferer
  | userAgent _ => .httpUserAgent
  | language _ => .httpLanguage
  | cookie _ => .httpCookie
  | remoteIp _ _ => .httpRemoteIp
  | queryString _ => .httpQueryString
  | scheme _ => .httpScheme
  | requestMethod _ => .httpRequestMethod

def apply (f : Fields) : Change → Fields
  | socket srvToken => { f with srvToken }
  | url path => { f with path }
  | host authority tlsextServerName => { f with authority, tlsextServerName }
  | referer value => { f with referer := value }
  | userAgent value => { f with userAgent := value }
  | language value => { f with acceptLanguage := value }
  | cookie value => { f with cookie := value }
  | remoteIp dstAddr dstAddrBuf => { f with dstAddr, dstAddrBuf }
  | queryString query => { f with query }
  | scheme value => { f with scheme := value }
  | requestMethod method => { f with method }

end Change

/-- What happens to the conditions of a connection. -/
inductive Op
  | checkCond (i : Nat)
  | setValid (c : Comp) (v : Bool)
  | change (ch : Change)
  | resetItem (item : Comp)
  | reset
  | writeTmpBuf (s : Bytes)

/-- One step: a change of the fields is followed by the reset of that item, and other code writes to `srv->tmp_buf`. -/
def condStep (env : Env) (t : Tree) (con : Con) : Op → Option Con
  | .checkCond i => if i < t.used then some (configCheckCond env t con i).2 else none
  | .setValid c v => some { con with valid := Function.update con.valid c v }
  | .change ch => some (configCondCacheResetItem t { con with fields := ch.apply con.fields } ch.item)
  | .resetItem item => some (configCondCacheResetItem t con item)
  | .reset => some (configCondCacheReset con)
  | .writeTmpBuf s => some { con with tmpBuf := s }

def Con.init (f : Fields) : Con := ⟨f, fun _ => false, fun _ => {}, [], []⟩

end Lighttpd.Config
