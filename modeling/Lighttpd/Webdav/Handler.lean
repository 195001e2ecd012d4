import Lighttpd.Base.Strtol
import Lighttpd.Lib.LockTable
import Lighttpd.Lib.Occurrence
import Lighttpd.Uri.Path
import Lighttpd.Webdav.Copy

/-!
# The handler of WebDAV requests (`mod_webdav.c`)

The methods that set and remove locks and those that have to respect them, in a build with `USE_LOCKS` and with a
database. A call of the handler is one step. What the file system, `libxml` and `uuid_generate` answer, and the answer of
`connection_handle_read_post_state`, are a part of the request.

The buffers `p->uri` are shared by all connections: `p->uri.path` keeps what the last COPY or MOVE has left. Its pointer is
`none` before the first one. A lock is never removed because of its timeout, which is left out, as are the contents of a
PROPPATCH and the text of an answer.
-/

namespace Lighttpd.Webdav

/-! ## The table of locks -/

/-- A row of `locks`. -/
structure Lock where
  locktoken : Bytes
  resource : Bytes
  lockscope : Bytes
  locktype : Bytes
  depth : Int
deriving DecidableEq

/-- The table of locks, and `p->uri.path`. -/
structure State where
  locks : List Lock
  uriPath : Option Bytes
deriving DecidableEq

/-- The server starts, with a new table. -/
def State.init : State := ⟨[], none⟩

/-- `stmt_create_lock`: `locktoken` is the primary key. -/
def State.createLock (s : State) (l : Lock) : State :=
  if s.locks.any fun l' => l'.locktoken == l.locktoken then s else { s with locks := s.locks ++ [l] }

def State.removeLock (s : State) (token : Bytes) : State :=
  { s with locks := s.locks.filter fun l => l.locktoken ≠ token }

/-- `stmt_read_lock_by_uri`. There is no row for a `NULL`. -/
def State.readLockByUri (s : State) (uri : Option Bytes) : List Lock := s.locks.filter fun l => some l.resource == uri

def hasLock (s : State) (hdrIf : Option Bytes) (uri : Option Bytes) : Bool :=
  match hdrIf with
  | some _ => true
  | none => (s.readLockByUri uri).isEmpty

/-- What the handler returns: `HANDLER_FINISHED` with the status, which may not have been set, or anything else. -/
inductive Answer where
  | finished (status : Nat)
  | other
deriving DecidableEq

/-! ## LOCK -/

/-- A LOCK. A document of `libxml` is the name of its root, and the names of the children with those of their children;
there is none if the body is not well-formed. -/
structure LockReq where
  uriPath : Bytes
  hdrIf : Option Bytes
  depth : Int
  contentLength : Nat
  readPostGoOn : Bool
  stat : Except Errno Bool
  opens : Bool
  xml : Option (Bytes × List (Bytes × List Bytes))
  uuid : Bytes

/-- The children of `lockscope` or `locktype`: the last one of the names that are allowed. -/
def lockValue (allowed : List Bytes) (value : Option Bytes) : List Bytes → Except Answer (Option Bytes)
  | [] => .ok value
  | name :: names => if name ∈ allowed then lockValue allowed (some name) names else .error (.finished 400)

def lockInfo (scope type : Option Bytes) : List (Bytes × List Bytes) → Except Answer (Option Bytes × Option Bytes)
  | [] => .ok (scope, type)
  | (name, values) :: rest =>
    if name = ascii "lockscope" then
      match lockValue [ascii "exclusive", ascii "shared"] scope values with
      | .error a => .error a
      | .ok scope => lockInfo scope type rest
    else if name = ascii "locktype" then
      match lockValue [ascii "write"] type values with
      | .error a => .error a
      | .ok type => lockInfo scope type rest
    else lockInfo scope type rest

def lockFile (r : LockReq) : Except Answer Bool :=
  match r.stat with
  | .error .enoent => if r.opens then .ok true else .error (.finished 403)
  | .error _ => .ok false
  | .ok isDir => if r.hdrIf.isNone ∧ r.depth = -1 ∧ isDir then .error (.finished 409) else .ok false

/-- What a LOCK with a body asks for: whether the file has been created, the scope and the type. -/
def lockWanted (r : LockReq) : Except Answer (Bool × Bytes × Bytes) :=
  if !r.readPostGoOn then .error .other
  else
    match lockFile r with
    | .error a => .error a
    | .ok created =>
      match r.xml with
      | none => .error (.finished 400)
      | some (root, children) =>
        if root ≠ ascii "lockinfo" then .error (.finished 0)
        else
          match lockInfo none none children with
          | .error a => .error a
          | .ok (some scope, some type) => .ok (created, scope, type)
          | .ok _ => .error (.finished 0)

/-- "is this resource already locked?": a row of the resource in `p->uri.path` is not compatible. -/
def State.refuses (s : State) (scope : Bytes) : Bool :=
  (s.readLockByUri s.uriPath).any fun l => l.lockscope ≠ ascii "exclusive" || scope == ascii "exclusive"

def lockToken (uuid : Bytes) : Bytes := ascii "opaquelocktoken:" ++ uuid

/-- LOCK. A refresh changes the timeout only. -/
def lock (s : State) (r : LockReq) : Answer × State :=
  if r.depth ≠ 0 ∧ r.depth ≠ -1 then (.finished 400, s)
  else if r.contentLength ≠ 0 then
    match lockWanted r with
    | .error a => (a, s)
    | .ok (created, scope, type) =>
      if s.refuses scope then (.finished 423, s)
      else
        (.finished (if created then 201 else 200), s.createLock ⟨lockToken r.uuid, r.uriPath, scope, type, r.depth⟩)
  else
    match r.hdrIf with
    | none => (.finished 400, s)
    | some token => if token.length < 5 then (.finished 400, s) else (.finished 200, s)

/-! ## UNLOCK -/

def unlock (s : State) (lockTokenField : Option Bytes) : Answer × State :=
  match lockTokenField with
  | none => (.finished 400, s)
  | some value =>
    if value.length < 3 then (.finished 400, s)
    else
      let token := (value.drop 1).take (value.length - 2)
      (.finished (if s.locks.any fun l => l.locktoken == token then 204 else 401), s.removeLock token)

/-! ## DELETE -/

/-- A DELETE of a node. -/
structure DeleteReq where
  uriPath : Bytes
  hdrIf : Option Bytes
  isReadonly : Bool
  endsWithSlash : Bool
  env : Env
  node : Option Node

/-- The status when `unlink` or `rmdir` fails. -/
def removeStatus : Errno → Nat
  | .eperm => 403
  | .enoent => 404
  | _ => 501

def delete (s : State) (r : DeleteReq) : Answer :=
  if r.isReadonly then .finished 403
  else if !hasLock s r.hdrIf (some r.uriPath) then .finished 423
  else
    match statSlot (r.env.pattern.fails (.statSource [])) (.entry r.node) with
    | .error .enoent => .finished 404
    | .error _ => .finished 403
    | .ok (.dir entries) =>
      if !r.endsWithSlash then .finished 301
      else
        let (multi, rest) := deleteDir r.env true entries
        if multi then .finished 207
        else
          match r.env.pattern.fails (.rmdir []), rest with
          | some e, _ => .finished (removeStatus e)
          | none, .nil => .finished 204
          | none, _ => .finished 501
    | .ok (.file _) =>
      match r.env.pattern.fails (.unlink []) with
      | some e => .finished (removeStatus e)
      | none => .finished 204

/-! ## PUT -/

/-- A call for a PUT. `bytesIn` is what has been read of the body before; `writeError` is what the first failing `write`
says; a failure to read the body from its temporary file, or to close the file, is `broken`. -/
structure PutReq where
  uriPath : Bytes
  hdrIf : Option Bytes
  isReadonly : Bool
  bytesIn : Nat
  readPostGoOn : Bool
  contentRange : Option Bytes
  openExisting : Option Errno
  openNew : Option Errno
  lseekFails : Bool
  writeError : Option Errno
  broken : Bool

def rangeOffset (value : Bytes) : Option Int :=
  let num := cstr value
  if !(ascii "bytes ").isPrefixOf num then none
  else
    let num := (num.drop 6).dropWhile fun c => c == chr ' ' || c == chr '\t'
    if num.isEmpty then none
    else
      let (offset, err) := strtol 10 num
      if err.head? ≠ some (chr '-') ∨ offset < 0 then none else some offset

/-- The file that is written: the status, or one of an error. -/
def putOpen (r : PutReq) : Except Nat Nat :=
  match r.contentRange with
  | some value =>
    match rangeOffset value with
    | none => .error 501
    | some _ =>
      match r.openExisting with
      | some .enoent => .error 404
      | some _ => .error 403
      | none => if r.lseekFails then .error 501 else .ok 200
  | none =>
    match r.openExisting with
    | none => .ok 200
    | some e => if e ≠ .enoent ∨ r.openNew.isSome then .error 403 else .ok 201

def put (s : State) (r : PutReq) : Answer :=
  if r.isReadonly then .finished 403
  else if r.bytesIn = 0 ∧ hasLock s r.hdrIf (some r.uriPath) = false then .finished 423
  else if !r.readPostGoOn then .other
  else
    match putOpen r with
    | .error status => .finished status
    | .ok status =>
      if r.broken then .other
      else
        match r.writeError with
        | some .enospc => .finished 507
        | some _ => .finished 403
        | none => .finished status

/-! ## PROPPATCH -/

/-- A PROPPATCH. Of the document there is the name of its root, and whether a property lacks its name space. -/
structure PropPatchReq where
  uriPath : Bytes
  hdrIf : Option Bytes
  isReadonly : Bool
  endsWithSlash : Bool
  isDir : Bool
  contentLength : Nat
  readPostGoOn : Bool
  xml : Option (Bytes × Bool)
  begins : Bool
  ends : Bool

def propPatch (s : State) (r : PropPatchReq) : Answer :=
  if r.isReadonly then .finished 403
  else if !hasLock s r.hdrIf (some r.uriPath) then .finished 423
  else if r.isDir ∧ !r.endsWithSlash then .finished 301
  else if r.contentLength ≠ 0 then
    if !r.readPostGoOn then .other
    else
      match r.xml with
      | none => .finished 400
      | some (root, emptyNs) =>
        if root = ascii "propertyupdate" ∧ r.begins ∧ r.ends then .finished (if emptyNs then 400 else 200)
        else .finished 501
  else .finished 501

/-! ## MOVE and COPY -/

/-- A MOVE or a COPY, with the physical paths of its source and of its destination. There is no authority if the request has no
host. -/
structure MoveReq where
  isMove : Bool
  uriPath : Bytes
  uriAuthority : Option Bytes
  hdrIf : Option Bytes
  isReadonly : Bool
  destination : Option Bytes
  hdrOverwrite : Option Bytes
  source : Path
  endsWithSlash : Bool
  dest : Path
  pattern : Pattern
  fs : Slot

/-- `strstr`: what stands before the needle, and behind. -/
def strstr (s needle : Bytes) : Option (Bytes × Bytes) :=
  (Occurrence.firstEnd needle s).map fun n => (s.take (n - needle.length), s.drop n)

/-- The authority and the path of a field `Destination`. -/
def parseDestination (destination : Bytes) : Option (Bytes × Bytes) := do
  let (_, start) ← strstr (cstr destination) (ascii "://")
  let sep ← start.idxOf? (chr '/')
  -- the login information is skipped
  let authority :=
    match (start.take sep).idxOf? (chr '@') with
    | some n => (start.take sep).drop (n + 1)
    | none => start.take sep
  let start := start.drop (sep + 1)
  some (authority, start.takeWhile (· ≠ chr '?'))

/-- The length of the common prefix of two paths. -/
def commonPrefix : Bytes → Bytes → Nat
  | c :: s, d :: t => if c = d then commonPrefix s t + 1 else 0
  | _, _ => 0

/-- The destination is the source, or below it. -/
def nested (src dst : Bytes) : Bool :=
  let i := commonPrefix src dst
  i = src.length && (i = dst.length || dst[i]? = some (chr '/') || (0 < i && src[i - 1]? = some (chr '/')))

def parseOverwrite (value : Option Bytes) : Option Bool :=
  match value with
  | none => some true
  | some value => if value = ascii "F" then some false else if value = ascii "T" then some true else none

def move (s : State) (r : MoveReq) : Answer × State :=
  if r.isReadonly then (.finished 403, s)
  else if r.isMove ∧ hasLock s r.hdrIf (some r.uriPath) = false then (.finished 423, s)
  else
    match r.destination, parseOverwrite r.hdrOverwrite with
    | none, _ => (.finished 400, s)
    | some _, none => (.finished 400, s)
    | some destination, some overwrite =>
      match parseDestination destination with
      | none => (.finished 400, s)
      | some (authority, pathRaw) =>
        if some authority ≠ r.uriAuthority then (.finished 502, s)
        else
          let path := Uri.pathSimplify (Uri.urldecodePath pathRaw)
          let s := { s with uriPath := some path }
          if nested (cstr r.uriPath) (cstr path) then (.finished 403, s)
          else
            let locked := hasLock s r.hdrIf s.uriPath
            let destSlash := path.getLast? = some (chr '/')
            let req : Request := ⟨r.isMove, r.source, r.endsWithSlash, r.dest, destSlash, locked, true⟩
            (.finished (transfer ⟨r.pattern, overwrite, true⟩ req r.fs).status, s)

/-! ## Steps -/

/-- The requests, and a restart of the server. -/
inductive Op where
  | lock (r : LockReq)
  | unlock (lockTokenField : Option Bytes)
  | delete (r : DeleteReq)
  | put (r : PutReq)
  | propPatch (r : PropPatchReq)
  | move (r : MoveReq)
  | restart

def handle (s : State) : Op → Answer × State
  | .lock r => Webdav.lock s r
  | .unlock field => Webdav.unlock s field
  | .delete r => (Webdav.delete s r, s)
  | .put r => (Webdav.put s r, s)
  | .propPatch r => (Webdav.propPatch s r, s)
  | .move r => Webdav.move s r
  | .restart => (.other, { s with uriPath := none })

def step (s : State) (op : Op) : Option State := some (handle s op).2

end Lighttpd.Webdav
