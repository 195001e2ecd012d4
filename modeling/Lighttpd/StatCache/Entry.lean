import Lighttpd.Base.Itostr
import Lighttpd.Lib.SplayTree
import Mathlib.Order.Nat

/-!
# The stat cache (`stat_cache.c`, `splaytree.c`)

The cache of the engine `simple`: a splay tree whose keys are hash values of names. Names with the same hash value take
each other's place.

What the file system answers during a lookup is a parameter of the lookup. A failed `force_assert` is `none`.
-/

namespace Lighttpd.StatCache

open SplayTree

/-! ## `splaytree.c` -/

/-- `splay_tree`. A key is a hash value without its highest bit, so that `compare` does not overflow. -/
abbrev SplayTree (ν : Type) := Tree Nat ν

def splaytreeSplay {ν : Type} (t : SplayTree ν) (i : Nat) : SplayTree ν := splay t i

def splaytreeInsert {ν : Type} (t : SplayTree ν) (i : Nat) (data : ν) : SplayTree ν := insert t i data

def splaytreeDelete {ν : Type} (t : SplayTree ν) (i : Nat) : SplayTree ν := delete t i

def rootData {ν : Type} (t : SplayTree ν) (i : Nat) : Option ν :=
  match t with
  | .nil => none
  | .node _ k _ d _ => if k = i then some d else none

def setData {ν : Type} (t : SplayTree ν) (data : ν) : Option (SplayTree ν) :=
  match t with
  | .nil => none
  | .node l k s _ r => some (.node l k s data r)

/-! ## Entries -/

structure Stat where
  isReg : Bool
  isDir : Bool
  ino : Int
  size : Int
  mtime : Int
deriving DecidableEq

/-- `stat_cache_entry`. -/
structure Entry where
  name : Bytes
  etag : Bytes
  contentType : Bytes
  st : Stat
  statTs : Int
  isSymlink : Bool
deriving DecidableEq

/-- What the file system answers: `stat`, `open` for reading, and whether `lstat` finds a symbolic link. -/
structure FileSystem where
  stat : Bytes → Option Stat
  openRdonly : Bytes → Bool
  lstat : Bytes → Option Bool

structure EtagFlags where
  inode : Bool
  size : Bool
  mtime : Bool

/-- What a lookup uses of the connection. The key of a mimetype is `none` when its buffer is empty. -/
structure Conf where
  followSymlink : Bool
  mimetypes : List (Option Bytes × Bytes)
  etagFlags : EtagFlags

/-- The loop of `hashme`. A `char` is signed. -/
def hashFrom : Nat → Bytes → Nat
  | hash, [] => hash
  | hash, c :: s =>
    let c := if c < 128 then c.toNat else 2 ^ 32 - 256 + c.toNat
    hashFrom ((hash * 33 + c) % 2 ^ 32) s

def hashme (str : Bytes) : Nat := hashFrom 5381 (cstr str) % 2 ^ 31

/-- The hash value of a name, for the two settings of `follow_symlink`. -/
def fileNdx (name : Bytes) (followSymlink : Bool) : Nat :=
  hashme (name ++ liItostrn (if followSymlink then 1 else 0))

def etagCreate (etag : Bytes) (st : Stat) (flags : EtagFlags) : Bytes :=
  if !flags.inode && !flags.size && !flags.mtime then etag
  else (if flags.inode then liItostrn st.ino ++ ascii "-" else []) ++
    (if flags.size then liItostrn st.size ++ ascii "-" else []) ++ if flags.mtime then liItostrn st.mtime else []

def contentTypeOf (mimetypes : List (Option Bytes × Bytes)) (name : Bytes) : Bytes :=
  match mimetypes.find? fun m => m.1.any fun type =>
    type.length ≤ name.length && (name.drop (name.length - type.length)).map toLower == type.map toLower with
  | some m => m.2
  | none => []

def beforeSlash (name : Bytes) : Option Bytes :=
  match name.reverse.dropWhile (· ≠ chr '/') with
  | [] => none
  | _ :: dir => some dir.reverse

/-- One of the directories above a name is a symbolic link. The first argument bounds their number. -/
def symlinkAbove (fs : FileSystem) : Nat → Bytes → Bool
  | 0, _ => false
  | fuel + 1, dname =>
    match beforeSlash dname with
    | none => false
    | some [] => false
    | some dname => if fs.lstat dname = some true then true else symlinkAbove fs fuel dname

def isSymlink (fs : FileSystem) (conf : Conf) (name : Bytes) : Bool :=
  if conf.followSymlink then false
  else if fs.lstat (cstr name) = some true then true
  else if 1 < name.length then symlinkAbove fs name.length (cstr name)
  else false

def refresh (fs : FileSystem) (conf : Conf) (name : Bytes) (st : Stat) (curTs : Int) (sce : Entry) : Entry :=
  let sce := { sce with st := st, statTs := curTs, isSymlink := isSymlink fs conf name }
  if st.isReg then
    { sce with contentType := contentTypeOf conf.mimetypes name, etag := etagCreate sce.etag st conf.etagFlags }
  else if st.isDir then { sce with etag := etagCreate sce.etag st conf.etagFlags }
  else sce

/-! ## The cache -/

/-- The cache, and `srv->cur_ts`. -/
structure State where
  files : SplayTree Entry
  curTs : Int

def State.init (curTs : Int) : State := ⟨.nil, curTs⟩

/-- `handler_t`, with `*ret_sce`. -/
inductive Outcome where
  | goOn (sce : Entry)
  | error

/-- `stat` and `open` succeed. -/
def checkFile (fs : FileSystem) (name : Bytes) : Option Stat := do
  let st ← fs.stat (cstr name)
  if st.isReg then
    if name.getLast? = some (chr '/') then none
    else if fs.openRdonly (cstr name) then some st
    else none
  else some st

/-- `stat_cache_entry_init`, with the name. -/
def newEntry (name : Bytes) : Entry := ⟨name, [], [], ⟨false, false, 0, 0, 0⟩, 0, false⟩

def placeEntry (files : SplayTree Entry) (ndx : Nat) (name : Bytes) (sce : Option Entry) :
    Option (Entry × SplayTree Entry) :=
  match sce with
  | some sce => some (sce, files)
  | none =>
    let sce := newEntry name
    match rootData files ndx with
    | some _ => (setData files sce).map fun files => (sce, files)
    | none =>
      let files' := splaytreeInsert files ndx sce
      if files.size + 1 = files'.size then some (sce, files') else none

def getEntry (fs : FileSystem) (conf : Conf) (name : Bytes) (s : State) : Option (Outcome × State) :=
  let ndx := fileNdx name conf.followSymlink
  let files := splaytreeSplay s.files ndx
  -- a collision: forget about the entry
  let sce := (rootData files ndx).filter fun sce => sce.name == name
  if sce.any (fun sce => sce.statTs == s.curTs) && conf.followSymlink then
    sce.map fun sce => (.goOn sce, { s with files := files })
  else
    match checkFile fs name with
    | none => some (.error, { s with files := files })
    | some st => do
      let (sce, files) ← placeEntry files ndx name sce
      let sce := refresh fs conf name st s.curTs sce
      let files ← setData files sce
      some (.goOn sce, { s with files := files })

/-- `stat_cache_tag_old_entries`: the keys in the order in which they are collected. -/
def tagOldEntries (curTs : Int) : SplayTree Entry → List Nat
  | .nil => []
  | .node l k _ sce r =>
    tagOldEntries curTs l ++ tagOldEntries curTs r ++ if curTs - sce.statTs > 2 then [k] else []

def removeKey (files : SplayTree Entry) (ndx : Nat) : SplayTree Entry :=
  let files := splaytreeSplay files ndx
  match rootData files ndx with
  | some _ => splaytreeDelete files ndx
  | none => files

/-- `stat_cache_trigger_cleanup`. The array for the keys has as many elements as the size of the tree says. -/
def triggerCleanup (s : State) : Option State :=
  let keys := tagOldEntries s.curTs s.files
  if (keys.length : Int) ≤ s.files.size then some { s with files := keys.foldl removeKey s.files } else none

/-- What happens to the cache. -/
inductive Op where
  | getEntry (fs : FileSystem) (conf : Conf) (name : Bytes)
  | cleanup
  | advance (seconds : Nat)

def step (s : State) : Op → Option State
  | .getEntry fs conf name => (getEntry fs conf name s).map fun r => r.2
  | .cleanup => triggerCleanup s
  | .advance n => some { s with curTs := s.curTs + n }

/-- **The lookups of a run** that begins in the second `curTs`: the second, the file system and the name of each. -/
def lookups (curTs : Int) : List Op → List (Int × FileSystem × Bytes)
  | [] => []
  | .getEntry fs _ name :: ops => (curTs, fs, name) :: lookups curTs ops
  | .cleanup :: ops => lookups curTs ops
  | .advance n :: ops => lookups (curTs + n) ops

end Lighttpd.StatCache
