import Lighttpd.Base.Ascii
import Lighttpd.Lib.FileTree

/-!
# Copying and deleting trees of files (`mod_webdav.c`)

`webdav_copy_file`, `webdav_copy_dir`, `webdav_delete_dir`, and the part of the handler of MOVE and COPY from the comparison
of the two URIs on. There is one file system: the source and the destination are two paths in it, one of which may be above
the other.

A system call fails when the pattern says so, and otherwise for the reasons that the file system gives. The calls of one
request are told apart by the path below the source. What is read and written of the table of properties, and the text of a
multistatus answer, which MOVE throws away, are left out.
-/

namespace Lighttpd.Webdav

open FileTree

abbrev Name := Bytes
abbrev Path := List Name
abbrev Entries := FileTree.Entries Name Bytes
abbrev Node := FileTree.Node Name Bytes
abbrev Slot := FileTree.Slot Name Bytes

/-! ## System calls -/

/-- The values of `errno` that are told apart. -/
inductive Errno where
  | eacces
  | eperm
  | eexist
  | eisdir
  | enoent
  | enotdir
  | enospc
  | eintr
  | other
deriving DecidableEq

/-- The system calls of a request that are made for a path below the source, or for the corresponding one below the
destination. -/
inductive Call where
  | statSource (p : Path)
  | statDest (p : Path)
  | opendir (p : Path)
  | mkdir (p : Path)
  | openSource (p : Path)
  | openDest (p : Path)
  | closeDest (p : Path)
  | rename
  | unlinkDest
  | deleteOpendir (p : Path)
  | deleteStat (p : Path)
  | unlink (p : Path)
  | rmdir (p : Path)
deriving DecidableEq

/-- What a `read` or a `write` does: at most so many bytes, or it fails. -/
inductive Io where
  | upTo (n : Nat)
  | fail (e : Errno)
deriving DecidableEq

/-- The pattern of failures. Reads and writes behind the end of a list are complete. -/
structure Pattern where
  fails : Call → Option Errno
  io : Path → List Io

/-- What does not change during a request. -/
structure Env where
  pattern : Pattern
  overwrite : Bool
  usePropPatch : Bool

def Env.failing (e : Env) (c : Call) : Bool := (e.pattern.fails c).isSome

/-- Why there is no directory. -/
def errnoOf : NoDir → Errno
  | .noEntry => .enoent
  | .notDir => .enotdir

def statSlot (inj : Option Errno) (s : Slot) : Except Errno Node :=
  match inj, s with
  | some e, _ => .error e
  | none, .noDir why => .error (errnoOf why)
  | none, .entry none => .error .enoent
  | none, .entry (some k) => .ok k

def mkdirSlot (inj : Option Errno) (s : Slot) : Option Errno × Slot :=
  match inj, s with
  | some e, s => (some e, s)
  | none, .noDir why => (some (errnoOf why), s)
  | none, .entry none => (none, .entry (some (.dir .nil)))
  | none, .entry (some _) => (some .eexist, s)

abbrev Env.mkdir (e : Env) (q : Path) (s : Slot) : Option Errno × Slot := mkdirSlot (e.pattern.fails (.mkdir q)) s

/-- `open` with `O_WRONLY|O_TRUNC|O_CREAT`, and with `O_EXCL` if nothing is overwritten. -/
def openSlot (inj : Option Errno) (overwrite : Bool) (s : Slot) : Except Errno Slot :=
  match inj, s with
  | some e, _ => .error e
  | none, .noDir why => .error (errnoOf why)
  | none, .entry none => .ok (.entry (some (.file [])))
  | none, .entry (some k) =>
    if !overwrite then .error .eexist
    else
      match k with
      | .file _ => .ok (.entry (some (.file [])))
      | .dir _ => .error .eisdir

/-- `read` of what is left of a file: nothing at its end. -/
def readSome (rest : Bytes) : List Io → Except Errno Bytes × List Io
  | [] => (.ok (rest.take 131072), [])
  | .upTo n :: io => (.ok (rest.take (min (n + 1) 131072)), io)
  | .fail e :: io => (.error e, io)

/-- The loop around `write`: an error, and what has been written. -/
def writeAll (data : Bytes) : List Io → Option Errno × Bytes × List Io
  | [] => (none, data, [])
  | .upTo n :: io =>
    if data.length ≤ n then (none, data, io)
    else
      let (err, written, io) := writeAll (data.drop n) io
      (err, data.take n ++ written, io)
  | .fail e :: io => if e = .eintr then writeAll data io else (some e, [], io)

/-! ## `webdav_copy_file` -/

/-- The loop around `read`: the status, and what has been written. -/
def copyLoop : Nat → Bytes → List Io → Nat × Bytes
  | 0, _, _ => (403, [])
  | fuel + 1, rest, io =>
    match readSome rest io with
    | (.error _, _) => (403, [])
    | (.ok [], _) => (0, [])
    | (.ok data, io) =>
      match writeAll data io with
      | (some e, written, _) => (if e = .enospc then 507 else 403, written)
      | (none, written, io) =>
        let (status, more) := copyLoop fuel (rest.drop data.length) io
        (status, written ++ more)

def openStatus : Errno → Nat
  | .eexist => 412
  | .eisdir => 409
  | .enoent => 409
  | _ => 403

/-- What is read of a file that is copied: the status, and what has been written. -/
def copyContent (e : Env) (q : Path) (content : Bytes) : Nat × Bytes :=
  let (status, written) := copyLoop (content.length + 1) content (e.pattern.io q)
  match e.pattern.fails (.closeDest q) with
  | some errno => (if status = 0 then if errno = .enospc then 507 else 403 else status, written)
  | none => (status, written)

/-- The content of a file that is open. -/
def contentOf : Option Node → Bytes
  | some (.file content) => content
  | _ => []

/-- `webdav_copy_file` of a file: the status, and the file system. -/
def copyFile (e : Env) (q src dst : Path) (fs : Slot) : Nat × Slot :=
  if e.failing (.openSource q) then (403, fs)
  else
    match openSlot (e.pattern.fails (.openDest q)) e.overwrite (fs.lookup dst) with
    | .error errno => (openStatus errno, fs)
    | .ok s =>
      -- the source is read when the destination is empty
      let fs := fs.update dst s
      let (status, written) := copyContent e q (contentOf (fs.get src))
      (status, fs.update dst (.entry (some (.file written))))

/-! ## `webdav_copy_dir` -/

/-- `mkdir` has neither made a directory nor found something that has the name. -/
def mkdirFailed (err : Option Errno) : Bool := err ≠ none && err ≠ some .eexist

/-- The loop of `webdav_copy_dir` over the names that `readdir` gives; `copy` copies a directory below. -/
def copyNames (e : Env) (src dst : Path) (copy : Path → Slot → Nat × Slot) (q : Path) : List Name → Slot → Nat × Slot
  | [], fs => (0, fs)
  | n :: names, fs =>
    match statSlot (e.pattern.fails (.statSource (q ++ [n]))) (fs.lookup (src ++ (q ++ [n]))) with
    | .error _ => copyNames e src dst copy q names fs
    | .ok (.dir _) =>
      let (err, s) := e.mkdir (q ++ [n]) (fs.lookup (dst ++ (q ++ [n])))
      let fs := fs.update (dst ++ (q ++ [n])) s
      if mkdirFailed err then copyNames e src dst copy q names fs
      else if !e.usePropPatch then copyNames e src dst copy q names fs
      else
        let (status, fs) := copy (q ++ [n]) fs
        if status ≠ 0 then (status, fs) else copyNames e src dst copy q names fs
    | .ok (.file _) =>
      let (status, fs) := copyFile e (q ++ [n]) (src ++ (q ++ [n])) (dst ++ (q ++ [n])) fs
      if status ≠ 0 then (status, fs) else copyNames e src dst copy q names fs

/-- `webdav_copy_dir` of the directory `q` below the source. The first number is more than the directories that stand in
one another below the source: a copy never has more of them. What is made later is not among the names. -/
def copyDir (e : Env) (src dst : Path) : Nat → Path → Slot → Nat × Slot
  | 0, _, fs => (0, fs)
  | depth + 1, q, fs =>
    if e.failing (.opendir q) then (0, fs)
    else
      match fs.get (src ++ q) with
      | some (.dir entries) => copyNames e src dst (fun p fs => copyDir e src dst depth p fs) q entries.names fs
      | _ => (0, fs)

/-! ## `webdav_delete_dir` -/

/-- `webdav_delete_file`: whether it has a status, and whether the file is deleted. -/
def deleteFile (e : Env) (q : Path) (hasStmt : Bool) : Bool × Bool :=
  if e.failing (.unlink q) then (true, false) else (e.usePropPatch && !hasStmt, true)

/-- The loop of `webdav_delete_dir`: `have_multi_status`, and what is left. -/
def deleteEntries (e : Env) (hasStmt : Bool) : Path → Bool → Entries → Bool × Entries
  | _, multi, .nil => (multi, .nil)
  | q, multi, .file n content rest =>
    if e.failing (.deleteStat (q ++ [n])) then
      let (multi, rest) := deleteEntries e hasStmt q multi rest
      (multi, .file n content rest)
    else
      let (multi, gone) := deleteFile e (q ++ [n]) hasStmt
      let (multi, rest) := deleteEntries e hasStmt q multi rest
      (multi, if gone then rest else .file n content rest)
  | q, multi, .dir n entries rest =>
    if e.failing (.deleteStat (q ++ [n])) then
      let (multi, rest) := deleteEntries e hasStmt q multi rest
      (multi, .dir n entries rest)
    else
      let (multi, entries) :=
        if e.failing (.deleteOpendir (q ++ [n])) then (false, entries)
        else deleteEntries e hasStmt (q ++ [n]) false entries
      -- a directory that is not empty stays
      let stays := e.failing (.rmdir (q ++ [n])) || match entries with | .nil => false | _ => true
      let (multi, rest) := deleteEntries e hasStmt q (multi || stays) rest
      (multi, if stays then .dir n entries rest else rest)

def deleteDir (e : Env) (hasStmt : Bool) (entries : Entries) : Bool × Entries :=
  if e.failing (.deleteOpendir []) then (false, entries) else deleteEntries e hasStmt [] false entries

def rmdirSource (e : Env) (entries : Entries) : Option Node :=
  match entries with
  | .nil => if e.failing (.rmdir []) then some (.dir .nil) else none
  | entries => some (.dir entries)

/-! ## The handler of MOVE and COPY -/

/-- What the handler knows of the request: whether it is a MOVE, the paths of the source and of the destination with the
slashes at their ends, whether there is no lock in the way, and whether there is a table of properties. -/
structure Request where
  isMove : Bool
  source : Path
  endsWithSlash : Bool
  dest : Path
  destEndsWithSlash : Bool
  hasLock : Bool
  hasStmt : Bool

/-- The URI of the destination is that of the source, or goes on behind it with a slash. Both are compared name by name; only
the root has a slash in any case. -/
def Request.nested (r : Request) : Bool :=
  r.source.isPrefixOf r.dest && (!r.endsWithSlash || r.destEndsWithSlash || r.source = [] || r.source ≠ r.dest)

/-- The name of the source, which is appended to a destination that is a directory. -/
def Request.inside (r : Request) : Path := r.dest ++ r.source.getLast?.toList

/-- The status, and the file system afterwards. -/
structure Result where
  status : Nat
  fs : Slot
deriving DecidableEq

/-- The directory into which a directory is copied is made if there is none: whether it has been created, or a status. -/
def destDir (e : Env) (dst : Slot) : Except Nat Bool × Slot :=
  match statSlot (e.pattern.fails (.statDest [])) dst with
  | .error _ =>
    match e.mkdir [] dst with
    | (some _, dst) => (.error 403, dst)
    | (none, dst) => (.ok true, dst)
  | .ok (.dir _) => (.ok false, dst)
  | .ok (.file _) =>
    if !e.overwrite then (.error 409, dst)
    else
      let dst := if e.failing .unlinkDest then dst else .entry none
      match e.mkdir [] dst with
      | (some _, dst) => (.error 403, dst)
      | (none, dst) => (.ok true, dst)

def removeSource (e : Env) (r : Request) (fs : Slot) : Slot :=
  match fs.get r.source with
  | some (.dir entries) => fs.update r.source (.entry (rmdirSource e (deleteDir e r.hasStmt entries).2))
  | _ => fs

def moveDir (e : Env) (r : Request) (entries : Entries) (fs : Slot) : Result :=
  if !r.endsWithSlash then ⟨301, fs⟩
  else
    match destDir e (fs.lookup r.dest) with
    | (.error status, s) => ⟨status, fs.update r.dest s⟩
    | (.ok created, s) =>
      let (status, fs) := copyDir e r.source r.dest (entries.height + 1) [] (fs.update r.dest s)
      if status ≠ 0 then ⟨status, fs⟩
      else ⟨if created then 201 else 204, if r.isMove then removeSource e r fs else fs⟩

/-- `rename` of a file; to its own path it does nothing. -/
def renameTo (inj : Option Errno) (src dst : Path) (fs : Slot) : Option Slot :=
  match inj with
  | some _ => none
  | none =>
    if src = dst then some fs
    else
      match fs.lookup dst with
      | .noDir _ => none
      | .entry (some (.dir _)) => none
      | .entry _ => some ((fs.update dst (fs.lookup src)).update src (.entry none))

def moveFileTo (e : Env) (r : Request) (target : Path) (status : Nat) (fs : Slot) : Result :=
  let renamed := if r.isMove then renameTo (e.pattern.fails .rename) r.source target fs else none
  match renamed with
  | some fs => ⟨status, fs⟩
  | none =>
    let (err, fs) := copyFile e [] r.source target fs
    if err ≠ 0 then ⟨err, fs⟩
    else ⟨status, if r.isMove && (deleteFile e [] r.hasStmt).2 then fs.update r.source (.entry none) else fs⟩

/-- A file is copied or moved, the last `stat` of the destination being known. -/
def moveFileStat (e : Env) (r : Request) (target : Path) (destdir : Bool) (found : Except Errno Node) (fs : Slot) : Result :=
  match found with
  | .error .enotdir => ⟨409, fs⟩
  | .error _ => moveFileTo e r target (if destdir then 204 else 201) fs
  | .ok _ => if !e.overwrite then ⟨412, fs⟩ else moveFileTo e r target 204 fs

def moveFile (e : Env) (r : Request) (fs : Slot) : Result :=
  if !r.hasLock then ⟨423, fs⟩
  else
    match statSlot (e.pattern.fails (.statDest [])) (fs.lookup r.dest) with
    | .ok (.dir _) =>
      let found := statSlot (e.pattern.fails (.statDest r.source.getLast?.toList)) (fs.lookup r.inside)
      moveFileStat e r r.inside true found fs
    | found => moveFileStat e r r.dest false found fs

/-- MOVE and COPY, from the `stat` of the source on. There is no file at a path that ends with a slash. -/
def transfer (e : Env) (r : Request) (fs : Slot) : Result :=
  match statSlot (e.pattern.fails (.statSource [])) (fs.lookup r.source) with
  | .error .enoent => ⟨404, fs⟩
  | .error _ => ⟨403, fs⟩
  | .ok (.dir entries) => moveDir e r entries fs
  | .ok (.file _) => if r.endsWithSlash then ⟨403, fs⟩ else moveFile e r fs

/-- MOVE and COPY, from the comparison of the two URIs on. -/
def moveCopy (e : Env) (r : Request) (fs : Slot) : Result := if r.nested then ⟨403, fs⟩ else transfer e r fs

end Lighttpd.Webdav
