import Lighttpd.Backend.Env
import Lighttpd.Uri.Target

/-!
# Aliases (`mod_alias.c`)

`alias.url` maps a prefix of the path of a request to a directory: what stands behind the prefix is put behind the
directory as it is.

- `below_iff`: the file is below the directory if and only if the place where the two are put together is safe;
- `alias_below_iff`: this for a request with a simplified path;
- `slashes_safe`: with a slash at the end of the key and of the directory, every request is safe.
-/

namespace Lighttpd.Alias
open Uri PathName

/-! ## The source -/

/-- An entry of `alias.url`. -/
structure Entry where
  key : Buffer
  value : Buffer
deriving DecidableEq

/-- `basedir_len`: not to include the trailing slash. -/
def basedirLen (phys : Physical) : Nat :=
  if phys.basedir.getLast? = some (chr '/') then phys.basedir.length - 1 else phys.basedir.length

/-- What `uri_ptr` points to. -/
def uriOf (phys : Physical) : Bytes := phys.path.drop (basedirLen phys)

def Entry.hit (forceLowercaseFilenames : Bool) (phys : Physical) (ds : Entry) : Bool :=
  let uriLen : Int := phys.path.length - basedirLen phys
  !(ds.key.stringLength > uriLen) && !ds.key.isEmpty &&
    if forceLowercaseFilenames then
      (cstr ((uriOf phys).take ds.key.stringLength)).map toLower == (cstr (ds.key.str.take ds.key.stringLength)).map toLower
    else strncmpEqual (uriOf phys) ds.key.str ds.key.stringLength

def findAlias (forceLowercaseFilenames : Bool) (aliases : List Entry) (phys : Physical) : Option Entry :=
  aliases.find? (·.hit forceLowercaseFilenames phys)

def behindKey (phys : Physical) (ds : Entry) : Bytes := (uriOf phys).drop ds.key.stringLength

/-- `mod_alias_physical_handler`. Of an empty `basedir`, it reads the byte in front. -/
def modAliasPhysicalHandler (forceLowercaseFilenames : Bool) (aliases : List Entry) (phys : Physical) : Option Physical :=
  if phys.path = [] then some phys
  else if phys.basedir = [] then none
  else
    match findAlias forceLowercaseFilenames aliases phys with
    | none => some phys
    | some ds => some { phys with basedir := ds.value.str, path := ds.value.str ++ cstr (behindKey phys ds) }

/-! ## Directories -/

/-- **The path is the directory, or below it.** -/
def Below (cwd : List Bytes) (target path : Bytes) : Prop :=
  directory (chr '/') (chr '.') cwd target <+: directory (chr '/') (chr '.') cwd path

/-- The names of the directory that the segments of the target but the last one lead to. -/
def parent (cwd : List Bytes) (target : Bytes) : List Bytes :=
  resolve (chr '.') (if target.head? = some (chr '/') then [] else cwd) (initSegments (chr '/') target)

/-- **What is put behind the target begins with a new segment, or goes on with the last one and does not lead out of it.**
An empty target is no directory. -/
def SafeBehind (cwd : List Bytes) (target rest : Bytes) : Prop :=
  if target = [] ∧ rest.head? = some (chr '/') then cwd <+: (rest.splitOn (chr '/')).filter (· ≠ [])
  else SafeSeam (chr '.') (parent cwd target) (lastSegment (chr '/') target) (firstSegment (chr '/') rest)
    (tailSegments (chr '/') rest)

variable {cwd : List Bytes} {target rest : Bytes}

/-- **The file is below the directory** if and only if the rest of the path is safe behind it. -/
theorem below_iff (h : ∀ s ∈ tailSegments (chr '/') rest, ¬ IsDots (chr '.') s)
    (hroot : rest.head? = some (chr '/') → ∀ s ∈ rest.splitOn (chr '/'), ¬ IsDots (chr '.') s) :
    Below cwd target (target ++ rest) ↔ SafeBehind cwd target rest := by
  unfold Below SafeBehind
  by_cases hempty : target = [] ∧ rest.head? = some (chr '/')
  · obtain ⟨rfl, hhead⟩ := hempty
    have hcwd : directory (chr '/') (chr '.') cwd [] = cwd := by simp [directory, resolve, push]
    rw [if_pos ⟨rfl, hhead⟩, hcwd, List.nil_append, directory, if_pos hhead, resolve_no_dots (hroot hhead), List.nil_append]
  · have hstart : (if (target ++ rest).head? = some (chr '/') then [] else cwd) =
        if target.head? = some (chr '/') then [] else cwd := by
      cases target with
      | nil =>
        rw [not_and] at hempty
        rw [List.nil_append, if_neg (hempty rfl)]
        rfl
      | cons c target => rfl
    have htarget : directory (chr '/') (chr '.') cwd target =
        push (chr '.') (parent cwd target) (lastSegment (chr '/') target) := by
      rw [directory, splitOn_eq_init, resolve_append]
      rfl
    have hpath : directory (chr '/') (chr '.') cwd (target ++ rest) = resolve (chr '.')
        (push (chr '.') (parent cwd target) (lastSegment (chr '/') target ++ firstSegment (chr '/') rest))
        (tailSegments (chr '/') rest) := by
      rw [directory, hstart, splitOn_append, resolve_append]
      rfl
    rw [if_neg hempty, htarget, hpath]
    exact below_seam_iff h

/-! ## Requests -/

theorem uriOf_eq {docRoot : Bytes} (h : docRoot ≠ []) (relPath rel : Bytes) :
    uriOf ⟨docRoot, relPath, docRoot, appendSlash docRoot ++ rel⟩ = chr '/' :: rel := by
  obtain ⟨dir, c, rfl⟩ := (List.eq_nil_or_concat' docRoot).resolve_left h
  unfold uriOf basedirLen appendSlash
  dsimp only
  rw [List.getLast?_concat]
  by_cases hc : c = chr '/'
  · subst hc
    rw [if_pos rfl, if_neg (by simp), List.length_append, List.length_singleton, Nat.add_sub_cancel, List.append_assoc,
      List.drop_left]
    rfl
  · have hne : some c ≠ some (chr '/') := fun heq => hc (Option.some.inj heq)
    rw [if_neg hne, if_pos ⟨by simp, hne⟩, List.append_assoc, List.drop_left]
    rfl

/-- The path of a request below `documentRoot`, as the keys see it. -/
theorem uriOf_physicalOf (conf : Conf) (hroot : conf.documentRoot ≠ []) {path : Bytes}
    (h : path = [] ∨ Clean (chr '/') (chr '.') path) (hnul : 0 ∉ path) :
    (∀ s ∈ (uriOf (physicalOf conf path)).splitOn (chr '/'), ¬ IsDots (chr '.') s) ∧
      0 ∉ uriOf (physicalOf conf path) := by
  obtain ⟨rel, hrel, hclean, -⟩ := physicalOf_spec conf h
  have huri : uriOf (physicalOf conf path) = chr '/' :: rel := by
    rw [← uriOf_eq hroot (physicalOf conf path).relPath rel, ← hrel]
    rfl
  have hmem : ∀ c ∈ rel, c ∈ (physicalOf conf path).relPath := by
    intro c hc
    have hpath : appendSlash conf.documentRoot ++ rel = appendSlash conf.documentRoot ++
        if (physicalOf conf path).relPath.head? = some (chr '/') then (physicalOf conf path).relPath.tail
        else (physicalOf conf path).relPath := hrel.symm
    rw [List.append_cancel_left hpath] at hc
    split at hc
    · exact List.mem_of_mem_tail hc
    · exact hc
  rw [huri]
  constructor
  · rcases hclean with ⟨-, rfl⟩ | hclean
    · decide
    · exact hclean.no_dots
  · rw [List.mem_cons, not_or]
    exact ⟨by decide, fun hc => (relPath_spec conf h hnul).2 (hmem 0 hc)⟩

/-- **The alias leads to a file at or below its directory**, if and only if what stands behind the key is safe behind the
directory. -/
theorem alias_below_iff (cwd : List Bytes) (aliases : List Entry) (conf : Conf) (hroot : conf.documentRoot ≠ [])
    {path : Bytes} (hpath : path = [] ∨ Clean (chr '/') (chr '.') path) (hnul : 0 ∉ path) {ds : Entry}
    (hds : findAlias conf.forceLowercaseFilenames aliases (physicalOf conf path) = some ds) :
    ∃ phys, modAliasPhysicalHandler conf.forceLowercaseFilenames aliases (physicalOf conf path) = some phys ∧
      phys.basedir = ds.value.str ∧
      (Below cwd ds.value.str phys.path ↔ SafeBehind cwd ds.value.str (behindKey (physicalOf conf path) ds)) := by
  obtain ⟨hdots, hzero⟩ := uriOf_physicalOf conf hroot hpath hnul
  have hne : (physicalOf conf path).path ≠ [] := by
    obtain ⟨rel, hrel, -⟩ := physicalOf_spec conf hpath
    rw [hrel]
    unfold appendSlash
    split <;> simp [hroot]
  have hbehind : behindKey (physicalOf conf path) ds <:+ uriOf (physicalOf conf path) := List.drop_suffix _ _
  obtain ⟨key, hkey⟩ := hbehind
  have htail : ∀ s ∈ tailSegments (chr '/') (behindKey (physicalOf conf path) ds), ¬ IsDots (chr '.') s :=
    fun s hs => hdots s (hkey ▸ tailSegments_append key _ hs)
  have hnul' : (0 : Byte) ∉ behindKey (physicalOf conf path) ds := fun hc => hzero (hkey ▸ List.mem_append_right key hc)
  refine ⟨{ physicalOf conf path with
    basedir := ds.value.str, path := ds.value.str ++ cstr (behindKey (physicalOf conf path) ds) }, ?_, rfl, ?_⟩
  · unfold modAliasPhysicalHandler
    rw [if_neg hne, if_neg (show (physicalOf conf path).basedir ≠ [] from hroot), hds]
  · dsimp only
    rw [cstr_eq_self hnul']
    refine below_iff htail fun hhead s hs => ?_
    obtain ⟨w, hw⟩ := List.head?_eq_some_iff.mp hhead
    rw [splitOn_eq_tail, List.mem_cons] at hs
    rcases hs with rfl | hs
    · have hfirst : firstSegment (chr '/') (behindKey (physicalOf conf path) ds) = [] := by
        rw [firstSegment, hw, List.splitOn_cons_eq_if_modifyHead, if_pos (by simp)]
        rfl
      rw [hfirst]
      simp [IsDots]
    · exact htail s hs

/-! ## Keys and directories with slashes -/

/-- What is in front of the rest is the key, but for the case of its letters. -/
theorem Entry.hit_key {force : Bool} {phys : Physical} {ds : Entry} (h : ds.hit force phys = true) (hnul : 0 ∉ uriOf phys)
    (hkey : 0 ∉ ds.key.str) : ((uriOf phys).take ds.key.str.length).map toLower = ds.key.str.map toLower := by
  have htake : (0 : Byte) ∉ (uriOf phys).take ds.key.str.length := fun hc => hnul (List.take_subset _ _ hc)
  unfold Entry.hit strncmpEqual at h
  rw [Buffer.stringLength_eq, List.take_length, cstr_eq_self htake, cstr_eq_self hkey] at h
  dsimp only at h
  rw [Bool.and_eq_true] at h
  have hsame := h.2
  split at hsame
  · exact beq_iff_eq.mp hsame
  · rw [beq_iff_eq.mp hsame]

/-- **A key and a directory that end in a slash are safe** for every request. -/
theorem slashes_safe (cwd : List Bytes) {force : Bool} {phys : Physical} {ds : Entry}
    (hdots : ∀ s ∈ (uriOf phys).splitOn (chr '/'), ¬ IsDots (chr '.') s) (hnul : 0 ∉ uriOf phys)
    (hds : ds.hit force phys = true) (hkey : 0 ∉ ds.key.str) (hslash : ds.key.str.getLast? = some (chr '/'))
    (htarget : ds.value.str.getLast? = some (chr '/')) : SafeBehind cwd ds.value.str (behindKey phys ds) := by
  obtain ⟨target, htarget⟩ := List.getLast?_eq_some_iff.mp htarget
  have hfront := Entry.hit_key hds hnul hkey
  have hlast : ((uriOf phys).take ds.key.str.length).getLast? = some (chr '/') := by
    have hmap := congrArg List.getLast? hfront
    rw [List.getLast?_map, List.getLast?_map, hslash, Option.map_some] at hmap
    obtain ⟨c, hc, hlower⟩ := Option.map_eq_some_iff.mp hmap
    obtain rfl : c = chr '/' := (toLower_eq_iff (by decide)).mp hlower
    exact hc
  obtain ⟨key, hkey⟩ := List.getLast?_eq_some_iff.mp hlast
  have hsplit := splitOn_append (chr '/') ((uriOf phys).take ds.key.str.length) (behindKey phys ds)
  rw [behindKey, Buffer.stringLength_eq, List.take_append_drop, hkey, lastSegment_concat, List.nil_append] at hsplit
  have hfirst : ¬ IsDots (chr '.') (firstSegment (chr '/') (behindKey phys ds)) := by
    apply hdots _
    rw [hsplit, behindKey, Buffer.stringLength_eq]
    exact List.mem_append_right _ List.mem_cons_self
  unfold SafeBehind
  rw [htarget, if_neg (by simp), lastSegment_concat]
  refine .inr (.inr ⟨.inl rfl, fun hup => absurd hup fun heq => hfirst (.inr ?_)⟩)
  rw [← heq, List.nil_append]

/-! ## A key without a slash -/

/-- `server.document-root = "/srv"` -/
def sampleConf : Conf := ⟨ascii "/srv", false⟩

def sampleEntry : Entry := ⟨Buffer.ofString (ascii "/img"), Buffer.ofString (ascii "/var/img/")⟩

/-- `alias.url = ( "/img" => "/var/img/", "/doc" => "/usr/doc" )` -/
def sampleAliases : List Entry := [sampleEntry, ⟨Buffer.ofString (ascii "/doc"), Buffer.ofString (ascii "/usr/doc")⟩]

/-- `GET /img/a.png` -/
theorem alias_below_iff_sample :
    ∃ phys, modAliasPhysicalHandler false sampleAliases (physicalOf sampleConf (ascii "/img/a.png")) = some phys ∧
      phys.basedir = ascii "/var/img/" ∧
      (Below [] (ascii "/var/img/") phys.path ↔
        SafeBehind [] (ascii "/var/img/") (behindKey (physicalOf sampleConf (ascii "/img/a.png")) sampleEntry)) := by
  have hclean : Clean (chr '/') (chr '.') (ascii "/img/a.png") := ⟨by decide, by decide, by decide⟩
  have hfind : findAlias false sampleAliases (physicalOf sampleConf (ascii "/img/a.png")) = some sampleEntry := by
    decide
  exact alias_below_iff [] sampleAliases sampleConf (by decide) (.inr hclean) (by decide) hfind

/-- **Out of the directory**: `GET /img../x` leads to `/var/img/../x`, which is above it, and `GET /docs` leads to
`/usr/docs`, which is beside it. -/
theorem alias_leaves :
    (modAliasPhysicalHandler false sampleAliases (physicalOf sampleConf (ascii "/img../x"))).map
      (fun phys => (phys.path, directory (chr '/') (chr '.') [] phys.basedir, directory (chr '/') (chr '.') [] phys.path)) =
      some (ascii "/var/img/../x", [ascii "var", ascii "img"], [ascii "var", ascii "x"]) ∧
    (modAliasPhysicalHandler false sampleAliases (physicalOf sampleConf (ascii "/docs"))).map
      (fun phys => (phys.path, directory (chr '/') (chr '.') [] phys.basedir, directory (chr '/') (chr '.') [] phys.path)) =
      some (ascii "/usr/docs", [ascii "usr", ascii "doc"], [ascii "usr", ascii "docs"]) ∧
    Uri.pathSimplify (ascii "/img../x") = ascii "/img../x" := by
  refine ⟨?_, ?_, ?_⟩ <;> decide

end Lighttpd.Alias
