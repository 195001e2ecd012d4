import Lighttpd.Base.Buffer
import Lighttpd.Uri.Target

/-!
# The directories of users (`mod_userdir.c`)

`/~user/file` is mapped to a file below a directory of the user. With `userdir.basepath`, this is the directory with the
name of the user below the base path, or below the directory of the first letter in it.

- `homePath_spec`: what the path of a user leads to;
- `userdir_below_iff`: the file is below the directory of the user, if and only if the name is not made of dots and
  `userdir.path` does not lead out of it.
-/

namespace Lighttpd.Userdir
open Uri PathName

/-! ## The source -/

structure PluginConfig where
  excludeUser : List Buffer
  includeUser : List Buffer
  path : Buffer
  basepath : Buffer
  letterhomes : Bool
  active : Bool

/-- What the system knows: `pw_dir` of a user, and the directories. -/
structure System where
  getpwnam : Bytes → Option Bytes
  isDir : Bytes → Bool

/-- How the handler ends: with `HANDLER_GO_ON`, with a redirect and `HANDLER_FINISHED`, or with `HANDLER_GO_ON` and a new
path. -/
inductive Outcome
  | goOn
  | finished
  | mapped (phys : Physical)

/-- `strchr(s + 2, '/')`. -/
def secondSlash (s : Bytes) : Option Nat := (cstr (s.drop 2)).idxOf? (chr '/')

def username (uriPath : Bytes) (n : Nat) : Bytes := (uriPath.drop 2).take n

def validChar (c : Byte) : Bool :=
  c == chr '-' || c == chr '_' || c == chr '.' || (chr 'a' ≤ c && c ≤ chr 'z') || (chr 'A' ≤ c && c ≤ chr 'Z') ||
    (chr '0' ≤ c && c ≤ chr '9')

/-- The user is not excluded, and included if there is a list. -/
def PluginConfig.admits (p : PluginConfig) (user : Bytes) : Bool :=
  !p.excludeUser.any (·.isEqual (Buffer.ofString user)) &&
    (p.includeUser.isEmpty || p.includeUser.any (·.isEqual (Buffer.ofString user)))

def lowered (forceLowercaseFilenames : Bool) (user : Bytes) : Bytes :=
  if forceLowercaseFilenames then user.map toLower else user

def PluginConfig.homePath (p : PluginConfig) (user : Bytes) : Bytes :=
  let tempPath := appendSlash p.basepath.str
  let tempPath := if p.letterhomes then appendSlash (tempPath ++ user.take 1) else tempPath
  tempPath ++ user

/-- The directory of the user, in the system or below the base path. -/
def PluginConfig.home (p : PluginConfig) (sys : System) (forceLowercaseFilenames : Bool) (user : Bytes) : Option Bytes :=
  if p.basepath.stringIsEmpty then sys.getpwnam user
  else if user.all validChar then some (p.homePath (lowered forceLowercaseFilenames user))
  else none

def behindSlash (relPath : Bytes) : Bytes :=
  match secondSlash relPath with
  | some n => cstr (relPath.drop (2 + n + 1))
  | none => []

def modUserdirDocrootHandler (sys : System) (p : PluginConfig) (forceLowercaseFilenames : Bool) (uriPath : Bytes)
    (phys : Physical) : Outcome :=
  if uriPath = [] then .goOn
  else if !p.active || p.path.isEmpty then .goOn
  else if uriPath.getD 0 0 ≠ chr '/' ∨ uriPath.getD 1 0 ≠ chr '~' then .goOn
  else
    match secondSlash uriPath with
    | none => .finished
    | some 0 => .goOn
    | some (n + 1) =>
      let user := username uriPath (n + 1)
      if p.basepath.stringIsEmpty && (sys.getpwnam user).isNone then .goOn
      else if !p.admits user then .goOn
      else
        match p.home sys forceLowercaseFilenames user with
        | none => .goOn
        | some home =>
          let basedir := appendSlash home ++ p.path.str
          if p.basepath.stringIsEmpty && !sys.isDir basedir then .goOn
          else .mapped { phys with basedir := basedir, path := appendSlash basedir ++ behindSlash phys.relPath }

/-! ## The directory of a user -/

/-- The names that lead to the directory of the user. The letter of a name that begins with a dot is no directory of its
own. -/
def PluginConfig.homeNames (p : PluginConfig) (cwd : List Bytes) (user : Bytes) : List Bytes :=
  directory (chr '/') (chr '.') cwd p.basepath.str ++
    (if p.letterhomes ∧ user.take 1 ≠ [chr '.'] then [user.take 1] else []) ++ [user]

/-- **The path is the directory of the user, or below it.** -/
def PluginConfig.Below (p : PluginConfig) (cwd : List Bytes) (user path : Bytes) : Prop :=
  p.homeNames cwd user <+: directory (chr '/') (chr '.') cwd path

/-- **Both paths of the file are below the directory of the user.** -/
structure PluginConfig.Confined (p : PluginConfig) (cwd : List Bytes) (user : Bytes) (phys : Physical) : Prop where
  basedir : p.Below cwd user phys.basedir
  path : p.Below cwd user phys.path

/-- The path, from a directory, does not lead out of it, or comes back. -/
def Stays (names : List Bytes) (path : Bytes) : Prop := names <+: resolve (chr '.') names (path.splitOn (chr '/'))

instance (names : List Bytes) (path : Bytes) : Decidable (Stays names path) :=
  inferInstanceAs (Decidable (_ <+: _))

variable {p : PluginConfig} {cwd : List Bytes} {user : Bytes}

/-- What is below the directory of a user is strictly below the base path. -/
theorem PluginConfig.Below.strict {path : Bytes} (h : p.Below cwd user path) :
    ∃ names, names ≠ [] ∧
      directory (chr '/') (chr '.') cwd path = directory (chr '/') (chr '.') cwd p.basepath.str ++ names := by
  obtain ⟨rest, hrest⟩ := h
  refine ⟨(if p.letterhomes ∧ user.take 1 ≠ [chr '.'] then [user.take 1] else []) ++ [user] ++ rest, by simp, ?_⟩
  rw [← hrest, homeNames]
  simp only [List.append_assoc]

theorem isName_directory (hcwd : ∀ n ∈ cwd, IsName (chr '/') (chr '.') n) (path : Bytes) :
    ∀ n ∈ directory (chr '/') (chr '.') cwd path, IsName (chr '/') (chr '.') n := by
  refine isName_resolve ?_ fun s hs => (mem_splitOn hs).1
  split
  · exact fun n hn => absurd hn List.not_mem_nil
  · exact hcwd

/-- **No path is below the directory of a user whose name is made of dots.** -/
theorem PluginConfig.Below.not_dots {path : Bytes} (hcwd : ∀ n ∈ cwd, IsName (chr '/') (chr '.') n)
    (h : p.Below cwd user path) : ¬ IsDots (chr '.') user := by
  have hmem : user ∈ p.homeNames cwd user := List.mem_append_right _ List.mem_cons_self
  exact (isName_directory hcwd path user (h.subset hmem)).not_dots

theorem directory_appendSlash_name {dir : Bytes} (hdir : dir ≠ []) (hslash : chr '/' ∉ user) (hne : user ≠ [])
    (hdots : ¬ IsDots (chr '.') user) :
    directory (chr '/') (chr '.') cwd (appendSlash dir ++ user) = directory (chr '/') (chr '.') cwd dir ++ [user] := by
  rw [directory_appendSlash cwd hdir, List.splitOn_eq_singleton hslash]
  exact push_name hne hdots

theorem appendSlash_ne_nil {b : Bytes} (h : b ≠ []) : appendSlash b ≠ [] := by
  unfold appendSlash
  split <;> simp [h]

theorem directory_letter {dir : Bytes} (hdir : dir ≠ []) (hslash : chr '/' ∉ user) (hne : user ≠ []) :
    directory (chr '/') (chr '.') cwd (appendSlash dir ++ user.take 1) =
      directory (chr '/') (chr '.') cwd dir ++ if user.take 1 ≠ [chr '.'] then [user.take 1] else [] := by
  obtain ⟨c, rest, rfl⟩ := List.exists_cons_of_ne_nil hne
  rw [List.take_succ_cons, List.take_zero]
  by_cases hc : c = chr '.'
  · subst hc
    have hdot : [chr '.'].splitOn (chr '/') = [[chr '.']] := List.splitOn_eq_singleton (by decide)
    have hself : ∀ names : List Bytes, push (chr '.') names [chr '.'] = names := fun names => push_self (.inr rfl)
    rw [directory_appendSlash cwd hdir, hdot, if_neg (fun h => h rfl), List.append_nil]
    exact hself _
  · have hletter : [c] ≠ [chr '.'] := by simpa using hc
    rw [if_pos hletter]
    refine directory_appendSlash_name hdir ?_ (by simp) ?_
    · exact fun h => hslash (List.mem_singleton.mp h ▸ List.mem_cons_self)
    · rintro (h | h)
      · exact hletter h
      · cases h

/-- **The path of a user leads to the directory of the user**, if the name is not made of dots. -/
theorem homePath_spec (hbase : p.basepath.str ≠ []) (hslash : chr '/' ∉ user) (hne : user ≠ [])
    (hdots : ¬ IsDots (chr '.') user) :
    directory (chr '/') (chr '.') cwd (p.homePath user) = p.homeNames cwd user := by
  unfold PluginConfig.homePath PluginConfig.homeNames
  dsimp only
  cases p.letterhomes with
  | false =>
    rw [if_neg (by simp), if_neg (by simp), List.append_nil]
    exact directory_appendSlash_name hbase hslash hne hdots
  | true =>
    have hletter : appendSlash p.basepath.str ++ user.take 1 ≠ [] :=
      List.append_ne_nil_of_left_ne_nil (appendSlash_ne_nil hbase) _
    rw [if_pos rfl, directory_appendSlash_name hletter hslash hne hdots, directory_letter hbase hslash hne]
    simp

/-! ## Requests -/

theorem username_no_slash {uriPath : Bytes} {n : Nat} (h : secondSlash uriPath = some n) : chr '/' ∉ username uriPath n := by
  obtain ⟨hsplit, hfirst⟩ := idxOf?_split h
  obtain ⟨rest, hrest⟩ : cstr (uriPath.drop 2) <+: uriPath.drop 2 := List.takeWhile_prefix _
  have hlen : n ≤ (cstr (uriPath.drop 2)).length := by
    have hlen := congrArg List.length hsplit
    rw [List.length_append, List.length_take, List.length_cons] at hlen
    omega
  rw [username, ← hrest, List.take_append_of_le_length hlen]
  exact hfirst

/-- The name of a user is not empty, if the second slash does not follow at once. -/
theorem username_ne_nil {uriPath : Bytes} {n : Nat} (h : secondSlash uriPath = some (n + 1)) :
    username uriPath (n + 1) ≠ [] := by
  have hne : uriPath.drop 2 ≠ [] := by
    intro hnil
    rw [secondSlash, hnil] at h
    cases h
  obtain ⟨c, rest, hrest⟩ := List.exists_cons_of_ne_nil hne
  simp [username, hrest]

theorem lowered_spec (force : Bool) (hslash : chr '/' ∉ user) (hne : user ≠ []) :
    chr '/' ∉ lowered force user ∧ lowered force user ≠ [] := by
  unfold lowered
  split
  · constructor
    · intro hmem
      obtain ⟨c, hc, hlower⟩ := List.mem_map.mp hmem
      exact hslash ((toLower_eq_iff (by decide)).mp hlower ▸ hc)
    · simpa using hne
  · exact ⟨hslash, hne⟩

theorem behindSlash_no_dots {relPath : Bytes} (hdots : ∀ s ∈ relPath.splitOn (chr '/'), ¬ IsDots (chr '.') s)
    (hnul : 0 ∉ relPath) : ∀ s ∈ (behindSlash relPath).splitOn (chr '/'), ¬ IsDots (chr '.') s := by
  unfold behindSlash
  split
  · rename_i n hslash
    have hnul : (0 : Byte) ∉ relPath.drop 2 := fun h => hnul (List.mem_of_mem_drop h)
    rw [secondSlash, cstr_eq_self hnul] at hslash
    obtain ⟨hsplit, -⟩ := idxOf?_split hslash
    have hrel : relPath = relPath.take 2 ++ (relPath.drop 2).take n ++ chr '/' :: relPath.drop (2 + n + 1) := by
      conv_lhs => rw [← List.take_append_drop 2 relPath, hsplit]
      rw [List.drop_drop, List.append_assoc, Nat.add_assoc]
    have hrest : (0 : Byte) ∉ relPath.drop (2 + n + 1) := by
      rw [Nat.add_assoc, ← List.drop_drop]
      exact fun h => hnul (List.mem_of_mem_drop h)
    intro s hs
    apply hdots s
    rw [hrel, List.splitOn_append_cons_self]
    rw [cstr_eq_self hrest] at hs
    exact List.mem_append_right _ hs
  · decide

theorem mapped_spec {sys : System} {force : Bool} {uriPath : Bytes} {phys phys' : Physical} (hbase : p.basepath.str ≠ [])
    (h : modUserdirDocrootHandler sys p force uriPath phys = .mapped phys') :
    ∃ n, secondSlash uriPath = some (n + 1) ∧
      phys'.basedir = appendSlash (p.homePath (lowered force (username uriPath (n + 1)))) ++ p.path.str ∧
      phys'.path = appendSlash phys'.basedir ++ behindSlash phys.relPath := by
  have hstring : p.basepath.stringIsEmpty = false := by
    rw [← Bool.not_eq_true, Buffer.stringIsEmpty_iff]
    exact hbase
  unfold modUserdirDocrootHandler at h
  split at h
  · cases h
  split at h
  · cases h
  split at h
  · cases h
  split at h
  · cases h
  · cases h
  rename_i n hslash
  refine ⟨n, hslash, ?_⟩
  dsimp only at h
  rw [hstring, if_neg (by simp)] at h
  split at h
  · cases h
  split at h
  · cases h
  rename_i home hhome
  rw [if_neg (by simp)] at h
  cases h
  rw [PluginConfig.home, hstring, if_neg (by simp)] at hhome
  split at hhome
  · cases hhome
    exact ⟨rfl, rfl⟩
  · cases hhome

/-- **Where `mod_userdir` leads to**: below the directory of the user, if and only if the name of the user is not made of
dots, and `userdir.path` does not lead out of this directory. -/
theorem userdir_below_iff (sys : System) (p : PluginConfig) (conf : Conf) (cwd : List Bytes)
    (hcwd : ∀ n ∈ cwd, IsName (chr '/') (chr '.') n) (hbase : p.basepath.str ≠ []) {path : Bytes}
    (hpath : path = [] ∨ Clean (chr '/') (chr '.') path) (hnul : 0 ∉ path) {phys : Physical}
    (h : modUserdirDocrootHandler sys p conf.forceLowercaseFilenames path (physicalOf conf path) = .mapped phys) :
    ∃ n, secondSlash path = some n ∧
      (p.Confined cwd (lowered conf.forceLowercaseFilenames (username path n)) phys ↔
        ¬ IsDots (chr '.') (lowered conf.forceLowercaseFilenames (username path n)) ∧
        Stays (p.homeNames cwd (lowered conf.forceLowercaseFilenames (username path n))) p.path.str) := by
  obtain ⟨n, hslash, hbasedir, hphys⟩ := mapped_spec hbase h
  refine ⟨n + 1, hslash, ?_⟩
  obtain ⟨hno, hne⟩ := lowered_spec conf.forceLowercaseFilenames (username_no_slash hslash) (username_ne_nil hslash)
  generalize lowered conf.forceLowercaseFilenames (username path (n + 1)) = user at *
  obtain ⟨hdots, hzero⟩ := relPath_spec conf hpath hnul
  have hhome : p.homePath user ≠ [] := List.append_ne_nil_of_right_ne_nil _ hne
  have hdir : ¬ IsDots (chr '.') user → directory (chr '/') (chr '.') cwd phys.basedir =
      resolve (chr '.') (p.homeNames cwd user) (p.path.str.splitOn (chr '/')) := by
    intro huser
    rw [hbasedir, directory_appendSlash cwd hhome, homePath_spec hbase hno hne huser]
  constructor
  · rintro ⟨hbelow, -⟩
    have huser := hbelow.not_dots hcwd
    refine ⟨huser, ?_⟩
    rw [Stays, ← hdir huser]
    exact hbelow
  · rintro ⟨huser, hstays⟩
    have hbelow : p.Below cwd user phys.basedir := by
      rw [PluginConfig.Below, hdir huser]
      exact hstays
    refine ⟨hbelow, hbelow.trans ?_⟩
    have hbasedir : phys.basedir ≠ [] := by
      rw [hbasedir]
      exact List.append_ne_nil_of_left_ne_nil (appendSlash_ne_nil hhome) _
    rw [hphys, directory_appendSlash cwd hbasedir, resolve_no_dots (behindSlash_no_dots hdots hzero)]
    exact List.prefix_append _ _

/-! ## A user whose name is made of dots -/

/-- `userdir.path = "public_html"`, `userdir.basepath = "/home"` -/
def sampleConfig (letterhomes : Bool) : PluginConfig where
  excludeUser := [Buffer.ofString (ascii "root")]
  includeUser := []
  path := Buffer.ofString (ascii "public_html")
  basepath := Buffer.ofString (ascii "/home")
  letterhomes := letterhomes
  active := true

def sampleSystem : System := ⟨fun _ => none, fun _ => false⟩

/-- `server.document-root = "/srv"` -/
def sampleConf : Conf := ⟨ascii "/srv", false⟩

def mappedTo (letterhomes : Bool) (path : Bytes) : Option (Bytes × Bytes) :=
  match modUserdirDocrootHandler sampleSystem (sampleConfig letterhomes) false path (physicalOf sampleConf path) with
  | .mapped phys => some (phys.basedir, phys.path)
  | _ => none

/-- `GET /~jan/a/b` -/
theorem userdir_below_iff_sample : ∃ phys, modUserdirDocrootHandler sampleSystem (sampleConfig true) false
      (ascii "/~jan/a/b") (physicalOf sampleConf (ascii "/~jan/a/b")) = .mapped phys ∧
    ∃ n, secondSlash (ascii "/~jan/a/b") = some n ∧
      ((sampleConfig true).Confined [] (lowered false (username (ascii "/~jan/a/b") n)) phys ↔
        ¬ IsDots (chr '.') (lowered false (username (ascii "/~jan/a/b") n)) ∧
        Stays ((sampleConfig true).homeNames [] (lowered false (username (ascii "/~jan/a/b") n)))
          (sampleConfig true).path.str) := by
  have hclean : Clean (chr '/') (chr '.') (ascii "/~jan/a/b") := ⟨by decide, by decide, by decide⟩
  have hsome : (mappedTo true (ascii "/~jan/a/b")).isSome := by decide
  unfold mappedTo at hsome
  split at hsome
  · rename_i phys hmapped
    exact ⟨phys, hmapped, userdir_below_iff sampleSystem (sampleConfig true) sampleConf [] (by simp) (by decide)
      (.inr hclean) (by decide) hmapped⟩
  · cases hsome

/-- **Out of the base path**: `GET /~../x` leads to `/home/../public_html`, also with the directory of the first letter,
and the path is as simplification leaves it. -/
theorem userdir_leaves : Uri.pathSimplify (ascii "/~../x") = ascii "/~../x" ∧
    ∀ letterhomes, ∃ phys, modUserdirDocrootHandler sampleSystem (sampleConfig letterhomes) false (ascii "/~../x")
        (physicalOf sampleConf (ascii "/~../x")) = .mapped phys ∧
      directory (chr '/') (chr '.') [] phys.basedir = [ascii "public_html"] ∧
      directory (chr '/') (chr '.') [] phys.path = [ascii "public_html", ascii "x"] ∧
      ¬ (sampleConfig letterhomes).Confined [] (ascii "..") phys := by
  refine ⟨by decide, fun letterhomes => ?_⟩
  have hmapped : (mappedTo letterhomes (ascii "/~../x")).map
      (fun r => (directory (chr '/') (chr '.') [] r.1, directory (chr '/') (chr '.') [] r.2)) =
      some ([ascii "public_html"], [ascii "public_html", ascii "x"]) := by
    revert letterhomes
    decide
  unfold mappedTo at hmapped
  split at hmapped
  · rename_i phys hphys
    obtain ⟨hbasedir, hpath⟩ := Prod.mk.inj (Option.some.inj hmapped)
    exact ⟨phys, hphys, hbasedir, hpath, fun h => h.basedir.not_dots (by simp) (.inr rfl)⟩
  · cases hmapped

end Lighttpd.Userdir
