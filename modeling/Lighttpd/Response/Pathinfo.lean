import Lighttpd.Uri.Target

/-!
# Looking for the file of a request (`response.c`)

When the physical path is below something that is no directory, `http_response_prepare` cuts it at one `/` after the
other, from the end, until there is a file. What is cut off is the path info, and as much is cut off the path of the URI.

- `strrchr_spec`: the next place where to cut;
- `searchLoop_spec`, `searchLoop_reaches`: the first file that is there is found;
- `pathinfo_lossless_iff`: when the path info is at the end of the path of the URI.
-/

namespace Lighttpd.Pathinfo

open Uri

/-! ## The source -/

/-- The values of `errno` that are told apart. -/
inductive Errno
  | eacces
  | enametoolong
  | enoent
  | enotdir
  | other
deriving DecidableEq, Repr

/-- What is read of a `stat_cache_entry`. -/
structure Entry where
  isReg : Bool
  isDir : Bool
  isSymlink : Bool
deriving DecidableEq, Repr

abbrev StatCache := Bytes → Except Errno Entry

/-- What is read and written of a connection; `uriPath`, `requestUri` and `pathinfo` are those of `uri.path`,
`request.uri` and `request.pathinfo`. -/
structure Con where
  physical : Physical
  uriPath : Bytes
  requestUri : Bytes
  pathinfo : Bytes
  httpStatus : Nat
  forceLowercaseFilenames : Bool
  followSymlink : Bool

/-- `strrchr`: where the character stands for the last time. -/
def strrchr (c : Byte) : Bytes → Option Nat
  | [] => none
  | b :: s =>
    match strrchr c s with
    | some k => some (k + 1)
    | none => if b = c then some 0 else none

/-- What the loop leaves: `physical.path`, where `pathinfo` points to, and the entry if `found`. -/
structure Search where
  path : Bytes
  pathinfo : Option Nat
  entry : Option Entry
deriving DecidableEq, Repr

/-- The loop over the slashes of `tmp_buf`; `none` if it has not come to an end. -/
def searchLoop (statCache : StatCache) (basedirLength : Nat) (tmpBuf : Bytes) :
    Nat → Option Nat → Option Nat → Option Search
  | 0, _, _ => none
  | fuel + 1, slash, pathinfo =>
    let path := match slash with
      | some k => tmpBuf.take k
      | none => tmpBuf
    match statCache path with
    | .ok sce => some ⟨path, pathinfo, if sce.isReg then some sce else none⟩
    | .error _ =>
      -- a NUL stands at `pathinfo` meanwhile
      let slash := strrchr (chr '/') (match pathinfo with
        | some k => (cstr tmpBuf).take k
        | none => cstr tmpBuf)
      match slash with
      | none => some ⟨path, pathinfo, none⟩
      | some k =>
        -- `buffer_string_length(basedir) - 1` is the largest number if there is no `basedir`
        if basedirLength ≠ 0 ∧ basedirLength - 1 < k then searchLoop statCache basedirLength tmpBuf fuel (some k) (some k)
        else some ⟨path, some k, none⟩

/-- The path info of the request: as it stands in the target, if names of files are in lower case. -/
def requestPathinfo (con : Con) (pathinfo : Bytes) : Bytes :=
  let tail := con.requestUri.drop (con.requestUri.length - pathinfo.length)
  if con.forceLowercaseFilenames ∧ pathinfo.length ≤ con.requestUri.length ∧
      tail.map toLower = pathinfo.map toLower then tail
  else pathinfo

/-- How it goes on: the request is finished with an error, it is redirected to the directory, or it is handled;
`pathinfo` is the string behind the pointer. Where the length of `uri.path` would be negative, the buffer cannot be
allocated and the server stops. -/
inductive Prepared
  | finished (con : Con)
  | redirectToDirectory
  | goOn (con : Con) (pathinfo : Option Bytes)
  | abort

def Con.refuse (con : Con) (status : Nat) : Prepared :=
  .finished { con with httpStatus := status, physical := { con.physical with path := [] } }

def Con.shorten (con : Con) (path pathinfo : Bytes) : Prepared :=
  if con.uriPath.length < pathinfo.length then .abort
  else .goOn { con with
    physical := { con.physical with path := path }
    pathinfo := requestPathinfo con pathinfo
    uriPath := con.uriPath.take (con.uriPath.length - pathinfo.length) } (some pathinfo)

def Con.afterLoop (con : Con) (tmpBuf : Bytes) (r : Search) : Prepared :=
  match r.entry with
  | none => con.refuse 404
  | some sce =>
    if sce.isSymlink && !con.followSymlink then con.refuse 403
    else match r.pathinfo with
      | some k => con.shorten r.path ((cstr tmpBuf).drop k)
      | none => .goOn { con with physical := { con.physical with path := r.path } } none

/-- `http_response_prepare`, from the stat of `physical.path` to the handlers. -/
def prepareFile (statCache : StatCache) (con : Con) : Option Prepared :=
  match statCache con.physical.path with
  | .ok sce =>
    if sce.isSymlink && !con.followSymlink then some (con.refuse 403)
    else if sce.isDir && con.uriPath.getLast? != some (chr '/') then some .redirectToDirectory
    else some (.goOn con none)
  | .error .eacces => some (con.refuse 403)
  | .error .enametoolong => some (con.refuse 404)
  | .error .enoent => some (con.refuse 404)
  | .error .other => some (con.refuse 500)
  | .error .enotdir =>
    let tmpBuf := con.physical.path
    (searchLoop statCache con.physical.basedir.length tmpBuf (tmpBuf.length + 2) none none).map (con.afterLoop tmpBuf)

/-! ## The loop -/

theorem strrchr_eq_none {c : Byte} {s : Bytes} (h : strrchr c s = none) (j : Nat) : s[j]? ≠ some c := by
  induction s generalizing j with
  | nil => simp
  | cons b s ih =>
    unfold strrchr at h
    split at h
    · exact absurd h (by simp)
    · rename_i hs
      split_ifs at h with hb
      cases j with
      | zero => simpa using hb
      | succ j => exact ih hs j

variable {j k : Nat} {sce : Entry}

theorem strrchr_eq_some {c : Byte} {s : Bytes} (h : strrchr c s = some k) :
    s[k]? = some c ∧ ∀ j, k < j → s[j]? ≠ some c := by
  induction s generalizing k with
  | nil => cases h
  | cons b s ih =>
    unfold strrchr at h
    split at h
    · rename_i n hs
      cases h
      obtain ⟨hn, hlast⟩ := ih hs
      refine ⟨by simpa using hn, fun j hj => ?_⟩
      cases j with
      | zero => exact absurd hj (Nat.not_lt_zero _)
      | succ j => exact hlast j (Nat.lt_of_succ_lt_succ hj)
    · rename_i hs
      split_ifs at h with hb
      cases h
      refine ⟨by simp [hb], fun j hj => ?_⟩
      cases j with
      | zero => exact absurd hj (Nat.lt_irrefl _)
      | succ j => exact strrchr_eq_none hs j

variable {statCache : StatCache} {b : Nat} {tmp : Bytes}

/-- The `/` at which the path ends with a file that is there, and behind which there is none. -/
structure FoundAt (statCache : StatCache) (b : Nat) (tmp : Bytes) (j : Nat) (sce : Entry) : Prop where
  slash : (cstr tmp)[j]? = some (chr '/')
  below : 0 < b ∧ b ≤ j
  entry : statCache (tmp.take j) = .ok sce
  reg : sce.isReg = true
  last : ∀ i, j < i → (cstr tmp)[i]? = some (chr '/') → ∃ e, statCache (tmp.take i) = .error e

def Finds (statCache : StatCache) (b : Nat) (tmp : Bytes) (search : Option Search) : Prop :=
  ∃ r, search = some r ∧
    ((∃ j sce, FoundAt statCache b tmp j sce ∧ r = ⟨tmp.take j, some j, some sce⟩) ∨
      (r.entry = none ∧ ∀ j sce, ¬ FoundAt statCache b tmp j sce))

/-- No path that is cut at `n` or behind it is there. -/
def NoneFrom (statCache : StatCache) (tmp : Bytes) (n : Nat) : Prop :=
  ∀ i, n ≤ i → (cstr tmp)[i]? = some (chr '/') → ∃ e, statCache (tmp.take i) = .error e

theorem FoundAt.lt {n : Nat} (h : FoundAt statCache b tmp j sce) (hn : NoneFrom statCache tmp n) : j < n := by
  by_contra hj
  obtain ⟨e, he⟩ := hn j (not_lt.mp hj) h.slash
  rw [h.entry] at he
  cases he

/-- From one `/` to the one before it. -/
theorem noneFrom_prev {n : Nat} (hn : NoneFrom statCache tmp n)
    (hk : strrchr (chr '/') ((cstr tmp).take n) = some k) :
    k < n ∧ (cstr tmp)[k]? = some (chr '/') ∧ NoneFrom statCache tmp (k + 1) := by
  obtain ⟨hslash, hlast⟩ := strrchr_eq_some hk
  have hkn : k < n := by
    obtain ⟨hlt, -⟩ := List.getElem?_eq_some_iff.mp hslash
    rw [List.length_take] at hlt
    omega
  refine ⟨hkn, by rwa [List.getElem?_take_of_lt hkn] at hslash, fun i hi hs => ?_⟩
  by_cases hin : i < n
  · exact absurd ((List.getElem?_take_of_lt hin).trans hs) (hlast i hi)
  · exact hn i (not_lt.mp hin) hs

/-- If there is no `/` below `n`, or the last one is above the directory, then there is nothing to be found. -/
theorem not_foundAt {n : Nat} (hn : NoneFrom statCache tmp n)
    (h : ∀ k, strrchr (chr '/') ((cstr tmp).take n) = some k → ¬ (b ≠ 0 ∧ b - 1 < k)) (j : Nat) (sce : Entry) :
    ¬ FoundAt statCache b tmp j sce := by
  intro hj
  have hlt := hj.lt hn
  cases hk : strrchr (chr '/') ((cstr tmp).take n) with
  | none => exact strrchr_eq_none hk j ((List.getElem?_take_of_lt hlt).trans hj.slash)
  | some k =>
    have hjk := hj.lt (noneFrom_prev hn hk).2.2
    have hb := hj.below
    exact h k hk ⟨by omega, by omega⟩

/-- **The loop, from a `/` on behind which no file is there.** The induction is on the fuel: each round is at an earlier
`/`. -/
theorem searchLoop_spec {fuel : Nat} (hfuel : k < fuel) (hslash : (cstr tmp)[k]? = some (chr '/')) (hb : 0 < b ∧ b ≤ k)
    (hn : NoneFrom statCache tmp (k + 1)) :
    Finds statCache b tmp (searchLoop statCache b tmp fuel (some k) (some k)) := by
  induction fuel generalizing k with
  | zero => exact absurd hfuel (Nat.not_lt_zero _)
  | succ fuel ih =>
    unfold searchLoop
    dsimp only
    cases hstat : statCache (tmp.take k) with
    | ok sce =>
      refine ⟨_, rfl, ?_⟩
      by_cases hreg : sce.isReg = true
      · exact .inl ⟨k, sce, ⟨hslash, hb, hstat, hreg, hn⟩, by rw [if_pos hreg]⟩
      · refine .inr ⟨if_neg hreg, fun j sce' hj => ?_⟩
        have hjk := hj.lt hn
        rcases Nat.lt_succ_iff_lt_or_eq.mp hjk with hjk | rfl
        · obtain ⟨e, he⟩ := hj.last k hjk hslash
          rw [hstat] at he
          cases he
        · have hentry := hj.entry
          rw [hstat] at hentry
          cases hentry
          exact hreg hj.reg
    | error e =>
      have hk : NoneFrom statCache tmp k := by
        intro i hi hs
        rcases hi.eq_or_lt with rfl | hi
        · exact ⟨e, hstat⟩
        · exact hn i hi hs
      dsimp only
      split
      · rename_i hnone
        exact ⟨_, rfl, .inr ⟨rfl, not_foundAt hk fun k' hk' => by rw [hnone] at hk'; cases hk'⟩⟩
      · rename_i k' hk'
        obtain ⟨hlt, hslash', hn'⟩ := noneFrom_prev hk hk'
        split_ifs with hcond
        · exact ih (by omega) hslash' ⟨by omega, by omega⟩ hn'
        · refine ⟨_, rfl, .inr ⟨rfl, not_foundAt hk fun k'' hk'' => ?_⟩⟩
          rw [hk'] at hk''
          cases hk''
          exact hcond

/-- **The loop comes to an end**, and it finds the first file that is there. -/
theorem searchLoop_finds {e : Errno} (h : statCache tmp = .error e) :
    Finds statCache b tmp (searchLoop statCache b tmp (tmp.length + 2) none none) := by
  have hlen : (cstr tmp).length ≤ tmp.length := (List.takeWhile_prefix _).length_le
  have hn : NoneFrom statCache tmp (cstr tmp).length := by
    intro i hi hs
    rw [List.getElem?_eq_none hi] at hs
    cases hs
  have htake : (cstr tmp).take (cstr tmp).length = cstr tmp := List.take_length
  unfold searchLoop
  dsimp only
  rw [h]
  dsimp only
  split
  · rename_i hnone
    refine ⟨_, rfl, .inr ⟨rfl, not_foundAt hn fun k hk => ?_⟩⟩
    rw [htake, hnone] at hk
    cases hk
  · rename_i k hk
    obtain ⟨hlt, hslash, hn'⟩ := noneFrom_prev hn (htake.symm ▸ hk)
    split_ifs with hcond
    · exact searchLoop_spec (by omega) hslash ⟨by omega, by omega⟩ hn'
    · refine ⟨_, rfl, .inr ⟨rfl, not_foundAt hn fun k' hk' => ?_⟩⟩
      rw [htake, hk] at hk'
      cases hk'
      exact hcond

theorem FoundAt.unique {j' : Nat} {sce' : Entry} (h : FoundAt statCache b tmp j sce)
    (h' : FoundAt statCache b tmp j' sce') : j = j' ∧ sce = sce' := by
  have hle : j ≤ j' := Nat.lt_succ_iff.mp (h.lt fun i hi hs => h'.last i hi hs)
  have hge : j' ≤ j := Nat.lt_succ_iff.mp (h'.lt fun i hi hs => h.last i hi hs)
  obtain rfl := Nat.le_antisymm hle hge
  exact ⟨rfl, Except.ok.inj (h.entry.symm.trans h'.entry)⟩

theorem searchLoop_eq {e : Errno} (h : statCache tmp = .error e) (hj : FoundAt statCache b tmp j sce) :
    searchLoop statCache b tmp (tmp.length + 2) none none = some ⟨tmp.take j, some j, some sce⟩ := by
  obtain ⟨r, hr, ⟨j', sce', hj', rfl⟩ | ⟨-, hnone⟩⟩ := searchLoop_finds (b := b) h
  · obtain ⟨rfl, rfl⟩ := hj'.unique hj
    exact hr
  · exact absurd hj (hnone j sce)

/-! ## The path info -/

theorem length_requestPathinfo (con : Con) (s : Bytes) : (requestPathinfo con s).length = s.length := by
  unfold requestPathinfo
  dsimp only
  split_ifs with h
  · rw [List.length_drop]
    omega
  · rfl

theorem take_cstr {s : Bytes} (h : j ≤ (cstr s).length) : s.take j = (cstr s).take j := by
  obtain ⟨t, ht⟩ := List.takeWhile_prefix (l := s) (· ≠ 0)
  conv_lhs => rw [← ht]
  exact List.take_append_of_le_length h

/-- **A path that has been split without loss**: what is handled is a file, no longer part of the path in front of a `/`
is one, and the path info is the end of the path of the URI. -/
structure Lossless (statCache : StatCache) (con con' : Con) (pathinfo : Bytes) : Prop where
  whole : con'.physical.path ++ pathinfo = cstr con.physical.path
  slash : pathinfo.head? = some (chr '/')
  file : ∃ sce, statCache con'.physical.path = .ok sce ∧ sce.isReg = true
  longest : ∀ i, con'.physical.path.length < i → (cstr con.physical.path)[i]? = some (chr '/') →
    ∀ sce, statCache ((cstr con.physical.path).take i) = .ok sce → sce.isReg = false
  suffix : con'.pathinfo <:+ con.uriPath
  shortened : con'.uriPath ++ con'.pathinfo = con.uriPath

theorem shorten_lossless {con : Con} (hj : FoundAt statCache b con.physical.path j sce)
    (hsuffix : requestPathinfo con ((cstr con.physical.path).drop j) <:+ con.uriPath) :
    ∃ con', con.shorten (con.physical.path.take j) ((cstr con.physical.path).drop j) =
      .goOn con' (some ((cstr con.physical.path).drop j)) ∧
      Lossless statCache con con' ((cstr con.physical.path).drop j) := by
  obtain ⟨hlt, hget⟩ := List.getElem?_eq_some_iff.mp hj.slash
  have htake := take_cstr (Nat.le_of_lt hlt)
  have hlen := length_requestPathinfo con ((cstr con.physical.path).drop j)
  have hle := hsuffix.length_le
  have hroom : ¬ con.uriPath.length < ((cstr con.physical.path).drop j).length := by omega
  refine ⟨_, if_neg hroom, ?_, ?_, ⟨sce, hj.entry, hj.reg⟩, fun i hi hs sce' hok => ?_, hsuffix, ?_⟩
  · rw [htake, List.take_append_drop]
  · rw [List.head?_drop, hj.slash]
  · have hji : j < i := by
      rw [htake, List.length_take] at hi
      omega
    obtain ⟨hilt, -⟩ := List.getElem?_eq_some_iff.mp hs
    obtain ⟨e, he⟩ := hj.last i hji hs
    rw [take_cstr (Nat.le_of_lt hilt), hok] at he
    cases he
  · obtain ⟨front, hfront⟩ := hsuffix
    have hcut : con.uriPath.length - ((cstr con.physical.path).drop j).length = front.length := by
      rw [← hfront, List.length_append, hlen, Nat.add_sub_cancel]
    dsimp only
    rw [hcut, ← hfront, List.take_left]

def onlyFile (path : Bytes) : StatCache := fun p => if p = path then .ok ⟨true, false, false⟩ else .error .enotdir

theorem onlyFile_foundAt (hb : 0 < b ∧ b ≤ k) (hslash : (cstr tmp)[k]? = some (chr '/')) :
    onlyFile (tmp.take k) tmp = .error .enotdir ∧ FoundAt (onlyFile (tmp.take k)) b tmp k ⟨true, false, false⟩ := by
  have hlen : (cstr tmp).length ≤ tmp.length := (List.takeWhile_prefix _).length_le
  obtain ⟨hlt, -⟩ := List.getElem?_eq_some_iff.mp hslash
  have hother : ∀ p : Bytes, k < p.length → onlyFile (tmp.take k) p = .error .enotdir := by
    intro p hp
    refine if_neg fun h => ?_
    rw [h, List.length_take] at hp
    omega
  refine ⟨hother _ (by omega), hslash, hb, if_pos rfl, rfl, fun i hi hs => ⟨_, hother _ ?_⟩⟩
  obtain ⟨hilt, -⟩ := List.getElem?_eq_some_iff.mp hs
  rw [List.length_take]
  omega

/-- **The path is split without loss in every file system, if and only if what the handler takes for the path info is the
end of the path of the URI**, wherever the physical path is cut. -/
theorem pathinfo_lossless_iff (con : Con) :
    (∀ statCache, ∃ r, prepareFile statCache con = some r ∧ r ≠ .abort ∧
      ∀ con' pathinfo, r = .goOn con' (some pathinfo) → Lossless statCache con con' pathinfo) ↔
    (∀ k, 0 < con.physical.basedir.length ∧ con.physical.basedir.length ≤ k →
      (cstr con.physical.path)[k]? = some (chr '/') →
      requestPathinfo con ((cstr con.physical.path).drop k) <:+ con.uriPath) := by
  constructor
  · intro h k hb hslash
    obtain ⟨hstat, hk⟩ := onlyFile_foundAt hb hslash
    have hafter : prepareFile (onlyFile (con.physical.path.take k)) con =
        some (con.shorten (con.physical.path.take k) ((cstr con.physical.path).drop k)) := by
      unfold prepareFile
      rw [hstat]
      dsimp only
      rw [searchLoop_eq hstat hk]
      rfl
    obtain ⟨r, hr, habort, hsplit⟩ := h (onlyFile (con.physical.path.take k))
    rw [hafter] at hr
    cases hr
    unfold Con.shorten at habort hsplit
    split_ifs at habort hsplit
    · exact absurd rfl habort
    · exact (hsplit _ _ rfl).suffix
  · intro h statCache
    unfold prepareFile
    split
    · rename_i sce _
      split_ifs
      · exact ⟨_, rfl, by simp [Con.refuse], by simp [Con.refuse]⟩
      · exact ⟨_, rfl, by simp, by simp⟩
      · exact ⟨_, rfl, by simp, by simp⟩
    · exact ⟨_, rfl, by simp [Con.refuse], by simp [Con.refuse]⟩
    · exact ⟨_, rfl, by simp [Con.refuse], by simp [Con.refuse]⟩
    · exact ⟨_, rfl, by simp [Con.refuse], by simp [Con.refuse]⟩
    · exact ⟨_, rfl, by simp [Con.refuse], by simp [Con.refuse]⟩
    · rename_i hstat
      obtain ⟨r, hr, hfound⟩ := searchLoop_finds (b := con.physical.basedir.length) hstat
      dsimp only
      rw [hr, Option.map_some]
      refine ⟨_, rfl, ?_⟩
      rcases hfound with ⟨j, sce, hj, rfl⟩ | ⟨hnone, -⟩
      · unfold Con.afterLoop
        dsimp only
        split_ifs
        · exact ⟨by simp [Con.refuse], by simp [Con.refuse]⟩
        · obtain ⟨con', hcon', hlossless⟩ := shorten_lossless hj (h j hj.below hj.slash)
          rw [hcon']
          refine ⟨by simp, fun con'' pathinfo heq => ?_⟩
          cases heq
          exact hlossless
      · unfold Con.afterLoop
        rw [hnone]
        exact ⟨by simp [Con.refuse], by simp [Con.refuse]⟩

/-- Two levels below a file, where the path of the URI is a short one: `mod_magnet` can set `physical.path`. -/
def sampleCon : Con where
  physical := ⟨ascii "/srv", ascii "/x", ascii "/srv", ascii "/srv/file/long/info"⟩
  uriPath := ascii "/x"
  requestUri := ascii "/x"
  pathinfo := []
  httpStatus := 0
  forceLowercaseFilenames := false
  followSymlink := true

/-- More is cut off than there is. -/
theorem pathinfo_underflow : ¬ ∀ statCache, ∃ r, prepareFile statCache sampleCon = some r ∧ r ≠ .abort ∧
    ∀ con' pathinfo, r = .goOn con' (some pathinfo) → Lossless statCache sampleCon con' pathinfo := by
  intro h
  obtain ⟨r, hr, habort, -⟩ := h (onlyFile (ascii "/srv/file"))
  have hstops : prepareFile (onlyFile (ascii "/srv/file")) sampleCon = some .abort := rfl
  rw [hstops] at hr
  cases hr
  exact habort rfl

theorem physicalOf_suffix {con : Con} {conf : Conf} (hphysical : con.physical = physicalOf conf con.uriPath)
    (hlower : conf.forceLowercaseFilenames = false) (hsame : con.forceLowercaseFilenames = false)
    (hroot : con.uriPath.head? = some (chr '/')) (hnul : 0 ∉ con.physical.path) (k : Nat)
    (hb : 0 < con.physical.basedir.length ∧ con.physical.basedir.length ≤ k) :
    requestPathinfo con ((cstr con.physical.path).drop k) <:+ con.uriPath := by
  obtain ⟨behind, hbehind⟩ := List.head?_eq_some_iff.mp hroot
  have hbasedir : con.physical.basedir = conf.documentRoot := by rw [hphysical]; rfl
  have hpath : ∃ u, u <:+ con.uriPath ∧ con.physical.path = conf.documentRoot ++ u := by
    have hcut : con.physical.path = appendSlash conf.documentRoot ++ behind := by
      simp [hphysical, physicalOf, hlower, hbehind]
    unfold appendSlash at hcut
    split_ifs at hcut with hslash
    · exact ⟨con.uriPath, List.suffix_refl _, by rw [hcut, hbehind, List.append_assoc]; rfl⟩
    · exact ⟨behind, hbehind ▸ List.suffix_cons _ _, hcut⟩
  obtain ⟨u, hu, hpath⟩ := hpath
  have hplain : ∀ s, requestPathinfo con s = s := by
    intro s
    simp [requestPathinfo, hsame]
  rw [hplain, cstr_eq_self hnul, hpath, ← hbasedir, List.drop_append,
    List.drop_eq_nil_of_le hb.2, List.nil_append]
  exact (List.drop_suffix _ _).trans hu

end Lighttpd.Pathinfo
