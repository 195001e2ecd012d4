import Lighttpd.Lib.Run
import Lighttpd.StatCache.Entry

/-!
# The stat cache is coherent

- `Coherent`: the invariant: a search tree by hash values, whose entries have been obtained from `stat`;
- `getEntry_spec`, `triggerCleanup_spec`: the two operations;
- `cache_coherent`: every run.
-/

namespace Lighttpd.StatCache

open SplayTree

/-- **The invariant of the cache**, after the lookups `past`. -/
structure Coherent (past : List (Int × FileSystem × Bytes)) (s : State) : Prop where
  sized : s.files.Sized
  sorted : Sorted s.files.toList
  keyed : ∀ k sce, (k, sce) ∈ s.files.toList → ∃ follow, k = fileNdx sce.name follow
  stated : ∀ k sce, (k, sce) ∈ s.files.toList →
    ∃ fs, (sce.statTs, fs, sce.name) ∈ past ∧ fs.stat (cstr sce.name) = some sce.st

theorem coherent_init (curTs : Int) : Coherent [] (State.init curTs) :=
  ⟨trivial, List.Pairwise.nil, nofun, nofun⟩

theorem Coherent.later {past : List (Int × FileSystem × Bytes)} {s : State} (h : Coherent past s)
    (more : List (Int × FileSystem × Bytes)) : Coherent (past ++ more) s where
  sized := h.sized
  sorted := h.sorted
  keyed := h.keyed
  stated k sce hmem := by
    obtain ⟨fs, hpast, hstat⟩ := h.stated k sce hmem
    exact ⟨fs, List.mem_append_left _ hpast, hstat⟩

variable {ν : Type} {t : SplayTree ν} {ndx : Nat}

/-! ## The root -/

theorem rootData_eq_some {d : ν} (h : rootData t ndx = some d) : ∃ l z r, t = .node l ndx z d r := by
  cases t with
  | nil => cases h
  | node l k z d' r =>
    obtain ⟨hk, h⟩ := Option.ite_none_right_eq_some.mp h
    cases h
    exact ⟨l, z, r, by rw [hk]⟩

/-- **A key that the search does not bring to the root is not in the tree.** -/
theorem ne_of_rootData_eq_none (ht : t.Sized) (hsorted : Sorted t.toList) (h : rootData (splaytreeSplay t ndx) ndx = none) :
    ∀ e ∈ t.toList, e.1 ≠ ndx := by
  obtain ⟨rfl, -⟩ | ⟨l, k, z, d, r, heq, hentries, -, hleft, hright⟩ := splay_spec ndx ht hsorted
  · exact nofun
  · rw [splaytreeSplay, heq] at h
    have hk : ndx ≠ k := by
      rintro rfl
      simp [rootData] at h
    exact ne_of_parted hentries hleft hright hk

/-- **An entry is found.** -/
theorem rootData_splay (ht : t.Sized) (hsorted : Sorted t.toList) {d : ν} (hmem : (ndx, d) ∈ t.toList) :
    rootData (splaytreeSplay t ndx) ndx = some d := by
  obtain ⟨rfl, -⟩ | ⟨l, k, z, d', r, heq, hentries, -, hleft, hright⟩ := splay_spec ndx ht hsorted
  · cases hmem
  · rw [← hentries] at hmem
    rw [splaytreeSplay, heq]
    rcases List.mem_append.mp hmem with hmem | hmem
    · exact absurd (hleft _ hmem) (Nat.lt_irrefl _)
    · rcases List.mem_cons.mp hmem with hd | hmem
      · cases hd
        exact if_pos rfl
      · exact absurd (hright _ hmem) (Nat.lt_irrefl _)

theorem sorted_setData {l r : SplayTree ν} {k : Nat} {z z' : Int} {d d' : ν}
    (h : Sorted (.node l k z d r : SplayTree ν).toList) : Sorted (.node l k z' d' r : SplayTree ν).toList := by
  obtain ⟨hl, hr, hlr⟩ := List.pairwise_append.mp h
  obtain ⟨hk, hr⟩ := List.pairwise_cons.mp hr
  refine List.pairwise_append.mpr ⟨hl, List.pairwise_cons.mpr ⟨hk, hr⟩, fun e he e' he' => ?_⟩
  rcases List.mem_cons.mp he' with rfl | he'
  · exact hlr e he (k, d) List.mem_cons_self
  · exact hlr e he e' (List.mem_cons_of_mem _ he')

/-! ## A lookup -/

variable {fs : FileSystem} {conf : Conf} {name : Bytes} {s s' : State} {files : SplayTree Entry}
variable {past : List (Int × FileSystem × Bytes)}

theorem checkFile_stat {st : Stat} (h : checkFile fs name = some st) : fs.stat (cstr name) = some st := by
  obtain ⟨st', hstat, h⟩ := Option.bind_eq_some_iff.mp h
  split_ifs at h
  all_goals
    cases h
    exact hstat

theorem refresh_spec (fs : FileSystem) (conf : Conf) (name : Bytes) (st : Stat) (curTs : Int) (sce : Entry) :
    (refresh fs conf name st curTs sce).name = sce.name ∧ (refresh fs conf name st curTs sce).st = st ∧
    (refresh fs conf name st curTs sce).statTs = curTs := by
  unfold refresh
  dsimp only
  split
  · exact ⟨rfl, rfl, rfl⟩
  · split <;> exact ⟨rfl, rfl, rfl⟩

/-- **The entry for a name is at the root**, and the others are those that were there. -/
theorem placeEntry_spec (hsized : files.Sized) (hsorted : Sorted files.toList)
    (hsplayed : rootData files ndx = none → ∀ e ∈ files.toList, e.1 ≠ ndx) {sce : Option Entry}
    (hsce : sce = (rootData files ndx).filter fun sce => sce.name == name) :
    ∃ e l z d r, placeEntry files ndx name sce = some (e, .node l ndx z d r) ∧ e.name = name ∧
      (.node l ndx z d r : SplayTree Entry).Sized ∧ Sorted (.node l ndx z d r : SplayTree Entry).toList ∧
      (∀ e' ∈ l.toList, e' ∈ files.toList) ∧ ∀ e' ∈ r.toList, e' ∈ files.toList := by
  cases hroot : rootData files ndx with
  | some e₀ =>
    obtain ⟨l, z, r, rfl⟩ := rootData_eq_some hroot
    have hmem : (∀ e' ∈ l.toList, e' ∈ (.node l ndx z e₀ r : SplayTree Entry).toList) ∧
        ∀ e' ∈ r.toList, e' ∈ (.node l ndx z e₀ r : SplayTree Entry).toList :=
      ⟨fun e' he => List.mem_append_left _ he, fun e' he => List.mem_append_right _ (List.mem_cons_of_mem _ he)⟩
    rw [hroot] at hsce
    by_cases hname : e₀.name = name
    · have hsome : sce = some e₀ := by simp [hsce, hname]
      rw [hsome]
      exact ⟨e₀, l, z, e₀, r, rfl, hname, hsized, hsorted, hmem⟩
    · -- a collision: the new entry takes the place of the other one
      have hnone : sce = none := by simp [hsce, hname]
      rw [hnone]
      refine ⟨newEntry name, l, z, newEntry name, r, ?_, rfl, hsized, sorted_setData hsorted, hmem⟩
      unfold placeEntry
      rw [hroot]
      rfl
  | none =>
    have hnone : sce = none := by rw [hsce, hroot]; rfl
    rw [hnone]
    obtain ⟨l, z, r, hins, hsized', hsorted', hentries⟩ := insert_spec (i := ndx) (newEntry name) hsized hsorted
      (hsplayed hroot)
    refine ⟨newEntry name, l, z, newEntry name, r, ?_, rfl, hsized', hsorted', fun e' he => ?_, fun e' he => ?_⟩
    · have hsize : files.size + 1 = (.node l ndx z (newEntry name) r : SplayTree Entry).size := by
        rw [hsized.size_eq, hsized'.size_eq, ← hentries]
        simp [Tree.toList]
        omega
      unfold placeEntry splaytreeInsert
      simp only [hroot, hins]
      rw [if_pos hsize]
    · rw [← hentries]
      exact List.mem_append_left _ he
    · rw [← hentries]
      exact List.mem_append_right _ he

theorem getEntry_eq (files : SplayTree Entry) (sce : Option Entry)
    (hfiles : splaytreeSplay s.files (fileNdx name conf.followSymlink) = files)
    (hsce : (rootData files (fileNdx name conf.followSymlink)).filter (fun sce => sce.name == name) = sce) :
    getEntry fs conf name s =
      if sce.any (fun sce => sce.statTs == s.curTs) && conf.followSymlink then
        sce.map fun sce => (.goOn sce, { s with files := files })
      else
        match checkFile fs name with
        | none => some (.error, { s with files := files })
        | some st =>
          (placeEntry files (fileNdx name conf.followSymlink) name sce).bind fun p =>
            (setData p.2 (refresh fs conf name st s.curTs p.1)).bind fun files =>
              some (.goOn (refresh fs conf name st s.curTs p.1), ⟨files, s.curTs⟩) := by
  subst hfiles hsce
  rfl

/-- **A lookup.** What it returns has the name that has been asked for, and is what `stat` has said of that name in a
lookup of this second. -/
theorem getEntry_spec (h : Coherent past s) (fs : FileSystem) (conf : Conf) (name : Bytes) :
    ∃ out s', getEntry fs conf name s = some (out, s') ∧ Coherent (past ++ [(s.curTs, fs, name)]) s' ∧
      s'.curTs = s.curTs ∧ ∀ sce, out = .goOn sce → sce.name = name ∧ sce.statTs = s.curTs ∧
        ∃ fs', (s.curTs, fs', name) ∈ past ++ [(s.curTs, fs, name)] ∧ fs'.stat (cstr name) = some sce.st := by
  have hlist := toList_splay (fileNdx name conf.followSymlink) h.sized h.sorted
  have hsized := sized_splay (fileNdx name conf.followSymlink) h.sized h.sorted
  have hsplayed : Coherent past { s with files := splaytreeSplay s.files (fileNdx name conf.followSymlink) } := by
    refine ⟨hsized, ?_, ?_, ?_⟩
    · show Sorted (splay s.files _).toList
      rw [hlist]
      exact h.sorted
    · intro k sce hmem
      exact h.keyed k sce (hlist ▸ hmem)
    · intro k sce hmem
      exact h.stated k sce (hlist ▸ hmem)
  generalize hfiles : splaytreeSplay s.files (fileNdx name conf.followSymlink) = files at hsplayed
  have hnew : rootData files (fileNdx name conf.followSymlink) = none →
      ∀ e ∈ files.toList, e.1 ≠ fileNdx name conf.followSymlink := by
    intro hroot e he
    rw [← hfiles] at hroot he
    exact ne_of_rootData_eq_none h.sized h.sorted hroot e (hlist ▸ he)
  generalize hsce : (rootData files (fileNdx name conf.followSymlink)).filter (fun sce => sce.name == name) = sce
  rw [getEntry_eq files sce hfiles hsce]
  by_cases hfresh : (sce.any (fun sce => sce.statTs == s.curTs) && conf.followSymlink) = true
  · -- the entry of this second
    rw [if_pos hfresh]
    rw [Bool.and_eq_true] at hfresh
    obtain ⟨hts, -⟩ := hfresh
    cases sce with
    | none => cases hts
    | some e =>
      have hts : e.statTs = s.curTs := by simpa using hts
      obtain ⟨hroot, hname⟩ := Option.filter_eq_some_iff.mp hsce
      have hname : e.name = name := by simpa using hname
      obtain ⟨l, z, r, rfl⟩ := rootData_eq_some hroot
      obtain ⟨fs', hpast, hstat⟩ := hsplayed.stated _ e (List.mem_append_right _ List.mem_cons_self)
      rw [hname, hts] at hpast
      rw [hname] at hstat
      refine ⟨_, _, rfl, hsplayed.later _, rfl, fun e' he' => ?_⟩
      cases he'
      exact ⟨hname, hts, fs', List.mem_append_left _ hpast, hstat⟩
  · rw [if_neg hfresh]
    cases hcheck : checkFile fs name with
    | none => exact ⟨_, _, rfl, hsplayed.later _, rfl, fun e he => by cases he⟩
    | some st =>
      have hstat := checkFile_stat hcheck
      obtain ⟨e, l, z, d, r, hplace, hname, hsized', hsorted', hl, hr⟩ :=
        placeEntry_spec hsplayed.sized hsplayed.sorted hnew hsce.symm
      obtain ⟨hrname, hrst, hrts⟩ := refresh_spec fs conf name st s.curTs e
      simp only [hplace, Option.bind_some, setData]
      refine ⟨_, _, rfl, ⟨hsized', sorted_setData hsorted', ?_, ?_⟩, rfl, fun e' he' => ?_⟩
      · intro k sce' hmem
        rcases List.mem_append.mp hmem with hmem | hmem
        · exact hsplayed.keyed k sce' (hl _ hmem)
        · rcases List.mem_cons.mp hmem with heq | hmem
          · cases heq
            exact ⟨conf.followSymlink, by rw [hrname, hname]⟩
          · exact hsplayed.keyed k sce' (hr _ hmem)
      · intro k sce' hmem
        rcases List.mem_append.mp hmem with hmem | hmem
        · exact (hsplayed.later _).stated k sce' (hl _ hmem)
        · rcases List.mem_cons.mp hmem with heq | hmem
          · cases heq
            rw [hrname, hname, hrst, hrts]
            exact ⟨fs, List.mem_concat_self, hstat⟩
          · exact (hsplayed.later _).stated k sce' (hr _ hmem)
      · cases he'
        exact ⟨hrname.trans hname, hrts, fs, List.mem_concat_self, by rw [hrst]; exact hstat⟩

/-! ## A cleanup -/

theorem mem_tagOldEntries {curTs : Int} {files : SplayTree Entry} {k : Nat} :
    k ∈ tagOldEntries curTs files ↔ ∃ sce, (k, sce) ∈ files.toList ∧ curTs - sce.statTs > 2 := by
  induction files with
  | nil => simp [tagOldEntries, Tree.toList]
  | node l k' z sce r ihl ihr =>
    rw [tagOldEntries, List.mem_append, List.mem_append, ihl, ihr]
    constructor
    · rintro ((⟨e, he, hold⟩ | ⟨e, he, hold⟩) | hk)
      · exact ⟨e, List.mem_append_left _ he, hold⟩
      · exact ⟨e, List.mem_append_right _ (List.mem_cons_of_mem _ he), hold⟩
      · split at hk
        · rename_i hold
          exact ⟨sce, by rw [List.mem_singleton.mp hk]; exact List.mem_append_right _ List.mem_cons_self, hold⟩
        · cases hk
    · rintro ⟨e, he, hold⟩
      rcases List.mem_append.mp he with he | he
      · exact .inl (.inl ⟨e, he, hold⟩)
      · rcases List.mem_cons.mp he with heq | he
        · cases heq
          exact .inr (by simp [hold])
        · exact .inl (.inr ⟨e, he, hold⟩)

theorem length_tagOldEntries (curTs : Int) (files : SplayTree Entry) :
    (tagOldEntries curTs files).length ≤ files.toList.length := by
  induction files with
  | nil => exact Nat.le_refl _
  | node l k z sce r ihl ihr =>
    rw [tagOldEntries, Tree.toList, List.length_append, List.length_append, List.length_append, List.length_cons]
    split <;> simp <;> omega

theorem removeKey_spec (ht : files.Sized) (hsorted : Sorted files.toList) (ndx : Nat) :
    (removeKey files ndx).Sized ∧ (removeKey files ndx).toList = files.toList.filter fun e => e.1 ≠ ndx := by
  have hlist := toList_splay ndx ht hsorted
  have hsized := sized_splay ndx ht hsorted
  unfold removeKey
  cases hroot : rootData (splaytreeSplay files ndx) ndx with
  | some d =>
    have hdelete := delete_spec ndx hsized (by rw [hlist]; exact hsorted)
    rw [hlist] at hdelete
    simp only [hroot]
    exact hdelete
  | none =>
    simp only [hroot]
    refine ⟨hsized, hlist.trans (List.filter_eq_self.mpr fun e he => ?_).symm⟩
    simpa using ne_of_rootData_eq_none ht hsorted hroot e he

/-- **The keys are removed.** -/
theorem removeKeys_spec (keys : List Nat) {files : SplayTree Entry} (ht : files.Sized) (hsorted : Sorted files.toList) :
    (keys.foldl removeKey files).Sized ∧
    (keys.foldl removeKey files).toList = files.toList.filter fun e => e.1 ∉ keys := by
  induction keys generalizing files with
  | nil => exact ⟨ht, by simp⟩
  | cons k keys ih =>
    obtain ⟨hsized, hlist⟩ := removeKey_spec ht hsorted k
    obtain ⟨hsized', hlist'⟩ := ih hsized (by rw [hlist]; exact hsorted.filter _)
    refine ⟨hsized', ?_⟩
    rw [List.foldl_cons, hlist', hlist, List.filter_filter]
    refine List.filter_congr fun e _ => ?_
    by_cases h : e.1 = k <;> simp [h]

theorem eq_of_sorted (hsorted : Sorted t.toList) {k : Nat} {d d' : ν} (ht : t.Sized) (h : (k, d) ∈ t.toList)
    (h' : (k, d') ∈ t.toList) : d = d' :=
  Option.some.inj ((rootData_splay ht hsorted h).symm.trans (rootData_splay ht hsorted h'))

/-- **A cleanup** leaves the entries that are not older than two seconds, and no others. -/
theorem triggerCleanup_spec (h : Coherent past s) : ∃ s', triggerCleanup s = some s' ∧ Coherent past s' ∧
    s'.curTs = s.curTs ∧ ∀ k sce, (k, sce) ∈ s'.files.toList ↔ (k, sce) ∈ s.files.toList ∧ s.curTs - sce.statTs ≤ 2 := by
  obtain ⟨hsized, hlist⟩ := removeKeys_spec (tagOldEntries s.curTs s.files) h.sized h.sorted
  have hlength : ((tagOldEntries s.curTs s.files).length : Int) ≤ s.files.size := by
    rw [h.sized.size_eq]
    exact Int.ofNat_le.mpr (length_tagOldEntries s.curTs s.files)
  have hmem : ∀ k sce, (k, sce) ∈ ((tagOldEntries s.curTs s.files).foldl removeKey s.files).toList ↔
      (k, sce) ∈ s.files.toList ∧ s.curTs - sce.statTs ≤ 2 := by
    intro k sce
    rw [hlist, List.mem_filter]
    refine and_congr_right fun hk => ?_
    rw [decide_eq_true_eq, mem_tagOldEntries]
    constructor
    · intro hno
      by_contra hold
      exact hno ⟨sce, hk, by omega⟩
    · rintro hyoung ⟨sce', hk', hold⟩
      rw [eq_of_sorted h.sorted h.sized hk hk'] at hyoung
      omega
  refine ⟨_, if_pos hlength, ⟨hsized, ?_, ?_, ?_⟩, rfl, hmem⟩
  · show Sorted ((tagOldEntries s.curTs s.files).foldl removeKey s.files).toList
    rw [hlist]
    exact h.sorted.filter _
  · intro k sce hk
    exact h.keyed k sce ((hmem k sce).mp hk).1
  · intro k sce hk
    exact h.stated k sce ((hmem k sce).mp hk).1

/-! ## Runs -/

/-- No step fails, and each one keeps the invariant. -/
theorem step_spec (h : Coherent past s) (op : Op) : ∃ s', step s op = some s' ∧
    Coherent (past ++ lookups s.curTs [op]) s' ∧ ∀ ops, lookups s.curTs (op :: ops) = lookups s.curTs [op] ++
      lookups s'.curTs ops := by
  cases op with
  | getEntry fs conf name =>
    obtain ⟨out, s', hget, h', hts, -⟩ := getEntry_spec h fs conf name
    exact ⟨s', by simp [step, hget], h', fun ops => by rw [hts]; rfl⟩
  | cleanup =>
    obtain ⟨s', hclean, h', hts, -⟩ := triggerCleanup_spec h
    exact ⟨s', hclean, h'.later _, fun ops => by rw [hts]; rfl⟩
  | advance n =>
    have h' : Coherent past { s with curTs := s.curTs + n } := ⟨h.sized, h.sorted, h.keyed, h.stated⟩
    exact ⟨_, rfl, h'.later _, fun ops => rfl⟩

theorem run_spec (h : Coherent past s) (ops : List Op) : ∃ s', Run.run step s ops = some s' ∧
    Coherent (past ++ lookups s.curTs ops) s' ∧ ∀ more, lookups s.curTs (ops ++ more) = lookups s.curTs ops ++
      lookups s'.curTs more := by
  induction ops generalizing s past with
  | nil => exact ⟨s, rfl, h.later _, fun more => rfl⟩
  | cons op ops ih =>
    obtain ⟨s₁, hstep, h₁, hlook⟩ := step_spec h op
    obtain ⟨s', hrun, h', hmore⟩ := ih h₁
    refine ⟨s', by rw [Run.run_cons, hstep]; exact hrun, ?_, fun more => ?_⟩
    · rw [hlook, ← List.append_assoc]
      exact h'
    · rw [List.cons_append, hlook (ops ++ more), hlook ops, hmore, List.append_assoc]

/-- **The stat cache is coherent in every run.** No assertion fails. The splay tree is a search tree by hash values, with
one entry for a value. A lookup that goes on returns an entry with the name that has been asked for, whose data are what
`stat` has answered for that name in a lookup of this second. After a cleanup there is no entry older than two seconds, and
the younger ones are found. -/
theorem cache_coherent (curTs : Int) (ops : List Op) : ∃ s, Run.run step (State.init curTs) ops = some s ∧
    s.files.Sized ∧ Sorted s.files.toList ∧
    (∀ k sce, (k, sce) ∈ s.files.toList → ∃ follow, k = fileNdx sce.name follow) ∧
    (∀ fs conf name, ∃ out s', getEntry fs conf name s = some (out, s') ∧ ∀ sce, out = .goOn sce →
      sce.name = name ∧ sce.statTs = s.curTs ∧
      ∃ fs', (s.curTs, fs', name) ∈ lookups curTs (ops ++ [.getEntry fs conf name]) ∧
        fs'.stat (cstr name) = some sce.st) ∧
    ∃ s', triggerCleanup s = some s' ∧ (∀ k sce, (k, sce) ∈ s'.files.toList → s.curTs - sce.statTs ≤ 2) ∧
      ∀ k sce, (k, sce) ∈ s.files.toList → s.curTs - sce.statTs ≤ 2 →
        rootData (splaytreeSplay s'.files k) k = some sce := by
  obtain ⟨s, hrun, h, hmore⟩ := run_spec (coherent_init curTs) ops
  rw [List.nil_append] at h
  refine ⟨s, hrun, h.sized, h.sorted, h.keyed, fun fs conf name => ?_, ?_⟩
  · obtain ⟨out, s', hget, -, -, hout⟩ := getEntry_spec h fs conf name
    refine ⟨out, s', hget, fun sce hsce => ?_⟩
    rw [show lookups curTs (ops ++ [.getEntry fs conf name]) = lookups curTs ops ++ [(s.curTs, fs, name)] from hmore _]
    exact hout sce hsce
  · obtain ⟨s', hclean, h', -, hmem⟩ := triggerCleanup_spec h
    refine ⟨s', hclean, fun k sce hk => ((hmem k sce).mp hk).2, fun k sce hk hyoung => ?_⟩
    exact rootData_splay h'.sized h'.sorted ((hmem k sce).mpr ⟨hk, hyoung⟩)

end Lighttpd.StatCache
