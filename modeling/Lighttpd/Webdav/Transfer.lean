import Lighttpd.Webdav.Copy

/-!
# What is copied

`webdav_copy_dir` passes over some files of the source without an error. A file is where it belongs afterwards if and only
if it is not passed over, or has been there before. This is so as long as nothing of the source is written to (`Clear`).

- `copyLoop_complete`, `copyFile_spec`: one file;
- `Clear.source_kept`: the source stays what it is;
- `copyNames_spec`: a directory, by induction on its entries.
-/

namespace Lighttpd.Webdav

open FileTree Slot

/-! ## What is passed over -/

/-- What `webdav_copy_file` makes of a destination that is not the source. -/
def copyInto (e : Env) (q : Path) (content : Bytes) (s : Slot) : Nat × Slot :=
  if e.failing (.openSource q) then (403, s)
  else
    match openSlot (e.pattern.fails (.openDest q)) e.overwrite s with
    | .error errno => (openStatus errno, s)
    | .ok _ => ((copyContent e q content).1, .entry (some (.file (copyContent e q content).2)))

/-- **A file is passed over** on the way from `q`, whose slot in the destination is `s`, along a path: a `stat` fails, or
there is no directory in the destination, or a directory below another one is not entered. -/
def Skips (e : Env) : Path → Slot → Path → Prop
  | q, _, [] => e.failing (.statSource q) = true
  | q, s, n :: p =>
    e.failing (.statSource q) = true ∨ mkdirFailed (e.mkdir q s).1 = true ∨
    e.usePropPatch = false ∨ e.failing (.opendir q) = true ∨
    Skips e (q ++ [n]) ((e.mkdir q s).2.below n) p

/-- The copy of a file that is reached in this way fails. -/
def Breaks (e : Env) (content : Bytes) : Path → Slot → Path → Prop
  | q, s, [] => (copyInto e q content s).1 ≠ 0
  | q, s, n :: p => Breaks e content (q ++ [n]) ((e.mkdir q s).2.below n) p

variable {e : Env} {q : Path} {s s' : Slot} {content : Bytes}

/-! ## One file -/

theorem readSome_ok {rest data : Bytes} {io io' : List Io} (h : readSome rest io = (.ok data, io')) :
    data <+: rest ∧ (data = [] → rest = []) := by
  unfold readSome at h
  split at h
  · cases h
    exact ⟨List.take_prefix _ _, by simp⟩
  · cases h
    exact ⟨List.take_prefix _ _, by simp⟩
  · cases h

theorem writeAll_complete {data written : Bytes} {io io' : List Io} (h : writeAll data io = (none, written, io')) :
    written = data := by
  fun_induction writeAll data io generalizing written with
  | case1 data =>
    cases h
    rfl
  | case2 data n io hn =>
    cases h
    rfl
  | case3 data n io hn err w io' hw ih =>
    cases h
    rw [ih hw, List.take_append_drop]
  | case4 data io ih => exact ih h
  | case5 data e io he => cases h

/-- **What has been written is the whole file**, if there was no error. -/
theorem copyLoop_complete {fuel : Nat} {rest written : Bytes} {io : List Io} (h : copyLoop fuel rest io = (0, written)) :
    written = rest := by
  induction fuel generalizing rest written io with
  | zero => cases h
  | succ fuel ih =>
    unfold copyLoop at h
    split at h
    · cases h
    · rename_i io' hread
      cases h
      exact ((readSome_ok hread).2 rfl).symm
    · rename_i data io' hne hread
      obtain ⟨⟨tail, htail⟩, -⟩ := readSome_ok hread
      split at h
      · split at h <;> cases h
      · rename_i w io'' hwrite
        rw [← htail, List.drop_left] at h
        generalize hmore : copyLoop fuel tail io'' = more at h
        obtain ⟨status, more⟩ := more
        cases h
        rw [writeAll_complete hwrite, ih hmore, htail]

theorem copyContent_complete (h : (copyContent e q content).1 = 0) : (copyContent e q content).2 = content := by
  unfold copyContent at *
  generalize hloop : copyLoop (content.length + 1) content (e.pattern.io q) = out at *
  obtain ⟨status, written⟩ := out
  have hstatus : status = 0 := by
    dsimp only at h
    split at h
    · by_contra hne
      dsimp only at h
      rw [if_neg hne] at h
      exact hne h
    · exact h
  rw [hstatus] at hloop
  rw [← copyLoop_complete hloop]
  dsimp only
  split <;> rfl

/-- No file can be opened there for writing: there is a directory, or there cannot be anything. -/
def Shut : Slot → Prop
  | .noDir _ => True
  | .entry (some (.dir _)) => True
  | .entry _ => False

theorem openSlot_ok {inj : Option Errno} {overwrite : Bool} (h : openSlot inj overwrite s = .ok s') :
    ¬ Shut s ∧ s.Follows s' := by
  unfold openSlot at h
  split at h
  · cases h
  · cases h
  · cases h
    exact ⟨id, _, rfl⟩
  · split at h
    · cases h
    · split at h
      · cases h
        exact ⟨id, _, rfl⟩
      · cases h

theorem entry_of_open (h : ¬ Shut s) : ∃ k, s = .entry k := by
  cases s with
  | noDir why => exact absurd trivial h
  | entry k => exact ⟨k, rfl⟩

theorem openStatus_ne (errno : Errno) : openStatus errno ≠ 0 := by
  cases errno <;> decide

/-- **One file is copied.** -/
theorem copyInto_spec (e : Env) (q : Path) (content : Bytes) (s : Slot) :
    s.Follows (copyInto e q content s).2 ∧ (Shut s → (copyInto e q content s).2 = s) ∧
    ((copyInto e q content s).1 = 0 → (copyInto e q content s).2 = .entry (some (.file content))) := by
  unfold copyInto
  split
  · exact ⟨Follows.refl s, fun _ => rfl, fun h => by cases h⟩
  · split
    · exact ⟨Follows.refl s, fun _ => rfl, fun h => absurd h (openStatus_ne _)⟩
    · rename_i s' hopen
      obtain ⟨hshut, hfollows⟩ := openSlot_ok hopen
      obtain ⟨k, rfl⟩ := entry_of_open hshut
      exact ⟨⟨_, rfl⟩, fun h => absurd h hshut, fun h => by rw [copyContent_complete h]⟩

section OneFile

variable {src dst : Path} {fs fs' : Slot}

/-- Where a file can be opened for writing, that is not above another file, nor below it. -/
theorem apart_of_open (hsrc : fs.get src = some (.file content)) (hne : src ≠ dst) (hopen : ¬ Shut (fs.lookup dst)) :
    Apart dst src := by
  have hsrc := get_eq_some.mp hsrc
  constructor
  · rintro ⟨p, rfl⟩
    cases p with
    | nil => exact hne (List.append_nil dst)
    | cons n p =>
      rw [lookup_append] at hsrc
      obtain ⟨es, hes⟩ := dir_of_lookup hsrc
      rw [hes] at hopen
      exact hopen trivial
  · rintro ⟨p, rfl⟩
    cases p with
    | nil => exact hne (List.append_nil src).symm
    | cons n p =>
      rw [lookup_append, hsrc, lookup_cons, below, lookup_noDir] at hopen
      exact hopen trivial

/-- **One file is copied** to another path. -/
theorem copyFile_spec (e : Env) (q : Path) (hsrc : fs.get src = some (.file content)) (hne : src ≠ dst) :
    (copyFile e q src dst fs).1 = (copyInto e q content (fs.lookup dst)).1 ∧
    fs.Written dst (copyInto e q content (fs.lookup dst)).2 (copyFile e q src dst fs).2 ∧
    (copyFile e q src dst fs).2.get src = some (.file content) := by
  unfold copyFile copyInto
  split
  · exact ⟨rfl, .refl fs dst, hsrc⟩
  · cases hopen : openSlot (e.pattern.fails (.openDest q)) e.overwrite (fs.lookup dst) with
    | error errno => exact ⟨rfl, .refl fs dst, hsrc⟩
    | ok s =>
      obtain ⟨hshut, hfollows⟩ := openSlot_ok hopen
      have hapart := apart_of_open hsrc hne hshut
      have hemptied := written_update hfollows
      have hcontent : (fs.update dst s).get src = some (.file content) := by
        rw [Slot.get, hemptied.frame src hapart]
        exact hsrc
      have hwritten : (fs.update dst s).Written dst (.entry (some (.file (copyContent e q content).2)))
          ((fs.update dst s).update dst (.entry (some (.file (copyContent e q content).2)))) := by
        obtain ⟨k, hk⟩ := entry_of_open hshut
        rw [hk] at hfollows
        obtain ⟨k', rfl⟩ := hfollows
        exact written_entry hemptied.here _
      dsimp only
      rw [hcontent, contentOf]
      refine ⟨rfl, hemptied.trans hwritten, ?_⟩
      rw [Slot.get, hwritten.frame src hapart]
      exact hcontent

end OneFile

/-! ## A directory -/

abbrev atPath (k : Node) (p : Path) : Option Node := (Slot.entry (some k)).get p

/-- What has become of a file of the source that is not in the way of an error: if it is passed over, its place is what it
was, and else it is there. -/
structure Done (e : Env) (q : Path) (s s' : Slot) (p : Path) (c : Bytes) : Prop where
  skipped : Skips e q s p → s'.get p = s.get p
  copied : ¬ Skips e q s p → s'.get p = some (.file c)

/-- What has happened to a node: the copy stops if and only if a file cannot be copied. -/
structure Copied (e : Env) (q : Path) (k : Node) (s : Slot) (status : Nat) (s' : Slot) : Prop where
  stops : status ≠ 0 ↔ ∃ p c, atPath k p = some (.file c) ∧ ¬ Skips e q s p ∧ Breaks e c q s p
  done : status = 0 → ∀ p c, atPath k p = some (.file c) → Done e q s s' p c

/-- What has happened to the entries of a directory. -/
structure CopiedAll (e : Env) (q : Path) (es : Entries) (d : Slot) (status : Nat) (d' : Slot) : Prop where
  frame : ∀ m, m ∉ es.names → d'.below m = d.below m
  stops : status ≠ 0 ↔ ∃ n p c, atPath (.dir es) (n :: p) = some (.file c) ∧ ¬ Skips e (q ++ [n]) (d.below n) p ∧
    Breaks e c (q ++ [n]) (d.below n) p
  done : status = 0 → ∀ n p c, atPath (.dir es) (n :: p) = some (.file c) →
    Done e (q ++ [n]) (d.below n) (d'.below n) p c

theorem copiedAll_nil (d : Slot) : CopiedAll e q .nil d 0 d := by
  have hno : ∀ (n : Name) (p : Path), atPath (.dir .nil) (n :: p) = none := by
    intro n p
    cases p with
    | nil => rfl
    | cons m p => exact get_absent m p
  refine ⟨fun m _ => rfl, by simp [hno], fun _ n p c h => ?_⟩
  rw [hno] at h
  cases h

/-- Nothing is copied, and every file is passed over. -/
theorem copied_of_skips {k : Node} (hskips : ∀ p c, atPath k p = some (.file c) → Skips e q s p ∧ s'.get p = s.get p) :
    Copied e q k s 0 s' := by
  refine ⟨⟨fun h => absurd rfl h, ?_⟩, fun _ p c hget => ⟨fun _ => (hskips p c hget).2, fun hno => ?_⟩⟩
  · rintro ⟨p, c, hget, hno, -⟩
    exact absurd (hskips p c hget).1 hno
  · exact absurd (hskips p c hget).1 hno

theorem copied_of_stat (h : e.failing (.statSource q) = true) (k : Node) (s : Slot) : Copied e q k s 0 s := by
  refine copied_of_skips fun p c _ => ⟨?_, rfl⟩
  cases p with
  | nil => exact h
  | cons n p => exact .inl h

theorem names_cons (es : Entries) (n : Name) (k : Node) : (es.cons n k).names = n :: es.names := by
  cases k <;> rfl

section Cons

variable {es : Entries} {n : Name} {k : Node} {d d₁ d' : Slot} {status : Nat}

/-- **An entry has been copied, and then the others.** -/
theorem copiedAll_cons (hn : n ∉ es.names) (hk : Copied e (q ++ [n]) k (d.below n) 0 (d₁.below n))
    (hframe : ∀ m, n ≠ m → d₁.below m = d.below m) (hes : CopiedAll e q es d₁ status d') :
    CopiedAll e q (es.cons n k) d status d' := by
  have hhere : d'.below n = d₁.below n := hes.frame n hn
  refine ⟨fun m hm => ?_, ?_, fun hstatus m p c hget => ?_⟩
  · rw [names_cons, List.mem_cons, not_or] at hm
    rw [hes.frame m hm.2, hframe m (Ne.symm hm.1)]
  · rw [hes.stops]
    constructor
    · rintro ⟨m, p, c, hget, hskips, hbreaks⟩
      have hne : n ≠ m := by
        rintro rfl
        rw [atPath, get_cons, below, (es.find_eq_none).mpr hn] at hget
        cases p with
        | nil => cases hget
        | cons m p => simp at hget
      rw [hframe m hne] at hskips hbreaks
      exact ⟨m, p, c, by rw [atPath, get_entry, if_neg hne]; exact hget, hskips, hbreaks⟩
    · rintro ⟨m, p, c, hget, hskips, hbreaks⟩
      rw [atPath, get_entry] at hget
      by_cases hne : n = m
      · subst hne
        rw [if_pos rfl] at hget
        exact absurd rfl (hk.stops.mpr ⟨p, c, hget, hskips, hbreaks⟩)
      · rw [if_neg hne] at hget
        rw [← hframe m hne] at hskips hbreaks
        exact ⟨m, p, c, hget, hskips, hbreaks⟩
  · rw [atPath, get_entry] at hget
    by_cases hne : n = m
    · subst hne
      rw [if_pos rfl] at hget
      rw [hhere]
      exact hk.done rfl p c hget
    · rw [if_neg hne] at hget
      rw [← hframe m hne]
      exact hes.done hstatus m p c hget

theorem copiedAll_stop (hk : Copied e (q ++ [n]) k (d.below n) status (d₁.below n)) (hstatus : status ≠ 0)
    (hframe : ∀ m, n ≠ m → d₁.below m = d.below m) : CopiedAll e q (es.cons n k) d status d₁ := by
  refine ⟨fun m hm => ?_, ⟨fun _ => ?_, fun _ => hstatus⟩, fun h => absurd h hstatus⟩
  · rw [names_cons, List.mem_cons, not_or] at hm
    exact hframe m (Ne.symm hm.1)
  · obtain ⟨p, c, hget, h⟩ := hk.stops.mp hstatus
    exact ⟨n, p, c, by rw [atPath, get_entry, if_pos rfl]; exact hget, h⟩

end Cons

theorem file_only {p : Path} {c : Bytes} (h : atPath (.file content) p = some (.file c)) : p = [] ∧ c = content := by
  cases p with
  | nil =>
    cases h
    exact ⟨rfl, rfl⟩
  | cons n p => simp at h

theorem dir_file {es : Entries} {p : Path} {c : Bytes} (h : atPath (.dir es) p = some (.file c)) : ∃ n p', p = n :: p' := by
  cases p with
  | nil => cases h
  | cons n p => exact ⟨n, p, rfl⟩

/-- **A file of a directory.** -/
theorem copied_file (h : e.failing (.statSource q) = false) (content : Bytes) (s : Slot) :
    Copied e q (.file content) s (copyInto e q content s).1 (copyInto e q content s).2 := by
  have hno : ¬ Skips e q s [] := by simp [Skips, h]
  refine ⟨⟨fun hstatus => ⟨[], content, rfl, hno, hstatus⟩, ?_⟩, fun hstatus p c hget => ?_⟩
  · rintro ⟨p, c, hget, -, hbreaks⟩
    obtain ⟨rfl, rfl⟩ := file_only hget
    exact hbreaks
  · obtain ⟨rfl, rfl⟩ := file_only hget
    refine ⟨fun hskips => absurd hskips hno, fun _ => ?_⟩
    rw [(copyInto_spec e q c s).2.2 hstatus]
    rfl

theorem mkdirSlot_follows (inj : Option Errno) (s : Slot) : s.Follows (mkdirSlot inj s).2 := by
  unfold mkdirSlot
  split
  · exact .refl _
  · exact .refl _
  · exact ⟨_, rfl⟩
  · exact .refl _

theorem get_mkdirSlot (inj : Option Errno) (s : Slot) (n : Name) (p : Path) :
    (mkdirSlot inj s).2.get (n :: p) = s.get (n :: p) := by
  unfold mkdirSlot
  split
  · rfl
  · rfl
  · rw [get_absent, get_cons, below, Entries.find]
    cases p with
    | nil => rfl
    | cons m p => exact get_absent m p
  · rfl

/-- A directory that is there stays what it is. -/
theorem mkdirSlot_dir (inj : Option Errno) (es : Entries) :
    (mkdirSlot inj (.entry (some (.dir es)))).2 = .entry (some (.dir es)) := by
  cases inj <;> rfl

/-- **A directory of a directory.** -/
theorem copied_dir {es : Entries} {status : Nat} {sub : Slot} (h : e.failing (.statSource q) = false)
    (hmkdir : mkdirFailed (e.mkdir q s).1 = false) (huse : e.usePropPatch = true)
    (hopen : e.failing (.opendir q) = false)
    (hsub : CopiedAll e q es (e.mkdir q s).2 status sub) :
    Copied e q (.dir es) s status sub := by
  have hskips : ∀ n p, Skips e q s (n :: p) ↔
      Skips e (q ++ [n]) ((e.mkdir q s).2.below n) p := by
    intro n p
    simp [Skips, h, hmkdir, huse, hopen]
  refine ⟨?_, fun hstatus p c hget => ?_⟩
  · rw [hsub.stops]
    constructor
    · rintro ⟨n, p, c, hget, hp, hb⟩
      exact ⟨n :: p, c, hget, fun h => hp ((hskips n p).mp h), hb⟩
    · rintro ⟨p, c, hget, hp, hb⟩
      obtain ⟨n, p, rfl⟩ := dir_file hget
      exact ⟨n, p, c, hget, fun h => hp ((hskips n p).mpr h), hb⟩
  · obtain ⟨n, p, rfl⟩ := dir_file hget
    have hdone := hsub.done hstatus n p c hget
    refine ⟨fun hp => ?_, fun hp => hdone.copied fun h => hp ((hskips n p).mpr h)⟩
    rw [← get_mkdirSlot (e.pattern.fails (.mkdir q)) s, get_cons, get_cons]
    exact hdone.skipped ((hskips n p).mp hp)

theorem copied_dir_skipped {es : Entries} (hskips : ∀ n p, Skips e q s (n :: p)) :
    Copied e q (.dir es) s 0 (e.mkdir q s).2 := by
  refine copied_of_skips fun p c hget => ?_
  obtain ⟨n, p, rfl⟩ := dir_file hget
  exact ⟨hskips n p, get_mkdirSlot _ s n p⟩

/-! ## The source is not written to -/

/-- **A directory can be copied**: the destination is not in it, and from a destination above it no directory of the
source leads back to it. -/
structure Clear (src dst : Path) (top : Entries) : Prop where
  outside : ¬ src <+: dst
  back : ∀ p es, src = dst ++ p → atPath (.dir top) p ≠ some (.dir es)

section Clear

variable {src dst : Path} {top es : Entries} {fs fs' fs'' : Slot} {k : Node} {p : Path} {n : Name} {status : Nat}
variable {t : Slot} {all : Entries}

/-- A directory above the source is only written into. -/
theorem kept_above (htop : fs.lookup src = .entry (some (.dir top))) (hw : fs.Written p t fs')
    (hdir : ∀ es, fs.lookup p = .entry (some (.dir es)) → t = fs.lookup p) (h : p <+: src ∨ Apart p src) :
    fs'.lookup src = fs.lookup src := by
  rcases h with ⟨z, rfl⟩ | hapart
  · have hes : ∃ es, fs.lookup p = .entry (some (.dir es)) := by
      rw [lookup_append] at htop
      cases z with
      | nil => exact ⟨top, htop⟩
      | cons n z => exact dir_of_lookup htop
    obtain ⟨es, hes⟩ := hes
    rw [lookup_append, lookup_append fs, hw.here, hdir es hes]
  · exact hw.frame src hapart

/-- **Where a path of the source is copied to** is above the source, or apart from it. -/
theorem Clear.above_or_apart (h : Clear src dst top) (hk : atPath (.dir top) p = some k) :
    dst ++ p <+: src ∨ Apart (dst ++ p) src := by
  by_cases hapart : Apart (dst ++ p) src
  · exact .inr hapart
  · rw [Apart, not_and_or, not_not, not_not] at hapart
    rcases hapart with habove | hpre
    · exact .inl habove
    · rcases List.prefix_or_prefix_of_prefix hpre (List.prefix_append dst p) with hsrc | ⟨r, rfl⟩
      · exact absurd hsrc h.outside
      · obtain ⟨z, rfl⟩ := (List.prefix_append_right_inj dst).mp hpre
        cases z with
        | nil =>
          rw [List.append_nil]
          exact .inl (List.prefix_refl _)
        | cons m z =>
          rw [atPath, get_eq_some, lookup_append] at hk
          obtain ⟨es, hes⟩ := dir_of_lookup hk
          exact absurd (get_eq_some.mpr hes) (h.back r es rfl)

/-- **What is written in the course of a copy is not in the source.** -/
theorem Clear.source_kept (h : Clear src dst top) (htop : fs.lookup src = .entry (some (.dir top)))
    (hk : atPath (.dir top) p = some k) (hw : fs.Written (dst ++ p) t fs')
    (hdir : ∀ es, fs.lookup (dst ++ p) = .entry (some (.dir es)) → t = fs.lookup (dst ++ p)) :
    fs'.lookup src = fs.lookup src :=
  kept_above htop hw hdir (h.above_or_apart hk)

/-- An entry that the loop finds in the source. -/
theorem entry_found (htop : fs.lookup src = .entry (some (.dir top)))
    (hq : atPath (.dir top) q = some (.dir all)) (hk : all.find n = some k) :
    atPath (.dir top) (q ++ [n]) = some k ∧ fs.lookup (src ++ (q ++ [n])) = .entry (some k) := by
  have hnode : atPath (.dir top) (q ++ [n]) = some k := by
    rw [atPath, get_append, get_eq_some.mp hq, get_cons, below, hk]
    rfl
  rw [lookup_append, htop]
  exact ⟨hnode, get_eq_some.mp hnode⟩

theorem find_rest (hn : n ∉ es.names) (hall : ∀ m ∈ (es.cons n k).names, all.find m = (es.cons n k).find m) :
    all.find n = some k ∧ ∀ m ∈ es.names, all.find m = es.find m := by
  rw [names_cons] at hall
  refine ⟨?_, fun m hm => ?_⟩
  · rw [hall n List.mem_cons_self, Entries.find_cons, if_pos rfl]
  · rw [hall m (List.mem_cons_of_mem n hm), Entries.find_cons, if_neg (by rintro rfl; exact hn hm)]

/-- What has happened to the file system. -/
structure Copies (e : Env) (src dst q : Path) (es : Entries) (fs : Slot) (out : Nat × Slot) : Prop where
  all : CopiedAll e q es (fs.lookup (dst ++ q)) out.1 (out.2.lookup (dst ++ q))
  written : fs.Written (dst ++ q) (out.2.lookup (dst ++ q)) out.2
  source : out.2.lookup src = fs.lookup src

/-- **An entry is copied**, and then the others if that has not failed. -/
theorem copies_entry {rest : Nat × Slot} (hn : n ∉ es.names)
    (hk : Copied e (q ++ [n]) k (fs.lookup (dst ++ (q ++ [n]))) status t) (hw : fs.Written (dst ++ (q ++ [n])) t fs')
    (hsrc : fs'.lookup src = fs.lookup src) (h : Copies e src dst q es fs' rest) :
    Copies e src dst q (es.cons n k) fs (if status ≠ 0 then (status, fs') else rest) := by
  rw [← List.append_assoc] at hk hw
  rw [lookup_concat, ← hw.below_self] at hk
  by_cases hstatus : status = 0
  · rw [if_neg (not_not_intro hstatus)]
    rw [hstatus] at hk
    exact ⟨copiedAll_cons hn hk (fun m hm => hw.below_ne hm) h.all, hw.above.trans h.written, h.source.trans hsrc⟩
  · rw [if_pos hstatus]
    exact ⟨copiedAll_stop hk hstatus (fun m hm => hw.below_ne hm), hw.above, hsrc⟩

/-- **The loop over a directory**: as long as `depth` is not less than its height, all of it is visited. -/
theorem copyNames_spec (e : Env) (h : Clear src dst top) (hes : es.Distinct) {depth : Nat} (hdepth : es.height ≤ depth)
    (q : Path) (htop : fs.lookup src = .entry (some (.dir top))) (hq : atPath (.dir top) q = some (.dir all))
    (hall : ∀ m ∈ es.names, all.find m = es.find m) :
    Copies e src dst q es fs (copyNames e src dst (fun p fs => copyDir e src dst depth p fs) q es.names fs) := by
  induction es generalizing depth q all fs with
  | nil => exact ⟨copiedAll_nil _, .refl fs _, rfl⟩
  | file n content rest ih =>
    obtain ⟨hn, hrest⟩ := hes
    obtain ⟨hfind, hothers⟩ := find_rest (k := .file content) hn hall
    obtain ⟨hnode, hsrc⟩ := entry_found htop hq hfind
    have hthen : ∀ {fs' : Slot}, fs'.lookup src = fs.lookup src → Copies e src dst q rest fs'
        (copyNames e src dst (fun p fs => copyDir e src dst depth p fs) q rest.names fs') :=
      fun hkept => ih hrest hdepth q (hkept.trans htop) hq hothers
    rw [Entries.names, copyNames, hsrc]
    cases hfails : e.pattern.fails (.statSource (q ++ [n])) with
    | some errno =>
      have hstat : e.failing (.statSource (q ++ [n])) = true := by rw [Env.failing, hfails, Option.isSome_some]
      exact copies_entry (k := .file content) hn (copied_of_stat hstat _ _) (.refl fs _) rfl (hthen rfl)
    | none =>
      have hstat : e.failing (.statSource (q ++ [n])) = false := by rw [Env.failing, hfails, Option.isSome_none]
      have hne : src ++ (q ++ [n]) ≠ dst ++ (q ++ [n]) := fun heq =>
        h.outside (List.append_cancel_right heq ▸ List.prefix_refl src)
      obtain ⟨hstatus, hwritten, -⟩ := copyFile_spec e (q ++ [n]) (get_eq_some.mpr hsrc) hne
      have hfile := copied_file hstat content (fs.lookup (dst ++ (q ++ [n])))
      have hkept := h.source_kept htop hnode hwritten fun es hes => by
        rw [hes]
        exact (copyInto_spec e _ content _).2.1 trivial
      rw [← hstatus] at hfile
      exact copies_entry (k := .file content) hn hfile hwritten hkept (hthen hkept)
  | dir n entries rest ihe ih =>
    obtain ⟨hn, hentries, hrest⟩ := hes
    obtain ⟨hsub, hdepth⟩ := Nat.max_le.mp hdepth
    obtain ⟨hfind, hothers⟩ := find_rest (k := .dir entries) hn hall
    obtain ⟨hnode, hsrc⟩ := entry_found htop hq hfind
    have hthen : ∀ {fs' : Slot}, fs'.lookup src = fs.lookup src → Copies e src dst q rest fs'
        (copyNames e src dst (fun p fs => copyDir e src dst depth p fs) q rest.names fs') :=
      fun hkept => ih hrest hdepth q (hkept.trans htop) hq hothers
    rw [Entries.names, copyNames, hsrc]
    cases hfails : e.pattern.fails (.statSource (q ++ [n])) with
    | some errno =>
      have hstat : e.failing (.statSource (q ++ [n])) = true := by rw [Env.failing, hfails, Option.isSome_some]
      exact copies_entry (k := .dir entries) hn (copied_of_stat hstat _ _) (.refl fs _) rfl (hthen rfl)
    | none =>
      have hstat : e.failing (.statSource (q ++ [n])) = false := by rw [Env.failing, hfails, Option.isSome_none]
      have hmade := written_update (mkdirSlot_follows (e.pattern.fails (.mkdir (q ++ [n]))) (fs.lookup (dst ++ (q ++ [n]))))
      have hkept := h.source_kept htop hnode hmade fun es hes => by
        rw [hes]
        exact mkdirSlot_dir _ es
      simp only [statSlot]
      have houtside := fun hskips => copies_entry (k := .dir entries) hn (copied_dir_skipped hskips) hmade hkept (hthen hkept)
      by_cases hmkdir : mkdirFailed (e.mkdir (q ++ [n]) (fs.lookup (dst ++ (q ++ [n])))).1 = true
      · rw [if_pos hmkdir]
        exact houtside fun m p => .inr (.inl hmkdir)
      · rw [if_neg hmkdir]
        by_cases huse : e.usePropPatch = true
        · rw [if_neg (by simp [huse])]
          obtain ⟨depth, rfl⟩ : ∃ d, depth = d + 1 := ⟨depth - 1, by omega⟩
          by_cases hopen : e.failing (.opendir (q ++ [n])) = true
          · rw [copyDir, if_pos hopen]
            dsimp only
            rw [if_neg (not_not_intro rfl)]
            exact houtside fun m p => .inr (.inr (.inr (.inl hopen)))
          · have hdirsrc : (fs.update (dst ++ (q ++ [n]))
                (e.mkdir (q ++ [n]) (fs.lookup (dst ++ (q ++ [n])))).2).get (src ++ (q ++ [n])) =
                some (.dir entries) := by
              rw [get_append, hkept, htop]
              exact hnode
            rw [copyDir, if_neg hopen, hdirsrc]
            have hcopies := ihe hentries (Nat.le_of_succ_le_succ hsub) (q ++ [n]) (hkept.trans htop) hnode fun _ _ => rfl
            have hdir := copied_dir hstat (Bool.eq_false_iff.mpr hmkdir) huse (Bool.eq_false_iff.mpr hopen)
              (hmade.here ▸ hcopies.all)
            exact copies_entry (k := .dir entries) hn hdir (hmade.trans hcopies.written) (hcopies.source.trans hkept)
              (hthen (hcopies.source.trans hkept))
        · rw [if_pos (by simp [huse])]
          exact houtside fun m p => .inr (.inr (.inl (Bool.eq_false_iff.mpr huse)))

end Clear

end Lighttpd.Webdav
