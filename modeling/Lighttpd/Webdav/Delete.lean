import Lighttpd.Response.Prepare
import Lighttpd.Uri.Target
import Lighttpd.Webdav.Copy

/-!
# The report of a DELETE (`mod_webdav.c`)

`webdav_delete_dir` with the text that it builds for a multistatus answer: `webdav_gen_response_status_tag` is called for
what could not be deleted.

- `deleteLoop_eq`: without the text, this is `deleteEntries`;
- `deleteLoop_left`: what is left is what a system call has failed for;
- `report_complete_iff`: when the report tells about every failure.
-/

namespace Lighttpd.Webdav

open FileTree Respond Uri

/-- What the functions read of the request and of the plugin: whether the version is HTTP/1.1, and whether there is a
statement that deletes the properties of a resource. -/
structure DeleteEnv extends Env where
  http11 : Bool
  hasStmt : Bool

/-- `buffer_copy_string_len`: the text takes the place of what was there. -/
def copyString (_ : Bytes) (s : String) : Bytes := ascii s

def genResponseStatusTag (http11 : Bool) (relPath : Bytes) (status : Nat) (b : Bytes) : Bytes :=
  let b := b ++ ascii "<D:response xmlns:ns0=\"urn:uuid:c2f41010-65b3-11d1-a29f-00aa00c14882/\">\n"
  let b := b ++ ascii "<D:href>\n" ++ relPath ++ ascii "</D:href>\n" ++ ascii "<D:status>\n"
  let b := if http11 then copyString b "HTTP/1.1 " else copyString b "HTTP/1.0 "
  let b := b ++ liItostrn status ++ ascii " " ++ getHttpStatusName status
  b ++ ascii "</D:status>\n" ++ ascii "</D:response>\n"

/-- The status when `unlink` or `rmdir` fails below the collection. -/
def failStatus : Errno → Nat
  | .eacces => 403
  | .eperm => 403
  | _ => 501

/-- `webdav_delete_file`: whether it has a status, whether the file is deleted, and the text. -/
def reportFile (o : DeleteEnv) (q : Path) (relPath b : Bytes) : Bool × Bool × Bytes :=
  match o.pattern.fails (.unlink q) with
  | some e => (true, false, genResponseStatusTag o.http11 relPath (failStatus e) b)
  | none =>
    if o.usePropPatch && !o.hasStmt then (true, true, genResponseStatusTag o.http11 relPath 403 b)
    else (false, true, b)

/-- `rmdir` of a directory in which `left` is left: the status when it fails. -/
def rmdirStatus (o : DeleteEnv) (q : Path) (left : Entries) : Option Nat :=
  match o.pattern.fails (.rmdir q), left with
  | some e, _ => some (failStatus e)
  | none, .nil => none
  | none, _ => some (failStatus .other)

/-- `have_multi_status`, the text, and what is left of the entries. -/
structure Report where
  multi : Bool
  text : Bytes
  left : Entries
deriving DecidableEq

def deleteLoop (o : DeleteEnv) : Path → Bytes → Bool → Bytes → Entries → Report
  | _, _, multi, b, .nil => ⟨multi, b, .nil⟩
  | q, relPath, multi, b, .file n content rest =>
    if o.failing (.deleteStat (q ++ [n])) then
      let r := deleteLoop o q relPath multi b rest
      { r with left := .file n content r.left }
    else
      let (multi, gone, b) := reportFile o (q ++ [n]) (appendSlash relPath ++ n) b
      let r := deleteLoop o q relPath multi b rest
      { r with left := if gone then r.left else .file n content r.left }
  | q, relPath, multi, b, .dir n entries rest =>
    if o.failing (.deleteStat (q ++ [n])) then
      let r := deleteLoop o q relPath multi b rest
      { r with left := .dir n entries r.left }
    else
      let sub := if o.failing (.deleteOpendir (q ++ [n])) then ⟨false, b, entries⟩
        else deleteLoop o (q ++ [n]) (appendSlash relPath ++ n) false b entries
      match rmdirStatus o (q ++ [n]) sub.left with
      | some status =>
        let b := genResponseStatusTag o.http11 (appendSlash relPath ++ n) status sub.text
        let r := deleteLoop o q relPath true b rest
        { r with left := .dir n sub.left r.left }
      | none => deleteLoop o q relPath sub.multi sub.text rest

def webdavDeleteDir (o : DeleteEnv) (relPath : Bytes) (entries : Entries) : Report :=
  if o.failing (.deleteOpendir []) then ⟨false, [], entries⟩ else deleteLoop o [] relPath false [] entries

/-! ## What is left -/

variable {o : DeleteEnv} {q : Path} {relPath b : Bytes} {multi : Bool} {es : Entries}

theorem reportFile_eq (b : Bytes) : deleteFile o.toEnv q o.hasStmt = ((reportFile o q relPath b).1, (reportFile o q relPath b).2.1) := by
  unfold deleteFile reportFile Env.failing
  cases o.pattern.fails (.unlink q) with
  | some e => rfl
  | none => cases o.usePropPatch && !o.hasStmt <;> simp

/-- **Without the text** this is the function that MOVE calls. -/
theorem deleteLoop_eq : deleteEntries o.toEnv o.hasStmt q multi es =
    ((deleteLoop o q relPath multi b es).multi, (deleteLoop o q relPath multi b es).left) := by
  induction es generalizing q relPath multi b with
  | nil => rfl
  | file n content rest ih =>
    unfold deleteEntries deleteLoop
    split
    · rw [ih (b := b)]
    · rw [reportFile_eq b]
      dsimp only
      rw [ih]
  | dir n entries rest ihe ih =>
    unfold deleteEntries deleteLoop
    split
    · rw [ih (b := b)]
    · have hsub : (if o.failing (.deleteOpendir (q ++ [n])) = true then (false, entries)
          else deleteEntries o.toEnv o.hasStmt (q ++ [n]) false entries) =
          ((if o.failing (.deleteOpendir (q ++ [n])) = true then (⟨false, b, entries⟩ : Report)
            else deleteLoop o (q ++ [n]) (appendSlash relPath ++ n) false b entries).multi,
          (if o.failing (.deleteOpendir (q ++ [n])) = true then (⟨false, b, entries⟩ : Report)
            else deleteLoop o (q ++ [n]) (appendSlash relPath ++ n) false b entries).left) := by
        split
        · rfl
        · exact ihe
      rw [hsub]
      dsimp only
      generalize (if o.failing (.deleteOpendir (q ++ [n])) = true then (⟨false, b, entries⟩ : Report)
        else deleteLoop o (q ++ [n]) (appendSlash relPath ++ n) false b entries) = sub
      obtain ⟨multi', b', left⟩ := sub
      unfold rmdirStatus Env.failing
      cases o.pattern.fails (.rmdir (q ++ [n])) with
      | some e =>
        simp only [Option.isSome_some, Bool.true_or, Bool.or_true, if_true]
        rw [ih]
      | none =>
        cases left with
        | nil =>
          simp only [Option.isSome_none, Bool.or_false, Bool.false_eq_true, if_false]
          rw [ih]
        | file | dir =>
          simp only [Option.isSome_none, Bool.or_true, if_true]
          rw [ih]

/-- Every call that takes away one of the entries succeeds. -/
def Removable (o : DeleteEnv) : Path → Entries → Prop
  | _, .nil => True
  | q, .file n _ rest =>
    o.failing (.deleteStat (q ++ [n])) = false ∧ o.failing (.unlink (q ++ [n])) = false ∧ Removable o q rest
  | q, .dir n entries rest =>
    o.failing (.deleteStat (q ++ [n])) = false ∧
      ((o.failing (.deleteOpendir (q ++ [n])) = false ∨ entries = .nil) ∧ Removable o (q ++ [n]) entries) ∧
      o.failing (.rmdir (q ++ [n])) = false ∧ Removable o q rest

/-- **What is left** is nothing if and only if every call succeeds. -/
theorem deleteLoop_left (relPath : Bytes) (multi : Bool) (b : Bytes) :
    (deleteLoop o q relPath multi b es).left = .nil ↔ Removable o q es := by
  induction es generalizing q relPath multi b with
  | nil => simp [deleteLoop, Removable]
  | file n content rest ih =>
    unfold deleteLoop Removable
    cases hstat : o.failing (.deleteStat (q ++ [n])) with
    | true => simp
    | false =>
      have hgone : (reportFile o (q ++ [n]) (appendSlash relPath ++ n) b).2.1 = !o.failing (.unlink (q ++ [n])) := by
        unfold reportFile Env.failing
        cases o.pattern.fails (.unlink (q ++ [n])) with
        | some e => rfl
        | none => cases o.usePropPatch && !o.hasStmt <;> simp
      dsimp only
      rw [hgone]
      cases hunlink : o.failing (.unlink (q ++ [n])) with
      | true => simp
      | false => simpa using ih _ _ _
  | dir n entries rest ihe ih =>
    unfold deleteLoop Removable
    cases hstat : o.failing (.deleteStat (q ++ [n])) with
    | true => simp
    | false =>
      have hsub : (if o.failing (.deleteOpendir (q ++ [n])) = true then (⟨false, b, entries⟩ : Report)
          else deleteLoop o (q ++ [n]) (appendSlash relPath ++ n) false b entries).left = .nil ↔
          (o.failing (.deleteOpendir (q ++ [n])) = false ∨ entries = .nil) ∧ Removable o (q ++ [n]) entries := by
        cases hopen : o.failing (.deleteOpendir (q ++ [n])) with
        | true =>
          simp only [if_true, Bool.true_eq_false, false_or]
          refine ⟨fun h => ⟨h, ?_⟩, And.left⟩
          rw [h]
          exact trivial
        | false => simpa using ihe _ _ _
      simp only [Bool.false_eq_true, if_false, true_and]
      rw [← hsub]
      generalize (if o.failing (.deleteOpendir (q ++ [n])) = true then (⟨false, b, entries⟩ : Report)
        else deleteLoop o (q ++ [n]) (appendSlash relPath ++ n) false b entries) = sub
      unfold rmdirStatus Env.failing
      cases o.pattern.fails (.rmdir (q ++ [n])) with
      | some e => simp
      | none => cases hleft : sub.left <;> simp [ih]

/-! ## The text -/

def hasFile : Entries → Bool
  | .nil => false
  | .file _ _ _ => true
  | .dir _ entries rest => hasFile entries || hasFile rest

/-- The text begins with the line of a status, without a reference in front of it. -/
def Cut (b : Bytes) : Prop := b.head? = some (chr 'H')

theorem genResponseStatusTag_cut (http11 : Bool) (status : Nat) : Cut (genResponseStatusTag http11 relPath status b) := by
  cases http11 <;> rfl

theorem reportFile_text : (reportFile o q relPath b).2.2 = b ∨ Cut (reportFile o q relPath b).2.2 := by
  unfold reportFile
  split
  · exact Or.inr (genResponseStatusTag_cut _ _)
  · split
    · exact Or.inr (genResponseStatusTag_cut _ _)
    · exact Or.inl rfl

theorem cut_trans {b b' b'' : Bytes} (h : b' = b ∨ Cut b') (h' : b'' = b' ∨ Cut b'') : b'' = b ∨ Cut b'' := by
  rcases h' with rfl | h'
  · exact h
  · exact Or.inr h'

/-- **The text** is what it was, or the references in front of its last part are lost. -/
theorem deleteLoop_text : (deleteLoop o q relPath multi b es).text = b ∨ Cut (deleteLoop o q relPath multi b es).text := by
  induction es generalizing q relPath multi b with
  | nil => exact Or.inl rfl
  | file n content rest ih =>
    unfold deleteLoop
    split
    · exact ih
    · exact cut_trans reportFile_text ih
  | dir n entries rest ihe ih =>
    unfold deleteLoop
    split
    · exact ih
    · have hsub : (if o.failing (.deleteOpendir (q ++ [n])) = true then (⟨false, b, entries⟩ : Report)
          else deleteLoop o (q ++ [n]) (appendSlash relPath ++ n) false b entries).text = b ∨
          Cut (if o.failing (.deleteOpendir (q ++ [n])) = true then (⟨false, b, entries⟩ : Report)
            else deleteLoop o (q ++ [n]) (appendSlash relPath ++ n) false b entries).text := by
        split
        · exact Or.inl rfl
        · exact ihe
      dsimp only
      generalize (if o.failing (.deleteOpendir (q ++ [n])) = true then (⟨false, b, entries⟩ : Report)
        else deleteLoop o (q ++ [n]) (appendSlash relPath ++ n) false b entries) = sub at hsub ⊢
      split
      · exact cut_trans (Or.inr (genResponseStatusTag_cut _ _)) ih
      · exact cut_trans hsub ih

/-- What is reported when every call succeeds: a file whose properties cannot be deleted. -/
theorem deleteLoop_removable (relPath b : Bytes) (h : Removable o q es)
    (hprop : o.usePropPatch = false ∨ o.hasStmt = true ∨ hasFile es = false) :
    (deleteLoop o q relPath false b es).multi = false ∧ (deleteLoop o q relPath false b es).text = b := by
  induction es generalizing q relPath b with
  | nil => exact ⟨rfl, rfl⟩
  | file n content rest ih =>
    obtain ⟨hstat, hunlink, hrest⟩ := h
    have hprop' : (o.usePropPatch && !o.hasStmt) = false := by
      rcases hprop with h | h | h
      · simp [h]
      · simp [h]
      · cases h
    have hfile : reportFile o (q ++ [n]) (appendSlash relPath ++ n) b = (false, true, b) := by
      unfold reportFile
      rw [Option.isSome_eq_false_iff.mp hunlink |> Option.isNone_iff_eq_none.mp]
      simp [hprop']
    unfold deleteLoop
    simp only [hstat, hfile, Bool.false_eq_true, if_false]
    apply ih relPath b hrest
    cases hdb : o.usePropPatch <;> simp_all
  | dir n entries rest ihe ih =>
    obtain ⟨hstat, ⟨hopen, hentries⟩, hrmdir, hrest⟩ := h
    have hprop' : (o.usePropPatch = false ∨ o.hasStmt = true ∨ hasFile entries = false) ∧
        (o.usePropPatch = false ∨ o.hasStmt = true ∨ hasFile rest = false) := by
      rcases hprop with h | h | h
      · exact ⟨Or.inl h, Or.inl h⟩
      · exact ⟨Or.inr (Or.inl h), Or.inr (Or.inl h)⟩
      · obtain ⟨he, hr⟩ := Bool.or_eq_false_iff.mp h
        exact ⟨Or.inr (Or.inr he), Or.inr (Or.inr hr)⟩
    have hsub : (if o.failing (.deleteOpendir (q ++ [n])) = true then (⟨false, b, entries⟩ : Report)
        else deleteLoop o (q ++ [n]) (appendSlash relPath ++ n) false b entries) = ⟨false, b, .nil⟩ := by
      split
      · rename_i hfail
        rcases hopen with hopen | hnil
        · rw [hfail] at hopen
          cases hopen
        · rw [hnil]
      · obtain ⟨hmulti, htext⟩ := ihe (appendSlash relPath ++ n) b hentries hprop'.1
        have hleft := (deleteLoop_left (appendSlash relPath ++ n) false b).mpr hentries
        generalize deleteLoop o (q ++ [n]) (appendSlash relPath ++ n) false b entries = r at hmulti htext hleft
        obtain ⟨multi, text, left⟩ := r
        cases hmulti
        cases htext
        cases hleft
        rfl
    have hstatus : rmdirStatus o (q ++ [n]) .nil = none := by
      unfold rmdirStatus
      rw [Option.isSome_eq_false_iff.mp hrmdir |> Option.isNone_iff_eq_none.mp]
    unfold deleteLoop
    simp only [hstat, hsub, hstatus, Bool.false_eq_true, if_false]
    exact ih relPath b hrest hprop'.2

theorem deleteLoop_unproppatched (relPath : Bytes) (multi : Bool) (b : Bytes) (h : Removable o q es)
    (hprop : o.usePropPatch = true) (hstmt : o.hasStmt = false) (hfile : hasFile es = true) : Cut (deleteLoop o q relPath multi b es).text := by
  have hcut : ∀ {b b' : Bytes}, Cut b → b' = b ∨ Cut b' → Cut b' := by
    rintro b _ hb (rfl | h)
    · exact hb
    · exact h
  induction es generalizing q relPath multi b with
  | nil => cases hfile
  | file n content rest ih =>
    obtain ⟨hstat, hunlink, hrest⟩ := h
    have hfile : Cut (reportFile o (q ++ [n]) (appendSlash relPath ++ n) b).2.2 := by
      unfold reportFile
      rw [Option.isSome_eq_false_iff.mp hunlink |> Option.isNone_iff_eq_none.mp]
      simp only [hprop, hstmt]
      exact genResponseStatusTag_cut _ _
    unfold deleteLoop
    simp only [hstat, Bool.false_eq_true, if_false]
    exact hcut hfile deleteLoop_text
  | dir n entries rest ihe ih =>
    obtain ⟨hstat, ⟨hopen, hentries⟩, hrmdir, hrest⟩ := h
    unfold deleteLoop
    simp only [hstat, Bool.false_eq_true, if_false]
    rcases Bool.or_eq_true_iff.mp hfile with hfile | hfile
    · have hsub : Cut (if o.failing (.deleteOpendir (q ++ [n])) = true then (⟨false, b, entries⟩ : Report)
          else deleteLoop o (q ++ [n]) (appendSlash relPath ++ n) false b entries).text := by
        rcases hopen with hopen | hnil
        · simp only [hopen, Bool.false_eq_true, if_false]
          exact ihe _ _ _ hentries hfile
        · rw [hnil] at hfile
          cases hfile
      generalize (if o.failing (.deleteOpendir (q ++ [n])) = true then (⟨false, b, entries⟩ : Report)
        else deleteLoop o (q ++ [n]) (appendSlash relPath ++ n) false b entries) = sub at hsub ⊢
      split
      · exact hcut (genResponseStatusTag_cut _ _) deleteLoop_text
      · exact hcut hsub deleteLoop_text
    · split
      · exact ih _ _ _ hrest hfile
      · exact ih _ _ _ hrest hfile

/-! ## The report -/

/-- The references of the entries, in the order in which they are visited. -/
def hrefs (relPath : Bytes) : Entries → List Bytes
  | .nil => []
  | .file n _ rest => (appendSlash relPath ++ n) :: hrefs relPath rest
  | .dir n entries rest => hrefs (appendSlash relPath ++ n) entries ++ (appendSlash relPath ++ n) :: hrefs relPath rest

def responseElement (http11 : Bool) (href : Bytes) (status : Nat) : Bytes :=
  ascii "<D:response xmlns:ns0=\"urn:uuid:c2f41010-65b3-11d1-a29f-00aa00c14882/\">\n" ++
    ascii "<D:href>\n" ++ href ++ ascii "</D:href>\n" ++
    ascii "<D:status>\n" ++ ascii (if http11 then "HTTP/1.1 " else "HTTP/1.0 ") ++ liItostrn status ++ ascii " " ++
    getHttpStatusName status ++ ascii "</D:status>\n" ++ ascii "</D:response>\n"

/-- **The report tells about every failure**: an error is returned if and only if an entry is left, and the text has one
response element for each entry that is left, in the order of the visits. -/
def Reports (http11 : Bool) (relPath : Bytes) (r : Report) : Prop :=
  (r.multi = true ↔ r.left ≠ .nil) ∧
    ∃ statuses : List Nat, statuses.length = (hrefs relPath r.left).length ∧
      r.text = (List.zipWith (responseElement http11) (hrefs relPath r.left) statuses).flatten

/-- Nothing fails: the directories are read, the entries are removed, and no file needs a table of properties that is not
there. -/
structure Clean (o : DeleteEnv) (entries : Entries) : Prop where
  opened : o.failing (.deleteOpendir []) = false ∨ entries = .nil
  removable : Removable o [] entries
  properties : o.usePropPatch = false ∨ o.hasStmt = true ∨ hasFile entries = false

theorem hrefs_eq_nil : hrefs relPath es = [] ↔ es = .nil := by
  cases es <;> simp [hrefs]

/-- **The report tells about every failure** if and only if there is none. -/
theorem report_complete_iff (o : DeleteEnv) (relPath : Bytes) (entries : Entries) :
    Reports o.http11 relPath (webdavDeleteDir o relPath entries) ↔ Clean o entries := by
  have hnil : ∀ r : Report, r.multi = false → r.text = [] → r.left = .nil → Reports o.http11 relPath r := by
    rintro ⟨multi, b, left⟩ rfl rfl rfl
    exact ⟨by simp, [], rfl, rfl⟩
  unfold webdavDeleteDir
  cases hopen : o.failing (.deleteOpendir []) with
  | true =>
    simp only [if_true]
    refine ⟨fun h => ?_, fun h => ?_⟩
    · have hentries : entries = .nil := by
        by_contra hne
        cases h.1.mpr hne
      subst hentries
      exact ⟨Or.inr rfl, trivial, Or.inr (Or.inr rfl)⟩
    · rcases h.opened with hnot | hentries
      · rw [hopen] at hnot
        cases hnot
      · exact hnil _ rfl rfl hentries
  | false =>
    simp only [Bool.false_eq_true, if_false]
    refine ⟨fun h => ?_, fun h => ?_⟩
    · obtain ⟨-, statuses, hlength, htext⟩ := h
      have hleft : (deleteLoop o [] relPath false [] entries).left = .nil := by
        by_contra hne
        obtain ⟨href, hrefs', hcons⟩ := List.exists_cons_of_ne_nil (mt (Iff.mp hrefs_eq_nil) hne)
        rw [hcons] at hlength htext
        cases statuses with
        | nil => cases hlength
        | cons status statuses =>
          -- the text should begin with an element
          have hhead : (deleteLoop o [] relPath false [] entries).text.head? = some (chr '<') := by
            rw [htext]
            rfl
          rcases deleteLoop_text with hempty | hcut
          · rw [hempty] at hhead
            cases hhead
          · rw [hcut] at hhead
            cases hhead
      rw [hleft] at htext
      have hremovable := (deleteLoop_left relPath false []).mp hleft
      refine ⟨Or.inl hopen, hremovable, ?_⟩
      by_contra hprop
      simp only [not_or, Bool.not_eq_false, Bool.not_eq_true] at hprop
      have hcut := deleteLoop_unproppatched relPath false [] hremovable hprop.1 hprop.2.1 hprop.2.2
      rw [Cut, htext] at hcut
      cases hcut
    · obtain ⟨hmulti, htext⟩ := deleteLoop_removable relPath [] h.removable h.properties
      exact hnil _ hmulti htext ((deleteLoop_left relPath false []).mpr h.removable)

/-- A request in which `unlink` may fail, for some files of the collection. -/
def unlinkFails (names : List Name) : DeleteEnv where
  pattern := ⟨fun c => if names.any fun n => c = .unlink [n] then some .eacces else none, fun _ => []⟩
  overwrite := true
  usePropPatch := true
  http11 := true
  hasStmt := true

def twoFiles : Entries := .file (ascii "a") [1] (.file (ascii "b") [2] .nil)

/-- The first of the two files is left, but no error is returned. -/
theorem report_incomplete : ¬Reports true (ascii "/d/") (webdavDeleteDir (unlinkFails [ascii "a"]) (ascii "/d/") twoFiles) := by
  rintro ⟨hmulti, -⟩
  have hreport : webdavDeleteDir (unlinkFails [ascii "a"]) (ascii "/d/") twoFiles =
      ⟨false, ascii "HTTP/1.1 403 Forbidden</D:status>\n</D:response>\n", .file (ascii "a") [1] .nil⟩ := by
    decide
  rw [hreport] at hmulti
  exact absurd (hmulti.mpr (by decide)) (by decide)

end Lighttpd.Webdav
