import Lighttpd.Luna.TokenInfo
import Mathlib.Data.Finset.Sort

/-!
# The refresh of the token table (`meta_sync`, `meta_get`)

`meta_sync` runs a command, reads the first line of its output as a JSON document, and puts the tokens of its `auths`
list into the token table. The parser of `cJSON.c` is the parameter `parse`. An access to a member of a NULL pointer,
and a `std::string` that is made from one, end the process: `none`.

- `metaSync_cases`: what a refresh can do;
- `syncAuths_spec`, `refreshed_refreshTable`: the table after the loop over `auths`;
- `metaSync_atomic_iff`: when a refresh is all or nothing.
-/

namespace Lighttpd.Luna

open KeyedFold

/-! ## Documents -/

/-- `cJSON`: `valueint` is 0 for what is not a number (1 for `true`), `valuestring` is NULL for what is not a string, and
`string` is NULL outside an object. -/
structure CJson where
  valueint : Int
  valuestring : Option Bytes
  string : Option Bytes
  child : List CJson

/-- `cJSON_strcasecmp(s1, s2) == 0`, for `s2` not NULL. -/
def cJsonStrcaseEq (s1 : Option Bytes) (s2 : Bytes) : Bool :=
  match s1 with
  | some s1 => s1.map toLower == s2.map toLower
  | none => false

def CJson.getObjectItem (object : CJson) (string : Bytes) : Option CJson :=
  object.child.find? fun c => cJsonStrcaseEq c.string string

/-- The static variables of `token_info.cpp`. -/
structure Statics where
  tokenInfo : Table
  metaJson : Option CJson

/-! ## `meta_sync` -/

def maxMetaLen : Nat := 1024 * 1024

/-- The bytes that `fgets` reads: not more than a line. -/
def fgets (size : Nat) (input : Bytes) : Bytes :=
  (input.takeWhile (· ≠ 10) ++ (input.dropWhile (· ≠ 10)).take 1).take (size - 1)

def metaBuf (output : Bytes) : Bytes := cstr (fgets maxMetaLen output)

/-- What `meta_sync` takes from one item of `auths`. -/
structure Auth where
  token : Bytes
  tids : Finset Int
  tenantId : Int
  orgIds : Bytes

def readAuth (item : CJson) : Option Auth := do
  let tids ← item.getObjectItem (ascii "tids")
  let token ← item.getObjectItem (ascii "token")
  let name ← token.valuestring
  let tenantId ← item.getObjectItem (ascii "tenant_id")
  let orgIds ← item.getObjectItem (ascii "org_ids")
  let orgs ← orgIds.valuestring
  some ⟨name, (tids.child.map CJson.valueint).toFinset, tenantId.valueint, orgs⟩

/-- The loop over `auths`, with the table and `tokens_alive`. -/
def syncAuths : List CJson → Table × Finset Bytes → Option (Table × Finset Bytes)
  | [], s => some s
  | item :: items, (m, alive) => do
    let a ← readAuth item
    syncAuths items (tiAddToken m a.token a.tids a.tenantId a.orgIds, insert a.token alive)

/-- `meta_sync`: what it returns and the static variables afterwards, for what `popen` gives. -/
def metaSync (parse : Bytes → Option CJson) (s : Statics) (out : Option Bytes) : Option (Int × Statics) :=
  match out with
  | none => some (-1, s)
  | some output =>
    match parse (metaBuf output) with
    | none => some (-1, { s with metaJson := none })
    | some doc =>
      match doc.getObjectItem (ascii "auths") with
      | none => some (-1, { s with metaJson := some doc })
      | some auths => do
        let (m, alive) ← syncAuths auths.child (s.tokenInfo, {ascii "test"})
        some (0, ⟨keep (fun token => decide (token ∈ alive)) m, some doc⟩)

def tagItems (tags : CJson) (tid : Int) : Option (List CJson) := tags.child.filterM fun item => do
  let t ← item.getObjectItem (ascii "tid")
  some (t.valueint == tid)

/-- The items of the document that `meta_get` prints for a token that has been verified; -1 is `none`. -/
def metaGet (s : Statics) (token : Bytes) : Option (Option (List CJson)) :=
  match s.metaJson.bind fun doc => doc.getObjectItem (ascii "tags") with
  | none => some none
  | some tags => do
    let i ← s.tokenInfo.lookup token
    let items ← (i.authTids.sort (· ≤ ·)).mapM (tagItems tags)
    some (some items.flatten)

/-! ## The table after a refresh -/

def lastAuth (auths : List Auth) (token : Bytes) : Option Auth := auths.reverse.find? fun a => a.token == token

/-- The `info` that an item of the document makes of the one in the table. -/
def Auth.info (a : Auth) (old : Option Info) : Info :=
  { old.getD ⟨a.tids, 0, 0, 0, 0, false, a.tenantId, a.orgIds⟩ with
    authTids := a.tids, tenantId := a.tenantId, orgIds := a.orgIds }

def addAuth (m : Table) (a : Auth) : Table := tiAddToken m a.token a.tids a.tenantId a.orgIds

variable {parse : Bytes → Option CJson} {s s' : Statics} {m m' : Table} {auths : List Auth} {token : Bytes}

theorem lookup_addAuth (a : Auth) (j : Bytes) :
    (addAuth m a).lookup j = if j = a.token then some (a.info (m.lookup j)) else m.lookup j :=
  lookup_tiAddToken m a.token j a.tids a.tenantId a.orgIds

theorem lastAuth_append (auths : List Auth) (a : Auth) (j : Bytes) :
    lastAuth (auths ++ [a]) j = if j = a.token then some a else lastAuth auths j := by
  unfold lastAuth
  rw [List.reverse_append, List.reverse_singleton, List.singleton_append, List.find?_cons]
  by_cases hj : j = a.token
  · simp [hj]
  · have hne : (a.token == j) = false := beq_eq_false_iff_ne.mpr (Ne.symm hj)
    simp [hj, hne]

theorem Auth.info_info (a b : Auth) (old : Option Info) : a.info (some (b.info old)) = a.info old := by
  cases old <;> rfl

/-- **The last item for a token decides.** -/
theorem lookup_addAuths (auths : List Auth) (j : Bytes) : (auths.foldl addAuth m).lookup j =
    match lastAuth auths j with
    | some a => some (a.info (m.lookup j))
    | none => m.lookup j := by
  induction auths using List.reverseRecOn with
  | nil => rfl
  | append_singleton auths a ih =>
    rw [List.foldl_append, List.foldl_cons, List.foldl_nil, lookup_addAuth, lastAuth_append]
    by_cases hj : j = a.token
    · rw [if_pos hj, if_pos hj, ih]
      cases lastAuth auths j with
      | none => rfl
      | some b => simp [Auth.info_info]
    · rw [if_neg hj, if_neg hj, ih]

theorem isSome_lastAuth : (lastAuth auths token).isSome ↔ token ∈ auths.map Auth.token := by
  unfold lastAuth
  rw [List.find?_isSome]
  simp

/-- The loop over `auths` reads every item and adds it. -/
theorem syncAuths_spec (items : List CJson) (m : Table) (alive : Finset Bytes) :
    syncAuths items (m, alive) = (items.mapM readAuth).map fun auths =>
      (auths.foldl addAuth m, alive ∪ (auths.map Auth.token).toFinset) := by
  induction items generalizing m alive with
  | nil => simp [syncAuths]
  | cons item items ih =>
    rw [syncAuths, List.mapM_cons]
    cases hread : readAuth item with
    | none => rfl
    | some a =>
      simp only [Option.bind_eq_bind, Option.bind_some]
      rw [ih]
      cases items.mapM readAuth with
      | none => rfl
      | some auths => simp [addAuth]

/-- The table `m'` is `m` refreshed from the items `auths`. -/
structure Refreshed (auths : List Auth) (m m' : Table) : Prop where
  keys : ∀ token, token ∈ m' ↔ token ∈ auths.map Auth.token ∨ token = ascii "test" ∧ token ∈ m
  carries : ∀ token i a, m'.lookup token = some i → lastAuth auths token = some a →
    i.authTids = a.tids ∧ i.tenantId = a.tenantId ∧ i.orgIds = a.orgIds
  counters : ∀ token i i', m.lookup token = some i → m'.lookup token = some i' →
    i'.totalReqCount = i.totalReqCount ∧ i'.qpmReqCount = i.qpmReqCount ∧
    i'.totalReqRemain = i.totalReqRemain ∧ i'.qpmReqRemain = i.qpmReqRemain ∧ i'.useTotalLimit = i.useTotalLimit

def refreshTable (auths : List Auth) (m : Table) : Table :=
  keep (fun token => decide (token ∈ {ascii "test"} ∪ (auths.map Auth.token).toFinset)) (auths.foldl addAuth m)

theorem lookup_refreshTable (token : Bytes) : (refreshTable auths m).lookup token =
    match lastAuth auths token with
    | some a => some (a.info (m.lookup token))
    | none => if token = ascii "test" then m.lookup token else none := by
  unfold refreshTable
  rw [lookup_keep, lookup_addAuths]
  cases hlast : lastAuth auths token with
  | some a =>
    have hmem : token ∈ auths.map Auth.token := Iff.mp isSome_lastAuth (by rw [hlast]; rfl)
    have halive : token ∈ {ascii "test"} ∪ (auths.map Auth.token).toFinset :=
      Finset.mem_union_right _ (List.mem_toFinset.mpr hmem)
    rw [if_pos (decide_eq_true halive)]
  | none =>
    have hmem : token ∉ auths.map Auth.token := fun h => by simpa [hlast] using Iff.mpr isSome_lastAuth h
    by_cases htest : token = ascii "test"
    · rw [if_pos htest, if_pos (decide_eq_true (Finset.mem_union_left _ (Finset.mem_singleton.mpr htest)))]
    · have hdead : token ∉ {ascii "test"} ∪ (auths.map Auth.token).toFinset := by
        simp only [Finset.mem_union, Finset.mem_singleton, List.mem_toFinset]
        exact fun h => h.elim htest hmem
      rw [if_neg htest, decide_eq_false hdead]
      rfl

/-- **A refresh keeps what is counted for the tokens that stay, and leaves no others but `test`.** -/
theorem refreshed_refreshTable (auths : List Auth) (m : Table) : Refreshed auths m (refreshTable auths m) where
  keys token := by
    rw [← AList.lookup_isSome, lookup_refreshTable, ← isSome_lastAuth]
    cases hlast : lastAuth auths token with
    | some a => simp
    | none =>
      rw [← AList.lookup_isSome]
      by_cases htest : token = ascii "test" <;> simp [htest]
  carries token i a hi ha := by
    rw [lookup_refreshTable, ha] at hi
    cases hi
    exact ⟨rfl, rfl, rfl⟩
  counters token i i' hi hi' := by
    rw [lookup_refreshTable, hi] at hi'
    cases hlast : lastAuth auths token with
    | some a =>
      rw [hlast] at hi'
      cases hi'
      exact ⟨rfl, rfl, rfl, rfl, rfl⟩
    | none =>
      rw [hlast] at hi'
      obtain ⟨-, h⟩ := Option.ite_none_right_eq_some.mp hi'
      cases h
      exact ⟨rfl, rfl, rfl, rfl, rfl⟩

/-- The output of the command is a document with the items `auths`. -/
def Document (parse : Bytes → Option CJson) (out : Option Bytes) (doc : CJson) (auths : List Auth) : Prop :=
  ∃ output list, out = some output ∧ parse (metaBuf output) = some doc ∧
    doc.getObjectItem (ascii "auths") = some list ∧ list.child.mapM readAuth = some auths

/-- **What a refresh can do.** -/
theorem metaSync_cases {out : Option Bytes} {rc : Int} (h : metaSync parse s out = some (rc, s')) :
    (out = none ∧ rc = -1 ∧ s' = s) ∨
    (∃ output, out = some output ∧ parse (metaBuf output) = none ∧ rc = -1 ∧ s' = { s with metaJson := none }) ∨
    (∃ output doc, out = some output ∧ parse (metaBuf output) = some doc ∧
      doc.getObjectItem (ascii "auths") = none ∧ rc = -1 ∧ s' = { s with metaJson := some doc }) ∨
    ∃ doc auths, Document parse out doc auths ∧ rc = 0 ∧ s' = ⟨refreshTable auths s.tokenInfo, some doc⟩ := by
  unfold metaSync at h
  split at h
  · cases h
    exact .inl ⟨rfl, rfl, rfl⟩
  · rename_i output
    split at h
    · rename_i hparse
      cases h
      exact .inr (.inl ⟨output, rfl, hparse, rfl, rfl⟩)
    · rename_i doc hparse
      split at h
      · rename_i hauths
        cases h
        exact .inr (.inr (.inl ⟨output, doc, rfl, hparse, hauths, rfl, rfl⟩))
      · rename_i list hauths
        rw [syncAuths_spec] at h
        cases hread : list.child.mapM readAuth with
        | none =>
          rw [hread] at h
          cases h
        | some auths =>
          rw [hread] at h
          cases h
          exact .inr (.inr (.inr ⟨doc, auths, ⟨output, list, rfl, hparse, hauths, hread⟩, rfl, rfl⟩))

/-! ## All or nothing -/

/-- A refresh is all or nothing: it returns 0 and the table is that of the new document, or it returns -1 and nothing has
changed, so that `meta_get` and `ti_verify_token` answer as before. -/
def Atomic (parse : Bytes → Option CJson) (s : Statics) (out : Option Bytes) : Prop :=
  ∀ rc s', metaSync parse s out = some (rc, s') →
    (rc = 0 → ∃ doc auths, Document parse out doc auths ∧ s'.metaJson = some doc ∧
      Refreshed auths s.tokenInfo s'.tokenInfo) ∧
    (rc = -1 → s'.tokenInfo = s.tokenInfo ∧ s'.metaJson = s.metaJson ∧ (∀ token, metaGet s' token = metaGet s token) ∧
      ∀ token, tiVerifyToken s'.tokenInfo token = tiVerifyToken s.tokenInfo token)

/-- The command has not been started, or its output is a document with an `auths` list, or no document is lost: there is
none before, and the output cannot be parsed, or the output is the document that is there before. -/
def NothingLost (parse : Bytes → Option CJson) (s : Statics) (out : Option Bytes) : Prop :=
  match out with
  | none => True
  | some output =>
    match parse (metaBuf output) with
    | none => s.metaJson = none
    | some doc => (doc.getObjectItem (ascii "auths")).isSome ∨ s.metaJson = some doc

/-- The document is freed before the next one has been checked: what happens to it is what is left. -/
theorem metaSync_atomic_iff (parse : Bytes → Option CJson) (s : Statics) (out : Option Bytes) :
    Atomic parse s out ↔ NothingLost parse s out := by
  constructor
  · intro h
    unfold NothingLost
    split
    · trivial
    · rename_i output
      split
      · rename_i hparse
        have hsync : metaSync parse s (some output) = some (-1, { s with metaJson := none }) := by
          simp [metaSync, hparse]
        exact ((h _ _ hsync).2 rfl).2.1.symm
      · rename_i doc hparse
        cases hauths : doc.getObjectItem (ascii "auths") with
        | some list => exact .inl rfl
        | none =>
          have hsync : metaSync parse s (some output) = some (-1, { s with metaJson := some doc }) := by
            simp [metaSync, hparse, hauths]
          exact .inr ((h _ _ hsync).2 rfl).2.1.symm
  · intro h rc s' hsync
    obtain ⟨hout, hrc, rfl⟩ | ⟨output, hout, hparse, hrc, hs⟩ | ⟨output, doc, hout, hparse, hauths, hrc, hs⟩ |
      ⟨doc, auths, hdoc, hrc, hs⟩ := metaSync_cases hsync
    · exact ⟨fun h0 => by omega, fun _ => ⟨rfl, rfl, fun _ => rfl, fun _ => rfl⟩⟩
    · rw [hout] at h
      simp only [NothingLost, hparse] at h
      have heq : s' = s := by rw [hs, ← h]
      subst heq
      exact ⟨fun h0 => by omega, fun _ => ⟨rfl, rfl, fun _ => rfl, fun _ => rfl⟩⟩
    · rw [hout] at h
      simp only [NothingLost, hparse, hauths] at h
      have heq : s' = s := by
        rw [hs, ← h.resolve_left (by simp)]
      subst heq
      exact ⟨fun h0 => by omega, fun _ => ⟨rfl, rfl, fun _ => rfl, fun _ => rfl⟩⟩
    · subst hs
      exact ⟨fun _ => ⟨doc, auths, hdoc, rfl, refreshed_refreshTable auths s.tokenInfo⟩, fun h1 => by omega⟩

/-- A document with one token and one tag. -/
def sampleText : Bytes := ascii
  "\x7b\"auths\":[\x7b\"token\":\"t\",\"tids\":[7],\"tenant_id\":1,\"org_ids\":\"2\"\x7d],\"tags\":[\x7b\"tid\":7\x7d]\x7d"

def sampleTag : CJson := ⟨0, none, none, [⟨7, none, some (ascii "tid"), []⟩]⟩

def sampleDoc : CJson :=
  let auth : CJson := ⟨0, none, none,
    [⟨0, some (ascii "t"), some (ascii "token"), []⟩, ⟨0, none, some (ascii "tids"), [⟨7, none, none, []⟩]⟩,
      ⟨1, none, some (ascii "tenant_id"), []⟩, ⟨0, some (ascii "2"), some (ascii "org_ids"), []⟩]⟩
  ⟨0, none, none, [⟨0, none, some (ascii "auths"), [auth]⟩, ⟨0, none, some (ascii "tags"), [sampleTag]⟩]⟩

def sampleParse (s : Bytes) : Option CJson := if s = sampleText then some sampleDoc else none

/-- The variables after the first refresh. -/
def sampleStatics : Statics := ⟨refreshTable [⟨ascii "t", {7}, 1, ascii "2"⟩] ∅, some sampleDoc⟩

/-- The command prints nothing, after a document with one token and one tag: `meta_get` has no document any more. -/
theorem document_lost : metaSync sampleParse ⟨∅, none⟩ (some sampleText) = some (0, sampleStatics) ∧
    ¬ Atomic sampleParse sampleStatics (some []) ∧ metaGet sampleStatics (ascii "t") = some (some [sampleTag]) ∧
    (metaSync sampleParse sampleStatics (some [])).map (fun r => (r.1, metaGet r.2 (ascii "t"))) =
      some (-1, some none) := by
  have hparse : sampleParse (metaBuf sampleText) = some sampleDoc := by
    apply if_pos
    rw [sampleText, ascii_ofList]
    decide
  have hnone : sampleParse (metaBuf []) = none := by
    apply if_neg
    rw [sampleText, ascii_ofList]
    decide
  refine ⟨?_, fun h => ?_, ?_, ?_⟩
  · unfold metaSync
    simp only [hparse]
    rfl
  · have hsync : metaSync sampleParse sampleStatics (some []) = some (-1, { sampleStatics with metaJson := none }) := by
      simp [metaSync, hnone]
    have hlost := (h _ _ hsync).2 rfl
    exact absurd hlost.2.1 (by simp [sampleStatics])
  · have hsort : ({7} : Finset Int).sort (· ≤ ·) = [7] := Finset.sort_singleton _ 7
    show ((({7} : Finset Int).sort (· ≤ ·)).mapM (tagItems ⟨0, none, some (ascii "tags"), [sampleTag]⟩)).bind
      (fun items => some (some items.flatten)) = some (some [sampleTag])
    rw [hsort]
    rfl
  · simp [metaSync, hnone, metaGet]

end Lighttpd.Luna
