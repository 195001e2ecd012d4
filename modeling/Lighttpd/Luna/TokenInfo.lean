import Lighttpd.Base.Strtol
import Lighttpd.Lib.KeyedFold
import Mathlib.Data.Finset.Insert

/-!
# The token table of luna (`token_info.cpp`)

Every token that may query tags has an `info` in the map `token_info`: what it may query, the requests that have not
been reported to redis yet, and what redis last said is left of its limits. Once a second `ti_update_token_info`
subtracts the pending requests from the keys `<token>_total` and `<token>_qpm`.

The members of an `info` that `operator[]` adds are not initialised (`info() { }`): the functions that would add one
are `none` for a token that is not in the map.

- `lookup_tiUpdateTokenInfo`: what an update makes of one token;
- `updateInfo_qpm`, `updateInfo_total`: an update subtracts what it takes from the pending requests.
-/

namespace Lighttpd.Luna

open KeyedFold

/-- `info`. The request counts and what remains are `long`; a count grows by one in a request. -/
structure Info where
  authTids : Finset Int
  totalReqCount : Int
  qpmReqCount : Int
  totalReqRemain : Int
  qpmReqRemain : Int
  useTotalLimit : Bool
  tenantId : Int
  orgIds : Bytes
deriving DecidableEq

/-- `token_info`. -/
abbrev Table := Map Bytes Info

/-- What the module does that can be seen from outside: a subtraction redis has carried out, a call of
`ti_incr_req_count` (with the total limit on or off), and the status a request for tags got from the quota. -/
inductive Event where
  | decrby (key : Bytes) (num : Int)
  | incr (token : Bytes) (on : Bool)
  | answered (token : Bytes) (status : Nat)
deriving DecidableEq, Repr

/-! ## Tokens -/

def tiAddToken (m : Table) (token : Bytes) (authTids : Finset Int) (tenantId : Int) (orgIds : Bytes) : Table :=
  match m.lookup token with
  | some i => m.insert token { i with authTids := authTids, tenantId := tenantId, orgIds := orgIds }
  | none => m.insert token ⟨authTids, 0, 0, 0, 0, false, tenantId, orgIds⟩

def atoi (s : Bytes) : Int := toInt (strtol 10 s).1

def tiVerifyToken (m : Table) (token : Bytes) : Bool := (m.lookup token).isSome

def tiVerifyTid (i : Info) (tid : Bytes) : Bool := decide (atoi tid ∈ i.authTids)

def initTokenInfo (m : Table) : Table := tiAddToken m (ascii "test") {10000, 10003, 10004} 1 (ascii "2")

theorem lookup_tiAddToken (m : Table) (token j : Bytes) (tids : Finset Int) (tenant : Int) (orgs : Bytes) :
    (tiAddToken m token tids tenant orgs).lookup j =
      if j = token then
        some { (m.lookup j).getD ⟨tids, 0, 0, 0, 0, false, tenant, orgs⟩ with
          authTids := tids, tenantId := tenant, orgIds := orgs }
      else m.lookup j := by
  unfold tiAddToken
  by_cases hj : j = token
  · subst hj
    cases h : m.lookup j <;> simp
  · cases h : m.lookup token <;> simp [hj]

/-! ## Requests -/

def tiIncrReqCount (token : Bytes) (i : Info) : Info × List Event :=
  let on := i.useTotalLimit
  let i := if on then { i with totalReqCount := i.totalReqCount + 1 } else i
  ({ i with qpmReqCount := i.qpmReqCount + 1 }, [.incr token on])

/-- `verify_qpm_total_request` for a token that has been verified: the `info` and the status of the request. It returns
-1 for every status but 200. -/
def verifyQpmTotalRequest (token : Bytes) (i : Info) : (Info × List Event) × Nat :=
  if i.qpmReqRemain ≤ 0 then ((i, []), 429)
  else
    let r := tiIncrReqCount token i
    if !r.1.useTotalLimit then (r, 200)
    else if r.1.totalReqRemain ≤ 0 then (r, 204)
    else (r, 200)

theorem tiIncrReqCount_qpm (token : Bytes) (i : Info) :
    (tiIncrReqCount token i).1.qpmReqCount = i.qpmReqCount + 1 := by
  cases h : i.useTotalLimit <;> simp [tiIncrReqCount, h]

theorem tiIncrReqCount_total (token : Bytes) (i : Info) :
    (tiIncrReqCount token i).1.totalReqCount = i.totalReqCount + if i.useTotalLimit then 1 else 0 := by
  cases h : i.useTotalLimit <;> simp [tiIncrReqCount, h]

theorem tiIncrReqCount_same (token : Bytes) (i : Info) :
    (tiIncrReqCount token i).1.useTotalLimit = i.useTotalLimit ∧
    (tiIncrReqCount token i).1.totalReqRemain = i.totalReqRemain ∧
    (tiIncrReqCount token i).1.qpmReqRemain = i.qpmReqRemain := by
  cases h : i.useTotalLimit <;> simp [tiIncrReqCount, h]

/-- **What the quota does with a request.** -/
theorem verifyQpmTotalRequest_cases (token : Bytes) (i : Info) :
    (i.qpmReqRemain ≤ 0 ∧ verifyQpmTotalRequest token i = ((i, []), 429)) ∨
    (0 < i.qpmReqRemain ∧ (i.useTotalLimit = true ∧ i.totalReqRemain ≤ 0) ∧
      verifyQpmTotalRequest token i = (tiIncrReqCount token i, 204)) ∨
    (0 < i.qpmReqRemain ∧ (i.useTotalLimit = false ∨ 0 < i.totalReqRemain) ∧
      verifyQpmTotalRequest token i = (tiIncrReqCount token i, 200)) := by
  obtain ⟨hon, hremain, -⟩ := tiIncrReqCount_same token i
  unfold verifyQpmTotalRequest
  simp only [hon, hremain]
  by_cases hqpm : i.qpmReqRemain ≤ 0
  · exact .inl ⟨hqpm, if_pos hqpm⟩
  · rw [if_neg hqpm]
    cases hlimit : i.useTotalLimit with
    | false => exact .inr (.inr ⟨by omega, .inl rfl, rfl⟩)
    | true =>
      by_cases htotal : i.totalReqRemain ≤ 0
      · exact .inr (.inl ⟨by omega, ⟨rfl, htotal⟩, by simp [htotal]⟩)
      · exact .inr (.inr ⟨by omega, .inr (by omega), by simp [htotal]⟩)

/-! ## The update -/

/-- What redis answers in the update of one token: `GET <token>`, and the two `DECRBY` when they succeed. -/
structure Reply where
  limit : Option Bytes
  total : Option Int
  qpm : Option Int

def isUseTotalLimit (value : Option Bytes) : Bool := value == some (ascii "yes")

/-- The key from which the requests for the total limit are subtracted. -/
def totalKey (token : Bytes) : Bytes := token ++ ascii "_total"

/-- The key from which the requests per second are subtracted. -/
def qpmKey (token : Bytes) : Bytes := token ++ ascii "_qpm"

def updateTotal (r : Reply) (token : Bytes) (i : Info) : Info × List Event :=
  match r.total with
  | some totalRemain =>
    if i.useTotalLimit then
      ({ i with totalReqCount := 0, totalReqRemain := totalRemain }, [.decrby (totalKey token) i.totalReqCount])
    else (i, [])
  | none => (i, [])

def updateQpm (r : Reply) (token : Bytes) (i : Info) : Info × List Event :=
  match r.qpm with
  | some qpmRemain =>
    ({ i with qpmReqCount := 0, qpmReqRemain := qpmRemain }, [.decrby (qpmKey token) i.qpmReqCount])
  | none => (i, [])

def updateInfo (reply : Bytes → Reply) (token : Bytes) (i : Info) : Info × List Event :=
  let r := reply token
  let i := { i with useTotalLimit := isUseTotalLimit r.limit }
  let (i, total) := updateTotal r token i
  let (i, qpm) := updateQpm r token i
  (i, total ++ qpm)

def tiUpdateTokenInfo (reply : Bytes → Reply) (m : Table) : Table × List Event := visit (updateInfo reply) m

/-- **An update changes every token by itself.** -/
theorem lookup_tiUpdateTokenInfo (reply : Bytes → Reply) (m : Table) (token : Bytes) :
    (tiUpdateTokenInfo reply m).1.lookup token = (m.lookup token).map fun i => (updateInfo reply token i).1 :=
  lookup_visit token

/-! ## What is counted -/

def Event.subtracted (key : Bytes) : Event → Int
  | .decrby k num => if k = key then num else 0
  | _ => 0

def subtracted (key : Bytes) (es : List Event) : Int := (es.map (Event.subtracted key)).sum

@[simp] theorem subtracted_nil (key : Bytes) : subtracted key [] = 0 := rfl

@[simp] theorem subtracted_append (key : Bytes) (es es' : List Event) :
    subtracted key (es ++ es') = subtracted key es + subtracted key es' := by
  simp [subtracted]

@[simp] theorem subtracted_cons (key : Bytes) (e : Event) (es : List Event) :
    subtracted key (e :: es) = e.subtracted key + subtracted key es := by
  simp [subtracted]

theorem qpmKey_inj {t t' : Bytes} : qpmKey t = qpmKey t' ↔ t = t' := by simp [qpmKey]

theorem totalKey_inj {t t' : Bytes} : totalKey t = totalKey t' ↔ t = t' := by simp [totalKey]

theorem qpmKey_ne_totalKey (t t' : Bytes) : qpmKey t ≠ totalKey t' := by
  intro h
  have hlast := congrArg List.getLast? h
  have hq : (ascii "_qpm").getLast? = some (chr 'm') := by decide
  have ht : (ascii "_total").getLast? = some (chr 'l') := by decide
  rw [qpmKey, totalKey, List.getLast?_append, List.getLast?_append, hq, ht] at hlast
  simp [chr] at hlast

variable {reply : Bytes → Reply} {i : Info} {m : Table}

theorem updateTotal_spec (r : Reply) (token j : Bytes) (i : Info) :
    (updateTotal r j i).1.qpmReqCount = i.qpmReqCount ∧ subtracted (qpmKey token) (updateTotal r j i).2 = 0 ∧
    (j ≠ token → subtracted (totalKey token) (updateTotal r j i).2 = 0) ∧
    subtracted (totalKey j) (updateTotal r j i).2 + (updateTotal r j i).1.totalReqCount = i.totalReqCount := by
  have hne := (qpmKey_ne_totalKey token j).symm
  unfold updateTotal
  cases r.total with
  | none => simp
  | some remain =>
    cases hon : i.useTotalLimit with
    | false => simp
    | true =>
      refine ⟨rfl, by simp [Event.subtracted, hne], fun hj => ?_, by simp [Event.subtracted]⟩
      simp [Event.subtracted, totalKey_inj, hj]

theorem updateQpm_spec (r : Reply) (token j : Bytes) (i : Info) :
    (updateQpm r j i).1.totalReqCount = i.totalReqCount ∧ subtracted (totalKey token) (updateQpm r j i).2 = 0 ∧
    (j ≠ token → subtracted (qpmKey token) (updateQpm r j i).2 = 0) ∧
    subtracted (qpmKey j) (updateQpm r j i).2 + (updateQpm r j i).1.qpmReqCount = i.qpmReqCount := by
  have hne := qpmKey_ne_totalKey j token
  unfold updateQpm
  cases r.qpm with
  | none => simp
  | some remain =>
    refine ⟨rfl, by simp [Event.subtracted, hne], fun hj => ?_, by simp [Event.subtracted]⟩
    simp [Event.subtracted, qpmKey_inj, hj]

theorem updateInfo_eq (token : Bytes) : updateInfo reply token i =
    ((updateQpm (reply token) token (updateTotal (reply token) token
        { i with useTotalLimit := isUseTotalLimit (reply token).limit }).1).1,
      (updateTotal (reply token) token { i with useTotalLimit := isUseTotalLimit (reply token).limit }).2 ++
      (updateQpm (reply token) token (updateTotal (reply token) token
        { i with useTotalLimit := isUseTotalLimit (reply token).limit }).1).2) := rfl

theorem decrby_of_mem_updateInfo {token : Bytes} {e : Event} (h : e ∈ (updateInfo reply token i).2) :
    ∃ key num, e = .decrby key num := by
  have htotal : ∀ i, e ∈ (updateTotal (reply token) token i).2 → ∃ key num, e = .decrby key num := by
    intro i h
    unfold updateTotal at h
    split at h
    · split at h
      · exact ⟨_, _, List.mem_singleton.mp h⟩
      · cases h
    · cases h
  have hqpm : ∀ i, e ∈ (updateQpm (reply token) token i).2 → ∃ key num, e = .decrby key num := by
    intro i h
    unfold updateQpm at h
    split at h
    · exact ⟨_, _, List.mem_singleton.mp h⟩
    · cases h
  rw [updateInfo_eq] at h
  exact (List.mem_append.mp h).elim (htotal _) (hqpm _)

/-- **What an update subtracts from the requests per second is no longer pending.** -/
theorem updateInfo_qpm (token : Bytes) : subtracted (qpmKey token) (updateInfo reply token i).2 +
    (updateInfo reply token i).1.qpmReqCount = i.qpmReqCount := by
  rw [updateInfo_eq]
  obtain ⟨hcount, hzero, -, -⟩ := updateTotal_spec (reply token) token token
    { i with useTotalLimit := isUseTotalLimit (reply token).limit }
  obtain ⟨-, -, -, hqpm⟩ := updateQpm_spec (reply token) token token (updateTotal (reply token) token
    { i with useTotalLimit := isUseTotalLimit (reply token).limit }).1
  rw [subtracted_append, hzero, zero_add, hqpm, hcount]

/-- **What an update subtracts from the total is no longer pending.** -/
theorem updateInfo_total (token : Bytes) : subtracted (totalKey token) (updateInfo reply token i).2 +
    (updateInfo reply token i).1.totalReqCount = i.totalReqCount := by
  rw [updateInfo_eq]
  obtain ⟨-, -, -, htotal⟩ := updateTotal_spec (reply token) token token
    { i with useTotalLimit := isUseTotalLimit (reply token).limit }
  obtain ⟨hcount, hzero, -, -⟩ := updateQpm_spec (reply token) token token (updateTotal (reply token) token
    { i with useTotalLimit := isUseTotalLimit (reply token).limit }).1
  rw [subtracted_append, hzero, add_zero, hcount, htotal]

/-- **Without a subtraction for the token nothing new is known about what remains.** -/
theorem updateInfo_quiet (reply : Bytes → Reply) (i : Info) {token : Bytes}
    (hqpm : ∀ num, .decrby (qpmKey token) num ∉ (updateInfo reply token i).2)
    (htotal : ∀ num, .decrby (totalKey token) num ∉ (updateInfo reply token i).2) :
    (updateInfo reply token i).1.qpmReqRemain = i.qpmReqRemain ∧
    (updateInfo reply token i).1.totalReqRemain = i.totalReqRemain := by
  have hkeepTotal : ∀ i, (∀ num, .decrby (totalKey token) num ∉ (updateTotal (reply token) token i).2) →
      (updateTotal (reply token) token i).1 = i := by
    intro i h
    unfold updateTotal at h ⊢
    split
    · split
      · rename_i hreply hon
        rw [hreply] at h
        simp [hon] at h
      · rfl
    · rfl
  have hkeepQpm : ∀ i, (∀ num, .decrby (qpmKey token) num ∉ (updateQpm (reply token) token i).2) →
      (updateQpm (reply token) token i).1 = i := by
    intro i h
    unfold updateQpm at h ⊢
    split
    · rename_i hreply
      rw [hreply] at h
      simp at h
    · rfl
  rw [updateInfo_eq] at hqpm htotal ⊢
  rw [hkeepQpm _ fun num h => hqpm num (List.mem_append_right _ h),
    hkeepTotal _ fun num h => htotal num (List.mem_append_left _ h)]
  exact ⟨rfl, rfl⟩

/-- **What a successful update reports is what remains.** -/
theorem updateInfo_remain (reply : Bytes → Reply) (i : Info) (token : Bytes) :
    (∀ q, (reply token).qpm = some q → (updateInfo reply token i).1.qpmReqRemain = q ∧
      (updateInfo reply token i).1.qpmReqCount = 0) ∧
    ∀ r, (reply token).limit = some (ascii "yes") → (reply token).total = some r →
      (updateInfo reply token i).1.totalReqRemain = r := by
  rw [updateInfo_eq]
  constructor
  · intro q hq
    simp [updateQpm, hq]
  · intro r hlimit hr
    unfold updateQpm
    cases (reply token).qpm <;> simp [updateTotal, hr, hlimit, isUseTotalLimit]

theorem updateInfo_other {token j : Bytes} (hne : j ≠ token) :
    subtracted (qpmKey token) (updateInfo reply j i).2 = 0 ∧ subtracted (totalKey token) (updateInfo reply j i).2 = 0 := by
  rw [updateInfo_eq]
  obtain ⟨-, hqt, htt, -⟩ := updateTotal_spec (reply j) token j
    { i with useTotalLimit := isUseTotalLimit (reply j).limit }
  obtain ⟨-, htq, hqq, -⟩ := updateQpm_spec (reply j) token j (updateTotal (reply j) j
    { i with useTotalLimit := isUseTotalLimit (reply j).limit }).1
  constructor
  · rw [subtracted_append, hqt, hqq hne, add_zero]
  · rw [subtracted_append, htt hne, htq, add_zero]

/-- **What `ti_update_token_info` subtracts from the keys of a token is what the update of that token does.** -/
theorem subtracted_tiUpdateTokenInfo (reply : Bytes → Reply) {token : Bytes} (h : m.lookup token = some i) :
    subtracted (qpmKey token) (tiUpdateTokenInfo reply m).2 =
      subtracted (qpmKey token) (updateInfo reply token i).2 ∧
    subtracted (totalKey token) (tiUpdateTokenInfo reply m).2 =
      subtracted (totalKey token) (updateInfo reply token i).2 := by
  constructor
  · have hsum := sum_visit (m := m) (f := updateInfo reply) (w := Event.subtracted (qpmKey token)) (j := token)
      fun j i hne => (updateInfo_other hne).1
    rw [h] at hsum
    exact hsum
  · have hsum := sum_visit (m := m) (f := updateInfo reply) (w := Event.subtracted (totalKey token)) (j := token)
      fun j i hne => (updateInfo_other hne).2
    rw [h] at hsum
    exact hsum

end Lighttpd.Luna
