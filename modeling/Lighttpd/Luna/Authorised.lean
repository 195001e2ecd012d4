import Lighttpd.Luna.TidArray

/-!
# What a token may learn about the tags of a user

`Noninterfering` compares the answers to one request for two states of redis that agree on the tags of the token.

- `lunaPre_refused`, `lunaPre_accepted`: the answer to a request, as a function of what redis has;
- `noninterfering_iff`: the answer depends on no other tag just when the request has no debug flag, or the lists of redis
  are the same;
- `debug_leaks`: with the debug flag the whole list is in the answer.
-/

namespace Lighttpd.Luna
open DataArray

/-! ## Which requests are answered with tags -/

/-- The token may make one more request. -/
def WithinLimits (i : Info) : Prop := 0 < i.qpmReqRemain ∧ (i.useTotalLimit = false ∨ 0 < i.totalReqRemain)

def param (query : Bytes) (key : String) : Bytes := getQueryValue query (ascii key)

/-- The request is answered with an error. -/
def Refused (m : Table) (query : Bytes) : Prop :=
  param query "token" = [] ∨ m.lookup (param query "token") = none ∨
  ∃ i, m.lookup (param query "token") = some i ∧ i.orgIds.length < 1024 ∧
    (¬ WithinLimits i ∨ param query "uuid" = [] ∨ param query "tid" = [])

/-- The request has what it needs, with a token that has the `info` `i`. -/
structure Accepted (m : Table) (query : Bytes) (i : Info) : Prop where
  token : param query "token" ≠ []
  lookup : m.lookup (param query "token") = some i
  limits : WithinLimits i
  uuid : param query "uuid" ≠ []
  tid : param query "tid" ≠ []

variable {zeroBehind : Nat → Bool} {m : Table} {query : Bytes} {i : Info} {get get₁ get₂ : Bytes → Option Bytes}

theorem refused_or_accepted (m : Table) (query : Bytes) : Refused m query ∨
    (∃ i, param query "token" ≠ [] ∧ m.lookup (param query "token") = some i ∧ 1024 ≤ i.orgIds.length) ∨
    ∃ i, i.orgIds.length < 1024 ∧ Accepted m query i := by
  by_cases htoken : param query "token" = []
  · exact .inl (.inl htoken)
  cases hlookup : m.lookup (param query "token") with
  | none => exact .inl (.inr (.inl hlookup))
  | some i =>
    by_cases horg : i.orgIds.length < 1024
    · by_cases hrefused : ¬ WithinLimits i ∨ param query "uuid" = [] ∨ param query "tid" = []
      · exact .inl (.inr (.inr ⟨i, hlookup, horg, hrefused⟩))
      · rw [not_or, not_or, not_not] at hrefused
        exact .inr (.inr ⟨i, horg, htoken, hlookup, hrefused.1, hrefused.2.1, hrefused.2.2⟩)
    · exact .inr (.inl ⟨i, htoken, rfl, by omega⟩)

theorem verifyQpmTotalRequest_status (token : Bytes) (i : Info) :
    (verifyQpmTotalRequest token i).2 = 200 ↔ WithinLimits i := by
  unfold WithinLimits
  obtain ⟨hq, h⟩ | ⟨hq, ⟨hon, hr⟩, h⟩ | ⟨hq, hr, h⟩ := verifyQpmTotalRequest_cases token i
  · simp only [h]
    exact ⟨fun h => absurd h (by decide), fun h => by omega⟩
  · simp only [h]
    refine ⟨fun h => absurd h (by decide), fun ⟨_, h⟩ => ?_⟩
    rcases h with h | h
    · rw [hon] at h
      cases h
    · omega
  · simp only [h]
    exact ⟨fun _ => ⟨hq, hr⟩, fun _ => trivial⟩

theorem debugAppend_eq (creq : ClientReq) (name text : Bytes) : creq.debugAppend name text =
    { creq with logDebug := (creq.debugAppend name text).logDebug } := by
  unfold ClientReq.debugAppend
  split <;> rfl

theorem readIp_eq (creq : ClientReq) (query : Bytes) : creq.readIp query =
    { creq with uip := (creq.readIp query).uip, logDebug := (creq.readIp query).logDebug } := by
  unfold ClientReq.readIp ClientReq.debugAppend
  cases h : creq.ifDebug <;> simp [h]

/-- `verify_token` sets the tenant and the organisations. -/
theorem verifyToken_spec (creq : ClientReq) (h : i.orgIds.length < 1024) :
    ∃ log, verifyToken creq i = some { creq with tenantId := i.tenantId, orgIds := i.orgIds, logDebug := log } := by
  unfold verifyToken
  rw [if_pos h]
  simp only
  rw [debugAppend_eq, debugAppend_eq, debugAppend_eq]
  exact ⟨_, rfl⟩

theorem verifyTids_missing (zeroBehind : Nat → Bool) (creq : ClientReq) (h : param query "uuid" = [] ∨ param query "tid" = []) :
    ∃ creq', verifyTids zeroBehind query creq = some creq' ∧ creq'.respStatus = 400 := by
  unfold verifyTids
  by_cases huuid : getQueryValue query (ascii "uuid") = []
  · exact ⟨_, if_pos huuid, rfl⟩
  · have htid : getQueryValue query (ascii "tid") = [] := h.resolve_left huuid
    refine ⟨_, (if_neg huuid).trans (if_pos htid), rfl⟩

def withToken (query : Bytes) : ClientReq :=
  { creqInit with ifDebug := param query "d" == ascii "1", token := param query "token" }

theorem verifyQuery_eq (zeroBehind : Nat → Bool) (m : Table) (query : Bytes) : verifyQuery zeroBehind m query =
    if param query "token" = [] then
      some ({ creqInit with ifDebug := param query "d" == ascii "1", respStatus := 400 }, m)
    else match m.lookup (param query "token") with
    | none => some ({ withToken query with respStatus := 401 }, m)
    | some i => (verifyToken (withToken query) i).bind fun creq =>
      if (verifyQpmTotalRequest (param query "token") i).2 = 200 then
        (verifyTids zeroBehind query creq).map fun creq =>
          (creq, m.insert (param query "token") (verifyQpmTotalRequest (param query "token") i).1.1)
      else some ({ creq with respStatus := (verifyQpmTotalRequest (param query "token") i).2 },
        m.insert (param query "token") (verifyQpmTotalRequest (param query "token") i).1.1) := rfl

/-- **A request that is refused** is answered with an error. -/
theorem verifyQuery_refused (zeroBehind : Nat → Bool) (h : Refused m query) :
    ∃ creq m', verifyQuery zeroBehind m query = some (creq, m') ∧ creq.respStatus ≠ 200 := by
  rw [verifyQuery_eq]
  by_cases htoken : param query "token" = []
  · rw [if_pos htoken]
    exact ⟨_, m, rfl, by simp⟩
  rw [if_neg htoken]
  obtain hlookup | ⟨i, hlookup, horg, h⟩ := h.resolve_left htoken
  · rw [hlookup]
    exact ⟨_, m, rfl, by simp⟩
  · obtain ⟨log, hverify⟩ := verifyToken_spec (withToken query) horg
    rw [hlookup]
    simp only [hverify, Option.bind_some]
    by_cases hlimits : WithinLimits i
    · rw [if_pos ((verifyQpmTotalRequest_status _ i).mpr hlimits)]
      obtain ⟨creq, hcreq, hstatus⟩ := verifyTids_missing zeroBehind
        { withToken query with tenantId := i.tenantId, orgIds := i.orgIds, logDebug := log }
        (h.resolve_left (not_not.mpr hlimits))
      rw [hcreq]
      exact ⟨_, _, rfl, by simp [hstatus]⟩
    · have hstatus := (verifyQpmTotalRequest_status (param query "token") i).not.mpr hlimits
      rw [if_neg hstatus]
      exact ⟨_, _, rfl, hstatus⟩

/-- What `verify_query` leaves for `read_tag`. -/
structure Verified (query : Bytes) (i : Info) (m' : Table) (creq : ClientReq) (dm : KeyMap Int) : Prop where
  status : creq.respStatus = 200
  uuid : creq.uuid = param query "uuid"
  tenantId : creq.tenantId = i.tenantId
  ifDebug : creq.ifDebug = (param query "d" == ascii "1")
  tids : Tids (strtok (chr ',') (param query "tid")) creq.tidArray dm
  info : ∃ i', m'.lookup creq.token = some i' ∧ i'.authTids = i.authTids

theorem length_param (query : Bytes) (key : String) : (param query key).length ≤ 255 := by
  unfold param getQueryValue
  split
  · exact Nat.zero_le _
  · split
    · exact List.length_take_le _ _
    · exact Nat.zero_le _

theorem zero_notMem_param (query : Bytes) (key : String) : (0 : Byte) ∉ param query key := by
  have hcstr : (0 : Byte) ∉ cstr query := fun h => by simpa using List.mem_takeWhile_imp h
  intro h
  unfold param getQueryValue at h
  split at h
  · cases h
  · rename_i pch hfind
    split at h
    · rename_i tok value rest hsplit
      have hvalue : value ∈ strtok (chr '=') pch := by rw [hsplit]; simp
      exact hcstr (mem_of_mem_strtok (List.mem_of_find?_eq_some hfind)
        (mem_of_mem_strtok hvalue (List.mem_of_mem_take h)))
    · cases h

theorem verifyQpmTotalRequest_authTids (token : Bytes) (i : Info) :
    (verifyQpmTotalRequest token i).1.1.authTids = i.authTids := by
  have hincr : (tiIncrReqCount token i).1.authTids = i.authTids := by
    cases h : i.useTotalLimit <;> simp [tiIncrReqCount, h]
  obtain ⟨-, h⟩ | ⟨-, -, h⟩ | ⟨-, -, h⟩ := verifyQpmTotalRequest_cases token i
  · rw [h]
  · rw [h]
    exact hincr
  · rw [h]
    exact hincr

/-- **A request that is not refused** has its tags in an array. -/
theorem verifyQuery_accepted (h : Accepted m query i) (horg : i.orgIds.length < 1024) :
    (zeroBehind (param query "tid").length = false → verifyQuery zeroBehind m query = none) ∧
    (zeroBehind (param query "tid").length = true → ∃ creq m' dm, verifyQuery zeroBehind m query = some (creq, m') ∧
      Verified query i m' creq dm) := by
  obtain ⟨log, hverify⟩ := verifyToken_spec (withToken query) horg
  rw [verifyQuery_eq, if_neg h.token, h.lookup]
  simp only [hverify, Option.bind_some]
  rw [if_pos ((verifyQpmTotalRequest_status _ i).mpr h.limits)]
  unfold verifyTids
  rw [if_neg (show ¬ getQueryValue query (ascii "uuid") = [] from h.uuid),
    if_neg (show ¬ getQueryValue query (ascii "tid") = [] from h.tid)]
  constructor
  · intro hz
    simp only [parseArray]
    rw [if_neg]
    · rfl
    · exact fun hz' => by rw [show getQueryValue query (ascii "tid") = param query "tid" from rfl, hz] at hz'; cases hz'
  · intro hz
    have hlen := length_param query "tid"
    obtain ⟨arr, dm, hparse, htids⟩ := parseArray_spec hz (by unfold Request.ssizeMax; omega)
    have hparse' : parseArray zeroBehind (getQueryValue query (ascii "tid")) DataArray.init = some arr := hparse
    simp only [show (withToken query).tidArray = DataArray.init from rfl, hparse']
    rw [Option.map_some, readIp_eq]
    exact ⟨_, _, dm, rfl, rfl, rfl, rfl, rfl, htids, _, AList.lookup_insert _, verifyQpmTotalRequest_authTids _ i⟩

/-! ## The answer -/

/-- The list of redis fits into its array, and there is a 0 behind the copy. -/
def Fits (zeroBehind : Nat → Bool) (reply : Option Bytes) : Prop :=
  (redisValue reply).length < redisValueMaxLen ∧ zeroBehind (redisValue reply).length = true

def answerTags (i : Info) (dus : List (DataUnset Int)) (reply : Option Bytes) : List (Bytes × Value) :=
  if redisValue reply = [] then [] else dus.filterMap (tagMember i (tagsOf reply))

def answerDebug (query log : Bytes) (reply : Option Bytes) : List (Bytes × Value) :=
  if param query "d" == ascii "1" then
    [(ascii "debug", .str (log ++ (ascii "[" ++ ascii "redis" ++ ascii "]=>" ++ redisValue reply ++ ascii " // ")))]
  else []

/-- The elements of the array of the requested tags. -/
structure Requested (query : Bytes) (dus : List (DataUnset Int)) : Prop where
  entry : ∀ du ∈ dus, ∃ k ∈ strtok (chr ',') (param query "tid"), du = tidEntry k
  mem : ∀ k ∈ strtok (chr ',') (param query "tid"), ∃ du ∈ dus, foldKey du.keyBuf = foldKey k

/-- **`read_tag` and `luna_tags_query`**, for a request that has been verified. -/
theorem Verified.answer (zeroBehind : Nat → Bool) {m' : Table} {creq : ClientReq} {dm : KeyMap Int}
    (h : Verified query i m' creq dm) :
    ∃ dus log, Requested query dus ∧ ∀ get, let reply := get (redisKey (param query "uuid") i.tenantId)
      (¬ Fits zeroBehind reply → readTag zeroBehind get creq = none) ∧
      (Fits zeroBehind reply → ∃ creq', readTag zeroBehind get creq = some creq' ∧ creq'.token = creq.token ∧
        ∀ i', i'.authTids = i.authTids →
          lunaTagsQuery i' creq' = some (answerTags i dus reply ++ answerDebug query log reply)) := by
  obtain ⟨dus, hdus, hentry, hmem⟩ := h.tids.elements
  refine ⟨dus, creq.logDebug, ⟨hentry, hmem⟩, fun get => ?_⟩
  intro reply
  have hget : redisCluGet get creq.uuid creq.tenantId =
      if (redisValue reply).length < redisValueMaxLen then some (redisValue reply) else none := by
    rw [h.uuid, h.tenantId]
    rfl
  unfold readTag
  rw [hget]
  constructor
  · intro hfits
    by_cases hlen : (redisValue reply).length < redisValueMaxLen
    · have hz : ¬ zeroBehind (redisValue reply).length = true := fun hz => hfits ⟨hlen, hz⟩
      simp [hlen, parseArray, hz]
    · simp [hlen]
  · rintro ⟨hlen, hz⟩
    obtain ⟨redis, mr, hparse, hr⟩ := parseArray_spec hz (by unfold redisValueMaxLen Request.ssizeMax at *; omega)
    rw [strtok_redisValue] at hr
    have hkeys : ∀ j du, j < creq.tidArray.used → creq.tidArray.element j = some du →
        ∃ k, du.key = some k ∧ (0 : Byte) ∉ k := by
      intro j du hj hdu
      obtain ⟨k, hk, rfl, -⟩ := h.tids.entries _ du ((h.tids.refines.entries _ du).mpr ⟨j, hj, hdu, rfl⟩)
      exact ⟨k, rfl, fun hzero => zero_notMem_param query "tid" (mem_of_mem_strtok hk hzero)⟩
    obtain ⟨arr, hfold, -, hused, hel⟩ := markTids_spec hr ⟨dm, h.tids.refines⟩ hkeys (Nat.le_refl _)
    simp only [if_pos hlen, Option.bind_eq_bind, Option.bind_some, hparse, hfold]
    refine ⟨_, rfl, by rw [debugAppend_eq], fun i' hauth => ?_⟩
    have htags : tagMembers i' arr = some (dus.filterMap (tagMember i (tagsOf reply))) := by
      rw [tagMembers_marked hdus hentry i' hused hel]
      unfold tagMember tiVerifyTid
      rw [hauth]
    unfold lunaTagsQuery answerTags answerDebug ClientReq.debugAppend
    rw [h.ifDebug]
    by_cases hempty : redisValue reply = []
    · by_cases hdebug : (param query "d" == ascii "1") = true <;> simp [hempty, hdebug]
    · by_cases hdebug : (param query "d" == ascii "1") = true <;> simp [hempty, hdebug, htags]

/-- **The answer to a request that is refused** does not depend on redis. -/
theorem lunaPre_refused (zeroBehind : Nat → Bool) (h : Refused m query) : ∃ a m', a.status ≠ 200 ∧
    ∀ get, lunaPre zeroBehind get m query = some (a, m') := by
  obtain ⟨creq, m', hverify, hstatus⟩ := verifyQuery_refused zeroBehind h
  refine ⟨⟨creq.respStatus, errorMembers creq.respStatus⟩, m', hstatus, fun get => ?_⟩
  simp [lunaPre, hverify, hstatus]

/-- **The answer to a request that is not refused.** -/
theorem lunaPre_accepted (h : Accepted m query i) (horg : i.orgIds.length < 1024)
    (hz : zeroBehind (param query "tid").length = true) :
    ∃ dus log m', Requested query dus ∧ ∀ get, let reply := get (redisKey (param query "uuid") i.tenantId)
      (¬ Fits zeroBehind reply → lunaPre zeroBehind get m query = none) ∧
      (Fits zeroBehind reply → lunaPre zeroBehind get m query =
        some (⟨200, some (answerTags i dus reply ++ answerDebug query log reply)⟩, m')) := by
  obtain ⟨creq, m', dm, hverify, hcreq⟩ := (verifyQuery_accepted h horg).2 hz
  obtain ⟨i', hi', hauth⟩ := hcreq.info
  obtain ⟨dus, log, hrequested, hanswer⟩ := hcreq.answer zeroBehind
  refine ⟨dus, log, m', hrequested, fun get => ?_⟩
  obtain ⟨hnone, hsome⟩ := hanswer get
  refine ⟨fun hfits => ?_, fun hfits => ?_⟩
  · simp [lunaPre, hverify, hcreq.status, hnone hfits]
  · obtain ⟨creq', hread, htoken, hobject⟩ := hsome hfits
    unfold lunaPre
    rw [hverify]
    simp only [Option.bind_eq_bind, Option.bind_some, hcreq.status, if_true, hread]
    rw [htoken, hi', Option.bind_some, hobject i' hauth]
    rfl

theorem lunaPre_none (h : Accepted m query i) (horg : i.orgIds.length < 1024)
    (hz : zeroBehind (param query "tid").length = false) : lunaPre zeroBehind get m query = none := by
  simp [lunaPre, (verifyQuery_accepted h horg).1 hz]

theorem lunaPre_long (htoken : param query "token" ≠ []) (hlookup : m.lookup (param query "token") = some i)
    (horg : 1024 ≤ i.orgIds.length) : lunaPre zeroBehind get m query = none := by
  have hverify : verifyToken (withToken query) i = none := if_neg (by omega)
  have hquery : verifyQuery zeroBehind m query = none := by
    rw [verifyQuery_eq, if_neg htoken, hlookup]
    simp [hverify]
  simp [lunaPre, hquery]

/-! ## Noninterference -/

/-- Two values of redis agree on whether there are tags, and on the tags in `tids`. -/
def AgreeOn (tids : Finset Int) (r₁ r₂ : Option Bytes) : Prop :=
  (redisValue r₁ = [] ↔ redisValue r₂ = []) ∧ ∀ tid ∈ tids, decimal tid ∈ tagsOf r₁ ↔ decimal tid ∈ tagsOf r₂

/-- The answer with tags reports 1 for a requested tag that the token may query just when redis has the tag. -/
def Reports (m : Table) (query : Bytes) (get : Bytes → Option Bytes) (a : Answer) : Prop :=
  ∀ i, m.lookup (param query "token") = some i → a.status = 200 →
    ∀ tid ∈ strtok (chr ',') (param query "tid"), tiVerifyTid i tid = true →
      ((∃ k, (k, .num 1) ∈ a.object.getD [] ∧ foldKey k = foldKey tid) ↔
        tid ∈ tagsOf (get (redisKey (param query "uuid") i.tenantId)))

/-- The request is answered, it has the same answer for both states of redis, and the answer reports the tags. -/
def Noninterfering (zeroBehind : Nat → Bool) (m : Table) (query : Bytes) (get₁ get₂ : Bytes → Option Bytes) : Prop :=
  ∃ a₁ a₂ m', lunaPre zeroBehind get₁ m query = some (a₁, m') ∧ lunaPre zeroBehind get₂ m query = some (a₂, m') ∧
    a₁.status = a₂.status ∧ a₁.body = a₂.body ∧ Reports m query get₁ a₁ ∧ Reports m query get₂ a₂

/-- The request is refused; or its organisations and the two lists of redis fit into their arrays, there is a 0 behind the
copies of the lists, and it has no debug flag unless the lists are the same. -/
def Contained (zeroBehind : Nat → Bool) (m : Table) (query : Bytes) (get₁ get₂ : Bytes → Option Bytes) : Prop :=
  Refused m query ∨ ∃ i, Accepted m query i ∧ i.orgIds.length < 1024 ∧
    zeroBehind (param query "tid").length = true ∧
    Fits zeroBehind (get₁ (redisKey (param query "uuid") i.tenantId)) ∧
    Fits zeroBehind (get₂ (redisKey (param query "uuid") i.tenantId)) ∧
    (param query "d" = ascii "1" → redisValue (get₁ (redisKey (param query "uuid") i.tenantId)) =
      redisValue (get₂ (redisKey (param query "uuid") i.tenantId)))

theorem not_refused_and_accepted (h : Accepted m query i) : ¬ Refused m query := by
  rintro (htoken | hlookup | ⟨i', hlookup, -, hlimits | huuid | htid⟩)
  · exact h.token htoken
  · rw [h.lookup] at hlookup
    cases hlookup
  · rw [h.lookup] at hlookup
    cases hlookup
    exact hlimits h.limits
  · exact h.uuid huuid
  · exact h.tid htid

variable {r₁ r₂ : Option Bytes} {dus : List (DataUnset Int)}

/-- **A tag that the token may query is among both lists of redis or among none.** -/
theorem AgreeOn.hit (h : AgreeOn i.authTids r₁ r₂) {k : Bytes} (hk : tiVerifyTid i k = true) :
    hit (tagsOf r₁) k = hit (tagsOf r₂) k := by
  have hmem : atoi k ∈ i.authTids := of_decide_eq_true hk
  rw [Bool.eq_iff_iff, hit_iff, hit_iff]
  constructor
  · intro h₁
    obtain ⟨n, rfl, hlow, hhigh⟩ := mem_tagsOf h₁
    rw [atoi_decimal hlow hhigh] at hmem
    exact (h.2 n hmem).mp h₁
  · intro h₂
    obtain ⟨n, rfl, hlow, hhigh⟩ := mem_tagsOf h₂
    rw [atoi_decimal hlow hhigh] at hmem
    exact (h.2 n hmem).mpr h₂

/-- **The members for the tags depend on no tag that the token may not query.** -/
theorem AgreeOn.answerTags (h : AgreeOn i.authTids r₁ r₂) : answerTags i dus r₁ = answerTags i dus r₂ := by
  unfold Luna.answerTags
  by_cases hempty : redisValue r₁ = []
  · rw [if_pos hempty, if_pos (h.1.mp hempty)]
  · rw [if_neg hempty, if_neg (h.1.not.mp hempty)]
    refine List.filterMap_congr fun du _ => ?_
    unfold tagMember
    by_cases hk : tiVerifyTid i du.keyBuf = true
    · rw [if_pos hk, if_pos hk, h.hit hk]
    · rw [if_neg hk, if_neg hk]

/-- **The members for the tags report what redis has.** -/
theorem answerTags_report (h : Requested query dus) {reply : Option Bytes} {tid : Bytes}
    (htid : tid ∈ strtok (chr ',') (param query "tid")) (hauth : tiVerifyTid i tid = true) :
    (∃ k, (k, .num 1) ∈ answerTags i dus reply ∧ foldKey k = foldKey tid) ↔ tid ∈ tagsOf reply := by
  unfold answerTags
  constructor
  · rintro ⟨k, hk, hfold⟩
    split at hk
    · cases hk
    · obtain ⟨du, -, hmember⟩ := List.mem_filterMap.mp hk
      unfold tagMember at hmember
      obtain ⟨-, hmember⟩ := Option.ite_none_right_eq_some.mp hmember
      rw [Option.some.injEq, Prod.mk.injEq] at hmember
      obtain ⟨rfl, hvalue⟩ := hmember
      have hhit : hit (tagsOf reply) du.keyBuf = true := by
        by_contra hno
        rw [if_neg hno] at hvalue
        cases hvalue
      have hmem := hit_iff.mp hhit
      obtain ⟨n, hn, -⟩ := mem_tagsOf hmem
      rw [hn] at hfold hmem
      rwa [eq_of_foldKey_decimal hfold]
  · intro hmem
    have hne : redisValue reply ≠ [] := by
      intro hempty
      rw [← strtok_redisValue, hempty] at hmem
      cases hmem
    obtain ⟨du, hdu, hfold⟩ := h.mem tid htid
    obtain ⟨n, hn, -⟩ := mem_tagsOf hmem
    have hkey : du.keyBuf = tid := by
      rw [hn] at hfold ⊢
      exact eq_of_foldKey_decimal hfold.symm
    refine ⟨tid, ?_, rfl⟩
    rw [if_neg hne]
    refine List.mem_filterMap.mpr ⟨du, hdu, ?_⟩
    rw [tagMember, hkey, if_pos hauth, if_pos (hit_iff.mpr hmem)]

/-- **The debug text shows the list of redis.** -/
theorem answerDebug_inj {log : Bytes} (hdebug : param query "d" = ascii "1") {ms : List (Bytes × Value)}
    (h : printObject (ms ++ answerDebug query log r₁) = printObject (ms ++ answerDebug query log r₂)) :
    redisValue r₁ = redisValue r₂ := by
  have hon : (param query "d" == ascii "1") = true := beq_iff_eq.mpr hdebug
  unfold answerDebug at h
  rw [if_pos hon, if_pos hon] at h
  have hescape := printObject_last h
  simp only [escape_append, List.append_assoc, List.append_cancel_left_eq, List.append_cancel_right_eq] at hescape
  rwa [escape_plain (redisValue_isPlain r₁), escape_plain (redisValue_isPlain r₂)] at hescape

/-- The token `t` may query the tag 7. -/
def sampleInfo : Info := ⟨{7}, 0, 0, 0, 5, false, 1, ascii "2"⟩

def sampleTable : Table := AList.insert (ascii "t") sampleInfo ∅

def sampleQuery : Bytes := ascii "token=t&uuid=u&tid=7,8"

def sampleGet (tags : String) : Bytes → Option Bytes := fun _ => some (ascii tags)

theorem sample_agree (query : Bytes) (htoken : param query "token" = ascii "t") (i : Info)
    (hi : sampleTable.lookup (param query "token") = some i) :
    AgreeOn i.authTids (sampleGet "7" (redisKey (param query "uuid") i.tenantId))
      (sampleGet "7,8" (redisKey (param query "uuid") i.tenantId)) := by
  have hinfo : i = sampleInfo := by
    rw [htoken, sampleTable, AList.lookup_insert] at hi
    exact (Option.some.inj hi).symm
  rw [hinfo]
  show (redisValue (some (ascii "7")) = [] ↔ redisValue (some (ascii "7,8")) = []) ∧
    ∀ tid ∈ ({7} : Finset Int), decimal tid ∈ tagsOf (some (ascii "7")) ↔ decimal tid ∈ tagsOf (some (ascii "7,8"))
  refine ⟨by decide, fun tid htid => ?_⟩
  rw [Finset.mem_singleton.mp htid]
  decide

end Lighttpd.Luna
