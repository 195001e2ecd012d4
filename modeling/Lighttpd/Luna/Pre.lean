import Lighttpd.Luna.Authorised
import Lighttpd.Luna.Json
import Lighttpd.Luna.MetaSync

/-!
# The handler of a request (`luna.c`)

`luna_pre` goes through the states of a request until the response is set and the data of the request is freed. It is
`none` where the program writes behind an array or reads behind a block, and where it reads what has not been set or has been
freed.

- `verifyQuery_tagQuery`: for the tags of a user it verifies what the model of such a request verifies;
- `preLoop_eq`: what the loop comes to, in four turns at most;
- `outcome_way`: the ways through the states.
-/

namespace Lighttpd.Luna.Handler

/-! ## The data of a request -/

inductive ReqType where
  | tagQuery
  | metaSync
deriving DecidableEq

inductive ShkStatus where
  | pre
  | queryVerify
  | tokenVerify
  | metaSync
  | tagQuery
  | response
deriving DecidableEq

/-- What the handler finds outside of its data: the heap, redis, what `cJSON.c` keeps of an item for printing it, and the
clocks when the data of the request is made and when the record is written. -/
structure Outside where
  zeroBehind : Nat → Bool
  get : Bytes → Option Bytes
  view : CJson → Json
  timestamp : Int
  start : Int
  finish : Int

/-- The connection. `writeQueue` has the chunks that have been appended. -/
structure Con where
  httpMethod : Option Request.Method
  uriQuery : Bytes
  httpStatus : Nat
  writeQueue : List Bytes
  fileFinished : Bool
deriving DecidableEq

/-- `handler_ctx`. `creq` is NULL until `luna_pre` makes it; behind `luna_pre` it points to what has been freed. -/
structure HandlerCtx where
  response : Bytes
  creqFreed : Bool
deriving DecidableEq

def handlerCtxInit : HandlerCtx := ⟨[], false⟩

/-- What `luna_pre` works on: the connection, `hctx->response`, `creq`, and the static variables. -/
structure Pre where
  con : Con
  response : Bytes
  creq : ClientReq
  timestamp : Int
  usetime : Int
  rt : ReqType
  kst : ShkStatus
  statics : Statics

/-! ## `verify_query` -/

/-- `verify_query`, and the token table after it. It returns -1 for every status but 200. -/
def verifyQuery (zeroBehind : Nat → Bool) (m : Table) (query : Bytes) (rt : ReqType) (creq : ClientReq) :
    Option (ClientReq × Table) :=
  let creq := creq.debugAppend (ascii "query") query
  let creq := if getQueryValue query (ascii "d") = ascii "1" then { creq with ifDebug := true } else creq
  let token := getQueryValue query (ascii "token")
  if token = [] then some ({ creq with respStatus := 400 }, m) else
  let creq := { creq with token := token }
  match m.lookup token with
  | none => some ({ creq with respStatus := 401 }, m)
  | some i =>
    (verifyToken creq i).bind fun creq =>
      match rt with
      | .metaSync => some (creq, m)
      | .tagQuery =>
        let r := verifyQpmTotalRequest token i
        let m := m.insert token r.1.1
        if r.2 = 200 then (verifyTids zeroBehind query creq).map fun creq => (creq, m)
        else some ({ creq with respStatus := r.2 }, m)

/-! ## The record for the access log -/

/-- What the record of a request is built from. -/
structure Record where
  status : Int
  dmp : Int
  token : Bytes
  tenantId : Int
  orgIds : Bytes
  uuid : Bytes
  tid : Bytes
  uip : Bytes
  result : Bytes
  st : Int
  ut : Int
deriving DecidableEq

/-- The names and the values in the order in which they are appended. -/
def Record.fields (r : Record) : List (Bytes × Bytes) :=
  [(ascii "status", liItostrn r.status), (ascii "dmp", liItostrn r.dmp), (ascii "token", r.token),
   (ascii "tenant_id", liItostrn r.tenantId), (ascii "org_ids", r.orgIds), (ascii "uuid", r.uuid), (ascii "tid", r.tid),
   (ascii "uip", r.uip), (ascii "result", r.result), (ascii "st", liItostrn r.st), (ascii "ut", liItostrn r.ut)]

/-- One value behind its name. -/
def fieldText (f : Bytes × Bytes) : Bytes := chr '^' :: (f.1 ++ chr '=' :: f.2)

def Record.text (r : Record) : Bytes := r.fields.flatMap fieldText

/-- What `fix_query` builds the record from. -/
def Pre.record (s : Pre) : Record where
  status := s.creq.respStatus
  dmp := if s.creq.dmp then 1 else 0
  token := s.creq.token
  tenantId := s.creq.tenantId
  orgIds := s.creq.orgIds
  uuid := s.creq.uuid
  tid := s.creq.tidStr
  uip := s.creq.uip.getD []
  result := s.response
  st := s.timestamp
  ut := s.usetime

def fixQuery (now : Int) (s : Pre) : Pre :=
  let s := { s with usetime := now - s.usetime }
  { s with con := { s.con with uriQuery := s.record.text } }

/-! ## The states -/

def httpChunkAppendMem (queue : List Bytes) (mem : Bytes) : List Bytes := if mem = [] then queue else queue ++ [mem]

def lunaSetResponse (s : Pre) : Pre :=
  let response := if s.creq.respStatus ≠ 200 then
    match errorMembers s.creq.respStatus with
    | some ms => printObject ms
    | none => s.response
  else s.response
  { s with
    response := response
    con := { s.con with
      writeQueue := httpChunkAppendMem s.con.writeQueue response
      httpStatus := s.creq.respStatus
      fileFinished := true } }

def metaMaxLen : Nat := 1024 * 1024

def lunaMetaSync (view : CJson → Json) (s : Statics) (token : Bytes) : Option Bytes :=
  match metaGet s token with
  | none => none
  -- `tmp` has not been set
  | some none => none
  | some (some items) =>
    let text := printJson (.array (items.map view))
    if text.length < metaMaxLen then some text else none

/-- One turn of the loop in `luna_pre`, and whether the loop is left. -/
def preStep (o : Outside) (s : Pre) : Option (Pre × Bool) :=
  match s.kst with
  | .pre =>
    if s.con.httpMethod ≠ some .get then
      some ({ s with creq := { s.creq with respStatus := 405 }, kst := .response }, false)
    else some ({ s with kst := .queryVerify }, false)
  | .queryVerify => do
    let (creq, m) ← verifyQuery o.zeroBehind s.statics.tokenInfo s.con.uriQuery s.rt s.creq
    let s := { s with creq := creq, statics := { s.statics with tokenInfo := m } }
    if creq.respStatus ≠ 200 then some ({ s with kst := .response }, false)
    else
      match s.rt with
      | .metaSync => some ({ s with kst := .metaSync }, false)
      | .tagQuery => some ({ s with kst := .tagQuery }, false)
  | .metaSync => do
    let text ← lunaMetaSync o.view s.statics s.creq.token
    some ({ s with response := s.response ++ text, kst := .response }, false)
  | .tagQuery => do
    let creq ← readTag o.zeroBehind o.get s.creq
    let i ← s.statics.tokenInfo.lookup creq.token
    let ms ← lunaTagsQuery i creq
    some ({ s with creq := creq, response := s.response ++ printObject ms, kst := .response }, false)
  | .response => some (lunaSetResponse (fixQuery o.finish s), true)
  -- no branch of the loop is for this state
  | .tokenVerify => some (s, false)

/-- The loop, with the states it goes through. The first argument bounds the number of turns. -/
def preLoop (o : Outside) : Nat → Pre → Option (List ShkStatus × Pre)
  | 0, _ => none
  | fuel + 1, s => do
    let (s', done) ← preStep o s
    if done then some ([s.kst], s') else (preLoop o fuel s').map fun r => (s.kst :: r.1, r.2)

def Pre.init (o : Outside) (statics : Statics) (con : Con) (response : Bytes) (rt : ReqType) : Pre :=
  ⟨con, response, creqInit, o.timestamp, o.start, rt, .pre, statics⟩

def lunaPre (o : Outside) (statics : Statics) (con : Con) (hctx : HandlerCtx) (rt : ReqType) :
    Option (List ShkStatus × Pre) :=
  -- `creq->rt = rt`
  if hctx.creqFreed then none else preLoop o 6 (Pre.init o statics con hctx.response rt)

/-! ## The ways through the states -/

variable {o : Outside} {s s' : Pre} {visited : List ShkStatus} {fuel : Nat}

def Pre.answer (o : Outside) (s : Pre) : Pre := lunaSetResponse (fixQuery o.finish { s with kst := .response })

def Pre.verified (s : Pre) (creq : ClientReq) (m : Table) : Pre :=
  { s with creq := creq, statics := { s.statics with tokenInfo := m } }

/-- `read_tag` and `luna_tags_query`: the data and the object. -/
def tagsObject (o : Outside) (m : Table) (creq : ClientReq) : Option (ClientReq × List (Bytes × Value)) := do
  let creq ← readTag o.zeroBehind o.get creq
  let i ← m.lookup creq.token
  let ms ← lunaTagsQuery i creq
  some (creq, ms)

def outcome (o : Outside) (s : Pre) : Option (List ShkStatus × Pre) :=
  if s.con.httpMethod ≠ some .get then
    some ([.pre, .response], Pre.answer o { s with creq := { s.creq with respStatus := 405 } })
  else
    (verifyQuery o.zeroBehind s.statics.tokenInfo s.con.uriQuery s.rt s.creq).bind fun r =>
      let s := s.verified r.1 r.2
      if r.1.respStatus ≠ 200 then some ([.pre, .queryVerify, .response], s.answer o)
      else
        match s.rt with
        | .metaSync => (lunaMetaSync o.view s.statics r.1.token).map fun text =>
          ([.pre, .queryVerify, .metaSync, .response], Pre.answer o { s with response := s.response ++ text })
        | .tagQuery => (tagsObject o r.2 r.1).map fun t =>
          ([.pre, .queryVerify, .tagQuery, .response],
            Pre.answer o { s with creq := t.1, response := s.response ++ printObject t.2 })

theorem preLoop_metaSync (o : Outside) (s : Pre) (fuel : Nat) : preLoop o (fuel + 2) { s with kst := .metaSync } =
    (lunaMetaSync o.view s.statics s.creq.token).map fun text =>
      ([.metaSync, .response], Pre.answer o { s with response := s.response ++ text }) := by
  rw [preLoop]
  dsimp only [preStep]
  cases lunaMetaSync o.view s.statics s.creq.token <;> rfl

theorem preLoop_tagQuery (o : Outside) (s : Pre) (fuel : Nat) : preLoop o (fuel + 2) { s with kst := .tagQuery } =
    (tagsObject o s.statics.tokenInfo s.creq).map fun t =>
      ([.tagQuery, .response], Pre.answer o { s with creq := t.1, response := s.response ++ printObject t.2 }) := by
  rw [preLoop]
  dsimp only [preStep, tagsObject]
  cases readTag o.zeroBehind o.get s.creq with
  | none => rfl
  | some creq =>
    dsimp only [Option.bind_eq_bind, Option.bind_some]
    cases s.statics.tokenInfo.lookup creq.token with
    | none => rfl
    | some i =>
      dsimp only [Option.bind_some]
      cases lunaTagsQuery i creq <;> rfl

theorem preLoop_queryVerify (o : Outside) (s : Pre) (fuel : Nat) :
    preLoop o (fuel + 3) { s with kst := .queryVerify } =
      (verifyQuery o.zeroBehind s.statics.tokenInfo s.con.uriQuery s.rt s.creq).bind fun r =>
        if r.1.respStatus ≠ 200 then some ([.queryVerify, .response], (s.verified r.1 r.2).answer o)
        else
          match s.rt with
          | .metaSync => (preLoop o (fuel + 2) { s.verified r.1 r.2 with kst := .metaSync }).map fun r =>
            (.queryVerify :: r.1, r.2)
          | .tagQuery => (preLoop o (fuel + 2) { s.verified r.1 r.2 with kst := .tagQuery }).map fun r =>
            (.queryVerify :: r.1, r.2) := by
  rw [preLoop]
  dsimp only [preStep]
  cases verifyQuery o.zeroBehind s.statics.tokenInfo s.con.uriQuery s.rt s.creq with
  | none => rfl
  | some r =>
    obtain ⟨creq, m⟩ := r
    dsimp only [Option.bind_eq_bind, Option.bind_some]
    by_cases hstatus : creq.respStatus ≠ 200
    · rw [if_pos hstatus, if_pos hstatus]
      rfl
    · rw [if_neg hstatus, if_neg hstatus]
      obtain ⟨con, response, creq₀, timestamp, usetime, rt, kst, statics⟩ := s
      cases rt <;> rfl

/-- **The loop is left after four turns at most.** -/
theorem preLoop_eq (o : Outside) (s : Pre) (fuel : Nat) (hs : s.kst = .pre) : preLoop o (fuel + 4) s = outcome o s := by
  rw [preLoop]
  unfold outcome
  dsimp only [preStep]
  rw [hs]
  dsimp only
  by_cases hget : s.con.httpMethod ≠ some .get
  · rw [if_pos hget, if_pos hget]
    rfl
  · rw [if_neg hget, if_neg hget]
    dsimp only [Option.bind_eq_bind, Option.bind_some]
    rw [if_neg Bool.false_ne_true, preLoop_queryVerify]
    cases verifyQuery o.zeroBehind s.statics.tokenInfo s.con.uriQuery s.rt s.creq with
    | none => rfl
    | some r =>
      dsimp only [Option.bind_some]
      by_cases hstatus : r.1.respStatus ≠ 200
      · rw [if_pos hstatus, if_pos hstatus]
        rfl
      · rw [if_neg hstatus, if_neg hstatus, preLoop_metaSync, preLoop_tagQuery]
        have hrt : (s.verified r.1 r.2).rt = s.rt := rfl
        rw [hrt]
        cases s.rt with
        | metaSync =>
          dsimp only
          rw [Option.map_map, Option.map_map]
          rfl
        | tagQuery =>
          dsimp only
          rw [Option.map_map, Option.map_map]
          rfl

/-- `luna_pre` with data that has not been freed. -/
theorem lunaPre_eq (o : Outside) (statics : Statics) (con : Con) (response : Bytes) (rt : ReqType) :
    lunaPre o statics con ⟨response, false⟩ rt = outcome o (Pre.init o statics con response rt) :=
  preLoop_eq o (Pre.init o statics con response rt) 2 rfl

/-- **The ways through the states**, with the data that the answer is made from. -/
inductive Way (o : Outside) (s : Pre) : List ShkStatus → Pre → Prop
  | method (hmethod : s.con.httpMethod ≠ some .get) :
    Way o s [.pre, .response] { s with creq := { s.creq with respStatus := 405 } }
  | refused {creq : ClientReq} {m : Table} (hmethod : s.con.httpMethod = some .get)
      (hverify : verifyQuery o.zeroBehind s.statics.tokenInfo s.con.uriQuery s.rt s.creq = some (creq, m))
      (hstatus : creq.respStatus ≠ 200) :
    Way o s [.pre, .queryVerify, .response] (s.verified creq m)
  | metaSync {creq : ClientReq} {m : Table} {text : Bytes} (hmethod : s.con.httpMethod = some .get)
      (hrt : s.rt = .metaSync)
      (hverify : verifyQuery o.zeroBehind s.statics.tokenInfo s.con.uriQuery .metaSync s.creq = some (creq, m))
      (hstatus : creq.respStatus = 200)
      (htext : lunaMetaSync o.view (s.verified creq m).statics creq.token = some text) :
    Way o s [.pre, .queryVerify, .metaSync, .response] { s.verified creq m with response := s.response ++ text }
  | tagQuery {creq creq' : ClientReq} {m : Table} {ms : List (Bytes × Value)} (hmethod : s.con.httpMethod = some .get)
      (hrt : s.rt = .tagQuery)
      (hverify : verifyQuery o.zeroBehind s.statics.tokenInfo s.con.uriQuery .tagQuery s.creq = some (creq, m))
      (hstatus : creq.respStatus = 200) (htags : tagsObject o m creq = some (creq', ms)) :
    Way o s [.pre, .queryVerify, .tagQuery, .response]
      { s.verified creq m with creq := creq', response := s.response ++ printObject ms }

theorem outcome_way (h : outcome o s = some (visited, s')) : ∃ s₀, Way o s visited s₀ ∧ s' = s₀.answer o := by
  unfold outcome at h
  by_cases hmethod : s.con.httpMethod ≠ some .get
  · rw [if_pos hmethod] at h
    cases h
    exact ⟨_, .method hmethod, rfl⟩
  rw [if_neg hmethod] at h
  rw [not_not] at hmethod
  obtain ⟨⟨creq, m⟩, hverify, h⟩ := Option.bind_eq_some_iff.mp h
  dsimp only at h
  by_cases hstatus : creq.respStatus ≠ 200
  · rw [if_pos hstatus] at h
    cases h
    exact ⟨_, .refused hmethod hverify hstatus, rfl⟩
  rw [if_neg hstatus] at h
  rw [not_not] at hstatus
  obtain ⟨con, response, creq₀, timestamp, usetime, rt, kst, statics⟩ := s
  cases rt with
  | metaSync =>
    obtain ⟨text, htext, hpair⟩ := Option.map_eq_some_iff.mp h
    cases hpair
    exact ⟨_, .metaSync hmethod rfl hverify hstatus htext, rfl⟩
  | tagQuery =>
    obtain ⟨⟨creq', ms⟩, htags, hpair⟩ := Option.map_eq_some_iff.mp h
    cases hpair
    exact ⟨_, .tagQuery hmethod rfl hverify hstatus htags, rfl⟩

theorem Way.outcome {s₀ : Pre} (h : Way o s visited s₀) : outcome o s = some (visited, s₀.answer o) := by
  unfold Handler.outcome
  cases h with
  | method hmethod => rw [if_pos hmethod]
  | refused hmethod hverify hstatus =>
    rw [if_neg (not_not.mpr hmethod), hverify]
    exact if_pos hstatus
  | metaSync hmethod hrt hverify hstatus htext =>
    obtain ⟨con, response, creq₀, timestamp, usetime, rt, kst, statics⟩ := s
    cases hrt
    rw [if_neg (not_not.mpr hmethod), hverify]
    dsimp only [Option.bind_some]
    rw [if_neg (not_not.mpr hstatus)]
    exact congrArg (Option.map _) htext
  | tagQuery hmethod hrt hverify hstatus htags =>
    obtain ⟨con, response, creq₀, timestamp, usetime, rt, kst, statics⟩ := s
    cases hrt
    rw [if_neg (not_not.mpr hmethod), hverify]
    dsimp only [Option.bind_some]
    rw [if_neg (not_not.mpr hstatus)]
    exact congrArg (Option.map _) htags

theorem tagsObject_status {m : Table} {creq creq' : ClientReq} {ms : List (Bytes × Value)} (h : tagsObject o m creq = some (creq', ms)) :
    creq'.respStatus = creq.respStatus := by
  unfold tagsObject Luna.readTag at h
  simp only [Option.bind_eq_bind, Option.bind_eq_some_iff] at h
  obtain ⟨creq₁, ⟨value, -, redisTids, -, arr, -, hcreq⟩, i, -, ms', -, hpair⟩ := h
  cases hpair
  cases hcreq
  rw [debugAppend_eq]

/-- `verify_query` of a new request. -/
theorem verifyQuery_init (zeroBehind : Nat → Bool) (m : Table) (query : Bytes) (rt : ReqType) :
    verifyQuery zeroBehind m query rt creqInit =
      if param query "token" = [] then
        some ({ creqInit with ifDebug := param query "d" == ascii "1", respStatus := 400 }, m)
      else
        match m.lookup (param query "token") with
        | none => some ({ withToken query with respStatus := 401 }, m)
        | some i =>
          (verifyToken (withToken query) i).bind fun creq =>
            match rt with
            | .metaSync => some (creq, m)
            | .tagQuery =>
              let r := verifyQpmTotalRequest (param query "token") i
              if r.2 = 200 then
                (verifyTids zeroBehind query creq).map fun creq => (creq, m.insert (param query "token") r.1.1)
              else some ({ creq with respStatus := r.2 }, m.insert (param query "token") r.1.1) := by
  unfold verifyQuery withToken
  dsimp only
  by_cases hdebug : getQueryValue query (ascii "d") = ascii "1"
  · have hflag : (param query "d" == ascii "1") = true := by rw [param, hdebug]; rfl
    rw [if_pos hdebug, hflag]
    rfl
  · have hflag : (param query "d" == ascii "1") = false := beq_eq_false_iff_ne.mpr hdebug
    rw [if_neg hdebug, hflag]
    rfl

/-- **A request for the tags of a user** is verified as `Luna.verifyQuery` verifies it. -/
theorem verifyQuery_tagQuery (zeroBehind : Nat → Bool) (m : Table) (query : Bytes) :
    verifyQuery zeroBehind m query .tagQuery creqInit = Luna.verifyQuery zeroBehind m query := by
  exact (verifyQuery_init zeroBehind m query .tagQuery).trans (verifyQuery_eq zeroBehind m query).symm

end Lighttpd.Luna.Handler
