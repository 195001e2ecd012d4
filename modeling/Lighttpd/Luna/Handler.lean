import Lighttpd.Lib.Run
import Lighttpd.Luna.Pre

/-!
# The requests of a connection (`mod_luna.c`)

`mod_luna_uri_handler` is called for the requests of a connection, among the handlers of other plugins; the data of a request
is freed in `luna_pre`, and its context when the connection is reset.

- `lunaPre_answers`, `lunaPre_no_answer`: the answer of `luna_pre`, and when there is none;
- `step_inv`: a context with freed data belongs to a connection that is in the hands of luna;
- `handler_exact_iff`: when a request is handled as it should be, in every run of a connection.
-/

namespace Lighttpd.Luna.Handler

/-! ## The status of a request -/

/-- The status of the first check of `verify_query` that fails. -/
def verifiedStatus (m : Table) (query : Bytes) (rt : ReqType) : Nat :=
  if param query "token" = [] then 400
  else
    match m.lookup (param query "token") with
    | none => 401
    | some i =>
      match rt with
      | .metaSync => 200
      | .tagQuery =>
        if i.qpmReqRemain ≤ 0 then 429
        else if i.useTotalLimit = true ∧ i.totalReqRemain ≤ 0 then 204
        else if param query "uuid" = [] then 400
        else if param query "tid" = [] then 400
        else 200

/-- **The status of the first check that fails.** -/
def expectedStatus (m : Table) (con : Con) (rt : ReqType) : Nat :=
  if con.httpMethod ≠ some .get then 405 else verifiedStatus m con.uriQuery rt

/-- The arrays that a request with a known token needs are long enough: the one for the organisations; for the tags of a
user the copies of the two lists have a 0 behind them, and the list of redis fits; for the document there is one, and it
fits. -/
def Roomy (o : Outside) (statics : Statics) (query : Bytes) (rt : ReqType) (i : Info) : Prop :=
  i.orgIds.length < 1024 ∧
    match rt with
    | .metaSync => ∃ items, metaGet statics (param query "token") = some (some items) ∧
      (printJson (.array (items.map o.view))).length < metaMaxLen
    | .tagQuery => WithinLimits i → param query "uuid" ≠ [] → param query "tid" ≠ [] →
      o.zeroBehind (param query "tid").length = true ∧
        Fits o.zeroBehind (o.get (redisKey (param query "uuid") i.tenantId))

/-- The request does without the arrays, or they are long enough. -/
def Safe (o : Outside) (statics : Statics) (con : Con) (rt : ReqType) : Prop :=
  con.httpMethod = some .get → param con.uriQuery "token" ≠ [] →
    ∀ i, statics.tokenInfo.lookup (param con.uriQuery "token") = some i → Roomy o statics con.uriQuery rt i

variable {o : Outside} {statics : Statics} {con : Con} {rt : ReqType} {m m' : Table} {query : Bytes} {i : Info}
  {creq creq' : ClientReq} {s₀ s₁ : Pre} {visited : List ShkStatus}

theorem verifyQpmTotalRequest_eq (token : Bytes) (i : Info) : (verifyQpmTotalRequest token i).2 =
    if i.qpmReqRemain ≤ 0 then 429 else if i.useTotalLimit = true ∧ i.totalReqRemain ≤ 0 then 204 else 200 := by
  obtain ⟨hqpm, h⟩ | ⟨hqpm, htotal, h⟩ | ⟨hqpm, htotal, h⟩ := verifyQpmTotalRequest_cases token i
  · rw [h, if_pos hqpm]
  · rw [h, if_neg (by omega), if_pos htotal]
  · rw [h, if_neg (by omega), if_neg]
    rintro ⟨hlimit, hremain⟩
    rcases htotal with htotal | htotal
    · rw [hlimit] at htotal
      cases htotal
    · omega

theorem verifyTids_status (zeroBehind : Nat → Bool) (creq : ClientReq)
    (h : param query "uuid" = [] ∨ param query "tid" = []) :
    ∃ creq', verifyTids zeroBehind query creq = some creq' ∧
      creq'.respStatus = if param query "uuid" = [] then 400 else if param query "tid" = [] then 400 else 200 := by
  obtain ⟨creq', hverify, hstatus⟩ := verifyTids_missing zeroBehind creq h
  refine ⟨creq', hverify, hstatus.trans ?_⟩
  split_ifs with huuid htid
  · rfl
  · rfl
  · exact absurd h (not_or.mpr ⟨huuid, htid⟩)

/-- **A request that `verify_query` refuses.** -/
theorem verifyQuery_status (zeroBehind : Nat → Bool) (hstatus : verifiedStatus m query rt ≠ 200)
    (horg : ∀ i, m.lookup (param query "token") = some i → param query "token" ≠ [] → i.orgIds.length < 1024) :
    ∃ creq m', verifyQuery zeroBehind m query rt creqInit = some (creq, m') ∧
      creq.respStatus = verifiedStatus m query rt := by
  unfold verifiedStatus at hstatus ⊢
  rw [verifyQuery_init]
  by_cases htoken : param query "token" = []
  · rw [if_pos htoken, if_pos htoken]
    exact ⟨_, m, rfl, rfl⟩
  rw [if_neg htoken] at hstatus ⊢
  rw [if_neg htoken]
  cases hlookup : m.lookup (param query "token") with
  | none => exact ⟨_, m, rfl, rfl⟩
  | some i =>
    rw [hlookup] at hstatus
    obtain ⟨log, hverify⟩ := verifyToken_spec (withToken query) (horg i hlookup htoken)
    cases rt with
    | metaSync => exact absurd rfl hstatus
    | tagQuery =>
      dsimp only at hstatus ⊢
      rw [hverify, Option.bind_some]
      by_cases hlimits : (verifyQpmTotalRequest (param query "token") i).2 = 200
      · rw [if_pos hlimits]
        have hstatusEq := verifyQpmTotalRequest_eq (param query "token") i
        rw [hlimits] at hstatusEq
        have hqpm : ¬ i.qpmReqRemain ≤ 0 := fun h => by rw [if_pos h] at hstatusEq; cases hstatusEq
        rw [if_neg hqpm] at hstatusEq hstatus ⊢
        have htotal : ¬ (i.useTotalLimit = true ∧ i.totalReqRemain ≤ 0) := fun h => by
          rw [if_pos h] at hstatusEq; cases hstatusEq
        rw [if_neg htotal] at hstatus ⊢
        have hmissing : param query "uuid" = [] ∨ param query "tid" = [] := by
          by_contra hboth
          rw [not_or] at hboth
          rw [if_neg hboth.1, if_neg hboth.2] at hstatus
          exact hstatus rfl
        obtain ⟨creq', hcreq', hstatus'⟩ := verifyTids_status zeroBehind
          { withToken query with tenantId := i.tenantId, orgIds := i.orgIds, logDebug := log } hmissing
        rw [hcreq']
        exact ⟨creq', _, rfl, hstatus'⟩
      · rw [if_neg hlimits]
        refine ⟨_, _, rfl, ?_⟩
        have hstatusEq := verifyQpmTotalRequest_eq (param query "token") i
        rw [hstatusEq] at hlimits
        dsimp only
        rw [hstatusEq]
        split_ifs at hlimits ⊢
        · rfl
        · rfl
        all_goals exact absurd rfl hlimits

theorem known_of_status (h : verifiedStatus m query rt = 200) :
    param query "token" ≠ [] ∧ ∃ i, m.lookup (param query "token") = some i := by
  unfold verifiedStatus at h
  by_cases htoken : param query "token" = []
  · rw [if_pos htoken] at h
    cases h
  · rw [if_neg htoken] at h
    cases hlookup : m.lookup (param query "token") with
    | none =>
      rw [hlookup] at h
      cases h
    | some i => exact ⟨htoken, i, rfl⟩

theorem accepted_of_status (h : verifiedStatus m query .tagQuery = 200) : ∃ i, Accepted m query i := by
  obtain ⟨htoken, i, hlookup⟩ := known_of_status h
  unfold verifiedStatus at h
  rw [if_neg htoken, hlookup] at h
  dsimp only at h
  split_ifs at h with hqpm htotal huuid htid
  · cases h
  · cases h
  · cases h
  · cases h
  · refine ⟨i, htoken, hlookup, ⟨by omega, ?_⟩, huuid, htid⟩
    cases hlimit : i.useTotalLimit with
    | false => exact .inl rfl
    | true => exact .inr (by by_contra hremain; exact htotal ⟨hlimit, by omega⟩)

theorem verifyQuery_metaSync (zeroBehind : Nat → Bool) (htoken : param query "token" ≠ [])
    (hlookup : m.lookup (param query "token") = some i) (horg : i.orgIds.length < 1024) :
    ∃ creq, verifyQuery zeroBehind m query .metaSync creqInit = some (creq, m) ∧ creq.respStatus = 200 ∧
      creq.token = param query "token" := by
  obtain ⟨log, hverify⟩ := verifyToken_spec (withToken query) horg
  rw [verifyQuery_init, if_neg htoken, hlookup]
  dsimp only
  rw [hverify]
  exact ⟨_, rfl, rfl, rfl⟩

theorem verifyQuery_long (zeroBehind : Nat → Bool) (rt : ReqType) (htoken : param query "token" ≠ [])
    (hlookup : m.lookup (param query "token") = some i) (horg : ¬ i.orgIds.length < 1024) :
    verifyQuery zeroBehind m query rt creqInit = none := by
  have hnone : Luna.verifyToken (withToken query) i = none := if_neg horg
  rw [verifyQuery_init, if_neg htoken, hlookup]
  dsimp only
  rw [hnone]
  rfl

/-- `read_tag` and `luna_tags_query` for a request that has been verified. -/
theorem tagsObject_verified {dm : KeyMap Int} (h : Verified query i m' creq dm) :
    (Fits o.zeroBehind (o.get (redisKey (param query "uuid") i.tenantId)) → ∃ r, tagsObject o m' creq = some r) ∧
    (¬ Fits o.zeroBehind (o.get (redisKey (param query "uuid") i.tenantId)) → tagsObject o m' creq = none) := by
  obtain ⟨i', hi', hauth⟩ := h.info
  obtain ⟨dus, log, -, hanswer⟩ := h.answer o.zeroBehind
  obtain ⟨hnofit, hfit⟩ := hanswer o.get
  unfold tagsObject
  constructor
  · intro hfits
    obtain ⟨creq', hread, htoken, hobject⟩ := hfit hfits
    rw [hread]
    dsimp only [Option.bind_eq_bind, Option.bind_some]
    rw [htoken, hi', Option.bind_some, hobject i' hauth]
    exact ⟨_, rfl⟩
  · intro hfits
    rw [hnofit hfits]
    rfl

/-! ## The answer of `luna_pre` -/

/-- The states of a request, and the connection with its answer: one response, which has a body for every status but 204. -/
structure Answers (m : Table) (con : Con) (rt : ReqType) (visited : List ShkStatus) (con' : Con) : Prop where
  once : visited.count .response = 1
  status : con'.httpStatus = expectedStatus m con rt
  queue : if expectedStatus m con rt = 204 then con'.writeQueue = con.writeQueue
    else ∃ body, body ≠ [] ∧ con'.writeQueue = con.writeQueue ++ [body]
  finished : con'.fileFinished = true

theorem Way.once (h : Way o s₀ visited s₁) : visited.count .response = 1 := by
  cases h <;> rfl

theorem lunaSetResponse_response (s : Pre) : (lunaSetResponse s).response =
    if s.creq.respStatus ≠ 200 then ((errorMembers s.creq.respStatus).map printObject).getD s.response else s.response := by
  unfold lunaSetResponse
  cases errorMembers s.creq.respStatus <;> rfl

theorem answer_queue {status : Nat} (hstatus : s₁.creq.respStatus = status)
    (hresponse : if status = 200 then s₁.response ≠ [] else s₁.response = []) :
    if status = 204 then (s₁.answer o).con.writeQueue = s₁.con.writeQueue
    else ∃ body, body ≠ [] ∧ (s₁.answer o).con.writeQueue = s₁.con.writeQueue ++ [body] := by
  have hqueue : ∀ body, (s₁.answer o).response = body → body ≠ [] →
      ∃ body, body ≠ [] ∧ (s₁.answer o).con.writeQueue = s₁.con.writeQueue ++ [body] := by
    rintro body rfl hbody
    exact ⟨_, hbody, if_neg hbody⟩
  have hanswer : (s₁.answer o).response =
      if status ≠ 200 then ((errorMembers status).map printObject).getD s₁.response else s₁.response := by
    rw [← hstatus]
    exact lunaSetResponse_response _
  by_cases h200 : status = 200
  · subst h200
    rw [if_neg (by decide)]
    exact hqueue _ hanswer (by simpa using hresponse)
  rw [if_neg h200] at hresponse
  rw [if_pos h200] at hanswer
  split_ifs with h204
  · subst h204
    have hnil : (s₁.answer o).response = [] := hanswer.trans hresponse
    exact if_pos hnil
  · have herror : ∃ ms, errorMembers status = some ms := by
      unfold errorMembers
      split
      all_goals first | exact ⟨_, rfl⟩ | exact absurd rfl h204
    obtain ⟨ms, hms⟩ := herror
    rw [hms] at hanswer
    exact hqueue _ hanswer (List.cons_ne_nil _ _)

/-- The answer on a way through the states that ends with the status of the first check that fails. -/
theorem Way.answers (h : Way o (Pre.init o statics con [] rt) visited s₁) (hcon : s₁.con = con)
    (hstatus : s₁.creq.respStatus = expectedStatus statics.tokenInfo con rt)
    (hresponse : if expectedStatus statics.tokenInfo con rt = 200 then s₁.response ≠ [] else s₁.response = []) :
    ∃ visited s, lunaPre o statics con handlerCtxInit rt = some (visited, s) ∧
      Answers statics.tokenInfo con rt visited s.con := by
  refine ⟨visited, s₁.answer o, (lunaPre_eq o statics con [] rt).trans h.outcome, h.once, hstatus, ?_, rfl⟩
  have hqueue := @answer_queue o s₁ _ hstatus hresponse
  rwa [hcon] at hqueue

/-- **The answer to a request** that has room for what it needs. -/
theorem lunaPre_answers (h : Safe o statics con rt) :
    ∃ visited s, lunaPre o statics con handlerCtxInit rt = some (visited, s) ∧
      Answers statics.tokenInfo con rt visited s.con := by
  by_cases hmethod : con.httpMethod = some .get
  swap
  · have hexpected : expectedStatus statics.tokenInfo con rt = 405 := if_pos hmethod
    exact (Way.method hmethod).answers rfl hexpected.symm (by rw [hexpected]; exact rfl)
  have hexpected : expectedStatus statics.tokenInfo con rt = verifiedStatus statics.tokenInfo con.uriQuery rt :=
    if_neg (not_not.mpr hmethod)
  have horg : ∀ i, statics.tokenInfo.lookup (param con.uriQuery "token") = some i → param con.uriQuery "token" ≠ [] →
      i.orgIds.length < 1024 := fun i hlookup htoken => (h hmethod htoken i hlookup).1
  by_cases hstatus : verifiedStatus statics.tokenInfo con.uriQuery rt = 200
  swap
  · obtain ⟨creq, m', hverify, hcreq⟩ := verifyQuery_status o.zeroBehind hstatus horg
    have hway : Way o (Pre.init o statics con [] rt) _ _ := .refused hmethod hverify (hcreq.trans_ne hstatus)
    exact hway.answers rfl (hcreq.trans hexpected.symm) (by rw [hexpected, if_neg hstatus]; rfl)
  obtain ⟨htoken, i, hlookup⟩ := known_of_status hstatus
  obtain ⟨hfits, hroom⟩ := h hmethod htoken i hlookup
  cases rt with
  | metaSync =>
    obtain ⟨items, hitems, hlen⟩ := hroom
    obtain ⟨creq, hverify, hcreq, hcreqToken⟩ := verifyQuery_metaSync o.zeroBehind htoken hlookup hfits
    have htext : lunaMetaSync o.view statics creq.token = some (printJson (.array (items.map o.view))) := by
      unfold lunaMetaSync
      rw [hcreqToken, hitems]
      exact if_pos hlen
    have hway : Way o (Pre.init o statics con [] .metaSync) _ _ := .metaSync hmethod rfl hverify hcreq htext
    refine hway.answers rfl (hcreq.trans (hexpected.trans hstatus).symm) ?_
    rw [hexpected, if_pos hstatus]
    exact List.cons_ne_nil _ _
  | tagQuery =>
    obtain ⟨i', haccepted⟩ := accepted_of_status hstatus
    obtain rfl : i' = i := Option.some.inj (haccepted.lookup.symm.trans hlookup)
    obtain ⟨hz, hfit⟩ := hroom haccepted.limits haccepted.uuid haccepted.tid
    obtain ⟨creq, m', dm, hverify, hverified⟩ := (verifyQuery_accepted haccepted hfits).2 hz
    obtain ⟨⟨creq', ms⟩, htags⟩ := (tagsObject_verified hverified).1 hfit
    rw [← verifyQuery_tagQuery] at hverify
    have hway : Way o (Pre.init o statics con [] .tagQuery) _ _ := .tagQuery hmethod rfl hverify hverified.status htags
    refine hway.answers rfl ?_ ?_
    · exact (tagsObject_status htags).trans (hverified.status.trans (hexpected.trans hstatus).symm)
    · rw [hexpected, if_pos hstatus]
      exact List.cons_ne_nil _ _

theorem Way.safe (h : Way o (Pre.init o statics con [] rt) visited s₁) : Safe o statics con rt := by
  intro hmethod htoken i hlookup
  have hroom : ∀ {creq m}, verifyQuery o.zeroBehind statics.tokenInfo con.uriQuery rt creqInit = some (creq, m) →
      i.orgIds.length < 1024 := fun hverify => by
    by_contra horg
    rw [verifyQuery_long o.zeroBehind rt htoken hlookup horg] at hverify
    cases hverify
  -- a request for tags that has what it needs has been verified
  have htags : ∀ {creq m}, verifyQuery o.zeroBehind statics.tokenInfo con.uriQuery .tagQuery creqInit = some (creq, m) →
      i.orgIds.length < 1024 → WithinLimits i → param con.uriQuery "uuid" ≠ [] → param con.uriQuery "tid" ≠ [] →
      o.zeroBehind (param con.uriQuery "tid").length = true ∧ ∃ dm, Verified con.uriQuery i m creq dm := by
    intro creq m hverify horg hlimits huuid htid
    obtain ⟨hno, hyes⟩ := @verifyQuery_accepted o.zeroBehind _ _ _ ⟨htoken, hlookup, hlimits, huuid, htid⟩ horg
    rw [verifyQuery_tagQuery] at hverify
    cases hz : o.zeroBehind (param con.uriQuery "tid").length with
    | false =>
      rw [hno hz] at hverify
      cases hverify
    | true =>
      obtain ⟨creq', m', dm, hverify', hverified⟩ := hyes hz
      rw [hverify] at hverify'
      cases hverify'
      exact ⟨rfl, dm, hverified⟩
  cases h with
  | method hno => exact absurd hmethod hno
  | refused _ hverify hstatus =>
    have horg := hroom hverify
    refine ⟨horg, ?_⟩
    cases rt with
    | metaSync =>
      obtain ⟨creq', hverify', hstatus', -⟩ := verifyQuery_metaSync o.zeroBehind htoken hlookup horg
      cases hverify.symm.trans hverify'
      exact absurd hstatus' hstatus
    | tagQuery =>
      intro hlimits huuid htid
      obtain ⟨-, dm, hverified⟩ := htags hverify horg hlimits huuid htid
      exact absurd hverified.status hstatus
  | metaSync _ hrt hverify _ htext =>
    cases hrt
    have horg := hroom hverify
    obtain ⟨creq', hverify', -, hcreqToken⟩ := verifyQuery_metaSync o.zeroBehind htoken hlookup horg
    cases hverify.symm.trans hverify'
    refine ⟨horg, ?_⟩
    unfold lunaMetaSync at htext
    rw [hcreqToken] at htext
    split at htext
    · cases htext
    · cases htext
    · rename_i items hitems
      exact ⟨items, hitems, (Option.ite_none_right_eq_some.mp htext).1⟩
  | tagQuery _ hrt hverify _ hobject =>
    cases hrt
    have horg := hroom hverify
    refine ⟨horg, fun hlimits huuid htid => ?_⟩
    obtain ⟨hz, dm, hverified⟩ := htags hverify horg hlimits huuid htid
    refine ⟨hz, ?_⟩
    by_contra hfits
    rw [(tagsObject_verified hverified).2 hfits] at hobject
    cases hobject

/-- **Where there is no room**, the program leaves an array, or reads what has not been set. -/
theorem lunaPre_no_answer (h : ¬ Safe o statics con rt) : lunaPre o statics con handlerCtxInit rt = none := by
  cases hrun : lunaPre o statics con handlerCtxInit rt with
  | none => rfl
  | some r =>
    rw [handlerCtxInit, lunaPre_eq] at hrun
    obtain ⟨s₁, hway, -⟩ := outcome_way hrun
    exact absurd hway.safe h

/-! ## The connection -/

/-- `con->mode`: `DIRECT`, or the plugin that has taken the request. -/
inductive Mode where
  | direct
  | luna
  | other (id : Nat)
deriving DecidableEq

inductive HandlerT where
  | goOn
  | finished
deriving DecidableEq

/-- A connection. `ctx` is `con->plugin_ctx[p->id]`, and `handling` says that it is in the state `CON_STATE_HANDLE_REQUEST`,
where the handlers of the plugins are called. -/
structure Conn where
  con : Con
  mode : Mode
  ctx : Option HandlerCtx
  handling : Bool
deriving DecidableEq

def Conn.init (con : Con) : Conn := ⟨con, .direct, none, true⟩

/-- A call of the handler: `con->uri.path`, the paths of the configuration, and what is outside of the connection. -/
structure Call where
  path : Bytes
  tagQueryPath : Bytes
  metaSyncPath : Bytes
  outside : Outside
  statics : Statics

/-- Which of the two requests it is. -/
def Call.reqType (r : Call) : Option ReqType :=
  if r.path = r.tagQueryPath then some .tagQuery else if r.path = r.metaSyncPath then some .metaSync else none

/-- What a call leaves, with the states that `luna_pre` has gone through. -/
structure Handled where
  ret : HandlerT
  conn : Conn
  statics : Statics
  visited : List ShkStatus

def modLunaUriHandler (r : Call) (c : Conn) : Option Handled :=
  if c.mode ≠ .direct then some ⟨.goOn, c, r.statics, []⟩ else
  let c := { c with mode := .luna }
  if r.path = [] then some ⟨.goOn, c, r.statics, []⟩ else
  let hctx := c.ctx.getD handlerCtxInit
  let c := { c with ctx := some hctx }
  match r.reqType with
  | none => some ⟨.goOn, c, r.statics, []⟩
  | some rt =>
    (lunaPre r.outside r.statics c.con hctx rt).map fun l =>
      ⟨.finished, { c with con := l.2.con, ctx := some ⟨l.2.response, true⟩ }, l.2.statics, l.1⟩

/-- What happens to a connection. -/
inductive Event where
  /-- The handler is called. -/
  | uriClean (r : Call)
  /-- Another plugin or the server handles the request, and perhaps finishes it. -/
  | other (con : Con) (mode : Mode) (finished : Bool)
  /-- `server.error-handler`, with `plugins_call_connection_reset`. -/
  | errorHandler (con : Con)
  /-- `connection_reset`, and the next request. -/
  | reset (con : Con)
  /-- `plugins_call_handle_connection_close`. -/
  | close

/-- One event. The handlers are called in `CON_STATE_HANDLE_REQUEST` only, which is left when one of them has finished the
request, unless `connection_state_machine` turns to the error handler, for a connection that is `DIRECT`. -/
def step (c : Conn) : Event → Option Conn
  | .uriClean r =>
    if c.handling then
      (modLunaUriHandler r c).map fun h => { h.conn with handling := h.ret = .goOn }
    else none
  | .other con mode finished =>
    if c.handling then some { c with con := con, mode := mode, handling := !finished } else none
  | .errorHandler con => if c.handling ∧ c.mode = .direct then some { c with con := con, ctx := none } else none
  | .reset con => some (Conn.init con)
  | .close => some { c with ctx := none, handling := false }

/-- **A context in which handlers are called** has no data, neither new nor freed. -/
def Inv (c : Conn) : Prop := c.handling = true → ∀ hctx ∈ c.ctx, hctx = handlerCtxInit

variable {c c' : Conn} {r : Call} {e : Event}

/-- What a call does to a connection that is `DIRECT`. -/
theorem handler_direct (h : Inv c) (hhandling : c.handling = true) (hmode : c.mode = .direct) :
    modLunaUriHandler r c =
      if r.path = [] then some ⟨.goOn, { c with mode := .luna }, r.statics, []⟩
      else
        match r.reqType with
        | none => some ⟨.goOn, { c with mode := .luna, ctx := some handlerCtxInit }, r.statics, []⟩
        | some rt => (lunaPre r.outside r.statics c.con handlerCtxInit rt).map fun l =>
          ⟨.finished, { c with mode := .luna, con := l.2.con, ctx := some ⟨l.2.response, true⟩ }, l.2.statics, l.1⟩ := by
  have hctx : c.ctx.getD handlerCtxInit = handlerCtxInit := by
    cases hc : c.ctx with
    | none => rfl
    | some hctx => exact h hhandling hctx hc
  unfold modLunaUriHandler
  dsimp only
  rw [if_neg (not_not.mpr hmode), hctx]

theorem init_inv (con : Con) : Inv (Conn.init con) := fun _ _ h => by cases h

/-- **Every event keeps it.** -/
theorem step_inv (h : Inv c) (hstep : step c e = some c') : Inv c' := by
  cases e with
  | uriClean r =>
    obtain ⟨hhandling, hstep⟩ := Option.ite_none_right_eq_some.mp hstep
    obtain ⟨handled, hhandled, rfl⟩ := Option.map_eq_some_iff.mp hstep
    by_cases hmode : c.mode = .direct
    · rw [handler_direct h hhandling hmode] at hhandled
      split at hhandled
      · cases hhandled
        exact fun _ hctx hmem => h hhandling hctx hmem
      · split at hhandled
        · cases hhandled
          exact fun _ hctx hmem => (Option.some.inj hmem).symm
        · obtain ⟨l, -, rfl⟩ := Option.map_eq_some_iff.mp hhandled
          exact fun hno => absurd hno Bool.false_ne_true
    · unfold modLunaUriHandler at hhandled
      rw [if_pos hmode] at hhandled
      cases hhandled
      exact fun _ hctx hmem => h hhandling hctx hmem
  | other con mode finished =>
    obtain ⟨hhandling, hstep⟩ := Option.ite_none_right_eq_some.mp hstep
    cases hstep
    exact fun _ hctx hmem => h hhandling hctx hmem
  | errorHandler con =>
    obtain ⟨-, hstep⟩ := Option.ite_none_right_eq_some.mp hstep
    cases hstep
    exact fun _ hctx hmem => by cases hmem
  | reset con =>
    cases hstep
    exact init_inv con
  | close =>
    cases hstep
    exact fun hno => by cases hno

/-- **A call is handled as it should be**, on a connection that no other module has taken: for another path the connection stays
as it is, for the handlers behind this one; for one of the two requests there is one response. -/
def Exact (r : Call) (c : Conn) : Prop :=
  c.mode = .direct →
    match r.reqType with
    | none => ∃ h, modLunaUriHandler r c = some h ∧ h.ret = .goOn ∧ h.conn.mode = .direct ∧ h.conn.con = c.con
    | some rt => ∃ h, modLunaUriHandler r c = some h ∧ h.ret = .finished ∧
      Answers r.statics.tokenInfo c.con rt h.visited h.conn.con

/-- **When a call is handled as it should be**: in every run of a connection freed data is never met again, and a call is
handled as it should be just when its path is one of the two, and there is room for what the request needs. -/
theorem handler_exact_iff {con : Con} {events : List Event} (hrun : Run.run step (Conn.init con) events = some c)
    (hhandling : c.handling = true) :
    (∀ hctx ∈ c.ctx, hctx.creqFreed = false) ∧
    ∀ r, Exact r c ↔
      (c.mode = .direct → r.path ≠ [] ∧ ∃ rt, r.reqType = some rt ∧ Safe r.outside r.statics c.con rt) := by
  have hinv : Inv c := @Run.run_keeps _ _ step (fun _ _ => True) Inv _ _ _ (fun s e s' hs _ hstep => step_inv hs hstep)
    (init_inv con) (Run.meets_of_forall (fun _ _ => trivial) _ _) hrun
  refine ⟨fun hctx hmem => by rw [hinv hhandling hctx hmem]; rfl, fun r => ?_⟩
  unfold Exact
  refine forall_congr' fun hmode => ?_
  rw [handler_direct hinv hhandling hmode]
  by_cases hpath : r.path = []
  · rw [if_pos hpath]
    refine iff_of_false ?_ fun h => h.1 hpath
    split
    · rintro ⟨h, hcall, -, hdirect, -⟩
      cases hcall
      cases hdirect
    · rintro ⟨h, hcall, hret, -⟩
      cases hcall
      cases hret
  rw [if_neg hpath, and_iff_right hpath]
  cases hrt : r.reqType with
  | none =>
    refine iff_of_false ?_ fun h => by
      obtain ⟨rt, hrt, -⟩ := h
      cases hrt
    rintro ⟨h, hcall, -, hdirect, -⟩
    cases hcall
    cases hdirect
  | some rt =>
    dsimp only
    constructor
    · rintro ⟨h, hcall, -⟩
      refine ⟨rt, rfl, ?_⟩
      by_contra hunsafe
      rw [lunaPre_no_answer hunsafe] at hcall
      cases hcall
    · rintro ⟨rt', hrt', hsafe⟩
      cases hrt'
      obtain ⟨visited, s, hpre, hanswers⟩ := lunaPre_answers hsafe
      rw [hpre]
      exact ⟨_, rfl, rfl, hanswers⟩

def sampleCall (path : Bytes) : Call :=
  ⟨path, ascii "/tags/query", ascii "/meta/sync", ⟨fun _ => true, fun _ => none, fun _ => .null, 7, 10, 13⟩, ⟨∅, none⟩⟩

def sampleCon (method : Request.Method) : Con := ⟨some method, [], 0, [], false⟩

/-- A request for tags without a token has been answered, and the connection reset for a `POST`. -/
theorem handler_exact_post : Exact (sampleCall (ascii "/meta/sync")) (Conn.init (sampleCon .post)) := by
  have hrun : Run.run step (Conn.init (sampleCon .get))
      [.uriClean (sampleCall (ascii "/tags/query")), .reset (sampleCon .post)] = some (Conn.init (sampleCon .post)) := by
    decide
  exact ((handler_exact_iff hrun rfl).2 _).mpr fun _ => ⟨by decide, .metaSync, by decide, fun hmethod => by cases hmethod⟩

/-- Another path: the handler takes the connection, and the handlers behind it do not handle the request any more. -/
theorem handler_takes_other :
    ¬ Exact (sampleCall (ascii "/index.html")) (Conn.init (sampleCon .get)) ∧
    (modLunaUriHandler (sampleCall (ascii "/index.html")) (Conn.init (sampleCon .get))).map
      (fun h => (h.ret, h.conn.mode)) = some (.goOn, .luna) := by
  have hcall : (modLunaUriHandler (sampleCall (ascii "/index.html")) (Conn.init (sampleCon .get))).map
      (fun h => (h.ret, h.conn.mode)) = some (.goOn, .luna) := by decide
  refine ⟨fun hexact => ?_, hcall⟩
  obtain ⟨h, hsome, -, hmode, -⟩ := hexact rfl
  rw [hsome] at hcall
  cases hmode.symm.trans (Prod.ext_iff.mp (Option.some.inj hcall)).2

end Lighttpd.Luna.Handler
