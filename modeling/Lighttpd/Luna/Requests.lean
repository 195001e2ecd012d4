import Lighttpd.Luna.MetaSync
import Lighttpd.Lib.Run

/-!
# Counting requests and the quota of a token

The steps of a server process that change the token table: a request for tags (`verify_token`, then
`verify_qpm_total_request`), the update once a second, and a refresh. A step is `none` where the process ends.

- `step_cases`: what a step does to one token;
- `step_conserves`, `requests_counted`: no request that has been counted is lost;
- `step_answers`, `quota_admitted`: which requests are admitted between two updates;
- `quota_exceeded`: more requests are admitted than remain.
-/

namespace Lighttpd.Luna

open KeyedFold

/-- The process: its variables, and what it has done. -/
structure World extends Statics where
  log : List Event

/-- What happens to the process. -/
inductive Op where
  | request (token : Bytes)
  | update (reply : Bytes → Reply)
  | sync (out : Option Bytes)
  | initTest

def request (m : Table) (token : Bytes) : Table × List Event :=
  match m.lookup token with
  | none => (m, [.answered token 401])
  | some i =>
    let r := verifyQpmTotalRequest token i
    (m.insert token r.1.1, r.1.2 ++ [.answered token r.2])

def step (parse : Bytes → Option CJson) (w : World) : Op → Option World
  | .request token =>
    let r := request w.tokenInfo token
    some { w with tokenInfo := r.1, log := w.log ++ r.2 }
  | .update reply =>
    let r := tiUpdateTokenInfo reply w.tokenInfo
    some { w with tokenInfo := r.1, log := w.log ++ r.2 }
  | .sync out => (metaSync parse w.toStatics out).map fun r => { w with toStatics := r.2 }
  | .initTest => some { w with tokenInfo := initTokenInfo w.tokenInfo }

/-- The token stays in the table in every step of the run. -/
def Stays (parse : Bytes → Option CJson) (token : Bytes) : World → List Op → Prop :=
  Run.Meets (step parse) fun w op => ∀ w', step parse w op = some w' → token ∈ w'.tokenInfo

/-! ## What is counted -/

def calls (token : Bytes) (es : List Event) : Nat := es.count (.incr token true) + es.count (.incr token false)

/-- The calls of `ti_incr_req_count` for a token that were made while the total limit was on. -/
def callsOn (token : Bytes) (es : List Event) : Nat := es.count (.incr token true)

def admitted (token : Bytes) (es : List Event) : Nat := es.count (.answered token 200)

def Event.isAnswer (token : Bytes) : Event → Bool
  | .answered t _ => t == token
  | _ => false

def requests (token : Bytes) (es : List Event) : Nat := es.countP (Event.isAnswer token)

variable {parse : Bytes → Option CJson} {w w' w₀ w₁ w₂ : World} {op : Op} {ops : List Op} {token : Bytes} {i i' : Info}

/-! ## One step and one token -/

def SameCounters (i i' : Info) : Prop :=
  i'.totalReqCount = i.totalReqCount ∧ i'.qpmReqCount = i.qpmReqCount ∧
  i'.totalReqRemain = i.totalReqRemain ∧ i'.qpmReqRemain = i.qpmReqRemain ∧ i'.useTotalLimit = i.useTotalLimit

/-- What a step with the events `es` does to a token that stays in the table. -/
inductive Change (token : Bytes) (i : Info) : Info → List Event → Prop where
  | request : Change token i (verifyQpmTotalRequest token i).1.1
      ((verifyQpmTotalRequest token i).1.2 ++ [.answered token (verifyQpmTotalRequest token i).2])
  | other (m : Table) {t : Bytes} (hne : t ≠ token) : Change token i i (request m t).2
  | update (reply : Bytes → Reply) {m : Table} (h : m.lookup token = some i) :
      Change token i (updateInfo reply token i).1 (tiUpdateTokenInfo reply m).2
  | refresh {i' : Info} (h : SameCounters i i') : Change token i i' []

/-- **What a step does to one token.** -/
theorem step_cases (h : step parse w op = some w') (hi : w.tokenInfo.lookup token = some i)
    (hi' : w'.tokenInfo.lookup token = some i') : ∃ es, w'.log = w.log ++ es ∧ Change token i i' es := by
  cases op with
  | request t =>
    cases h
    refine ⟨_, rfl, ?_⟩
    by_cases ht : t = token
    · subst ht
      have hrequest : request w.tokenInfo t = (w.tokenInfo.insert t (verifyQpmTotalRequest t i).1.1,
          (verifyQpmTotalRequest t i).1.2 ++ [.answered t (verifyQpmTotalRequest t i).2]) := by
        simp [request, hi]
      simp only [hrequest, AList.lookup_insert, Option.some.injEq] at hi'
      rw [hrequest, ← hi']
      exact .request
    · have hsame : (request w.tokenInfo t).1.lookup token = w.tokenInfo.lookup token := by
        unfold request
        cases w.tokenInfo.lookup t with
        | none => rfl
        | some j => exact AList.lookup_insert_ne (Ne.symm ht)
      have heq : i' = i := by
        have h' := hsame.symm.trans hi'
        rw [hi] at h'
        exact (Option.some.inj h').symm
      rw [heq]
      exact .other w.tokenInfo ht
  | update reply =>
    cases h
    refine ⟨_, rfl, ?_⟩
    have h' := (lookup_tiUpdateTokenInfo reply w.tokenInfo token).symm.trans hi'
    rw [hi] at h'
    rw [← Option.some.inj h']
    exact .update reply hi
  | sync out =>
    obtain ⟨⟨rc, s⟩, hsync, hw⟩ := Option.map_eq_some_iff.mp h
    subst hw
    refine ⟨[], (List.append_nil _).symm, .refresh ?_⟩
    obtain ⟨-, -, hs⟩ | ⟨_, -, -, -, hs⟩ | ⟨_, _, -, -, -, -, hs⟩ | ⟨doc, auths, -, -, hs⟩ :=
      metaSync_cases hsync
    all_goals rw [hs] at hi'
    · rw [hi] at hi'
      cases hi'
      exact ⟨rfl, rfl, rfl, rfl, rfl⟩
    · have h' := hi.symm.trans hi'
      cases h'
      exact ⟨rfl, rfl, rfl, rfl, rfl⟩
    · have h' := hi.symm.trans hi'
      cases h'
      exact ⟨rfl, rfl, rfl, rfl, rfl⟩
    · exact (refreshed_refreshTable auths w.tokenInfo).counters token i i' hi hi'
  | initTest =>
    cases h
    refine ⟨[], (List.append_nil _).symm, .refresh ?_⟩
    have h' := (lookup_tiAddToken w.tokenInfo (ascii "test") token {10000, 10003, 10004} 1 (ascii "2")).symm.trans hi'
    rw [hi] at h'
    split at h' <;> cases h' <;> exact ⟨rfl, rfl, rfl, rfl, rfl⟩

/-! ## The events of a step -/

theorem request_cases (m : Table) (t : Bytes) : ∃ status, (request m t).2 = [.answered t status] ∨
    ∃ on, (request m t).2 = [.incr t on, .answered t status] := by
  unfold request
  cases m.lookup t with
  | none => exact ⟨401, .inl rfl⟩
  | some i =>
    obtain ⟨-, h⟩ | ⟨-, -, h⟩ | ⟨-, -, h⟩ := verifyQpmTotalRequest_cases t i
    · exact ⟨429, .inl (by simp only [h]; rfl)⟩
    · exact ⟨204, .inr ⟨i.useTotalLimit, by simp only [h]; rfl⟩⟩
    · exact ⟨200, .inr ⟨i.useTotalLimit, by simp only [h]; rfl⟩⟩

theorem request_other (m : Table) {t : Bytes} (hne : t ≠ token) (key : Bytes) :
    subtracted key (request m t).2 = 0 ∧ calls token (request m t).2 = 0 ∧ callsOn token (request m t).2 = 0 ∧
    requests token (request m t).2 = 0 ∧ admitted token (request m t).2 = 0 := by
  obtain ⟨status, h | ⟨on, h⟩⟩ := request_cases m t
  all_goals
    rw [h]
    simp [Event.subtracted, calls, callsOn, requests, admitted, Event.isAnswer, hne]

theorem update_events (token : Bytes) (reply : Bytes → Reply) (m : Table) :
    calls token (tiUpdateTokenInfo reply m).2 = 0 ∧ callsOn token (tiUpdateTokenInfo reply m).2 = 0 ∧
    requests token (tiUpdateTokenInfo reply m).2 = 0 ∧ admitted token (tiUpdateTokenInfo reply m).2 = 0 := by
  have hmem : ∀ e ∈ (tiUpdateTokenInfo reply m).2, ∃ key num, e = .decrby key num := by
    intro e he
    obtain ⟨k, v, -, he⟩ := mem_visit.mp he
    exact decrby_of_mem_updateInfo he
  have hcount : ∀ e : Event, (∀ key num, e ≠ .decrby key num) → (tiUpdateTokenInfo reply m).2.count e = 0 := by
    intro e hne
    refine List.count_eq_zero.mpr fun he => ?_
    obtain ⟨key, num, h⟩ := hmem e he
    exact hne key num h
  refine ⟨?_, hcount _ (fun _ _ h => by cases h), ?_, hcount _ (fun _ _ h => by cases h)⟩
  · unfold calls
    rw [hcount _ (fun _ _ h => by cases h), hcount _ (fun _ _ h => by cases h)]
  · refine List.countP_eq_zero.mpr fun e he => ?_
    obtain ⟨key, num, rfl⟩ := hmem e he
    simp [Event.isAnswer]

/-! ## Nothing is lost -/

variable {es : List Event}

/-- **A step of a token that stays: what is subtracted or pending grows by the calls.** -/
theorem Change.conserves (h : Change token i i' es) :
    subtracted (qpmKey token) es + i'.qpmReqCount = i.qpmReqCount + calls token es ∧
    subtracted (totalKey token) es + i'.totalReqCount = i.totalReqCount + callsOn token es := by
  cases h with
  | request =>
    obtain ⟨-, h⟩ | ⟨-, -, h⟩ | ⟨-, -, h⟩ := verifyQpmTotalRequest_cases token i
    · rw [h]
      simp [Event.subtracted, calls, callsOn]
    all_goals
      rw [h]
      simp only [tiIncrReqCount_qpm, tiIncrReqCount_total]
      cases hon : i.useTotalLimit <;>
        simp [tiIncrReqCount, hon, Event.subtracted, calls, callsOn]
  | other m hne =>
    obtain ⟨-, hcalls, hon, -, -⟩ := request_other m hne []
    rw [(request_other m hne _).1, (request_other m hne _).1, hcalls, hon]
    simp
  | update reply hm =>
    obtain ⟨hqpm, htotal⟩ := subtracted_tiUpdateTokenInfo reply hm
    obtain ⟨hcalls, hon, -, -⟩ := update_events token reply _
    rw [hqpm, htotal, hcalls, hon, updateInfo_qpm, updateInfo_total]
    simp
  | refresh hsame =>
    obtain ⟨htotal, hqpm, -⟩ := hsame
    simp [hqpm, htotal, calls, callsOn]

/-- What the steps of a run do to a token that stays in the table. -/
inductive Changes (token : Bytes) : Info → Info → List Event → Prop where
  | refl (i : Info) : Changes token i i []
  | head {i i₁ i' : Info} {es es' : List Event} (h : Change token i i₁ es) (hs : Changes token i₁ i' es') :
      Changes token i i' (es ++ es')

/-- **What a run does to one token.** -/
theorem run_changes (hi : w.tokenInfo.lookup token = some i) (hstays : Stays parse token w ops)
    (hrun : Run.run (step parse) w ops = some w') :
    ∃ es i', w'.log = w.log ++ es ∧ w'.tokenInfo.lookup token = some i' ∧ Changes token i i' es := by
  induction ops generalizing w i with
  | nil =>
    cases hrun
    exact ⟨[], i, (List.append_nil _).symm, hi, .refl i⟩
  | cons op ops ih =>
    rw [Run.run_cons] at hrun
    obtain ⟨w₁, hop, hrun⟩ := Option.bind_eq_some_iff.mp hrun
    obtain ⟨i₁, hi₁⟩ := Option.isSome_iff_exists.mp (AList.lookup_isSome.mpr (hstays.1 w₁ hop))
    obtain ⟨es, hlog, hchange⟩ := step_cases hop hi hi₁
    obtain ⟨es', i', hlog', hi', hchanges⟩ := ih hi₁ (hstays.2 w₁ hop) hrun
    exact ⟨es ++ es', i', by rw [hlog', hlog, List.append_assoc], hi', .head hchange hchanges⟩

theorem calls_append (es es' : List Event) : calls token (es ++ es') = calls token es + calls token es' := by
  simp only [calls, List.count_append]
  omega

theorem callsOn_append (es es' : List Event) :
    callsOn token (es ++ es') = callsOn token es + callsOn token es' := List.count_append

/-- **A run of a token that stays: what is subtracted or pending grows by the calls.** -/
theorem Changes.conserves (h : Changes token i i' es) :
    subtracted (qpmKey token) es + i'.qpmReqCount = i.qpmReqCount + calls token es ∧
    subtracted (totalKey token) es + i'.totalReqCount = i.totalReqCount + callsOn token es := by
  induction h with
  | refl i => simp [calls, callsOn]
  | head hchange _ ih =>
    obtain ⟨hqpm, htotal⟩ := hchange.conserves
    obtain ⟨ihqpm, ihtotal⟩ := ih
    rw [subtracted_append, subtracted_append, calls_append, callsOn_append]
    push_cast
    constructor <;> omega

/-- A refresh takes tokens from the table, nothing else does. -/
def Op.isSync : Op → Bool
  | .sync _ => true
  | _ => false

theorem mem_of_step (hop : op.isSync = false) (h : step parse w op = some w') (hmem : token ∈ w.tokenInfo) :
    token ∈ w'.tokenInfo := by
  cases op with
  | request t =>
    cases h
    unfold request
    split
    · exact hmem
    · rw [AList.mem_insert]
      exact .inr hmem
  | update reply =>
    cases h
    obtain ⟨i, hi⟩ := Option.isSome_iff_exists.mp (AList.lookup_isSome.mpr hmem)
    apply AList.lookup_isSome.mp
    rw [lookup_tiUpdateTokenInfo, hi]
    rfl
  | sync out => cases hop
  | initTest =>
    cases h
    obtain ⟨i, hi⟩ := Option.isSome_iff_exists.mp (AList.lookup_isSome.mpr hmem)
    apply AList.lookup_isSome.mp
    unfold initTokenInfo
    rw [lookup_tiAddToken]
    split <;> simp [hi]

theorem stays_of_isSync (hops : ∀ op ∈ ops, op.isSync = false) (hi : token ∈ w.tokenInfo) :
    Stays parse token w ops := by
  induction ops generalizing w with
  | nil => exact trivial
  | cons op ops ih =>
    have hop := hops op List.mem_cons_self
    exact ⟨fun w' h => mem_of_step hop h hi, fun w' h => ih (fun op' h' => hops op' (List.mem_cons_of_mem op h'))
      (mem_of_step hop h hi)⟩

theorem step_adds (habsent : token ∉ w.tokenInfo) (h : step parse w op = some w')
    (hi : w'.tokenInfo.lookup token = some i) : i.qpmReqCount = 0 ∧ i.totalReqCount = 0 := by
  have hnone : w.tokenInfo.lookup token = none := AList.lookup_eq_none.mpr habsent
  cases op with
  | request t =>
    cases h
    unfold request at hi
    split at hi
    · rw [hnone] at hi
      cases hi
    · rename_i i' ht
      have hne : token ≠ t := fun heq => by rw [heq, ht] at hnone; cases hnone
      have h' := (AList.lookup_insert_ne hne).symm.trans hi
      rw [hnone] at h'
      cases h'
  | update reply =>
    cases h
    have h' := (lookup_tiUpdateTokenInfo reply w.tokenInfo token).symm.trans hi
    rw [hnone] at h'
    cases h'
  | sync out =>
    obtain ⟨⟨rc, s⟩, hsync, hw⟩ := Option.map_eq_some_iff.mp h
    subst hw
    obtain ⟨-, -, hs⟩ | ⟨_, -, -, -, hs⟩ | ⟨_, _, -, -, -, -, hs⟩ | ⟨doc, auths, -, -, hs⟩ :=
      metaSync_cases hsync
    all_goals rw [hs] at hi
    · exact absurd (hnone.symm.trans hi) nofun
    · exact absurd (hnone.symm.trans hi) nofun
    · exact absurd (hnone.symm.trans hi) nofun
    · have h' := (lookup_refreshTable token).symm.trans hi
      rw [hnone] at h'
      split at h'
      · cases h'
        exact ⟨rfl, rfl⟩
      · split at h' <;> cases h'
  | initTest =>
    cases h
    have h' := (lookup_tiAddToken w.tokenInfo (ascii "test") token {10000, 10003, 10004} 1 (ascii "2")).symm.trans hi
    rw [hnone] at h'
    split at h' <;> cases h'
    exact ⟨rfl, rfl⟩

/-- **No request that has been counted is lost**: from the step that adds a token to the table, for as long as it stays
there, what redis has subtracted for the token and what is pending are together the calls of `ti_incr_req_count`. -/
theorem requests_counted (habsent : token ∉ w₀.tokenInfo) (hadd : step parse w₀ op = some w₁)
    (hadded : token ∈ w₁.tokenInfo) (hstays : Stays parse token w₁ ops)
    (hrun : Run.run (step parse) w₁ ops = some w₂) :
    ∃ es i, w₂.log = w₁.log ++ es ∧ w₂.tokenInfo.lookup token = some i ∧
      subtracted (qpmKey token) es + i.qpmReqCount = calls token es ∧
      subtracted (totalKey token) es + i.totalReqCount = callsOn token es := by
  obtain ⟨i₁, hi₁⟩ := Option.isSome_iff_exists.mp (AList.lookup_isSome.mpr hadded)
  obtain ⟨hqpm, htotal⟩ := step_adds habsent hadd hi₁
  obtain ⟨es, i₂, hlog, hi₂, hchanges⟩ := run_changes hi₁ hstays hrun
  refine ⟨es, i₂, hlog, hi₂, ?_⟩
  have hconserves := hchanges.conserves
  rwa [hqpm, htotal, zero_add, zero_add] at hconserves

/-- Redis has 5 requests in total and `q` per second left. -/
def sampleReply (q : Option Int) : Bytes → Reply := fun _ => ⟨some (ascii "yes"), some 5, q⟩

def sampleWorld : World := ⟨⟨initTokenInfo ∅, none⟩, []⟩

theorem mem_sampleWorld : ascii "test" ∈ sampleWorld.tokenInfo := AList.lookup_isSome.mp rfl

/-- Three requests, and an update between them in which the second subtraction fails. -/
theorem requests_counted_sample : ∃ w₂ es i, Run.run (step sampleParse) sampleWorld
      [.update (sampleReply (some 2)), .request (ascii "test"), .request (ascii "test"), .update (sampleReply none),
        .request (ascii "test")] = some w₂ ∧ w₂.log = es ∧ w₂.tokenInfo.lookup (ascii "test") = some i ∧
      subtracted (qpmKey (ascii "test")) es + i.qpmReqCount = calls (ascii "test") es ∧
      subtracted (totalKey (ascii "test")) es + i.totalReqCount = callsOn (ascii "test") es ∧
      calls (ascii "test") es = 3 := by
  obtain ⟨w₂, hrun⟩ : ∃ w₂, Run.run (step sampleParse) sampleWorld
      [.update (sampleReply (some 2)), .request (ascii "test"), .request (ascii "test"), .update (sampleReply none),
        .request (ascii "test")] = some w₂ := ⟨_, rfl⟩
  have hadd : step sampleParse ⟨⟨∅, none⟩, []⟩ .initTest = some sampleWorld := rfl
  obtain ⟨es, i, hlog, hi, hqpm, htotal⟩ := requests_counted (AList.notMem_empty _) hadd mem_sampleWorld
    (stays_of_isSync (by simp [Op.isSync]) mem_sampleWorld) hrun
  refine ⟨w₂, es, i, hrun, hlog, hi, hqpm, htotal, ?_⟩
  have hes : es = w₂.log := hlog.symm
  rw [hes]
  cases hrun
  decide

/-! ## The quota -/

def NoUpdate (token : Bytes) (es : List Event) : Prop :=
  ∀ num, .decrby (qpmKey token) num ∉ es ∧ .decrby (totalKey token) num ∉ es

/-- The requests among `es` that the remainders of `i` let pass: the total limit does not matter for the requests that are
counted while it is off. -/
def passing (token : Bytes) (i : Info) (es : List Event) : Nat :=
  if i.qpmReqRemain ≤ 0 then 0
  else if i.totalReqRemain ≤ 0 then es.count (.incr token false)
  else requests token es

theorem passing_append (es es' : List Event) :
    passing token i (es ++ es') = passing token i es + passing token i es' := by
  unfold passing requests
  rw [List.count_append, List.countP_append]
  split
  · rfl
  · split <;> rfl

theorem passing_eq_zero (hoff : es.count (.incr token false) = 0) (hrequests : requests token es = 0) :
    passing token i es = 0 := by
  simp [passing, hoff, hrequests]

/-- **One step without an update of the token: the remainders stay, and they decide which requests are admitted.** -/
theorem Change.answers (h : Change token i i' es) (hno : NoUpdate token es) :
    i'.qpmReqRemain = i.qpmReqRemain ∧ i'.totalReqRemain = i.totalReqRemain ∧
      admitted token es = passing token i es := by
  cases h with
  | request =>
    obtain ⟨-, htotal, hqpm⟩ := tiIncrReqCount_same token i
    obtain ⟨hremain, h⟩ | ⟨hremain, ⟨hon, hleft⟩, h⟩ | ⟨hremain, hleft, h⟩ := verifyQpmTotalRequest_cases token i
    · simp [h, passing, hremain, admitted]
    · have hneg : ¬ i.qpmReqRemain ≤ 0 := by omega
      rw [h]
      exact ⟨hqpm, htotal, by simp [passing, hneg, hleft, tiIncrReqCount, hon, admitted]⟩
    · have hneg : ¬ i.qpmReqRemain ≤ 0 := by omega
      rw [h]
      refine ⟨hqpm, htotal, ?_⟩
      by_cases hzero : i.totalReqRemain ≤ 0
      · have hoff : i.useTotalLimit = false := hleft.resolve_right (by omega)
        simp [passing, hneg, hzero, tiIncrReqCount, hoff, admitted]
      · simp [passing, hneg, hzero, tiIncrReqCount, requests, Event.isAnswer, admitted]
  | @other m t hne =>
    obtain ⟨-, hcalls, -, hrequests, hadmitted⟩ := request_other m hne []
    have hoff : (Luna.request m t).2.count (.incr token false) = 0 := by
      unfold calls at hcalls
      omega
    exact ⟨rfl, rfl, by rw [hadmitted, passing_eq_zero hoff hrequests]⟩
  | @update reply m hm =>
    obtain ⟨hcalls, -, hrequests, hadmitted⟩ := update_events token reply m
    have hoff : (tiUpdateTokenInfo reply m).2.count (.incr token false) = 0 := by
      unfold calls at hcalls
      omega
    obtain ⟨hqpm, htotal⟩ := updateInfo_quiet reply i
      (fun num hnum => (hno num).1 (mem_visit.mpr ⟨token, i, hm, hnum⟩))
      (fun num hnum => (hno num).2 (mem_visit.mpr ⟨token, i, hm, hnum⟩))
    exact ⟨hqpm, htotal, by rw [hadmitted, passing_eq_zero hoff hrequests]⟩
  | refresh hsame =>
    obtain ⟨-, -, htotal, hqpm, -⟩ := hsame
    exact ⟨hqpm, htotal, (passing_eq_zero rfl rfl).symm⟩

/-- **A run without an update of the token.** -/
theorem Changes.answers (h : Changes token i i' es) (hno : NoUpdate token es) :
    i'.qpmReqRemain = i.qpmReqRemain ∧ i'.totalReqRemain = i.totalReqRemain ∧
      admitted token es = passing token i es := by
  induction h with
  | refl i => exact ⟨rfl, rfl, (passing_eq_zero rfl rfl).symm⟩
  | @head i i₁ i' es es' hchange _ ih =>
    obtain ⟨hqpm, htotal, hadmitted⟩ := hchange.answers fun num =>
      ⟨fun h => (hno num).1 (List.mem_append_left _ h), fun h => (hno num).2 (List.mem_append_left _ h)⟩
    obtain ⟨ihqpm, ihtotal, ihadmitted⟩ := ih fun num =>
      ⟨fun h => (hno num).1 (List.mem_append_right _ h), fun h => (hno num).2 (List.mem_append_right _ h)⟩
    have hpassing : passing token i₁ es' = passing token i es' := by
      unfold passing
      rw [hqpm, htotal]
    refine ⟨ihqpm.trans hqpm, ihtotal.trans htotal, ?_⟩
    rw [passing_append, ← hadmitted, ← hpassing, ← ihadmitted]
    exact List.count_append

theorem admitted_le_calls (h : Changes token i i' es) : admitted token es ≤ calls token es := by
  induction h with
  | refl i => exact Nat.zero_le _
  | @head i i₁ i' es es' hchange _ ih =>
    have hstep : admitted token es ≤ calls token es := by
      cases hchange with
      | request =>
        obtain ⟨-, h⟩ | ⟨-, -, h⟩ | ⟨-, -, h⟩ := verifyQpmTotalRequest_cases token i
        all_goals
          rw [h]
          cases hon : i.useTotalLimit <;> simp [tiIncrReqCount, hon, admitted, calls]
      | other m hne =>
        obtain ⟨-, hcalls, -, -, hadmitted⟩ := request_other m hne []
        rw [hadmitted]
        exact Nat.zero_le _
      | update reply _ =>
        obtain ⟨-, -, -, hadmitted⟩ := update_events token reply _
        rw [hadmitted]
        exact Nat.zero_le _
      | refresh _ => exact Nat.zero_le _
    have hsum : admitted token (es ++ es') = admitted token es + admitted token es' := List.count_append
    rw [hsum, calls_append]
    omega

/-- The bound that the quota is to keep between two updates: `w₁` is the process after the first of them. -/
def QuotaBound (parse : Bytes → Option CJson) (token : Bytes) : Prop :=
  ∀ w₀ reply w₁ ops w₂ es, token ∈ w₀.tokenInfo → step parse w₀ (.update reply) = some w₁ →
    Stays parse token w₁ ops → Run.run (step parse) w₁ ops = some w₂ → w₂.log = w₁.log ++ es → NoUpdate token es →
    ∀ q, 0 ≤ q → (reply token).qpm = some q → (admitted token es : Int) ≤ q ∧
      ∀ r, 0 ≤ r → (reply token).limit = some (ascii "yes") → (reply token).total = some r →
        (admitted token es : Int) ≤ r

/-- **What is admitted between two successful updates of a token**: the remainders that the first one has reported decide
every request, and no request changes them. Nothing is admitted when no requests per second remain; otherwise every
request is, but those that are counted towards a total of which nothing remains. So the requests that are admitted are
not more than remain just when not more requests are made that pass. All of them are pending when the next update
comes. -/
theorem quota_admitted {reply : Bytes → Reply} {es : List Event} {q : Int} (hin : token ∈ w₀.tokenInfo)
    (hupdate : step parse w₀ (.update reply) = some w₁) (hqpm : (reply token).qpm = some q)
    (hstays : Stays parse token w₁ ops) (hrun : Run.run (step parse) w₁ ops = some w₂)
    (hlog : w₂.log = w₁.log ++ es) (hno : NoUpdate token es) :
    ∃ i₁ i₂, w₁.tokenInfo.lookup token = some i₁ ∧ w₂.tokenInfo.lookup token = some i₂ ∧ i₁.qpmReqRemain = q ∧
      (∀ r, (reply token).limit = some (ascii "yes") → (reply token).total = some r → i₁.totalReqRemain = r) ∧
      admitted token es = passing token i₁ es ∧ (q ≤ 0 → admitted token es = 0) ∧
      (0 < q → 0 < i₁.totalReqRemain → admitted token es = requests token es) ∧
      (admitted token es : Int) ≤ i₂.qpmReqCount := by
  obtain ⟨i₀, hi₀⟩ := Option.isSome_iff_exists.mp (AList.lookup_isSome.mpr hin)
  have hi₁ : w₁.tokenInfo.lookup token = some (updateInfo reply token i₀).1 := by
    have htable : w₁.tokenInfo = (tiUpdateTokenInfo reply w₀.tokenInfo).1 := by
      cases hupdate
      rfl
    rw [htable, lookup_tiUpdateTokenInfo, hi₀]
    rfl
  obtain ⟨hremain, htotal⟩ := updateInfo_remain reply i₀ token
  obtain ⟨hq, hcount⟩ := hremain q hqpm
  obtain ⟨es', i₂, hlog', hi₂, hchanges⟩ := run_changes hi₁ hstays hrun
  have hes : es' = es := List.append_cancel_left (hlog'.symm.trans hlog)
  subst hes
  obtain ⟨-, -, hadmitted⟩ := hchanges.answers hno
  refine ⟨_, i₂, hi₁, hi₂, hq, htotal, hadmitted, fun hle => ?_, fun hpos htotal => ?_, ?_⟩
  · rw [hadmitted, passing, if_pos (by omega)]
  · rw [hadmitted, passing, if_neg (by omega), if_neg (by omega)]
  · have hcalls := admitted_le_calls hchanges
    have hzero : subtracted (qpmKey token) es' = 0 := by
      refine List.sum_eq_zero fun n hn => ?_
      obtain ⟨e, he, rfl⟩ := List.mem_map.mp hn
      unfold Event.subtracted
      split
      · rename_i key num
        exact if_neg fun hkey => (hno num).1 (by rw [← hkey]; exact he)
      · rfl
    have hconserves := hchanges.conserves.1
    omega

/-- `sampleWorld` after an update that reports one request per second. -/
def sampleUpdated : World :=
  let r := tiUpdateTokenInfo (sampleReply (some 1)) sampleWorld.tokenInfo
  ⟨⟨r.1, none⟩, r.2⟩

theorem mem_sampleUpdated : ascii "test" ∈ sampleUpdated.tokenInfo := AList.lookup_isSome.mp rfl

/-- Two requests pass a remainder of one. -/
theorem quota_admitted_sample : ∃ w₂ es i₁ i₂,
    Run.run (step sampleParse) sampleUpdated [.request (ascii "test"), .request (ascii "test")] = some w₂ ∧
      sampleUpdated.tokenInfo.lookup (ascii "test") = some i₁ ∧ w₂.tokenInfo.lookup (ascii "test") = some i₂ ∧
      i₁.qpmReqRemain = 1 ∧ admitted (ascii "test") es = passing (ascii "test") i₁ es ∧
      admitted (ascii "test") es = 2 ∧ (admitted (ascii "test") es : Int) ≤ i₂.qpmReqCount := by
  obtain ⟨w₂, hrun⟩ : ∃ w₂, Run.run (step sampleParse) sampleUpdated [.request (ascii "test"), .request (ascii "test")] =
      some w₂ := ⟨_, rfl⟩
  have hupdate : step sampleParse sampleWorld (.update (sampleReply (some 1))) = some sampleUpdated := rfl
  have hlog : w₂.log = sampleUpdated.log ++ [.incr (ascii "test") true, .answered (ascii "test") 200,
      .incr (ascii "test") true, .answered (ascii "test") 200] := by
    cases hrun
    rfl
  obtain ⟨i₁, i₂, hi₁, hi₂, hq, -, hadmitted, -, -, hpending⟩ := quota_admitted mem_sampleWorld hupdate rfl
    (stays_of_isSync (by simp [Op.isSync]) mem_sampleUpdated) hrun hlog (fun num => ⟨by simp, by simp⟩)
  exact ⟨w₂, _, i₁, i₂, hrun, hi₁, hi₂, hq, hadmitted, by decide, hpending⟩

/-- One request per second remains, and two are admitted. -/
theorem quota_exceeded : ¬ QuotaBound sampleParse (ascii "test") := by
  intro h
  obtain ⟨w₂, hrun⟩ : ∃ w₂, Run.run (step sampleParse) sampleUpdated [.request (ascii "test"), .request (ascii "test")] =
      some w₂ := ⟨_, rfl⟩
  have hbound := h sampleWorld (sampleReply (some 1)) sampleUpdated _ w₂
    [.incr (ascii "test") true, .answered (ascii "test") 200, .incr (ascii "test") true, .answered (ascii "test") 200]
    mem_sampleWorld rfl (stays_of_isSync (by simp [Op.isSync]) mem_sampleUpdated) hrun (by cases hrun; rfl)
    (fun num => ⟨by simp, by simp⟩) 1 (by decide) rfl
  exact absurd hbound.1 (by decide)

end Lighttpd.Luna
