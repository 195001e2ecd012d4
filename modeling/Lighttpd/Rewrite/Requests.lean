import Lighttpd.Connection.NextRequest
import Lighttpd.Rewrite.Substitute

/-!
# Rewriting in the course of a request (`mod_rewrite.c`, `connections.c`)

The context of `mod_rewrite` counts the calls of a request and remembers that a rule of `url.rewrite-once` has been
applied. Two hooks share it: one for the URI, and one for the physical path. It is dropped at the end of the request,
and when `server.error-handler` starts the request over.

- `rewriting_bounded`: between two such points the request is started over by rules at most 102 times, and no rule
  changes the URI behind a final one;
- `final_rewritten_again`: but behind `server.error-handler` it does.
-/

namespace Lighttpd.Rewrite
open Captures

variable {ρ : Type}

/-! ## The source -/

/-- The configuration of `mod_rewrite` for a request, as `mod_rewrite_patch_connection` leaves it. -/
structure RewriteConf (ρ : Type) where
  rewrite : Option (List (RewriteRule ρ))
  rewriteNF : Option (List (RewriteRule ρ))
  context : Option Nat
  contextNF : Option Nat

def modRewriteConReset (_ : Option HandlerCtx) : Option HandlerCtx := none

def modRewriteUriHandler (search : ρ → Bytes → Search) (con : Config.Con) (conf : RewriteConf ρ) (c : RewriteCon) :
    HandlerT × RewriteCon :=
  match conf.rewrite with
  | none => (.goOn, c)
  | some kvb => processRewriteRules search con conf.context c kvb

/-- `mod_rewrite_physical`; `isReg` says whether `physical.path` is a regular file. -/
def modRewritePhysical (search : ρ → Bytes → Search) (con : Config.Con) (conf : RewriteConf ρ) (direct isReg : Bool)
    (c : RewriteCon) (physicalPath : Bytes) : HandlerT × RewriteCon × Bytes :=
  if !direct then (.goOn, c, physicalPath)
  else
    match conf.rewriteNF with
    | none => (.goOn, c, physicalPath)
    | some kvb =>
      if isReg then (.goOn, c, physicalPath)
      else
        match processRewriteRules search con conf.contextNF c kvb with
        | (.comeback, c) => (.comeback, c, [])
        | (r, c) => (r, c, physicalPath)

/-- A connection while a request is handled. -/
structure Handling where
  e : Exchange
  physicalPath : Bytes
  ctx : Option HandlerCtx

/-- The two hooks of `mod_rewrite`. -/
inductive Hook
  | uriRaw
  | physical (isReg : Bool)

/-- What happens: a hook is called; other code writes to `request.uri`; `mod_magnet` changes the saved status of an error
handler; and everything else, which leaves some physical path. -/
inductive Event (ρ : Type)
  | hook (h : Hook) (con : Config.Con) (conf : RewriteConf ρ)
  | writeUri (uri : Bytes)
  | magnet (status : Nat)
  | exchange (ev : Exchange.Event) (physicalPath : Bytes)

def Handling.call (search : ρ → Bytes → Search) (s : Handling) (con : Config.Con) (conf : RewriteConf ρ) :
    Hook → HandlerT × RewriteCon × Bytes
  | .uriRaw =>
    let (r, c) := modRewriteUriHandler search con conf ⟨s.ctx, s.e.uri⟩
    (r, c, s.physicalPath)
  | .physical isReg => modRewritePhysical search con conf s.e.direct isReg ⟨s.ctx, s.e.uri⟩ s.physicalPath

/-- `http_response_prepare` gets to the hook. -/
def Handling.reaches (s : Handling) : Hook → Bool
  | .uriRaw => (s.e.state == .readPost || s.e.state == .handleRequest) && s.e.direct && s.physicalPath.isEmpty
  | .physical _ => (s.e.state == .readPost || s.e.state == .handleRequest) && !s.physicalPath.isEmpty

/-- `connection_state_machine` passes an error to `server.error-handler`; `r` is the result of `http_response_prepare`. -/
def callsErrorHandler (e : Exchange) (r : HandlerT) : Bool :=
  (r == .finished || (r == .waitForEvent && !(!e.fileFinished && (!e.fileStarted || !e.streamResponse)))) &&
    e.direct && e.errorHandlerSavedStatus == 0 && decide (400 ≤ e.httpStatus) && !e.errorHandler.isEmpty

/-- **The request is started over by `server.error-handler`.** -/
def Handling.restarts (s : Handling) : Event ρ → Bool
  | .exchange (.prepare acts r) _ =>
    match acts.foldlM Exchange.act s.e with
    | some e => callsErrorHandler e r
    | none => false
  | _ => false

def endsRequest : Event ρ → Bool
  | .exchange (.responseEnd _) _ => true
  | _ => false

/-- `mod_magnet` makes zero of the saved status. -/
def clearsStatus : Event ρ → Bool
  | .magnet status => status == 0
  | _ => false

/-- The end of `magnet_attract_array`: the status of the environment replaces the one of the error handler. -/
def magnetStatus (e : Exchange) (status : Nat) : Exchange :=
  if e.errorHandlerSavedStatus ≠ 0 ∧ status < 1000 then
    { e with errorHandlerSavedStatus := if e.errorHandlerSavedStatus > 0 then status else -status }
  else e

/-- One step. What a hook returns is the result of `http_response_prepare`, unless it is `HANDLER_GO_ON`; the other
contexts of the connection are reset by `plugins_call_connection_reset`. -/
def Handling.step (search : ρ → Bytes → Search) (s : Handling) : Event ρ → Option Handling
  | .hook h con conf =>
    if s.reaches h then
      let (r, c, physicalPath) := s.call search con conf h
      let e := { s.e with uri := c.uri }
      if r = .goOn then some ⟨e, physicalPath, c.ctx⟩ else (e.prepared r).map fun e => ⟨e, physicalPath, c.ctx⟩
    else none
  | .writeUri uri => some { s with e := { s.e with uri := uri } }
  | .magnet status => some { s with e := magnetStatus s.e status }
  | .exchange ev physicalPath => (s.e.step ev).map fun e =>
    ⟨e, physicalPath,
      if s.restarts (.exchange ev physicalPath : Event ρ) || endsRequest (.exchange ev physicalPath : Event ρ) then
        modRewriteConReset s.ctx
      else s.ctx⟩

/-- **A rule starts the request over.** -/
def Handling.comesBack (search : ρ → Bytes → Search) (s : Handling) : Event ρ → Bool
  | .hook h con conf => (s.call search con conf h).1 == .comeback
  | _ => false

/-! ## One call -/

variable {search : ρ → Bytes → Search} {con : Config.Con} {context : Option Nat} {conf : RewriteConf ρ}
variable {c c' : RewriteCon} {kvb : List (RewriteRule ρ)} {r : HandlerT} {s s' : Handling} {ev : Event ρ}
variable {evs : List (Event ρ)}

/-- The comebacks that are left. -/
def budget : Option HandlerCtx → Nat
  | none => 102
  | some hctx => 101 - hctx.loops

def firstRule (search : ρ → Bytes → Search) (uri : Bytes) (kvb : List (RewriteRule ρ)) : Option (RewriteRule ρ) :=
  kvb.find? fun rule =>
    match search rule.key uri with
    | .noMatch => false
    | _ => true

def Handling.rule (search : ρ → Bytes → Search) (s : Handling) (conf : RewriteConf ρ) : Hook → Option (RewriteRule ρ)
  | .uriRaw => conf.rewrite.bind (firstRule search s.e.uri)
  | .physical _ => conf.rewriteNF.bind (firstRule search s.e.uri)

/-- A final rule has been applied. -/
def Final (ctx : Option HandlerCtx) : Prop := ∃ hctx, ctx = some hctx ∧ hctx.finished = true

theorem final_some {hctx : HandlerCtx} : Final (some hctx) ↔ hctx.finished = true := by
  simp [Final]

theorem rewriteLoop_spec (h : rewriteLoop search con context c kvb = (r, c')) :
    ((r = .goOn ∨ r = .error) ∧ c' = c) ∨ (r = .comeback ∧ ∃ hctx, c'.ctx = some hctx ∧
      hctx.loops = (c.ctx.getD handlerCtxInit).loops ∧
      ∃ rule, firstRule search c.uri kvb = some rule ∧ (rule.once = true → hctx.finished = true)) := by
  induction kvb with
  | nil =>
    cases h
    exact Or.inl ⟨Or.inl rfl, rfl⟩
  | cons rule kvb ih =>
    cases hsearch : search rule.key c.uri with
    | noMatch =>
      have hfirst : firstRule search c.uri (rule :: kvb) = firstRule search c.uri kvb := by
        rw [firstRule, List.find?_cons, hsearch]
        rfl
      rw [rewriteLoop_noMatch hsearch] at h
      rw [hfirst]
      exact ih h
    | failed n =>
      rw [rewriteLoop_failed hsearch] at h
      cases h
      exact Or.inl ⟨Or.inr rfl, rfl⟩
    | found m =>
      rw [rewriteLoop_found hsearch] at h
      split at h
      · cases h
        exact Or.inl ⟨Or.inl rfl, rfl⟩
      · cases h
        refine Or.inr ⟨rfl, _, rfl, ?_, rule, ?_, fun honce => by rw [if_pos honce]⟩
        · split <;> rfl
        · rw [firstRule, List.find?_cons, hsearch]

/-- **What a call can do**: it comes back and uses up one unit of the budget, if no final rule has been applied, or it
changes nothing but the number of the loops. -/
theorem processRewriteRules_spec (h : processRewriteRules search con context c kvb = (r, c')) :
    (r = .comeback ∧ ¬ Final c.ctx ∧ budget c'.ctx + 1 ≤ budget c.ctx ∧
      ∃ rule, firstRule search c.uri kvb = some rule ∧ (rule.once = true → Final c'.ctx)) ∨
      ((r = .goOn ∨ r = .error) ∧ c'.uri = c.uri ∧ budget c'.ctx ≤ budget c.ctx ∧ (Final c.ctx → Final c'.ctx)) := by
  obtain ⟨ctx, uri⟩ := c
  unfold processRewriteRules at h
  cases ctx with
  | none =>
    rcases rewriteLoop_spec h with ⟨hr, rfl⟩ | ⟨hr, hctx, hc', hloops, rule, hrule, honce⟩
    · exact Or.inr ⟨hr, rfl, Nat.le_refl _, id⟩
    · refine Or.inl ⟨hr, by simp [Final], ?_, rule, hrule, fun h => ⟨hctx, hc', honce h⟩⟩
      rw [hc']
      simp only [budget]
      omega
  | some hctx =>
    simp only at h
    split at h
    · cases h
      refine Or.inr ⟨Or.inr rfl, rfl, ?_, ?_⟩
      · simp only [budget]
        omega
      · intro hfinal
        have hfinished : hctx.finished = true := Iff.mp final_some hfinal
        exact Iff.mpr final_some hfinished
    · rename_i hloops
      split at h
      · rename_i hfinished
        cases h
        refine Or.inr ⟨Or.inl rfl, rfl, ?_, fun _ => Iff.mpr final_some hfinished⟩
        simp only [budget]
        omega
      · rename_i hfinished
        have hnot : ¬ Final (some hctx) := fun hfinal => hfinished (Iff.mp final_some hfinal)
        rcases rewriteLoop_spec h with ⟨hr, rfl⟩ | ⟨hr, hctx', hc', hloops', rule, hrule, honce⟩
        · refine Or.inr ⟨hr, rfl, ?_, fun hfinal => absurd hfinal hnot⟩
          simp only [budget]
          omega
        · refine Or.inl ⟨hr, hnot, ?_, rule, hrule, fun h => ⟨hctx', hc', honce h⟩⟩
          have hloops'' : hctx'.loops = hctx.loops + 1 := hloops'
          rw [hc']
          simp only [budget]
          omega

theorem call_spec {h : Hook} {physicalPath : Bytes} (heq : s.call search con conf h = (r, c', physicalPath)) :
    (r = .comeback ∧ ¬ Final s.ctx ∧ budget c'.ctx + 1 ≤ budget s.ctx ∧
      ∃ rule, s.rule search conf h = some rule ∧ (rule.once = true → Final c'.ctx)) ∨
      ((r = .goOn ∨ r = .error) ∧ c'.uri = s.e.uri ∧ budget c'.ctx ≤ budget s.ctx ∧ (Final s.ctx → Final c'.ctx)) := by
  have hsame : ((HandlerT.goOn = .goOn ∨ HandlerT.goOn = .error) ∧ s.e.uri = s.e.uri ∧ budget s.ctx ≤ budget s.ctx ∧
      (Final s.ctx → Final s.ctx)) := ⟨Or.inl rfl, rfl, Nat.le_refl _, id⟩
  cases h with
  | uriRaw =>
    simp only [Handling.call, modRewriteUriHandler] at heq
    cases hkvb : conf.rewrite with
    | none =>
      rw [hkvb] at heq
      cases heq
      exact Or.inr hsame
    | some kvb =>
      rw [hkvb] at heq
      simp only [Prod.mk.injEq] at heq
      rw [Handling.rule, hkvb, Option.bind_some]
      exact processRewriteRules_spec (Prod.ext heq.1 heq.2.1)
  | physical isReg =>
    simp only [Handling.call, modRewritePhysical] at heq
    split at heq
    · cases heq
      exact Or.inr hsame
    · cases hkvb : conf.rewriteNF with
      | none =>
        rw [hkvb] at heq
        cases heq
        exact Or.inr hsame
      | some kvb =>
        rw [hkvb] at heq
        simp only at heq
        split at heq
        · cases heq
          exact Or.inr hsame
        · split at heq
          · rename_i hprocess
            cases heq
            rw [Handling.rule, hkvb, Option.bind_some]
            exact processRewriteRules_spec hprocess
          · rename_i hprocess
            cases heq
            rw [Handling.rule, hkvb, Option.bind_some]
            exact processRewriteRules_spec hprocess

/-! ## The status of the error handler -/

section Status

variable {e e' : Exchange} {status : HandlerT}

theorem dropBody_saved (h : e.dropBody = some e') :
    e'.errorHandlerSavedStatus = e.errorHandlerSavedStatus ∧ e'.httpStatus = e.httpStatus := by
  unfold Exchange.dropBody at h
  split at h
  · obtain ⟨len, -, rfl⟩ := Option.map_eq_some_iff.mp h
    exact ⟨rfl, rfl⟩
  · cases h
    exact ⟨rfl, rfl⟩

theorem act_saved {a : Exchange.Act} (h : e.act a = some e') :
    e'.errorHandlerSavedStatus = e.errorHandlerSavedStatus := by
  cases a with
  | readPost io ios =>
    obtain ⟨p, -, rfl⟩ := Option.map_eq_some_iff.mp h
    rfl
  | steal dest wf len =>
    obtain ⟨p, -, rfl⟩ := Option.map_eq_some_iff.mp h
    rfl
  | written n =>
    obtain ⟨p, -, rfl⟩ := Option.map_eq_some_iff.mp h
    rfl
  | inputClosed =>
    simp only [Exchange.act, Exchange.inputClosed] at h
    split at h
    · obtain ⟨len, -, h⟩ := Option.bind_eq_some_iff.mp h
      obtain ⟨cq, -, h⟩ := Option.bind_eq_some_iff.mp h
      cases h
      rfl
    · cases h
      rfl
  | localRedirect location =>
    simp only [Exchange.act, Exchange.localRedirect] at h
    split at h
    · cases h
      rfl
    · obtain ⟨e₁, hdrop, rfl⟩ := Option.map_eq_some_iff.mp h
      exact (dropBody_saved hdrop).1
  | forward | respond | noKeepAlive | configure =>
    cases h
    rfl

variable {acts : List Exchange.Act}

theorem acts_saved (h : acts.foldlM Exchange.act e = some e') :
    e'.errorHandlerSavedStatus = e.errorHandlerSavedStatus := by
  induction acts generalizing e with
  | nil =>
    cases h
    rfl
  | cons a acts ih =>
    rw [List.foldlM_cons] at h
    obtain ⟨e₁, ha, h⟩ := Option.bind_eq_some_iff.mp h
    exact (ih h).trans (act_saved ha)

theorem prepared_saved (hsaved : e.errorHandlerSavedStatus ≠ 0) (h : e.prepared status = some e') :
    e'.errorHandlerSavedStatus = e.errorHandlerSavedStatus := by
  have hhandled : ∀ e', e.handled = some e' → e'.errorHandlerSavedStatus = e.errorHandlerSavedStatus := by
    intro e' h
    unfold Exchange.handled at h
    split at h
    all_goals
      dsimp only at h
      split at h
      · unfold Exchange.handledDirect at h
        rw [if_pos hsaved] at h
        cases h
        rfl
      · cases h
        rfl
  cases status with
  | waitForEvent =>
    dsimp only [Exchange.prepared] at h
    split at h
    · cases h
      rfl
    · exact hhandled e' h
  | finished => exact hhandled e' h
  | goOn | comeback | error | waitForFd =>
    cases h
    rfl

/-- **`server.error-handler` is called only if no error handler was before**, and it saves the status. -/
theorem prepared_restart (hcalls : callsErrorHandler e status = true) (h : e.prepared status = some e') :
    e.errorHandlerSavedStatus = 0 ∧ e'.errorHandlerSavedStatus ≠ 0 := by
  simp only [callsErrorHandler, Bool.and_eq_true, Bool.or_eq_true, beq_iff_eq, Bool.not_eq_true',
    decide_eq_true_eq] at hcalls
  obtain ⟨⟨⟨⟨hstatus, hdirect⟩, hsaved⟩, herror⟩, hhandler⟩ := hcalls
  have hprepared : e.prepared status = e.handled := by
    rcases hstatus with rfl | ⟨rfl, hwait⟩
    · rfl
    · dsimp only [Exchange.prepared]
      rw [if_neg]
      simpa using hwait
  have hne : e.errorHandler ≠ [] := by simpa using hhandler
  have hnot : ¬ 0 < e.errorHandlerSavedStatus := by rw [hsaved]; exact Int.lt_irrefl 0
  rw [hprepared, Exchange.handled, if_neg hnot] at h
  rw [if_pos hdirect, Exchange.handledDirect, if_neg (by simp [hsaved]), if_pos herror, if_pos hne,
    Exchange.callErrorHandler] at h
  obtain ⟨e₁, hdrop, rfl⟩ := Option.map_eq_some_iff.mp h
  refine ⟨hsaved, ?_⟩
  show (e₁.httpStatus : Int) ≠ 0
  rw [(dropBody_saved hdrop).2]
  omega

theorem connectionHandleWrite_saved {sent : NetworkWrite} (h : e.connectionHandleWrite sent = some e') :
    e'.errorHandlerSavedStatus = e.errorHandlerSavedStatus := by
  cases sent with
  | all =>
    obtain ⟨n, -, h⟩ := Option.bind_eq_some_iff.mp h
    obtain ⟨cq, -, h⟩ := Option.bind_eq_some_iff.mp h
    cases h
    rfl
  | more n =>
    obtain ⟨cq, -, rfl⟩ := Option.map_eq_some_iff.mp h
    rfl
  | failed =>
    cases h
    rfl

theorem subrequest_saved (h : e.subrequest acts status = some e') :
    e'.errorHandlerSavedStatus = e.errorHandlerSavedStatus := by
  unfold Exchange.subrequest at h
  split at h
  · obtain ⟨e₁, hacts, rfl⟩ := Option.map_eq_some_iff.mp h
    rw [← acts_saved hacts]
    split <;> rfl
  · cases h
    rfl

theorem writeRound_saved {sent : NetworkWrite} (h : e.writeRound sent acts status = some e') :
    e'.errorHandlerSavedStatus = e.errorHandlerSavedStatus := by
  unfold Exchange.writeRound at h
  split at h
  · split at h
    · obtain ⟨e₁, hwrite, h⟩ := Option.bind_eq_some_iff.mp h
      have h₁ := connectionHandleWrite_saved hwrite
      split at h
      · cases h
        exact h₁
      · exact (subrequest_saved h).trans h₁
    · exact subrequest_saved h
  · split at h
    · cases h
      rfl
    · exact subrequest_saved h

/-- Until the response ends, a step keeps the saved status, if there is one. -/
theorem step_saved {ev : Exchange.Event} (hend : ∀ ok, ev ≠ .responseEnd ok) (hsaved : e.errorHandlerSavedStatus ≠ 0)
    (h : e.step ev = some e') : e'.errorHandlerSavedStatus = e.errorHandlerSavedStatus := by
  cases ev with
  | fdevent readable writable failed =>
    simp only [Exchange.step, Option.ite_none_right_eq_some] at h
    cases h.2
    rfl
  | fdeventWrite sent =>
    simp only [Exchange.step, Option.ite_none_right_eq_some] at h
    exact connectionHandleWrite_saved h.2
  | timeout =>
    simp only [Exchange.step, Option.ite_none_right_eq_some] at h
    cases h.2
    rfl
  | backend acts =>
    simp only [Exchange.step, Option.ite_none_right_eq_some] at h
    exact acts_saved h.2
  | prepare acts r =>
    simp only [Exchange.step, Option.ite_none_right_eq_some] at h
    obtain ⟨e₁, hacts, h⟩ := Option.bind_eq_some_iff.mp h.2
    have h₁ := acts_saved hacts
    exact (prepared_saved (by rw [h₁]; exact hsaved) h).trans h₁
  | responseStart r =>
    simp only [Exchange.step, Option.ite_none_right_eq_some] at h
    cases h.2
    cases r <;> rfl
  | write sent acts r =>
    simp only [Exchange.step, Option.ite_none_right_eq_some] at h
    exact writeRound_saved h.2
  | responseEnd ok => exact absurd rfl (hend ok)

end Status

/-! ## Steps -/

theorem hook_spec {h : Hook} (hstep : s.step search (.hook h con conf) = some s') :
    ∃ r c physicalPath, s.call search con conf h = (r, c, physicalPath) ∧ s'.ctx = c.ctx ∧
      (r = .goOn ∨ r = .comeback ∨ r = .error → s'.e.uri = c.uri) ∧
      (s.e.errorHandlerSavedStatus ≠ 0 → s'.e.errorHandlerSavedStatus = s.e.errorHandlerSavedStatus) := by
  simp only [Handling.step, Option.ite_none_right_eq_some] at hstep
  obtain ⟨-, hstep⟩ := hstep
  generalize hcall : s.call search con conf h = res at hstep
  obtain ⟨r, c, physicalPath⟩ := res
  refine ⟨r, c, physicalPath, rfl, ?_⟩
  simp only at hstep
  split at hstep
  · cases hstep
    exact ⟨rfl, fun _ => rfl, fun _ => rfl⟩
  · rename_i hgoOn
    obtain ⟨e, hprepared, rfl⟩ := Option.map_eq_some_iff.mp hstep
    refine ⟨rfl, ?_, fun hsaved => prepared_saved (e := { s.e with uri := c.uri }) hsaved hprepared⟩
    rintro (rfl | rfl | rfl)
    · exact absurd rfl hgoOn
    · cases hprepared
      rfl
    · cases hprepared
      rfl

/-- **Every comeback takes a unit of the budget**, which is only filled up again by `server.error-handler` until the
request ends. -/
theorem step_budget (hend : endsRequest ev = false) (hstep : s.step search ev = some s') :
    (s.comesBack search ev).toNat + budget s'.ctx ≤ budget s.ctx + 102 * (s.restarts ev).toNat := by
  cases ev with
  | hook h con conf =>
    obtain ⟨r, c, physicalPath, hcall, hctx, -, -⟩ := hook_spec hstep
    have hcomes : s.comesBack search (.hook h con conf) = (r == .comeback) := by rw [Handling.comesBack, hcall]
    rw [hcomes, hctx]
    rcases call_spec hcall with ⟨rfl, -, hbudget, -⟩ | ⟨hr, -, hbudget, -⟩
    · have htrue : (HandlerT.comeback == HandlerT.comeback).toNat = 1 := by decide
      omega
    · have hne : r ≠ .comeback := by rcases hr with rfl | rfl <;> decide
      rw [beq_eq_false_iff_ne.mpr hne, Bool.toNat_false]
      omega
  | writeUri uri =>
    cases hstep
    exact (Nat.zero_add (budget s.ctx)).trans_le (Nat.le_add_right _ _)
  | magnet status =>
    cases hstep
    exact (Nat.zero_add (budget s.ctx)).trans_le (Nat.le_add_right _ _)
  | exchange ev physicalPath =>
    obtain ⟨e, -, rfl⟩ := Option.map_eq_some_iff.mp hstep
    rw [hend, Bool.or_false]
    cases hrestart : s.restarts (.exchange ev physicalPath : Event ρ) with
    | true => exact (Nat.zero_add 102).trans_le (Nat.le_add_left _ _)
    | false => exact (Nat.zero_add (budget s.ctx)).trans_le (Nat.le_add_right _ _)

/-- **Behind a final rule nothing comes back**, until the context is reset. -/
theorem step_final (hend : endsRequest ev = false) (hrestart : s.restarts ev = false) (hfinal : Final s.ctx)
    (hstep : s.step search ev = some s') : Final s'.ctx ∧ s.comesBack search ev = false := by
  cases ev with
  | hook h con conf =>
    obtain ⟨r, c, physicalPath, hcall, hctx, -, -⟩ := hook_spec hstep
    rcases call_spec hcall with ⟨-, hnot, -⟩ | ⟨hr, -, -, hkeeps⟩
    · exact absurd hfinal hnot
    · have hne : r ≠ .comeback := by rcases hr with rfl | rfl <;> decide
      refine ⟨hctx ▸ hkeeps hfinal, ?_⟩
      rw [Handling.comesBack, hcall]
      exact beq_eq_false_iff_ne.mpr hne
  | writeUri uri =>
    cases hstep
    exact ⟨hfinal, rfl⟩
  | magnet status =>
    cases hstep
    exact ⟨hfinal, rfl⟩
  | exchange ev physicalPath =>
    obtain ⟨e, -, rfl⟩ := Option.map_eq_some_iff.mp hstep
    rw [hend, hrestart]
    exact ⟨hfinal, rfl⟩

/-- The restart that a request may still see. -/
def restartsLeft (s : Handling) : Nat := if s.e.errorHandlerSavedStatus = 0 then 1 else 0

theorem restartsLeft_le (h : s.e.errorHandlerSavedStatus ≠ 0 → s'.e.errorHandlerSavedStatus ≠ 0) :
    restartsLeft s' ≤ restartsLeft s := by
  unfold restartsLeft
  by_cases hs : s.e.errorHandlerSavedStatus = 0
  · rw [if_pos hs]
    split <;> decide
  · rw [if_neg (h hs), if_neg hs]

/-- **An error handler starts a request over at most once**, unless `mod_magnet` clears the saved status. -/
theorem step_restarts (hend : endsRequest ev = false) (hclears : clearsStatus ev = false)
    (hstep : s.step search ev = some s') : (s.restarts ev).toNat + restartsLeft s' ≤ restartsLeft s := by
  cases ev with
  | hook h con conf =>
    obtain ⟨r, c, physicalPath, -, -, -, hsaved⟩ := hook_spec hstep
    exact (Nat.zero_add _).trans_le (restartsLeft_le fun hs => (hsaved hs).symm ▸ hs)
  | writeUri uri =>
    cases hstep
    exact (Nat.zero_add _).le
  | magnet status =>
    cases hstep
    refine (Nat.zero_add _).trans_le (restartsLeft_le fun hs => ?_)
    have hstatus : status ≠ 0 := by simpa [clearsStatus] using hclears
    show (magnetStatus s.e status).errorHandlerSavedStatus ≠ 0
    unfold magnetStatus
    split
    · dsimp only
      split <;> omega
    · exact hs
  | exchange ev physicalPath =>
    obtain ⟨e, hexchange, rfl⟩ := Option.map_eq_some_iff.mp hstep
    have hnotEnd : ∀ ok, ev ≠ .responseEnd ok := by
      rintro ok rfl
      cases hend
    cases hrestart : s.restarts (.exchange ev physicalPath : Event ρ) with
    | false =>
      exact (Nat.zero_add _).trans_le (restartsLeft_le fun hs => (step_saved hnotEnd hs hexchange).symm ▸ hs)
    | true =>
      cases ev with
      | prepare acts r =>
        simp only [Handling.restarts] at hrestart
        simp only [Exchange.step, Option.ite_none_right_eq_some] at hexchange
        obtain ⟨e₁, hacts, hprepared⟩ := Option.bind_eq_some_iff.mp hexchange.2
        rw [hacts] at hrestart
        obtain ⟨hzero, hne⟩ := prepared_restart hrestart hprepared
        have hs : s.e.errorHandlerSavedStatus = 0 := (acts_saved hacts).symm.trans hzero
        unfold restartsLeft
        rw [if_neg hne, if_pos hs]
        decide
      | fdevent | fdeventWrite | timeout | backend | responseStart | write | responseEnd => cases hrestart

/-! ## Runs -/

def InRequest (evs : List (Event ρ)) : Prop := ∀ ev ∈ evs, endsRequest ev = false

instance (evs : List (Event ρ)) : Decidable (InRequest evs) :=
  inferInstanceAs (Decidable (∀ ev ∈ evs, endsRequest ev = false))

/-- The number of times that rules start the request over. -/
def comebacks (search : ρ → Bytes → Search) (s : Handling) (evs : List (Event ρ)) : Nat :=
  Run.count (Handling.step search) (Handling.comesBack search) s evs

/-- The number of times that `server.error-handler` starts the request over. -/
def restarts (search : ρ → Bytes → Search) (s : Handling) (evs : List (Event ρ)) : Nat :=
  Run.count (Handling.step search) Handling.restarts s evs

theorem comebacks_le (h : InRequest evs) : comebacks search s evs ≤ budget s.ctx + 102 * restarts search s evs := by
  have hok : Run.Meets (Handling.step search) (fun _ ev => endsRequest ev = false) s evs := Run.meets_of_mem h s
  exact Run.count_le (fun s => budget s.ctx) (fun s ev s' hend hstep => step_budget hend hstep) hok

theorem restarts_le (h : InRequest evs) (hclears : ∀ ev ∈ evs, clearsStatus ev = false) :
    restarts search s evs ≤ restartsLeft s := by
  have hok : Run.Meets (Handling.step search) (fun _ ev => endsRequest ev = false ∧ clearsStatus ev = false) s evs :=
    Run.meets_of_mem (fun ev hev => ⟨h ev hev, hclears ev hev⟩) s
  have hcount := Run.count_le restartsLeft (n := 0) (q := Handling.restarts)
    (fun s ev s' hok hstep => (step_restarts hok.1 hok.2 hstep).trans (Nat.le_add_right _ _)) hok
  rw [Nat.zero_mul, Nat.add_zero] at hcount
  exact hcount

theorem final_run (h : InRequest evs) (hrestarts : restarts search s evs = 0) (hfinal : Final s.ctx)
    (hrun : Run.run (Handling.step search) s evs = some s') : Final s'.ctx := by
  have hok : Run.Meets (Handling.step search) (fun s ev => endsRequest ev = false ∧
      (s.step search ev ≠ none → s.restarts ev = false)) s evs :=
    (Run.meets_of_mem h s).and (Run.meets_of_count_eq_zero hrestarts)
  refine Run.run_keeps (I := fun s => Final s.ctx) (fun s ev s' hs hok hstep => ?_) hfinal hok hrun
  exact (step_final hok.1 (hok.2 (by rw [hstep]; nofun)) hs hstep).1

theorem hook_final {h : Hook} (hfinal : Final s.ctx) (hstep : s.step search (.hook h con conf) = some s') :
    s.comesBack search (.hook h con conf) = false ∧ s'.e.uri = s.e.uri := by
  obtain ⟨r, c, physicalPath, hcall, -, huri, -⟩ := hook_spec hstep
  rcases call_spec hcall with ⟨-, hnot, -⟩ | ⟨hr, hc, -, -⟩
  · exact absurd hfinal hnot
  · refine ⟨(step_final rfl rfl hfinal hstep).2, (huri ?_).trans hc⟩
    rcases hr with rfl | rfl
    · exact Or.inl rfl
    · exact Or.inr (Or.inr rfl)

/-- A rule of `url.rewrite-once` is final. -/
theorem hook_once {h : Hook} (hcomes : s.comesBack search (.hook h con conf) = true)
    (honce : ∀ rule, s.rule search conf h = some rule → rule.once = true)
    (hstep : s.step search (.hook h con conf) = some s') : Final s'.ctx := by
  obtain ⟨r, c, physicalPath, hcall, hctx, -, -⟩ := hook_spec hstep
  rw [Handling.comesBack, hcall] at hcomes
  rcases call_spec hcall with ⟨-, -, -, rule, hrule, hfinal⟩ | ⟨hr, -, -, -⟩
  · rw [hctx]
    exact hfinal (honce rule hrule)
  · rcases hr with rfl | rfl <;> cases hcomes

/-- **Rewriting is bounded, and a final rule is the last one.** Between two calls of `server.error-handler` a request is
started over by rules at most 102 times, so at most 204 times while `mod_magnet` does not clear the saved status. Behind a
rule of `url.rewrite-once`, and until such a call, no hook changes the URI. The next request has a fresh context. -/
theorem rewriting_bounded (search : ρ → Bytes → Search) (s : Handling) :
    (∀ evs : List (Event ρ), InRequest evs → s.ctx = none →
      comebacks search s evs ≤ 102 * (restarts search s evs + 1) ∧
      ((∀ ev ∈ evs, clearsStatus ev = false) → comebacks search s evs ≤ 204)) ∧
    (∀ h con conf s₁ evs s₂ h' con' conf' s₃, s.step search (.hook h con conf) = some s₁ →
      s.comesBack search (.hook h con conf) = true → (∀ rule, s.rule search conf h = some rule → rule.once = true) →
      InRequest evs → restarts search s₁ evs = 0 → Run.run (Handling.step search) s₁ evs = some s₂ →
      s₂.step search (.hook h' con' conf') = some s₃ →
      s₂.comesBack search (.hook h' con' conf') = false ∧ s₃.e.uri = s₂.e.uri) ∧
    ∀ ok physicalPath s', s.step search (.exchange (.responseEnd ok) physicalPath) = some s' → s'.ctx = none := by
  refine ⟨fun evs hin hctx => ?_, ?_, ?_⟩
  · have hle : comebacks search s evs ≤ budget s.ctx + 102 * restarts search s evs := comebacks_le hin
    rw [hctx] at hle
    have hbudget : budget none = 102 := rfl
    refine ⟨by omega, fun hclears => ?_⟩
    have hone : restartsLeft s ≤ 1 := by
      unfold restartsLeft
      split <;> decide
    have hrestarts : restarts search s evs ≤ 1 := (restarts_le hin hclears).trans hone
    omega
  · intro h con conf s₁ evs s₂ h' con' conf' s₃ hstep hcomes honce hin hrestarts hrun hstep'
    exact hook_final (final_run hin hrestarts (hook_once hcomes honce hstep) hrun) hstep'
  · intro ok physicalPath s' hstep
    obtain ⟨e, -, rfl⟩ := Option.map_eq_some_iff.mp hstep
    have hend : endsRequest (.exchange (.responseEnd ok) physicalPath : Event ρ) = true := rfl
    dsimp only
    rw [hend, Bool.or_true]
    rfl

/-! ## The error handler -/

/-- A request for `/abcdefghij`, with `server.error-handler = "/e"`. -/
def sampleHandling : Handling where
  e := { Exchange.sampleExchange with state := .handleRequest, uri := sampleCon.uri }
  physicalPath := []
  ctx := none

/-- `url.rewrite-once = ( "^/(.)" => "/x$1%1" )`, outside of every condition. -/
def sampleConf : RewriteConf Nat := ⟨some [sampleRule 1], none, none, none⟩

def sampleHook : Event Nat := .hook .uriRaw (.init Config.sampleFields) sampleConf

/-- The hook, the error `404` and the call of the error handler, and the hook again. -/
def sampleEvents : List (Event Nat) :=
  [sampleHook, .exchange (.prepare [.respond 404 true false true (.init none 1024)] .finished) [], sampleHook]

example : (Run.run (Handling.step sampleSearch) sampleHandling (sampleEvents.take 1)).map
    (fun s => (s.ctx, s.e.uri)) = some (some ⟨true, 0⟩, ascii "/xa") := by decide

/-- **Behind the error handler, the URI is rewritten again** by the rule of `url.rewrite-once` that has been applied
before. -/
theorem final_rewritten_again :
    InRequest sampleEvents ∧ (sampleRule 1).once = true ∧
    (Run.run (Handling.step sampleSearch) sampleHandling (sampleEvents.take 1)).map (fun s => (s.ctx, s.e.uri)) =
      some (some ⟨true, 0⟩, ascii "/xa") ∧
    (Run.run (Handling.step sampleSearch) sampleHandling (sampleEvents.take 2)).map (fun s => (s.ctx, s.e.uri)) =
      some (none, ascii "/e") ∧
    (Run.run (Handling.step sampleSearch) sampleHandling sampleEvents).map (fun s => s.e.uri) = some (ascii "/xe") ∧
    comebacks sampleSearch sampleHandling sampleEvents = 2 := by
  refine ⟨by decide, rfl, ?_, ?_, ?_, ?_⟩ <;> decide

/-- Rules start the request over at most 204 times. Behind the final rule another module writes the URI `/y`, and the
rule leaves it alone. -/
theorem rewriting_bounded_sample : comebacks sampleSearch sampleHandling sampleEvents ≤ 204 ∧
    ∃ s₁ s₂ s₃, sampleHandling.step sampleSearch sampleHook = some s₁ ∧ s₁.e.uri = ascii "/xa" ∧
      Run.run (Handling.step sampleSearch) s₁ [.writeUri (ascii "/y")] = some s₂ ∧
      s₂.step sampleSearch sampleHook = some s₃ ∧ s₃.e.uri = ascii "/y" := by
  obtain ⟨hbound, hfinal, -⟩ := rewriting_bounded sampleSearch sampleHandling
  refine ⟨(hbound sampleEvents (by decide) rfl).2 (by decide), _, _, _, rfl, by decide, rfl, rfl, ?_⟩
  refine (hfinal .uriRaw (.init Config.sampleFields) sampleConf _ [.writeUri (ascii "/y")] _ .uriRaw
    (.init Config.sampleFields) sampleConf _ rfl (by decide) ?_ (by decide) (by decide) rfl rfl).2.trans rfl
  rintro rule hrule
  cases hrule
  rfl

end Lighttpd.Rewrite
