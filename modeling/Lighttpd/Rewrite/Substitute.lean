import Lighttpd.Config.CondCache
import Lighttpd.Connection.StateMachine
import Lighttpd.Lib.Captures

/-!
# Rewriting and redirecting (`mod_rewrite.c`, `mod_redirect.c`)

Both modules search the URI for the first rule that matches, and put the captures of the match and of the condition
around the rules into the replacement of this rule. The index loop over the replacement is the same in both.

- `substitute_eq`: the loop makes the text of the pieces of the replacement, one after another;
- `conditionCapture_eq`: as long as the cache of the conditions agrees with them, `%k` is what the condition around the
  rule captures;
- `substitution_iff`: when this is the reference expansion, for every rule, URI and replacement.

The regular expressions are those of a library: `search` says what a compiled one makes of a subject, and `pcreExec` is
how `pcre_exec` reports it in a vector with room for ten captures.
-/

namespace Lighttpd.Rewrite
open Captures

/-! ## The source -/

/-- What a regular expression makes of a subject; the errors other than `PCRE_ERROR_NOMATCH` are numbered from `-2`. -/
inductive Search
  | noMatch
  | failed (n : Nat)
  | found (m : Match)

/-- `N`: the captures that there is room for. -/
def slots : Nat := 10

def pcreExec : Search → Int × List (Int × Int)
  | .noMatch => (-1, [])
  | .failed n => (-2 - n, [])
  | .found m => (m.returned slots, m.vector slots)

/-- What is put in the place of the character `c` and the `d` behind it; `list` are the substrings of the match. -/
def replaced (con : Config.Con) (context : Option Nat) (list : List Bytes) (n : Nat) (c d : Byte) : Bytes :=
  let num := d.toNat - (chr '0').toNat
  if !lightIsdigit d then
    -- enable escape: "%%" => "%", "%a" => "%a", "$$" => "$"
    if c = d then [c] else [c, d]
  else if c = chr '$' then
    if num < n then cstr (list.getD num []) else []
  else
    match context with
    | none => []
    | some i => (Config.configAppendCondMatchBuffer con i num).getD []

/-- The loop over `pattern`, of which `k` bytes have been looked at and the first `start` have been dealt with. -/
def substitute (con : Config.Con) (context : Option Nat) (list : List Bytes) (n : Nat) (pattern : Bytes) :
    Bytes → Nat → Nat → Bytes → Bytes
  | c :: d :: rest, k, start, out =>
    if c = chr '$' ∨ c = chr '%' then
      let out := out ++ (pattern.drop start).take (k - start)
      substitute con context list n pattern rest (k + 2) (k + 2) (out ++ replaced con context list n c d)
    else substitute con context list n pattern (d :: rest) (k + 1) start out
  | _, _, start, out => out ++ pattern.drop start

variable {ρ : Type}

structure RewriteRule (ρ : Type) where
  key : ρ
  value : Bytes
  once : Bool

structure HandlerCtx where
  finished : Bool
  loops : Nat
deriving DecidableEq, Repr

def handlerCtxInit : HandlerCtx := ⟨false, 0⟩

/-- What `mod_rewrite` has of a connection: its context and `request.uri`. -/
structure RewriteCon where
  ctx : Option HandlerCtx
  uri : Bytes
deriving DecidableEq, Repr

/-- The loop of `process_rewrite_rules` over the rules. -/
def rewriteLoop (search : ρ → Bytes → Search) (con : Config.Con) (context : Option Nat) (c : RewriteCon) :
    List (RewriteRule ρ) → HandlerT × RewriteCon
  | [] => (.goOn, c)
  | rule :: kvb =>
    let (n, ovec) := pcreExec (search rule.key c.uri)
    if n < 0 then if n ≠ -1 then (.error, c) else rewriteLoop search con context c kvb
    else if rule.value.length = 0 then (.goOn, c)
    else
      let list := Match.substringList c.uri ovec n.toNat
      let ctx := c.ctx.getD handlerCtxInit
      (.comeback,
        { ctx := some (if rule.once then { ctx with finished := true } else ctx)
          uri := substitute con context list n.toNat rule.value rule.value 0 0 [] })

def processRewriteRules (search : ρ → Bytes → Search) (con : Config.Con) (context : Option Nat) (c : RewriteCon)
    (kvb : List (RewriteRule ρ)) : HandlerT × RewriteCon :=
  match c.ctx with
  | none => rewriteLoop search con context c kvb
  | some hctx =>
    let c := { c with ctx := some { hctx with loops := hctx.loops + 1 } }
    if hctx.loops > 100 then (.error, c)
    else if hctx.finished then (.goOn, c)
    else rewriteLoop search con context c kvb

structure PcreKeyvalue (ρ : Type) where
  key : ρ
  value : Bytes

/-- The configuration of `mod_redirect`. -/
structure RedirectConf (ρ : Type) where
  redirect : List (PcreKeyvalue ρ)
  context : Option Nat
  redirectCode : Nat

/-- A redirect: the field `Location`, and the status. -/
structure Redirect where
  location : Bytes
  httpStatus : Nat
deriving DecidableEq, Repr

/-- `mod_redirect_uri_handler` behind `mod_redirect_patch_connection`. -/
def modRedirectUriHandler (search : ρ → Bytes → Search) (con : Config.Con) (conf : RedirectConf ρ) (uri : Bytes) :
    HandlerT × Option Redirect :=
  go conf.redirect
where
  go : List (PcreKeyvalue ρ) → HandlerT × Option Redirect
    | [] => (.goOn, none)
    | kv :: redirect =>
      let (n, ovec) := pcreExec (search kv.key uri)
      if n < 0 then if n ≠ -1 then (.error, none) else go redirect
      else if kv.value.length = 0 then (.goOn, none)
      else
        let list := Match.substringList uri ovec n.toNat
        (.finished, some
          { location := substitute con conf.context list n.toNat kv.value kv.value 0 0 []
            httpStatus := if conf.redirectCode > 99 ∧ conf.redirectCode < 1000 then conf.redirectCode else 301 })

/-! ## The reference -/

inductive Piece
  | literal (c : Byte)
  | capture (k : Nat)
  | condition (k : Nat)
deriving DecidableEq, Repr

/-- **What a replacement means**: `$k` and `%k` stand for captures, `$$` and `%%` for one character, and everything else
for itself. -/
def pieces : Bytes → List Piece
  | c :: d :: rest =>
    if c = chr '$' ∨ c = chr '%' then
      if lightIsdigit d then
        (if c = chr '$' then .capture (d.toNat - (chr '0').toNat) else .condition (d.toNat - (chr '0').toNat)) ::
          pieces rest
      else if c = d then .literal c :: pieces rest
      else .literal c :: .literal d :: pieces rest
    else .literal c :: pieces (d :: rest)
  | [c] => [.literal c]
  | [] => []

def Piece.text (capture condition : Nat → Bytes) : Piece → Bytes
  | .literal c => [c]
  | .capture k => capture k
  | .condition k => condition k

/-- **The reference expansion**: `capture` are the captures of the match, and `condition` those of the condition around
the rule. -/
def expand (capture condition : Nat → Bytes) (pattern : Bytes) : Bytes :=
  (pieces pattern).flatMap (Piece.text capture condition)

/-- **What the condition around a rule captures**, from scratch; nothing outside of every condition. -/
def contextCapture (env : Config.Env) (t : Config.Tree) (f : Config.Fields) (context : Option Nat) (k : Nat) : Bytes :=
  (context.bind fun i => Config.captured env f (t.dc i) k).getD []

def FirstMatch {α : Type} (search : ρ → Bytes → Search) (uri : Bytes) (key : α → ρ) (rules : List α) (rule : α) (m : Match) :
    Prop :=
  ∃ before after, rules = before ++ rule :: after ∧ (∀ r ∈ before, search (key r) uri = .noMatch) ∧
    search (key rule) uri = .found m

/-! ## The loop makes the pieces -/

variable {con : Config.Con} {context : Option Nat} {list : List Bytes} {n k start : Nat} {pattern rest out uri : Bytes}
variable {c d : Byte} {m : Match}

/-- What the loop puts in the place of `%k`: the captures that are cached. -/
def conditionCapture (con : Config.Con) (context : Option Nat) (k : Nat) : Bytes :=
  (context.bind fun i => Config.configAppendCondMatchBuffer con i k).getD []

/-- As long as the cache agrees with the conditions, `%k` is what the condition captures from scratch. -/
theorem conditionCapture_eq {env : Config.Env} {t : Config.Tree} (h : Config.Agrees env t con)
    (hcontext : ∀ i, context = some i → (con.caches i).result = .true) :
    conditionCapture con context = contextCapture env t con.fields context := by
  funext k
  cases context with
  | none => rfl
  | some i => exact congrArg (Option.getD · []) (Config.append_captured h (h.held i (hcontext i rfl)) k)

/-- What the loop puts in the place of `$k`. -/
def listed (list : List Bytes) (n k : Nat) : Bytes := if k < n then cstr (list.getD k []) else []

theorem expand_special {capture condition : Nat → Bytes} (h : c = chr '$' ∨ c = chr '%') (d : Byte) (rest : Bytes) :
    expand capture condition (c :: d :: rest) =
      (if lightIsdigit d then
        (if c = chr '$' then capture (d.toNat - (chr '0').toNat) else condition (d.toNat - (chr '0').toNat))
      else if c = d then [c] else [c, d]) ++ expand capture condition rest := by
  unfold expand
  rw [pieces, if_pos h]
  by_cases hd : lightIsdigit d = true
  · rw [if_pos hd, if_pos hd, List.flatMap_cons]
    by_cases hc : c = chr '$'
    · rw [if_pos hc, if_pos hc]
      rfl
    · rw [if_neg hc, if_neg hc]
      rfl
  · rw [if_neg hd, if_neg hd]
    by_cases hcd : c = d
    · rw [if_pos hcd, if_pos hcd]
      rfl
    · rw [if_neg hcd, if_neg hcd]
      rfl

theorem expand_plain {capture condition : Nat → Bytes} (h : ¬(c = chr '$' ∨ c = chr '%')) (d : Byte) (rest : Bytes) :
    expand capture condition (c :: d :: rest) = c :: expand capture condition (d :: rest) := by
  unfold expand
  rw [pieces, if_neg h]
  rfl

theorem replaced_eq (c d : Byte) : replaced con context list n c d =
    if lightIsdigit d then
      (if c = chr '$' then listed list n (d.toNat - (chr '0').toNat)
        else conditionCapture con context (d.toNat - (chr '0').toNat))
    else if c = d then [c] else [c, d] := by
  unfold replaced conditionCapture listed
  cases lightIsdigit d with
  | false => rfl
  | true =>
    cases context with
    | none => rfl
    | some i => rfl

/-- **The loop copies the pending text and then makes the pieces.** -/
theorem substitute_eq (hrest : pattern.drop k = rest) (hstart : start ≤ k) :
    substitute con context list n pattern rest k start out =
      out ++ (pattern.drop start).take (k - start) ++ expand (listed list n) (conditionCapture con context) rest := by
  fun_induction substitute con context list n pattern rest k start out with
  | case1 c d rest k start out hspecial out' ih =>
    have hdrop : pattern.drop (k + 2) = rest := by rw [← List.drop_drop, hrest]; rfl
    rw [ih hdrop (Nat.le_refl _), Nat.sub_self, List.take_zero, List.append_nil, expand_special hspecial, replaced_eq,
      List.append_assoc]
  | case2 c d rest k start out hplain ih =>
    have hdrop : pattern.drop (k + 1) = d :: rest := by rw [← List.drop_drop, hrest]; rfl
    have hc : (pattern.drop start)[k - start]? = some c := by
      rw [List.getElem?_drop, Nat.add_sub_cancel' hstart, ← List.head?_drop, hrest]
      rfl
    rw [ih hdrop (by omega), expand_plain hplain, Nat.sub_add_comm hstart, List.take_add_one, hc]
    simp
  | case3 rest k start out hshort =>
    have hpending : (pattern.drop start).drop (k - start) = rest := by
      rw [List.drop_drop, Nat.add_sub_cancel' hstart, hrest]
    have hrest' : expand (listed list n) (conditionCapture con context) rest = rest := by
      rcases rest with _ | ⟨c, _ | ⟨d, rest⟩⟩
      · rfl
      · rfl
      · exact absurd rfl (hshort c d rest)
    conv_lhs => rw [← List.take_append_drop (k - start) (pattern.drop start), hpending]
    rw [hrest', List.append_assoc]

theorem substitute_expand (con : Config.Con) (context : Option Nat) (list : List Bytes) (n : Nat) (pattern : Bytes) :
    substitute con context list n pattern pattern 0 0 [] =
      expand (listed list n) (conditionCapture con context) pattern := by
  rw [substitute_eq List.drop_zero (Nat.le_refl 0)]
  simp

/-! ## Every capture -/

/-- What the two modules put in the place of `$k`. -/
def given (m : Match) (uri : Bytes) : Nat → Bytes :=
  listed (Match.substringList uri (m.vector slots) (m.returned slots)) (m.returned slots)

theorem given_of_fits (h : m.count ≤ slots) (k : Nat) : given m uri k = cstr (m.capture uri k) := by
  have hreturned : m.returned slots = m.count := if_pos h
  unfold given listed
  rw [hreturned]
  by_cases hk : k < m.count
  · rw [if_pos hk, List.getD_eq_getElem?_getD, Match.substring_eq hk h]
    rfl
  · rw [if_neg hk, Match.capture_of_count_le (Nat.le_of_not_lt hk)]
    rfl

theorem given_of_not_fits (h : ¬ m.count ≤ slots) (k : Nat) : given m uri k = [] := by
  have hreturned : m.returned slots = 0 := if_neg h
  unfold given listed
  rw [hreturned, if_neg (Nat.not_lt_zero k)]

theorem length_given_le (m : Match) (uri : Bytes) (k : Nat) : (given m uri k).length ≤ (m.capture uri k).length := by
  by_cases h : m.count ≤ slots
  · rw [given_of_fits h]
    exact (List.takeWhile_sublist _).length_le
  · rw [given_of_not_fits h]
    exact Nat.zero_le _

/-- **Capture `k` is put in the place of `$k`** unless there are too many groups, or the C string ends before. -/
theorem given_eq_iff : given m uri k = m.capture uri k ↔ m.capture uri k = [] ∨
    (m.count ≤ slots ∧ (0 : Byte) ∉ m.capture uri k) := by
  by_cases h : m.count ≤ slots
  · rw [given_of_fits h, cstr_eq_iff]
    constructor
    · exact fun hnul => Or.inr ⟨h, hnul⟩
    · rintro (hnil | ⟨-, hnul⟩)
      · rw [hnil]
        exact List.not_mem_nil
      · exact hnul
  · rw [given_of_not_fits h, eq_comm]
    exact ⟨Or.inl, fun hor => hor.resolve_right fun hfits => h hfits.1⟩

theorem expand_given_iff (condition : Nat → Bytes) (pattern : Bytes) :
    expand (given m uri) condition pattern = expand (m.capture uri) condition pattern ↔
      ∀ k, Piece.capture k ∈ pieces pattern → m.capture uri k = [] ∨
        (m.count ≤ slots ∧ (0 : Byte) ∉ m.capture uri k) := by
  unfold expand
  rw [flatMap_eq_iff]
  · constructor
    · exact fun h k hk => Iff.mp given_eq_iff (h _ hk)
    · intro h x hx
      cases x with
      | literal c => rfl
      | capture k => exact Iff.mpr given_eq_iff (h k hx)
      | condition k => rfl
  · intro x _
    cases x with
    | literal c => exact Nat.le_refl _
    | capture k => exact length_given_le m uri k
    | condition k => exact Nat.le_refl _

/-! ## The rules -/

/-- The rules are looked at: none has been final in this request, and there was no loop. -/
def RewriteCon.Active (c : RewriteCon) : Prop := ∀ hctx, c.ctx = some hctx → hctx.loops ≤ 100 ∧ hctx.finished = false

def target (con : Config.Con) (context : Option Nat) (m : Match) (uri pattern : Bytes) : Bytes :=
  expand (given m uri) (conditionCapture con context) pattern

theorem pcreExec_found (m : Match) : pcreExec (.found m) = ((m.returned slots : Int), m.vector slots) := rfl

section Loop

variable {search : ρ → Bytes → Search} {c : RewriteCon} {kvb : List (RewriteRule ρ)} {rule : RewriteRule ρ}

theorem rewriteLoop_noMatch (h : search rule.key c.uri = .noMatch) :
    rewriteLoop search con context c (rule :: kvb) = rewriteLoop search con context c kvb := by
  rw [rewriteLoop, h]
  rfl

theorem rewriteLoop_failed (h : search rule.key c.uri = .failed n) :
    rewriteLoop search con context c (rule :: kvb) = (.error, c) := by
  have hneg : (-2 : Int) - n < 0 := by omega
  have hne : ((-2 : Int) - n = -1) = False := eq_false (by omega)
  rw [rewriteLoop, h]
  simp only [pcreExec, hneg, ne_eq, hne, not_false_eq_true, if_true]

theorem rewriteLoop_found (h : search rule.key c.uri = .found m) :
    rewriteLoop search con context c (rule :: kvb) =
      if rule.value.length = 0 then (.goOn, c)
      else (.comeback,
        { ctx := some (if rule.once then { c.ctx.getD handlerCtxInit with finished := true }
            else c.ctx.getD handlerCtxInit)
          uri := target con context m c.uri rule.value }) := by
  have hn : ¬((m.returned slots : Int) < 0) := by omega
  rw [rewriteLoop, h, pcreExec_found]
  simp only [hn, if_false, Int.toNat_natCast, substitute_expand]
  rfl

theorem rewriteLoop_first (h : FirstMatch search c.uri RewriteRule.key kvb rule m) :
    rewriteLoop search con context c kvb =
      if rule.value.length = 0 then (.goOn, c)
      else (.comeback,
        { ctx := some (if rule.once then { c.ctx.getD handlerCtxInit with finished := true }
            else c.ctx.getD handlerCtxInit)
          uri := target con context m c.uri rule.value }) := by
  obtain ⟨before, after, rfl, hbefore, hmatch⟩ := h
  induction before with
  | nil => exact rewriteLoop_found hmatch
  | cons r before ih =>
    rw [List.forall_mem_cons] at hbefore
    rw [List.cons_append, rewriteLoop_noMatch hbefore.1]
    exact ih hbefore.2

end Loop

theorem processRewriteRules_active {c : RewriteCon} (h : c.Active) (search : ρ → Bytes → Search) (con : Config.Con)
    (context : Option Nat) (kvb : List (RewriteRule ρ)) : ∃ c', c'.uri = c.uri ∧
      processRewriteRules search con context c kvb = rewriteLoop search con context c' kvb := by
  unfold processRewriteRules
  cases hctx : c.ctx with
  | none => exact ⟨c, rfl, rfl⟩
  | some hctx' =>
    obtain ⟨hloops, hfinished⟩ := h hctx' hctx
    refine ⟨{ c with ctx := some { hctx' with loops := hctx'.loops + 1 } }, rfl, ?_⟩
    simp only
    rw [if_neg (by omega), hfinished, if_neg (by simp)]

theorem modRedirectUriHandler_first {search : ρ → Bytes → Search} {conf : RedirectConf ρ} {kv : PcreKeyvalue ρ}
    (h : FirstMatch search uri PcreKeyvalue.key conf.redirect kv m) :
    modRedirectUriHandler search con conf uri =
      if kv.value.length = 0 then (.goOn, none)
      else (.finished, some
        { location := target con conf.context m uri kv.value
          httpStatus := if conf.redirectCode > 99 ∧ conf.redirectCode < 1000 then conf.redirectCode else 301 }) := by
  obtain ⟨before, after, heq, hbefore, hmatch⟩ := h
  unfold modRedirectUriHandler
  rw [heq]
  clear heq
  induction before with
  | nil =>
    have hn : ¬((m.returned slots : Int) < 0) := by omega
    rw [List.nil_append, modRedirectUriHandler.go, hmatch, pcreExec_found]
    simp only [hn, if_false, Int.toNat_natCast, substitute_expand]
    rfl
  | cons r before ih =>
    rw [List.forall_mem_cons] at hbefore
    rw [List.cons_append, modRedirectUriHandler.go, hbefore.1]
    exact ih hbefore.2

/-- **The replacement is the reference expansion exactly if every `$k` in it names a capture that is reported whole**,
after every run of the conditions whose steps meet their conditions. Both modules make the same text. -/
theorem substitution_iff {env : Config.Env} {t : Config.Tree} {f : Config.Fields} {ops : List Config.Op}
    {search : ρ → Bytes → Search} {c : RewriteCon} {kvb : List (RewriteRule ρ)} {rule : RewriteRule ρ}
    {kv : PcreKeyvalue ρ} (conf : RedirectConf ρ)
    (hok : Run.Meets (Config.condStep env t) (Config.Kept env t) (Config.Con.init f) ops)
    (hrun : Run.run (Config.condStep env t) (Config.Con.init f) ops = some con)
    (hcontext : ∀ i, conf.context = some i → (con.caches i).result = .true) (hactive : c.Active)
    (hrewrite : FirstMatch search c.uri RewriteRule.key kvb rule m)
    (hredirect : FirstMatch search c.uri PcreKeyvalue.key conf.redirect kv m) (hvalue : kv.value = rule.value) :
    (rule.value = [] → (processRewriteRules search con conf.context c kvb).1 = .goOn ∧
      (processRewriteRules search con conf.context c kvb).2.uri = c.uri ∧
      modRedirectUriHandler search con conf c.uri = (.goOn, none)) ∧
    (rule.value ≠ [] → ∃ c' r, processRewriteRules search con conf.context c kvb = (.comeback, c') ∧
      modRedirectUriHandler search con conf c.uri = (.finished, some r) ∧ r.location = c'.uri ∧
      (c'.uri = expand (m.capture c.uri) (contextCapture env t con.fields conf.context) rule.value ↔
        ∀ k, Piece.capture k ∈ pieces rule.value → m.capture c.uri k = [] ∨
          (m.count ≤ slots ∧ (0 : Byte) ∉ m.capture c.uri k))) := by
  obtain ⟨c₁, huri, hprocess⟩ := processRewriteRules_active hactive search con conf.context kvb
  rw [← huri] at hrewrite
  rw [hprocess, rewriteLoop_first hrewrite, modRedirectUriHandler_first hredirect, hvalue]
  constructor
  · intro hnil
    rw [hnil]
    exact ⟨rfl, huri, rfl⟩
  · intro hne
    have hlen : ¬ rule.value.length = 0 := fun h => hne (List.length_eq_zero_iff.mp h)
    rw [if_neg hlen, if_neg hlen]
    refine ⟨_, _, rfl, rfl, ?_, ?_⟩
    · rw [huri]
    · rw [← conditionCapture_eq (Config.run_agrees hok hrun) hcontext]
      simp only [huri]
      exact expand_given_iff _ _

/-! ## Rules with one group and with ten -/

/-- `^/(.)` or `^/(.)(.)(.)(.)(.)(.)(.)(.)(.)(.)`, for URIs that match. -/
def sampleMatch (groups : Nat) : Match := ⟨(0, groups + 1), (List.range groups).map fun k => some (k + 1, k + 2)⟩

def sampleSearch (groups : Nat) (_ : Bytes) : Search := .found (sampleMatch groups)

/-- `url.rewrite-once` with one rule, in the condition on the host. -/
def sampleRule (groups : Nat) : RewriteRule Nat := ⟨groups, ascii "/x$1%1", true⟩

/-- The same rule in `url.redirect`. -/
def sampleRedirect (groups : Nat) : RedirectConf Nat := ⟨[⟨groups, ascii "/x$1%1"⟩], some 2, 301⟩

def sampleCon : RewriteCon := ⟨none, ascii "/abcdefghij"⟩

/-- The conditions of its connection have been checked. -/
def sampleCond : Option Config.Con :=
  Run.run (Config.condStep Config.sampleEnv Config.sampleTree) (Config.Con.init Config.sampleFields) Config.checkedOps

/-- What the text should be. -/
def sampleExpansion (con : Config.Con) (groups : Nat) : Bytes :=
  expand ((sampleMatch groups).capture sampleCon.uri)
    (contextCapture Config.sampleEnv Config.sampleTree con.fields (some 2)) (sampleRule groups).value

theorem sample_firstMatch {α : Type} (key : α → Nat) (rule : α) :
    FirstMatch sampleSearch sampleCon.uri key [rule] rule (sampleMatch (key rule)) :=
  ⟨[], [], rfl, by simp, rfl⟩

/-- One group, on the host `y`: `/abcdefghij` becomes `/xay`. -/
theorem one_group_substituted : ∃ con c' r, sampleCond = some con ∧
    processRewriteRules sampleSearch con (some 2) sampleCon [sampleRule 1] = (.comeback, c') ∧
      modRedirectUriHandler sampleSearch con (sampleRedirect 1) sampleCon.uri = (.finished, some r) ∧
      r.location = ascii "/xay" ∧ c'.uri = ascii "/xay" := by
  have hactive : sampleCon.Active := by simp [RewriteCon.Active, sampleCon]
  have hcontext : ∀ con, sampleCond = some con → ∀ i, (sampleRedirect 1).context = some i →
      (con.caches i).result = .true := by
    rintro con hcon i hi
    cases hcon
    cases hi
    decide
  obtain ⟨con, hrun⟩ : ∃ con, sampleCond = some con := ⟨_, rfl⟩
  obtain ⟨c', r, hrewrite, hredirect, hsame, hiff⟩ := (substitution_iff (sampleRedirect 1) Config.checkedOps_meets hrun
    (hcontext con hrun) hactive (sample_firstMatch RewriteRule.key (sampleRule 1))
    (sample_firstMatch PcreKeyvalue.key ⟨1, ascii "/x$1%1"⟩) rfl).2 (by decide)
  have huri : c'.uri = ascii "/xay" := by
    rw [hiff.mpr]
    · cases hrun
      decide
    · intro k hk
      obtain rfl : k = 1 := by
        simpa using (show Piece.capture k ∈ [.literal _, .literal _, .capture 1, .condition 1] from hk)
      decide
  exact ⟨con, c', r, hrun, hrewrite, hredirect, hsame.trans huri, huri⟩

/-- Ten groups: `/abcdefghij` becomes `/xy`, not `/xay`. -/
theorem ten_groups_wrong : ∃ con, sampleCond = some con ∧
    (processRewriteRules sampleSearch con (some 2) sampleCon [sampleRule 10]).2.uri ≠ sampleExpansion con 10 ∧
      (processRewriteRules sampleSearch con (some 2) sampleCon [sampleRule 10]).2.uri = ascii "/xy" ∧
      (modRedirectUriHandler sampleSearch con (sampleRedirect 10) sampleCon.uri).2.map Redirect.location =
        some (ascii "/xy") ∧ sampleExpansion con 10 = ascii "/xay" := by
  refine ⟨_, rfl, ?_⟩
  decide

end Lighttpd.Rewrite
