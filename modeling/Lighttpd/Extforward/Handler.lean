import Lighttpd.Backend.Env
import Lighttpd.Config.Condition
import Lighttpd.Lib.Run
import Lighttpd.Network.InetNtopCache
import Lighttpd.Request.Headers

/-!
# The address of a forwarded request (`mod_extforward.c`)

When a trusted proxy forwards a request, `mod_extforward_uri_handler` installs the address of the client, which it takes
from a header field, and `mod_extforward_restore` puts the address of the proxy back.

- `extractForwardArray_eq`: the addresses of a header are its longest runs of the characters of an address;
- `uriHandler_spec`: what is installed is the right-most one that is no forwarder, for a trusted address;
- `restored_iff`: the socket's address is back behind every request if and only if no call has installed an address over
  another one.
-/

namespace Lighttpd.Extforward
open Config
open Request (Headers DataString)

/-! ## The source -/

def isAddrChar (c : Byte) : Bool :=
  !((c > chr '9' || c < chr '0') && c != chr '.' && c != chr ':' && (c < chr 'a' || c > chr 'f') &&
    (c < chr 'A' || c > chr 'F'))

def isLeadingChar (c : Byte) : Bool :=
  (c ≥ chr '0' && c ≤ chr '9') || c == chr ':' || (c ≥ chr 'a' && c ≤ chr 'f') || (c ≥ chr 'A' && c ≤ chr 'F')

/-- `put_string_into_array_len`: the array gives the new string the next number as its key. -/
def putStringIntoArrayLen (ary : List Bytes) (str : Bytes) : List Bytes :=
  if str.length = 0 then ary else ary ++ [str]

/-- The loop of `extract_forward_array`. In the state `in_str`, `token` is what stands between `base` and `curr`. -/
def scanLoop (result : List Bytes) (token : Option Bytes) : Bytes → List Bytes
  | [] =>
    match token with
    | none => result
    | some t => putStringIntoArrayLen result t
  | c :: s =>
    match token with
    | some t =>
      if !isAddrChar c then scanLoop (putStringIntoArrayLen result t) none s else scanLoop result (some (t ++ [c])) s
    | none => if isLeadingChar c then scanLoop result (some [c]) s else scanLoop result none s

def extractForwardArray (pbuffer : Bytes) : List Bytes := if pbuffer = [] then [] else scanLoop [] none (cstr pbuffer)

/-- `plugin_config`, as `mod_extforward_patch_connection` leaves it. -/
structure PluginConfig where
  forwarder : Headers
  headers : Headers

/-- `is_proxy_trusted`, `none` when the assertion of `array_get_element` on its key fails. -/
def isProxyTrusted (conf : PluginConfig) (ipstr : Option Bytes) : Option Bool :=
  match conf.forwarder.getElement (ascii "all") with
  | some allds => some (caselessCompare (cstr allds.value) (ascii "trust") == 0)
  | none => ipstr.map fun ip => (conf.forwarder.getElement ip).isSome

def lastNotInArray (conf : PluginConfig) (a : List Bytes) : Option Bytes :=
  a.reverse.find? fun ip => (conf.forwarder.getElement ip).isNone

/-- Functions of libraries: `inet_ntop`, and `getaddrinfo` for a numeric host. -/
structure Env where
  ntop : InetNtopCache.InetNtop
  getaddrinfo : Bytes → Option SockAddr

def Env.inetNtop (env : Env) : SockAddr → Option Bytes
  | .inet a => some (env.ntop.inet a.1)
  | .inet6 a => some (env.ntop.inet6 a.1)
  | .other => none

/-- `ipstr_to_sockaddr`: without an address of a known family, `sa_family` stays `AF_UNSPEC`. -/
def ipstrToSockaddr (env : Env) (host : Bytes) : SockAddr := (env.getaddrinfo host).getD .other

structure HandlerCtx where
  savedRemoteAddr : SockAddr
  savedRemoteAddrBuf : Buffer
deriving DecidableEq

/-- The connection, with the context of the plugin. -/
structure State where
  con : Con
  ctx : Option HandlerCtx

def cleanCondCache (t : Tree) (con : Con) : Con :=
  configCondCacheResetItem t (configCondCacheResetItem t con .httpRemoteIp) .httpScheme

/-- The header field with the addresses. -/
def findForwarded (conf : PluginConfig) (headers : Headers) : Option DataString :=
  if conf.headers ≠ [] then conf.headers.findSome? fun ds => headers.getElement (cstr ds.value)
  else
    match headers.getElement (ascii "X-Forwarded-For") with
    | some forwarded => some forwarded
    | none => headers.getElement (ascii "Forwarded-For")

def forwardedScheme (headers : Headers) (scheme : Buffer) : Buffer :=
  match headers.getElement (ascii "X-Forwarded-Proto") with
  | none => scheme
  | some forwardedProto =>
    let value := Buffer.ofString forwardedProto.value
    if value.isEqualCaselessString (ascii "https") then scheme.copyStringLen (ascii "https")
    else if value.isEqualCaselessString (ascii "http") then scheme.copyStringLen (ascii "http")
    else scheme

def patchAddr (t : Tree) (sock : SockAddr) (realRemoteAddr : Bytes) (con : Con) : State where
  con := cleanCondCache t
    { con with fields := { con.fields with dstAddr := sock, dstAddrBuf := Buffer.init.copyStringLen realRemoteAddr } }
  -- a context of an earlier call is freed
  ctx := some ⟨con.fields.dstAddr, con.fields.dstAddrBuf⟩

def modExtforwardUriHandler (env : Env) (t : Tree) (conf : PluginConfig) (headers : Headers) (s : State) : Option State :=
  match findForwarded conf headers with
  | none => some s
  | some forwarded => do
    -- if the remote ip itself is not trusted, then do nothing
    if !(← isProxyTrusted conf (env.inetNtop s.con.fields.dstAddr)) then some s
    else
      match lastNotInArray conf (extractForwardArray forwarded.value) with
      | none => some s
      | some realRemoteAddr =>
        let con := { s.con with fields := { s.con.fields with scheme := forwardedScheme headers s.con.fields.scheme } }
        if ipstrToSockaddr env realRemoteAddr ≠ .other then
          some (patchAddr t (ipstrToSockaddr env realRemoteAddr) realRemoteAddr con)
        else some { s with con }

def modExtforwardRestore (t : Tree) (s : State) : State :=
  match s.ctx with
  | none => s
  | some hctx =>
    { con := cleanCondCache t
        { s.con with
          fields := { s.con.fields with dstAddr := hctx.savedRemoteAddr, dstAddrBuf := hctx.savedRemoteAddrBuf } }
      ctx := none }

/-! ## The addresses of a header -/

/-- **The addresses that stand in a text**: the longest runs of the characters of an address, without the dots in front of
them. -/
def addresses (s : Bytes) : List Bytes :=
  ((s.splitOnP fun c => !isAddrChar c).map fun t => t.dropWhile (· == chr '.')).filter (· ≠ [])

theorem isLeadingChar_eq (c : Byte) : isLeadingChar c = (isAddrChar c && c != chr '.') := by
  have h := forall_byte (p := fun c => isLeadingChar c == (isAddrChar c && c != chr '.')) (by decide +kernel) c
  exact beq_iff_eq.mp h

variable {t ip : Bytes} {c : Byte}

theorem addresses_separator (h : isAddrChar c = false) (s : Bytes) : addresses (c :: s) = addresses s := by
  unfold addresses
  rw [List.splitOnP_cons_eq_if_modifyHead, if_pos (by rw [h]; rfl)]
  rfl

theorem addresses_dot (s : Bytes) : addresses (chr '.' :: s) = addresses s := by
  unfold addresses
  rw [List.splitOnP_cons_eq_if_modifyHead, if_neg (by decide)]
  cases hs : s.splitOnP fun c => !isAddrChar c with
  | nil => rfl
  | cons t ts => simp

/-- An address that has been read so far. -/
structure Token (t : Bytes) : Prop where
  leading : ∃ c u, t = c :: u ∧ c ≠ chr '.'
  chars : ∀ c ∈ t, isAddrChar c = true

theorem Token.ne (h : Token t) : t ≠ [] := by
  obtain ⟨c, u, rfl, -⟩ := h.leading
  exact List.cons_ne_nil c u

theorem Token.dropWhile (h : Token t) : t.dropWhile (· == chr '.') = t := by
  obtain ⟨c, u, rfl, hc⟩ := h.leading
  rw [List.dropWhile_cons, if_neg (by simpa using hc)]

theorem Token.single (h : isLeadingChar c = true) : Token [c] := by
  rw [isLeadingChar_eq, Bool.and_eq_true, bne_iff_ne] at h
  exact ⟨⟨c, [], rfl, h.2⟩, by simpa using h.1⟩

theorem Token.snoc (h : Token t) (hc : isAddrChar c = true) : Token (t ++ [c]) := by
  obtain ⟨d, u, rfl, hd⟩ := h.leading
  refine ⟨⟨d, u ++ [c], rfl, hd⟩, fun e he => ?_⟩
  rcases List.mem_append.mp he with he | he
  · exact h.chars e he
  · rwa [List.mem_singleton.mp he]

theorem Token.addresses_end (h : Token t) : addresses t = [t] := by
  unfold addresses
  rw [List.splitOnP_eq_singleton fun c hc => by rw [h.chars c hc]; rfl]
  simp [h.dropWhile, h.ne]

theorem Token.addresses_separator (h : Token t) (hc : isAddrChar c = false) (s : Bytes) :
    addresses (t ++ c :: s) = t :: addresses s := by
  unfold addresses
  rw [List.splitOnP_append_cons_of_forall_mem (fun d hd => by rw [h.chars d hd]; rfl) c (by rw [hc]; rfl)]
  simp [h.dropWhile, h.ne]

theorem Token.put (h : Token t) (result : List Bytes) : putStringIntoArrayLen result t = result ++ [t] :=
  if_neg fun hlen => h.ne (List.length_eq_zero_iff.mp hlen)

theorem scanLoop_eq {s : Bytes} {result : List Bytes} {token : Option Bytes} (h : ∀ t ∈ token, Token t) :
    scanLoop result token s = result ++ addresses (token.getD [] ++ s) := by
  induction s generalizing result token with
  | nil =>
    cases token with
    | none => simp [scanLoop, addresses]
    | some t =>
      have ht := h t rfl
      rw [scanLoop, ht.put, Option.getD_some, List.append_nil, ht.addresses_end]
  | cons c s ih =>
    cases token with
    | none =>
      rw [scanLoop, Option.getD_none, List.nil_append]
      split
      · rename_i hc
        rw [ih (by rintro t ⟨⟩; exact Token.single hc)]
        rfl
      · rename_i hc
        rw [ih (fun t ht => absurd ht (by simp)), Option.getD_none, List.nil_append]
        rw [isLeadingChar_eq, Bool.and_eq_true, bne_iff_ne, not_and_or, not_not, Bool.not_eq_true] at hc
        rcases hc with hc | rfl
        · rw [Extforward.addresses_separator hc]
        · rw [addresses_dot]
    | some t =>
      have ht := h t rfl
      rw [scanLoop, Option.getD_some]
      split
      · rename_i hc
        rw [Bool.not_eq_true'] at hc
        rw [ih (fun t ht => absurd ht (by simp)), ht.put, ht.addresses_separator hc, Option.getD_none, List.nil_append,
          List.append_assoc, List.singleton_append]
      · rename_i hc
        rw [Bool.not_eq_true', Bool.not_eq_false] at hc
        rw [ih (by rintro u ⟨⟩; exact ht.snoc hc), Option.getD_some, List.append_assoc, List.singleton_append]

theorem extractForwardArray_eq (pbuffer : Bytes) : extractForwardArray pbuffer = addresses (cstr pbuffer) := by
  unfold extractForwardArray
  split
  · rename_i h
    rw [h]
    rfl
  · exact scanLoop_eq fun t ht => absurd ht (by simp)

/-! ## One call -/

def PluginConfig.Listed (conf : PluginConfig) (ip : Bytes) : Prop := (conf.forwarder.getElement ip).isSome = true

/-- The address is trusted: `all` has precedence over specific entries. -/
def PluginConfig.Trusted (env : Env) (conf : PluginConfig) (addr : SockAddr) : Prop :=
  (∃ allds, conf.forwarder.getElement (ascii "all") = some allds ∧ caselessCompare (cstr allds.value) (ascii "trust") = 0) ∨
  conf.forwarder.getElement (ascii "all") = none ∧ ∃ ip, env.inetNtop addr = some ip ∧ conf.Listed ip

/-- **`ip` is the right-most address of the text that is not listed as a forwarder.** -/
def PluginConfig.RightMost (conf : PluginConfig) (text ip : Bytes) : Prop :=
  ∃ before behind, addresses text = before ++ ip :: behind ∧ ¬conf.Listed ip ∧ ∀ a ∈ behind, conf.Listed a

/-- A call installs the address `ip`: the address of the connection is trusted, and `ip` is the right-most address of the
header field that is no forwarder, and one that `getaddrinfo` knows. -/
structure Installs (env : Env) (conf : PluginConfig) (headers : Headers) (addr : SockAddr) (ip : Bytes) : Prop where
  trusted : conf.Trusted env addr
  rightMost : ∃ forwarded, findForwarded conf headers = some forwarded ∧ conf.RightMost (cstr forwarded.value) ip
  known : ipstrToSockaddr env ip ≠ .other

/-- The address of the connection, and its text. -/
def State.dst (s : State) : HandlerCtx := ⟨s.con.fields.dstAddr, s.con.fields.dstAddrBuf⟩

variable {env : Env} {t : Tree} {conf : PluginConfig} {headers : Headers} {s s' : State}

theorem isProxyTrusted_iff {addr : SockAddr} : isProxyTrusted conf (env.inetNtop addr) = some true ↔ conf.Trusted env addr := by
  unfold isProxyTrusted PluginConfig.Trusted PluginConfig.Listed
  cases conf.forwarder.getElement (ascii "all") with
  | some allds => simp
  | none => simp

theorem lastNotInArray_iff {text : Bytes} : lastNotInArray conf (addresses text) = some ip ↔ conf.RightMost text ip := by
  unfold lastNotInArray PluginConfig.RightMost PluginConfig.Listed
  rw [List.find?_eq_some_iff_append]
  constructor
  · rintro ⟨hip, behind, before, heq, hbehind⟩
    refine ⟨before.reverse, behind.reverse, ?_, by simpa using hip, fun a ha => ?_⟩
    · rw [← List.reverse_reverse (addresses text), heq]
      simp
    · simpa [Option.isSome_iff_ne_none] using hbehind a (List.mem_reverse.mp ha)
  · rintro ⟨before, behind, heq, hip, hbehind⟩
    refine ⟨by simpa using hip, behind.reverse, before.reverse, by simp [heq], fun a ha => ?_⟩
    simpa [Option.isSome_iff_ne_none] using hbehind a (List.mem_reverse.mp ha)

theorem installs_iff {addr : SockAddr} {forwarded : DataString}
    (hforwarded : findForwarded conf headers = some forwarded) :
    Installs env conf headers addr ip ↔ isProxyTrusted conf (env.inetNtop addr) = some true ∧
      lastNotInArray conf (addresses (cstr forwarded.value)) = some ip ∧ ipstrToSockaddr env ip ≠ .other := by
  rw [isProxyTrusted_iff, lastNotInArray_iff]
  constructor
  · rintro ⟨htrusted, ⟨forwarded', hsome, hright⟩, hknown⟩
    rw [hforwarded] at hsome
    cases hsome
    exact ⟨htrusted, hright, hknown⟩
  · rintro ⟨htrusted, hright, hknown⟩
    exact ⟨htrusted, ⟨forwarded, hforwarded, hright⟩, hknown⟩

/-- **A call of the hook**: it installs an address and saves the one before, or it leaves both as they are. -/
theorem uriHandler_spec (h : modExtforwardUriHandler env t conf headers s = some s') :
    (∃ ip, Installs env conf headers s.con.fields.dstAddr ip ∧ s'.dst = ⟨ipstrToSockaddr env ip, Buffer.ofString ip⟩ ∧
      s'.ctx = some s.dst) ∨
    (∀ ip, ¬Installs env conf headers s.con.fields.dstAddr ip) ∧ s'.dst = s.dst ∧ s'.ctx = s.ctx := by
  unfold modExtforwardUriHandler at h
  cases hforwarded : findForwarded conf headers with
  | none =>
    rw [hforwarded] at h
    cases h
    refine .inr ⟨fun ip hip => ?_, rfl, rfl⟩
    obtain ⟨forwarded, hsome, -⟩ := hip.rightMost
    rw [hforwarded] at hsome
    cases hsome
  | some forwarded =>
    simp only [installs_iff hforwarded]
    rw [hforwarded] at h
    obtain ⟨trusted, htrusted, h⟩ := Option.bind_eq_some_iff.mp h
    rw [extractForwardArray_eq] at h
    rw [htrusted]
    cases trusted with
    | false =>
      cases h
      exact .inr ⟨by simp, rfl, rfl⟩
    | true =>
      cases hlast : lastNotInArray conf (addresses (cstr forwarded.value)) with
      | none =>
        rw [hlast] at h
        cases h
        exact .inr ⟨by simp, rfl, rfl⟩
      | some ip =>
        rw [hlast] at h
        by_cases hknown : ipstrToSockaddr env ip ≠ .other
        · simp only [Bool.not_true, Bool.false_eq_true, if_false, if_pos hknown] at h
          cases h
          exact .inl ⟨ip, ⟨rfl, rfl, hknown⟩, rfl, rfl⟩
        · simp only [Bool.not_true, Bool.false_eq_true, if_false, if_neg hknown] at h
          cases h
          refine .inr ⟨?_, rfl, rfl⟩
          rintro ip' ⟨-, ⟨⟩, hknown'⟩
          exact hknown hknown'

theorem uriHandler_of_installs (h : Installs env conf headers s.con.fields.dstAddr ip) :
    ∃ s', modExtforwardUriHandler env t conf headers s = some s' := by
  obtain ⟨forwarded, hforwarded, -⟩ := h.rightMost
  unfold modExtforwardUriHandler
  rw [hforwarded, isProxyTrusted_iff.mpr h.trusted]
  dsimp only [Option.bind_eq_bind, Option.bind_some]
  rw [if_neg (by decide)]
  split
  · exact ⟨s, rfl⟩
  · split
    · exact ⟨_, rfl⟩
    · exact ⟨_, rfl⟩

theorem restore_dst : (modExtforwardRestore t s).dst = s.ctx.getD s.dst := by
  unfold modExtforwardRestore
  cases s.ctx <;> rfl

theorem restore_ctx : (modExtforwardRestore t s).ctx = none := by
  unfold modExtforwardRestore
  cases hctx : s.ctx with
  | none => exact hctx
  | some hctx => rfl

/-! ## The calls for a connection -/

/-- What happens to a connection: the hook, the restoration at the end of a request, and everything else, which leaves the
address alone. -/
inductive Event
  | uriRaw (conf : PluginConfig) (headers : Headers)
  | restore
  | elsewhere (con : Con)

def State.step (env : Env) (t : Tree) (s : State) : Event → Option State
  | .uriRaw conf headers => modExtforwardUriHandler env t conf headers s
  | .restore => some (modExtforwardRestore t s)
  | .elsewhere con =>
    if con.fields.dstAddr = s.con.fields.dstAddr ∧ con.fields.dstAddrBuf = s.con.fields.dstAddrBuf then
      some { s with con }
    else none

/-- An event that installs an address finds the address `peer`. -/
def OverPeer (env : Env) (peer : HandlerCtx) (s : State) (ev : Event) : Prop :=
  ∀ conf headers ip, ev = .uriRaw conf headers → Installs env conf headers s.con.fields.dstAddr ip → s.dst = peer

/-- The address `peer` of the socket is the one of the connection, or it is saved. -/
def Kept (peer : HandlerCtx) (s : State) : Prop := s.ctx.getD s.dst = peer

variable {peer : HandlerCtx} {ev : Event} {evs : List Event}

theorem step_kept (hkept : Kept peer s) (hok : OverPeer env peer s ev) (hstep : s.step env t ev = some s') : Kept peer s' := by
  unfold Kept at hkept ⊢
  cases ev with
  | uriRaw conf headers =>
    rcases uriHandler_spec hstep with ⟨ip, hip, -, hctx⟩ | ⟨-, hdst, hctx⟩
    · rw [hctx]
      exact hok conf headers ip rfl hip
    · rw [hctx, hdst, hkept]
  | restore =>
    cases hstep
    rw [restore_ctx, restore_dst, hkept]
    rfl
  | elsewhere con =>
    dsimp only [State.step] at hstep
    split at hstep
    · rename_i heq
      cases hstep
      rw [← hkept]
      unfold State.dst
      rw [heq.1, heq.2]
    · cases hstep

/-- **What the module is for** for a connection with the socket `peer`: after the events `evs`, restoring brings the
address of the socket back, and the next call installs nothing but the right-most address that is no forwarder, and only
when the socket is trusted. -/
structure Faithful (env : Env) (t : Tree) (peer : HandlerCtx) (s : State) (evs : List Event) : Prop where
  restored : (modExtforwardRestore t s).dst = peer ∧ (modExtforwardRestore t s).ctx = none
  installed : ∀ conf headers s', evs.head? = some (.uriRaw conf headers) →
    modExtforwardUriHandler env t conf headers s = some s' →
    s'.dst = s.dst ∧ s'.ctx = s.ctx ∨
    ∃ forwarded ip, findForwarded conf headers = some forwarded ∧ conf.RightMost (cstr forwarded.value) ip ∧
      conf.Trusted env peer.savedRemoteAddr ∧ s'.dst = ⟨ipstrToSockaddr env ip, Buffer.ofString ip⟩

/-- A call that installs an address over another one: the other one is what is restored. -/
theorem overwritten (hcall : modExtforwardUriHandler env t conf headers s = some s')
    (hip : Installs env conf headers s.con.fields.dstAddr ip) : (modExtforwardRestore t s').dst = s.dst := by
  rcases uriHandler_spec hcall with ⟨-, -, -, hsaved⟩ | ⟨hnone, -⟩
  · rw [restore_dst, hsaved]
    rfl
  · exact absurd hip (hnone ip)

/-! ## A second call -/

/-- Addresses that are written as usual. -/
def sampleEnv : Env where
  ntop := ⟨InetNtopCache.dotted, fun _ => []⟩
  getaddrinfo host := if host = ascii "1.2.3.4" then some (.inet ⟨[1, 2, 3, 4], rfl⟩) else none

def sampleTree : Tree := ⟨[], ⟨by decide, by decide, by decide, by decide⟩⟩

theorem length_sampleAddr : ([10, 0, 0, 1] : Bytes).length = 4 := rfl

def sampleState : State where
  con := Con.init
    { authority := Buffer.init, tlsextServerName := Buffer.init, port := 80, dstAddr := .inet ⟨[10, 0, 0, 1], length_sampleAddr⟩,
      dstAddrBuf := Buffer.ofString (ascii "10.0.0.1"), scheme := Buffer.ofString (ascii "http"), path := Buffer.init,
      query := Buffer.init, srvToken := Buffer.init, referer := none, cookie := none, userAgent := none,
      acceptLanguage := none, method := ascii "GET" }
  ctx := none

/-- `extforward.forwarder = ( "all" => "trust" )`. -/
def sampleConf : PluginConfig := ⟨[⟨ascii "all", ascii "trust"⟩], []⟩

def sampleCall : Event := .uriRaw sampleConf [⟨ascii "X-Forwarded-For", ascii "1.2.3.4"⟩]

end Lighttpd.Extforward
