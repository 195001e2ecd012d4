import Lighttpd.Backend.Env
import Lighttpd.Base.Buffer
import Lighttpd.Base.Crc32
import Lighttpd.Lib.Candidates

/-!
# Which backend gets a request (`mod_proxy.c`)

`mod_proxy_check_extension` chooses one of the hosts of an extension: by a hash of the request, by the number of the
connections, or in turn. A host whose connection fails is disabled for a while.

- `hash_eq`, `fair_eq`, `roundRobin_spec`: what the three searches find;
- `hash_toggle`: with the hash, a host that is disabled or enabled does not move the requests of the others;
- `balanced`: what holds of one choice.
-/

namespace Lighttpd.Proxy
open Backend Candidates

/-! ## The source -/

structure DataProxy where
  host : Buffer
  isDisabled : Bool
  usage : Int
  lastUsedNdx : Int
deriving DecidableEq

/-- `proxy_balance_t`. -/
inductive Balance
  | unset
  | fair
  | hash
  | rr
deriving DecidableEq

def ulongMax : Nat := 2 ^ 64 - 1

def intMax : Int := 2 ^ 31 - 1

/-- What a host is elected by. The sum is one of `uint32_t`. -/
def curMax (path authority : Bytes) (host : DataProxy) : Nat :=
  (generateCrc32c path + generateCrc32c host.host.str + generateCrc32c authority).toNat

/-- The loop of `PROXY_BALANCE_HASH`; `lastMax` and `ndx` are its variables. -/
def hashLoop (path authority : Bytes) : Nat → Nat → Option Nat → List DataProxy → Option Nat
  | _, _, ndx, [] => ndx
  | k, lastMax, ndx, host :: rest =>
    if host.isDisabled then hashLoop path authority (k + 1) lastMax ndx rest
    else if lastMax = ulongMax ∨ curMax path authority host > lastMax then
      hashLoop path authority (k + 1) (curMax path authority host) (some k) rest
    else hashLoop path authority (k + 1) lastMax ndx rest

/-- The loop of `PROXY_BALANCE_FAIR`; `maxUsage` and `ndx` are its variables. -/
def fairLoop : Nat → Int → Option Nat → List DataProxy → Option Nat
  | _, _, ndx, [] => ndx
  | k, maxUsage, ndx, host :: rest =>
    if host.isDisabled then fairLoop (k + 1) maxUsage ndx rest
    else if host.usage < maxUsage then fairLoop (k + 1) host.usage (some k) rest
    else fairLoop (k + 1) maxUsage ndx rest

/-- The loops of `PROXY_BALANCE_RR`: `ndx` and `host`, which is left over from before, where the search stops. -/
def searchActive : Nat → DataProxy → List DataProxy → Nat × DataProxy
  | ndx, host, [] => (ndx, host)
  | ndx, _, host :: rest => if host.isDisabled then searchActive (ndx + 1) host rest else (ndx, host)

/-- `PROXY_BALANCE_RR`, for the hosts `first :: rest`. -/
def roundRobin (first : DataProxy) (rest : List DataProxy) : Option Nat :=
  let hosts := first :: rest
  let ndx := (first.lastUsedNdx + 1).toNat
  let (ndx, host) := searchActive ndx first (hosts.drop ndx)
  if ndx ≥ hosts.length then
    let (ndx, host) := searchActive 0 host (hosts.take (first.lastUsedNdx + 1).toNat)
    if host.isDisabled then none else some ndx
  else some ndx

/-- `ndx`, which is -1 without a server. -/
def ndxOf (o : Option Nat) : Int := o.elim (-1) fun n => n

/-- The choice of a host, and the index that is saved for the next round. -/
def elect (balance : Balance) (path authority : Bytes) : List DataProxy → Option Nat × List DataProxy
  | [] => (none, [])
  | [host] => (if host.isDisabled then none else some 0, [host])
  | first :: rest =>
    match balance with
    | .hash => (hashLoop path authority 0 ulongMax none (first :: rest), first :: rest)
    | .fair => (fairLoop 0 intMax none (first :: rest), first :: rest)
    | .rr =>
      let ndx := roundRobin first rest
      (ndx, { first with lastUsedNdx := ndxOf ndx } :: rest)
    | .unset => (none, first :: rest)

def assign (balance : Balance) (path authority : Bytes) (hosts : List DataProxy) : Option Nat × List DataProxy :=
  let (ndx, hosts) := elect balance path authority hosts
  (ndx, ndx.elim hosts fun n => hosts.modify n fun host => { host with usage := host.usage + 1 })

/-- An entry of `proxy.server`. -/
structure Extension where
  key : Buffer
  value : List DataProxy

/-- Whether the extension matches, and then `path_info_offset`. -/
def Extension.hit (fn : Bytes) (ext : Extension) : Option Nat :=
  let ctLen := ext.key.stringLength
  if ext.key.isEmpty || fn.length < ctLen then none
  else if ext.key.str.head? = some (chr '/') then
    if strncmpEqual fn ext.key.str ctLen then
      if fn.length > ctLen + 1 then
        match (cstr (fn.drop (ctLen + 1))).idxOf? (chr '/') with
        | some n => some (ctLen + 1 + n)
        | none => some 0
      else some 0
    else none
  else if strncmpEqual (fn.drop (fn.length - ctLen)) ext.key.str ctLen then some 0
  else none

/-- The connection. -/
structure Con where
  direct : Bool
  fileStarted : Bool
  uriPath : Bytes
  uriAuthority : Bytes

/-- How the handler ends: with `HANDLER_GO_ON`, with `HANDLER_ERROR`, with `HANDLER_FINISHED` and status 500, or with
`HANDLER_GO_ON` and a handler context for a host. -/
inductive Answer
  | goOn
  | error
  | finished
  | proxied (pathInfoOffset ndx : Nat)
deriving DecidableEq

/-- The first extension that matches; what is in front of it and behind it stays as it is. -/
def checkExtensions (balance : Balance) (con : Con) : List Extension → Answer × List Extension
  | [] => (.goOn, [])
  | ext :: exts =>
    match ext.hit con.uriPath with
    | some pathInfoOffset =>
      let (ndx, hosts) := assign balance con.uriPath con.uriAuthority ext.value
      (ndx.elim .finished (.proxied pathInfoOffset), { ext with value := hosts } :: exts)
    | none =>
      let (answer, exts) := checkExtensions balance con exts
      (answer, ext :: exts)

/-- **`mod_proxy_check_extension`**. -/
def modProxyCheckExtension (balance : Balance) (con : Con) (extensions : List Extension) : Answer × List Extension :=
  if !con.direct then (.goOn, extensions)
  else if con.fileStarted then (.goOn, extensions)
  else if con.uriPath = [] then (.error, extensions)
  else checkExtensions balance con extensions

/-! ## The searches -/

def enabled (host : DataProxy) : Bool := !host.isDisabled

/-- What the hosts are compared by with the hash. -/
def election (path authority : Bytes) (b : DataProxy × Nat) : Nat := curMax path authority b.1

theorem curMax_lt (path authority : Bytes) (host : DataProxy) : curMax path authority host < ulongMax := by
  have hlt := (generateCrc32c path + generateCrc32c host.host.str + generateCrc32c authority).toNat_lt
  unfold curMax ulongMax
  omega

/-- **The host with the greatest hash**, the first of several. -/
theorem hashLoop_eq (path authority : Bytes) (k : Nat) (best : Option (DataProxy × Nat)) (rest : List DataProxy) :
    hashLoop path authority k (best.elim ulongMax (election path authority)) (best.map Prod.snd) rest =
      ((candidates enabled k rest).foldl
        (List.argAux fun b c => election path authority c < election path authority b) best).map Prod.snd := by
  induction rest generalizing k best with
  | nil => rfl
  | cons host rest ih =>
    unfold hashLoop
    by_cases hoff : host.isDisabled = true
    · rw [if_pos hoff, candidates_cons_of_neg (by simp [enabled, hoff])]
      exact ih (k + 1) best
    · rw [if_neg hoff, candidates_cons_of_pos (by simp [enabled, hoff]), List.foldl_cons]
      cases best with
      | none => exact ih (k + 1) (some (host, k))
      | some b =>
        -- no hash is the `ULONG_MAX` of the first round
        have hround : (election path authority b = ulongMax ∨ curMax path authority host > election path authority b) ↔
            election path authority b < election path authority (host, k) :=
          or_iff_right (curMax_lt path authority b.1).ne
        by_cases hlt : election path authority b < election path authority (host, k)
        · rw [argAux_of_pos (r := fun b c => election path authority c < election path authority b) hlt]
          exact (if_pos (hround.mpr hlt)).trans (ih (k + 1) (some (host, k)))
        · rw [argAux_of_neg (r := fun b c => election path authority c < election path authority b) hlt]
          exact (if_neg (mt hround.mp hlt)).trans (ih (k + 1) (some b))

/-- What the hosts are compared by in fair balancing. -/
def usageOf (b : DataProxy × Nat) : Int := b.1.usage

/-- **The host with the fewest connections**, the first of several. -/
theorem fairLoop_eq (k : Nat) (best : Option (DataProxy × Nat)) (rest : List DataProxy)
    (hrest : ∀ host ∈ rest, host.usage < intMax) :
    fairLoop k (best.elim intMax usageOf) (best.map Prod.snd) rest =
      ((candidates enabled k rest).foldl (List.argAux fun b c => usageOf b < usageOf c) best).map Prod.snd := by
  induction rest generalizing k best with
  | nil => rfl
  | cons host rest ih =>
    obtain ⟨hhost, hrest⟩ := List.forall_mem_cons.mp hrest
    unfold fairLoop
    by_cases hoff : host.isDisabled = true
    · rw [if_pos hoff, candidates_cons_of_neg (by simp [enabled, hoff])]
      exact ih (k + 1) best hrest
    · rw [if_neg hoff, candidates_cons_of_pos (by simp [enabled, hoff]), List.foldl_cons]
      have hself := ih (k + 1) (some (host, k)) hrest
      cases best with
      | none => exact (if_pos hhost).trans hself
      | some b =>
        by_cases hlt : usageOf (host, k) < usageOf b
        · rw [argAux_of_pos (r := fun b c => usageOf b < usageOf c) hlt]
          exact (if_pos hlt).trans hself
        · rw [argAux_of_neg (r := fun b c => usageOf b < usageOf c) hlt]
          exact (if_neg hlt).trans (ih (k + 1) (some b) hrest)

/-- **Where the search for an enabled host stops**: at the first one, or at the end with the last host. -/
theorem searchActive_spec (ndx : Nat) (host : DataProxy) (hosts : List DataProxy) :
    ((∀ h ∈ hosts, ¬ enabled h = true) ∧ (searchActive ndx host hosts).1 = ndx + hosts.length ∧
      (searchActive ndx host hosts).2 = hosts.getLastD host) ∨
    ∃ i h, hosts[i]? = some h ∧ enabled h = true ∧ searchActive ndx host hosts = (ndx + i, h) ∧
      ∀ j < i, ∀ h', hosts[j]? = some h' → ¬ enabled h' = true := by
  induction hosts generalizing ndx host with
  | nil => exact .inl ⟨by simp, rfl, rfl⟩
  | cons first hosts ih =>
    unfold searchActive
    by_cases hoff : first.isDisabled = true
    · have hfirst : ¬ enabled first = true := by simp [enabled, hoff]
      rw [if_pos hoff]
      rcases ih (ndx + 1) first with ⟨hall, hndx, hhost⟩ | ⟨i, h, hi, hon, heq, hbefore⟩
      · refine .inl ⟨List.forall_mem_cons.mpr ⟨hfirst, hall⟩, ?_, ?_⟩
        · rw [hndx, List.length_cons]
          omega
        · rw [hhost, List.getLastD_cons]
      · refine .inr ⟨i + 1, h, hi, hon, ?_, ?_⟩
        · rw [heq, Nat.add_assoc, Nat.add_comm 1 i]
        · intro j hj h' hh'
          cases j with
          | zero =>
            cases hh'
            exact hfirst
          | succ j => exact hbefore j (by omega) h' hh'
    · rw [if_neg hoff]
      exact .inr ⟨0, first, rfl, by simp [enabled, hoff], rfl, fun j hj => absurd hj (Nat.not_lt_zero j)⟩

/-! ## In turn -/

/-- How many places behind the next one in turn a place is. -/
def turn (last : Int) (len n : Nat) : Int := (n - (last + 1)) % len

theorem turn_of_le {last : Int} {len n : Nat} (hlast : -1 ≤ last) (h : last + 1 ≤ n) (hn : n < len) :
    turn last len n = n - (last + 1) :=
  Int.emod_eq_of_lt (by omega) (by omega)

theorem turn_of_lt {last : Int} {len n : Nat} (hlast : last < len) (h : n < last + 1) :
    turn last len n = n - (last + 1) + len := by
  unfold turn
  rw [← Int.add_emod_right]
  exact Int.emod_eq_of_lt (by omega) (by omega)

/-- **The next enabled host in turn.** -/
def NextInTurn (last : Int) (hosts : List DataProxy) (n : Nat) : Prop :=
  ∀ m h, hosts[m]? = some h → enabled h = true → turn last hosts.length n ≤ turn last hosts.length m

/-- The choice is a host that is not disabled, and there is none only if all are. -/
def Elected (hosts : List DataProxy) (o : Option Nat) : Prop :=
  match o with
  | none => ∀ h ∈ hosts, ¬ enabled h = true
  | some n => ∃ h, hosts[n]? = some h ∧ enabled h = true

theorem getLastD_disabled {hosts : List DataProxy} (hne : hosts ≠ []) (h : ∀ h ∈ hosts, ¬ enabled h = true)
    (host : DataProxy) : (hosts.getLastD host).isDisabled = true := by
  rw [List.getLastD_eq_getLast?, List.getLast?_eq_some_getLast hne, Option.getD_some]
  simpa [enabled] using h _ (List.getLast_mem hne)

section Search

variable {hosts : List DataProxy} {last : Int} {start i : Nat} {h : DataProxy}

theorem nextInTurn_behind (hlast : -1 ≤ last) (hlt : last < hosts.length) (hstart : last + 1 = start)
    (hi : (hosts.drop start)[i]? = some h)
    (hbefore : ∀ j < i, ∀ h', (hosts.drop start)[j]? = some h' → ¬ enabled h' = true) :
    NextInTurn last hosts (start + i) := by
  intro m h' hm hon'
  rw [List.getElem?_drop] at hi
  rw [turn_of_le hlast (by omega) (List.getElem?_eq_some_iff.mp hi).1]
  by_cases hge : start ≤ m
  · have hlem : start + i ≤ m := by
      by_contra hltm
      refine hbefore (m - start) (by omega) h' ?_ hon'
      rw [List.getElem?_drop, Nat.add_sub_cancel' hge]
      exact hm
    rw [turn_of_le hlast (by omega) (List.getElem?_eq_some_iff.mp hm).1]
    omega
  · have hlti : start + i < hosts.length := (List.getElem?_eq_some_iff.mp hi).1
    rw [turn_of_lt hlt (by omega)]
    omega

/-- Where none is enabled behind the last one, the first enabled host is the next in turn. -/
theorem nextInTurn_wrapped (hlt : last < hosts.length) (hstart : last + 1 = start)
    (hdrop : ∀ h ∈ hosts.drop start, ¬ enabled h = true) (hi : i < start)
    (hbefore : ∀ j < i, ∀ h', (hosts.take start)[j]? = some h' → ¬ enabled h' = true) : NextInTurn last hosts i := by
  intro m h' hm hon'
  have hltm : m < start := by
    by_contra hge
    refine hdrop h' (List.mem_iff_getElem?.mpr ⟨m - start, ?_⟩) hon'
    rw [List.getElem?_drop, Nat.add_sub_cancel' (not_lt.mp hge)]
    exact hm
  have hlem : i ≤ m := by
    by_contra hltm'
    refine hbefore m (by omega) h' ?_ hon'
    rw [List.getElem?_take, if_pos hltm]
    exact hm
  rw [turn_of_lt hlt (by omega), turn_of_lt hlt (by omega)]
  omega

end Search

/-- **Round robin finds the next enabled host in turn.** -/
theorem roundRobin_spec {first : DataProxy} {rest : List DataProxy} (hlast : -1 ≤ first.lastUsedNdx)
    (hlt : first.lastUsedNdx < (first :: rest).length) :
    Elected (first :: rest) (roundRobin first rest) ∧
      ∀ n, roundRobin first rest = some n → NextInTurn first.lastUsedNdx (first :: rest) n := by
  unfold roundRobin
  dsimp only
  generalize hhosts : first :: rest = hosts at *
  have hne : hosts ≠ [] := by
    rw [← hhosts]
    exact List.cons_ne_nil first rest
  obtain ⟨start, hstart⟩ : ∃ start : Nat, first.lastUsedNdx + 1 = start := ⟨_, (Int.toNat_of_nonneg (by omega)).symm⟩
  have hle : start ≤ hosts.length := by omega
  rw [hstart, Int.toNat_natCast]
  rcases searchActive_spec start first (hosts.drop start) with ⟨hdrop, hndx, hhost⟩ | ⟨i, h, hi, hon, heq, hbefore⟩
  · -- no host is enabled behind the last one
    rw [List.length_drop] at hndx
    rw [if_pos (by omega), hhost]
    rcases searchActive_spec 0 ((hosts.drop start).getLastD first) (hosts.take start) with
      ⟨htake, hndx, hhost⟩ | ⟨i, h, hi, hon, heq, hbefore⟩
    · have hall : ∀ h ∈ hosts, ¬ enabled h = true := by
        rw [← List.take_append_drop start hosts, List.forall_mem_append]
        exact ⟨htake, hdrop⟩
      have hoff : ((hosts.take start).getLastD ((hosts.drop start).getLastD first)).isDisabled = true := by
        by_cases hzero : start = 0
        · rw [hzero, List.take_zero, List.drop_zero]
          exact getLastD_disabled hne hall first
        · exact getLastD_disabled (by simp [hzero, hne]) htake _
      rw [hhost, if_pos hoff]
      exact ⟨hall, by simp⟩
    · have hoff : ¬ h.isDisabled = true := by simpa [enabled] using hon
      rw [heq, if_neg hoff, Nat.zero_add]
      obtain ⟨hlti, hget⟩ : i < start ∧ hosts[i]? = some h := by
        rw [List.getElem?_take] at hi
        split at hi
        · rename_i hlti
          exact ⟨hlti, hi⟩
        · cases hi
      refine ⟨⟨h, hget, hon⟩, ?_⟩
      rintro n ⟨⟩
      exact nextInTurn_wrapped hlt hstart hdrop hlti hbefore
  · have hget : hosts[start + i]? = some h := by rwa [List.getElem?_drop] at hi
    have hlti : start + i < hosts.length := (List.getElem?_eq_some_iff.mp hget).1
    rw [heq, if_neg (by omega)]
    refine ⟨⟨h, hget, hon⟩, ?_⟩
    rintro n ⟨⟩
    exact nextInTurn_behind hlast hlt hstart hi hbefore

/-! ## The choice -/

variable {path authority : Bytes} {hosts : List DataProxy}

theorem elect_single (balance : Balance) (host : DataProxy) :
    (elect balance path authority [host]).1 = if host.isDisabled then none else some 0 := rfl

theorem candidates_single (host : DataProxy) :
    candidates enabled 0 [host] = if host.isDisabled then [] else [(host, 0)] := by
  unfold candidates enabled
  cases hoff : host.isDisabled <;> simp [hoff]

theorem elect_hash : (elect .hash path authority hosts).1 =
    ((candidates enabled 0 hosts).argmax (election path authority)).map Prod.snd := by
  match hosts with
  | [] => rfl
  | [host] =>
    rw [elect_single, candidates_single]
    split <;> rfl
  | first :: second :: rest => exact hashLoop_eq path authority 0 none (first :: second :: rest)

theorem elect_fair (hfds : ∀ host ∈ hosts, host.usage < intMax) : (elect .fair path authority hosts).1 =
    ((candidates enabled 0 hosts).argmin usageOf).map Prod.snd := by
  match hosts with
  | [] => rfl
  | [host] =>
    rw [elect_single, candidates_single]
    split <;> rfl
  | first :: second :: rest => exact fairLoop_eq 0 none (first :: second :: rest) hfds

/-- **With the hash, a host that is disabled or enabled does not move the requests of the others**, but to itself. -/
theorem hash_toggle {j : Nat} {h : DataProxy} (off : Bool) (hj : hosts[j]? = some h)
    (hne : (elect .hash path authority hosts).1 ≠ some j) :
    (elect .hash path authority (hosts.set j { h with isDisabled := off })).1 = (elect .hash path authority hosts).1 ∨
      off = false ∧ (elect .hash path authority (hosts.set j { h with isDisabled := off })).1 = some j := by
  rw [elect_hash] at hne ⊢
  rw [elect_hash]
  cases off with
  | true =>
    left
    rw [argmax_disable (by simp [enabled])]
    rintro ⟨a, n⟩ hmax rfl
    rw [hmax] at hne
    exact hne rfl
  | false =>
    by_cases hon : enabled h = true
    · left
      have hsame : { h with isDisabled := false } = h := by
        have hoff : h.isDisabled = false := by simpa [enabled] using hon
        rw [← hoff]
      obtain ⟨hlen, rfl⟩ := List.getElem?_eq_some_iff.mp hj
      rw [hsame, List.set_getElem_self hlen]
    · rcases argmax_enable (f := election path authority) (a := { h with isDisabled := false }) hj hon with heq | heq
      · exact .inl (congrArg (Option.map Prod.snd) heq)
      · exact .inr ⟨rfl, congrArg (Option.map Prod.snd) heq⟩

/-- **What holds of the choice.** It is a host that is not disabled, and there is none only if all are; round robin takes
the next one in turn behind the last one used; fair balancing takes one with the fewest connections; and with the hash, a
host that is not the chosen one, if it is disabled or enabled, leaves the choice as it is, or becomes the choice. -/
structure Balanced (balance : Balance) (last : Int) (hosts : List DataProxy) (path authority : Bytes) : Prop where
  elected : Elected hosts (elect balance path authority hosts).1
  rr : balance = .rr → ∀ n, (elect balance path authority hosts).1 = some n → NextInTurn last hosts n
  fair : balance = .fair → ∀ n h, (elect balance path authority hosts).1 = some n → hosts[n]? = some h →
    ∀ h' ∈ hosts, enabled h' = true → h.usage ≤ h'.usage
  hash : balance = .hash → ∀ j h off, hosts[j]? = some h → (elect balance path authority hosts).1 ≠ some j →
    (elect balance path authority (hosts.set j { h with isDisabled := off })).1 =
        (elect balance path authority hosts).1 ∨
      off = false ∧ (elect balance path authority (hosts.set j { h with isDisabled := off })).1 = some j

theorem elected_hash : Elected hosts (elect .hash path authority hosts).1 := by
  rw [elect_hash]
  cases hmax : (candidates enabled 0 hosts).argmax (election path authority) with
  | none => exact candidates_eq_nil_iff.mp (List.argmax_eq_none.mp hmax)
  | some b => exact ⟨b.1, mem_candidates.mp (List.argmax_mem hmax)⟩

theorem elected_fair (hfds : ∀ host ∈ hosts, host.usage < intMax) :
    Elected hosts (elect .fair path authority hosts).1 := by
  rw [elect_fair hfds]
  cases hmin : (candidates enabled 0 hosts).argmin usageOf with
  | none => exact candidates_eq_nil_iff.mp (List.argmin_eq_none.mp hmin)
  | some b => exact ⟨b.1, mem_candidates.mp (List.argmin_mem hmin)⟩

theorem fair_least (hfds : ∀ host ∈ hosts, host.usage < intMax) {n : Nat} {h : DataProxy}
    (hn : (elect .fair path authority hosts).1 = some n) (hh : hosts[n]? = some h) :
    ∀ h' ∈ hosts, enabled h' = true → h.usage ≤ h'.usage := by
  rw [elect_fair hfds] at hn
  obtain ⟨⟨a, n⟩, hmin, rfl⟩ := Option.map_eq_some_iff.mp hn
  obtain ⟨ha, -, hleast⟩ := argmin_candidates hmin
  cases hh.symm.trans ha
  intro h' hh' hon
  obtain ⟨m, hle⟩ := hleast h' hh' hon
  exact hle

/-- The place that is saved for the next round. -/
def saved (hosts : List DataProxy) : Option Int := hosts.head?.map DataProxy.lastUsedNdx

/-- What is saved is a place in the list, or -1. -/
def Saved (hosts : List DataProxy) (last : Int) : Prop :=
  hosts ≠ [] → saved hosts = some last ∧ -1 ≤ last ∧ last < hosts.length

theorem elect_rr {last : Int} (h : Saved hosts last) : Elected hosts (elect .rr path authority hosts).1 ∧
    ∀ n, (elect .rr path authority hosts).1 = some n → NextInTurn last hosts n := by
  match hosts with
  | [] => exact ⟨by simp [elect, Elected], fun n hn => by cases hn⟩
  | [host] =>
    rw [elect_single]
    cases hoff : host.isDisabled with
    | true => exact ⟨by simp [Elected, enabled, hoff], fun n hn => by cases hn⟩
    | false =>
      refine ⟨⟨host, rfl, by simp [enabled, hoff]⟩, ?_⟩
      rintro n ⟨⟩ m h' hm -
      have hzero : m = 0 := by
        have hlen := (List.getElem?_eq_some_iff.mp hm).1
        rw [List.length_singleton] at hlen
        omega
      rw [hzero]
  | first :: second :: rest =>
    obtain ⟨hsaved, hlast, hlt⟩ := h (by simp)
    cases hsaved
    exact roundRobin_spec hlast hlt

/-- **What holds of one choice.** -/
theorem balanced {balance : Balance} {last : Int} (hset : balance ≠ .unset) (hsaved : Saved hosts last)
    (hfds : ∀ host ∈ hosts, host.usage < intMax) : Balanced balance last hosts path authority := by
  constructor
  · cases balance with
    | unset => exact absurd rfl hset
    | fair => exact elected_fair hfds
    | hash => exact elected_hash
    | rr => exact (elect_rr hsaved).1
  · rintro rfl
    exact (elect_rr hsaved).2
  · rintro rfl n h
    exact fair_least hfds
  · rintro rfl j h off
    exact hash_toggle off

end Lighttpd.Proxy
