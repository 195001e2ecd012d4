import Lighttpd.Base.Base64
import Lighttpd.Base.Md5
import Lighttpd.Connection.StateMachine
import Lighttpd.Uri.Target

/-!
# Signed links (`mod_secdownload.c`)

A link to a file below `secdownload.document-root` carries a time and a message authentication code. The handler cuts
it out of the path by hand, compares the time with the clock and the code with the one that it computes.

- `verifyMac_iff`: what is compared is the code of the path behind it;
- `uriAnswer_admitted`: the links that are let in;
- `admits_fresh_iff`: when each of them is fresh.
-/

namespace Lighttpd.Secdownload

open Uri Base64 Md5

/-! ## `secdl_verify_mac` -/

inductive SecdlAlgorithm
  | invalid
  | md5
  | hmacSha1
  | hmacSha256
deriving DecidableEq, Repr

def SecdlAlgorithm.macLength : SecdlAlgorithm → Nat
  | .invalid => 0
  | .md5 => 32
  | .hmacSha1 => 27
  | .hmacSha256 => 43

structure PluginConfig where
  docRoot : Bytes
  secret : Bytes
  uriPrefix : Bytes
  algorithm : SecdlAlgorithm
  timeout : UInt32

/-- `HMAC()` of the crypto library, of the secret and the message; `none` if it fails, or if there is no library. -/
structure Hmac where
  sha1 : Bytes → Bytes → Option (Vector Byte 20)
  sha256 : Bytes → Bytes → Option (Vector Byte 32)

/-- The digest as it is written into an URL. `mac` is what `const_time_memeq` compares with it. -/
def verifyDigest (digest : Option Bytes) (macLen : Nat) (mac : Bytes) : Bool :=
  match digest with
  | none => false
  | some digest => liToBase64NoPadding macLen digest .url == some mac

def secdlVerifyMac (hmac : Hmac) (config : PluginConfig) (protectedPath mac : Bytes) (macLen : Nat) : Bool :=
  if macLen = 0 ∨ config.algorithm.macLength ≠ macLen then false
  else match config.algorithm with
    | .invalid => false
    | .md5 =>
      let tsStr := protectedPath.drop 1
      let relUri := tsStr.drop 8
      mac.take 32 == tohex (md5Of [config.secret, relUri, tsStr.take 8])
    | .hmacSha1 => verifyDigest ((hmac.sha1 config.secret protectedPath).map (·.toList)) 27 (mac.take 27)
    | .hmacSha256 => verifyDigest ((hmac.sha256 config.secret protectedPath).map (·.toList)) 43 (mac.take 43)

/-! ## `mod_secdownload_uri_handler` -/

def isKindLen (p : Byte → Bool) : Bytes → Nat → Bool
  | _, 0 => true
  | [], _ + 1 => false
  | c :: s, len + 1 => p c && isKindLen p s len

def isHex (c : Byte) : Bool :=
  (chr '0' ≤ c && c ≤ chr '9') || (chr 'a' ≤ c && c ≤ chr 'f') || (chr 'A' ≤ c && c ≤ chr 'F')

def isBase64 (c : Byte) : Bool :=
  (chr '0' ≤ c && c ≤ chr '9') || (chr 'a' ≤ c && c ≤ chr 'z') || (chr 'A' ≤ c && c ≤ chr 'Z') || c == chr '-' ||
    c == chr '_'

def isHexLen (s : Bytes) (len : Nat) : Bool := isKindLen isHex s len

def isBase64Len (s : Bytes) (len : Nat) : Bool := isKindLen isBase64 s len

/-- The time that the digits stand for. -/
def hexTime (s : Bytes) : Int := s.foldl (fun (ts : Int) c => ts * 2 ^ 4 + (hex2int c).toNat) 0

/-- The link is too old, or too far ahead of the clock. The difference is cast to `unsigned int`. -/
def timedOut (curTs ts : Int) (timeout : UInt32) : Bool :=
  (decide (ts < curTs) && decide (timeout < UInt32.ofInt (curTs - ts))) ||
    (decide (curTs < ts) && decide (timeout < UInt32.ofInt (ts - curTs)))

/-- What is read and written of a connection. `direct` is `mode == DIRECT`. -/
structure Con where
  direct : Bool
  uriPath : Buffer
  httpStatus : Nat
  physical : Physical

/-- What the checks come to: nothing for this plugin, an error status, or the path below the document root. -/
inductive Answer
  | goOn
  | finished (status : Nat)
  | admitted (relUri : Bytes)
deriving DecidableEq, Repr

/-- The checks on a path that has the prefix, from `macStr` on. -/
def linkAnswer (hmac : Hmac) (conf : PluginConfig) (curTs : Int) (macStr : Bytes) : Answer :=
  let macLen := conf.algorithm.macLength
  let protectedPath := macStr.drop macLen
  let tsStr := protectedPath.drop 1
  if !isBase64Len macStr macLen then .goOn
  else if protectedPath.head? ≠ some (chr '/') then .goOn
  else if !isHexLen tsStr 8 then .goOn
  else if (tsStr.drop 8).head? ≠ some (chr '/') then .goOn
  else if timedOut curTs (hexTime (tsStr.take 8)) conf.timeout then .finished 410
  else if !secdlVerifyMac hmac conf protectedPath macStr macLen then .finished 403
  else .admitted (tsStr.drop 8)

def uriAnswer (hmac : Hmac) (conf : PluginConfig) (curTs : Int) (con : Con) : Answer :=
  if !con.direct then .goOn
  else if con.uriPath.isEmpty then .goOn
  else if conf.uriPrefix = [] then .goOn
  else if conf.secret = [] then .finished 500
  else if conf.docRoot = [] then .finished 500
  else if conf.algorithm = .invalid then .finished 500
  -- `strncmp` with the prefix, which has no NUL
  else if !conf.uriPrefix.isPrefixOf (cstr con.uriPath.str) then .goOn
  else linkAnswer hmac conf curTs ((cstr con.uriPath.str).drop conf.uriPrefix.length)

def uriHandler (hmac : Hmac) (conf : PluginConfig) (curTs : Int) (con : Con) : HandlerT × Con :=
  match uriAnswer hmac conf curTs con with
  | .goOn => (.goOn, con)
  | .finished status => (.finished, { con with httpStatus := status })
  | .admitted relUri =>
    (.goOn, { con with physical := ⟨conf.docRoot, relUri, conf.docRoot, conf.docRoot ++ relUri⟩ })

/-! ## Links -/

/-- The code of a link with this time and this path. -/
def macOf (hmac : Hmac) (conf : PluginConfig) (ts relUri : Bytes) : Option Bytes :=
  match conf.algorithm with
  | .invalid => none
  | .md5 => some (tohex (md5 (conf.secret ++ relUri ++ ts)))
  | .hmacSha1 => (hmac.sha1 conf.secret (chr '/' :: (ts ++ relUri))).map fun d => encodeLoop .url d.toList
  | .hmacSha256 => (hmac.sha256 conf.secret (chr '/' :: (ts ++ relUri))).map fun d => encodeLoop .url d.toList

/-- **A signed link**: behind the prefix the code, the time in eight digits, and the path that it is for. -/
structure Link (hmac : Hmac) (conf : PluginConfig) (path mac ts relUri : Bytes) : Prop where
  path_eq : path = conf.uriPrefix ++ (mac ++ chr '/' :: (ts ++ relUri))
  mac_length : mac.length = conf.algorithm.macLength
  mac_base64 : ∀ c ∈ mac, isBase64 c
  ts_length : ts.length = 8
  ts_hex : ∀ c ∈ ts, isHex c
  rooted : relUri.head? = some (chr '/')
  signed : macOf hmac conf ts relUri = some mac

/-- The handler is there to look at links. -/
structure Active (conf : PluginConfig) (con : Con) : Prop where
  direct : con.direct = true
  uriPrefix : conf.uriPrefix ≠ []
  secret : conf.secret ≠ []
  docRoot : conf.docRoot ≠ []
  algorithm : conf.algorithm ≠ .invalid

theorem isKindLen_iff {p : Byte → Bool} {s : Bytes} {len : Nat} :
    isKindLen p s len = true ↔ len ≤ s.length ∧ ∀ c ∈ s.take len, p c = true := by
  induction len generalizing s with
  | zero => simp [isKindLen]
  | succ len ih =>
    cases s with
    | nil => simp [isKindLen]
    | cons c s => simp [isKindLen, ih, and_left_comm]

variable {hmac : Hmac} {conf : PluginConfig} {relUri mac : Bytes} {curTs : Int}

theorem verifyDigest_iff {n : Nat} {digest : Option (Vector Byte n)} {macLen : Nat}
    (h : requireSpace n ≤ macLen) : verifyDigest (digest.map (·.toList)) macLen mac = true ↔
      (digest.map fun d => encodeLoop .url d.toList) = some mac := by
  cases digest with
  | none => simp [verifyDigest]
  | some d => simp [verifyDigest, liToBase64NoPadding_eq, h]

/-- What is compared is the code of the time and the path that follow it. -/
theorem verifyMac_iff {ts behind : Bytes}
    (hmac_length : mac.length = conf.algorithm.macLength) (hts : ts.length = 8) (ha : conf.algorithm ≠ .invalid) :
    secdlVerifyMac hmac conf (chr '/' :: (ts ++ relUri)) (mac ++ behind) conf.algorithm.macLength = true ↔
      macOf hmac conf ts relUri = some mac := by
  have hlen : ¬ (conf.algorithm.macLength = 0 ∨ conf.algorithm.macLength ≠ conf.algorithm.macLength) := by
    cases h : conf.algorithm <;> simp_all [SecdlAlgorithm.macLength]
  unfold secdlVerifyMac macOf
  rw [if_neg hlen]
  cases h : conf.algorithm with
  | invalid => exact absurd h ha
  | md5 =>
    have hmac32 : mac.length = 32 := by rw [hmac_length, h]; rfl
    have hdrop : (ts ++ relUri).drop 8 = relUri := List.drop_left' hts
    have htake : (ts ++ relUri).take 8 = ts := List.take_left' hts
    have hmac : (mac ++ behind).take 32 = mac := List.take_left' hmac32
    have hflat : [conf.secret, relUri, ts].flatten = conf.secret ++ relUri ++ ts := by simp
    simp only [List.drop_one, List.tail_cons, hdrop, htake, hmac, md5Of_eq, hflat, beq_iff_eq, Option.some.injEq]
    exact eq_comm
  | hmacSha1 =>
    have hmac27 : mac.length = 27 := by rw [hmac_length, h]; rfl
    have hmac : (mac ++ behind).take 27 = mac := List.take_left' hmac27
    simp only [hmac]
    exact verifyDigest_iff (by decide)
  | hmacSha256 =>
    have hmac43 : mac.length = 43 := by rw [hmac_length, h]; rfl
    have hmac : (mac ++ behind).take 43 = mac := List.take_left' hmac43
    simp only [hmac]
    exact verifyDigest_iff (by decide)

theorem linkAnswer_cut {ts : Bytes}
    (ha : conf.algorithm ≠ .invalid) (hmac_length : mac.length = conf.algorithm.macLength)
    (hbase64 : ∀ c ∈ mac, isBase64 c) (hts : ts.length = 8) (hhex : ∀ c ∈ ts, isHex c)
    (hrel : relUri.head? = some (chr '/')) :
    linkAnswer hmac conf curTs (mac ++ chr '/' :: (ts ++ relUri)) =
      if timedOut curTs (hexTime ts) conf.timeout then .finished 410
      else if macOf hmac conf ts relUri = some mac then .admitted relUri else .finished 403 := by
  have hprotected : (mac ++ chr '/' :: (ts ++ relUri)).drop conf.algorithm.macLength = chr '/' :: (ts ++ relUri) :=
    List.drop_left' hmac_length
  have hdrop : (ts ++ relUri).drop 8 = relUri := List.drop_left' hts
  have htake : (ts ++ relUri).take 8 = ts := List.take_left' hts
  have hmacs : isBase64Len (mac ++ chr '/' :: (ts ++ relUri)) conf.algorithm.macLength = true := by
    refine Iff.mpr isKindLen_iff ⟨by simp [hmac_length], fun c hc => hbase64 c ?_⟩
    rwa [List.take_left' hmac_length] at hc
  have hhexs : isHexLen (ts ++ relUri) 8 = true := by
    refine Iff.mpr isKindLen_iff ⟨by simp [hts], fun c hc => hhex c ?_⟩
    rwa [htake] at hc
  have hverify : secdlVerifyMac hmac conf (chr '/' :: (ts ++ relUri)) (mac ++ chr '/' :: (ts ++ relUri))
      conf.algorithm.macLength = true ↔ macOf hmac conf ts relUri = some mac := verifyMac_iff hmac_length hts ha
  unfold linkAnswer
  simp only [hmacs, hprotected, List.drop_one, List.tail_cons, List.head?_cons, hhexs, hdrop, hrel, htake]
  by_cases hm : macOf hmac conf ts relUri = some mac
  · rw [hverify.mpr hm, if_pos hm]
    rfl
  · rw [Bool.eq_false_of_not_eq_true (mt hverify.mp hm), if_neg hm]
    rfl

theorem linkAnswer_shape {s : Bytes} (h : linkAnswer hmac conf curTs s = .admitted relUri) :
    ∃ mac ts, s = mac ++ chr '/' :: (ts ++ relUri) ∧ mac.length = conf.algorithm.macLength ∧ (∀ c ∈ mac, isBase64 c) ∧
      ts.length = 8 ∧ (∀ c ∈ ts, isHex c) ∧ relUri.head? = some (chr '/') := by
  unfold linkAnswer at h
  dsimp only at h
  generalize hm : s.drop conf.algorithm.macLength = protectedPath at h
  split_ifs at h with hmac hslash hhex hrel htime hverify
  rw [Bool.not_eq_true', Bool.not_eq_false] at hmac hhex
  obtain ⟨hle, hbase64⟩ := isKindLen_iff.mp hmac
  rw [not_not] at hslash hrel
  obtain ⟨tsStr, rfl⟩ := List.head?_eq_some_iff.mp hslash
  rw [List.drop_one, List.tail_cons] at *
  obtain ⟨hlt, hhex⟩ := isKindLen_iff.mp hhex
  cases h
  refine ⟨s.take conf.algorithm.macLength, tsStr.take 8, ?_, List.length_take_of_le hle, hbase64,
    List.length_take_of_le hlt, hhex, hrel⟩
  rw [List.take_append_drop, ← hm, List.take_append_drop]

/-- **The links that are let in**: those of the prefix that are signed and that are not timed out. -/
theorem uriAnswer_admitted {con : Con} : uriAnswer hmac conf curTs con = .admitted relUri ↔ Active conf con ∧
      ∃ mac ts, Link hmac conf (cstr con.uriPath.str) mac ts relUri ∧
        timedOut curTs (hexTime ts) conf.timeout = false := by
  constructor
  · intro h
    unfold uriAnswer at h
    split_ifs at h with hdirect hempty hprefix hsecret hroot halg hp
    rw [Bool.not_eq_true', Bool.not_eq_false, List.isPrefixOf_iff_prefix] at hp
    obtain ⟨s, hs⟩ := hp
    rw [← hs, List.drop_left] at h
    obtain ⟨mac, ts, rfl, hmac, hbase64, hts, hhex, hrel⟩ := linkAnswer_shape h
    rw [linkAnswer_cut halg hmac hbase64 hts hhex hrel] at h
    split_ifs at h with htime hsigned
    exact ⟨⟨by simpa using hdirect, hprefix, hsecret, hroot, halg⟩, mac, ts,
      ⟨hs.symm, hmac, hbase64, hts, hhex, hrel, hsigned⟩, by simpa using htime⟩
  · rintro ⟨ha, mac, ts, hl, htime⟩
    have hempty : con.uriPath.isEmpty = false := by
      rcases con.uriPath.used_eq with ⟨-, hstr⟩ | hused
      · have hpath := hl.path_eq
        rw [hstr] at hpath
        simp [cstr] at hpath
      · simp [Buffer.isEmpty, hused]
    have hp : conf.uriPrefix.isPrefixOf (cstr con.uriPath.str) = true := by
      rw [List.isPrefixOf_iff_prefix, hl.path_eq]
      exact List.prefix_append _ _
    unfold uriAnswer
    rw [hl.path_eq] at hp ⊢
    simp only [ha.direct, hempty, ha.uriPrefix, ha.secret, ha.docRoot, ha.algorithm, hp, List.drop_left]
    rw [linkAnswer_cut ha.algorithm hl.mac_length hl.mac_base64 hl.ts_length hl.ts_hex hl.rooted, htime, hl.signed]
    simp

theorem Link.unique {path ts mac' ts' relUri' : Bytes}
    (h : Link hmac conf path mac ts relUri) (h' : Link hmac conf path mac' ts' relUri') : ts = ts' ∧ relUri = relUri' := by
  have heq := List.append_cancel_left (h.path_eq.symm.trans h'.path_eq)
  obtain ⟨-, hbehind⟩ := List.append_inj heq (h.mac_length.trans h'.mac_length.symm)
  exact List.append_inj (List.cons.inj hbehind).2 (h.ts_length.trans h'.ts_length.symm)

/-! ## The age of a link -/

theorem timedOut_iff {ts : Int} {timeout : UInt32} :
    timedOut curTs ts timeout = true ↔ timeout.toNat < (curTs - ts).natAbs % 2 ^ 32 := by
  have hcast : ∀ n : Nat, (timeout < UInt32.ofInt n) ↔ timeout.toNat < n % 2 ^ 32 := by
    intro n
    have hn : ((n : Int) % 2 ^ 32).toNat = n % 2 ^ 32 := by omega
    rw [UInt32.lt_iff_toNat_lt, UInt32.ofInt, hn, UInt32.toNat_ofNat', Nat.mod_mod]
  unfold timedOut
  rcases lt_trichotomy curTs ts with hlt | rfl | hlt
  · have h : ts - curTs = ((curTs - ts).natAbs : Int) := by omega
    generalize (curTs - ts).natAbs = n at h ⊢
    simp [hlt, not_lt_of_gt hlt, h, hcast]
  · simp
  · have h : curTs - ts = ((curTs - ts).natAbs : Int) := by omega
    generalize (curTs - ts).natAbs = n at h ⊢
    simp [hlt, not_lt_of_gt hlt, h, hcast]

theorem timedOut_eq_false_iff {ts : Int} {timeout : UInt32} :
    timedOut curTs ts timeout = false ↔ (curTs - ts).natAbs % 2 ^ 32 ≤ timeout.toNat := by
  rw [← Bool.not_eq_true, timedOut_iff, not_lt]

/-- **Exactly the links that are fresh are let in, unless the age of one is off by 2³² seconds.** -/
theorem admits_fresh_iff (hmac : Hmac) (conf : PluginConfig) (curTs : Int) (con : Con) :
    (∀ relUri, uriAnswer hmac conf curTs con = .admitted relUri →
      uriHandler hmac conf curTs con =
        (.goOn, { con with physical := ⟨conf.docRoot, relUri, conf.docRoot, conf.docRoot ++ relUri⟩ }) ∧
      ∃ mac ts, Link hmac conf (cstr con.uriPath.str) mac ts relUri ∧
        (curTs - hexTime ts).natAbs ≤ conf.timeout.toNat) ↔
    (Active conf con → ∀ mac ts relUri, Link hmac conf (cstr con.uriPath.str) mac ts relUri →
      (curTs - hexTime ts).natAbs < 2 ^ 32 ∨ conf.timeout.toNat < (curTs - hexTime ts).natAbs % 2 ^ 32) := by
  have hlt : conf.timeout.toNat < 2 ^ 32 := conf.timeout.toNat_lt
  constructor
  · intro h ha mac ts relUri hl
    by_contra hno
    rw [not_or, not_lt, not_lt] at hno
    have hadmitted := uriAnswer_admitted.mpr ⟨ha, mac, ts, hl, Iff.mpr timedOut_eq_false_iff hno.2⟩
    obtain ⟨-, mac', ts', hl', hfresh⟩ := h relUri hadmitted
    rw [← (hl.unique hl').1] at hfresh
    omega
  · intro h relUri hadmitted
    obtain ⟨ha, mac, ts, hl, htime⟩ := uriAnswer_admitted.mp hadmitted
    have hmod := Iff.mp timedOut_eq_false_iff htime
    refine ⟨by simp only [uriHandler, hadmitted], mac, ts, hl, ?_⟩
    rcases h ha mac ts relUri hl with hsmall | hbig
    · rwa [Nat.mod_eq_of_lt hsmall] at hmod
    · omega

def noHmac : Hmac := ⟨fun _ _ => none, fun _ _ => none⟩

def sampleConf : PluginConfig := ⟨ascii "/srv", ascii "verysecret", ascii "/dl/", .md5, 60⟩

def samplePath : Bytes := ascii "/dl/fb28f8c82a585884753800d224dbaf02/57000000/f"

def sampleCon : Con := ⟨true, .ofString samplePath, 0, ⟨[], [], [], []⟩⟩

theorem sampleLink : Link noHmac sampleConf samplePath (ascii "fb28f8c82a585884753800d224dbaf02") (ascii "57000000") (ascii "/f") where
  path_eq := by decide
  mac_length := by decide
  mac_base64 := by decide +kernel
  ts_length := by decide
  ts_hex := by decide +kernel
  rooted := by decide
  signed := by decide +kernel

/-- A link of the year 2016 is let in again in 2152. -/
theorem admits_fresh_counterexample :
    ¬ ∀ relUri, uriAnswer noHmac sampleConf 0x157000000 sampleCon = .admitted relUri →
      ∃ mac ts, Link noHmac sampleConf (cstr sampleCon.uriPath.str) mac ts relUri ∧
        (0x157000000 - hexTime ts).natAbs ≤ sampleConf.timeout.toNat := by
  intro h
  have hcstr : cstr sampleCon.uriPath.str = samplePath := by decide
  have hactive : Active sampleConf sampleCon := ⟨rfl, by decide, by decide, by decide, by decide⟩
  have htime : timedOut 0x157000000 (hexTime (ascii "57000000")) 60 = false := by decide
  obtain ⟨mac, ts, hl, hfresh⟩ :=
    h (ascii "/f") (uriAnswer_admitted.mpr ⟨hactive, _, _, hcstr ▸ sampleLink, htime⟩)
  rw [hcstr] at hl
  rw [← (sampleLink.unique hl).1] at hfresh
  exact absurd hfresh (by decide)

end Lighttpd.Secdownload
