import Lighttpd.Auth.Password
import Lighttpd.Backend.Env
import Lighttpd.Base.Md5
import Lighttpd.Uri.Simplify

/-!
# Digest authentication (`http_auth.c`)

`http_auth_digest_check` looks for keywords in the field `Authorization`, wherever they stand, and computes the digest that
the response has to be.

- `scan_eq`: of several values of a keyword, the last one counts;
- `digest_sound`: what is the case when `1` is returned.
-/

namespace Lighttpd.Auth
open Md5 Uri

/-! ## The source: the keywords -/

inductive Keyword
  | username
  | realm
  | nonce
  | uri
  | algorithm
  | qop
  | cnonce
  | nc
  | response
deriving DecidableEq, Repr

def dkv : List (Keyword × Bytes) :=
  [(.username, ascii "username="), (.realm, ascii "realm="), (.nonce, ascii "nonce="), (.uri, ascii "uri="),
   (.algorithm, ascii "algorithm="), (.qop, ascii "qop="), (.cnonce, ascii "cnonce="), (.nc, ascii "nc="),
   (.response, ascii "response=")]

/-- What the pointers of `dkv` point to. -/
abbrev Fields := Keyword → Option Bytes

/-- A keyword at `c` with its value, and what the loop goes on with. -/
def takeField (c : Bytes) : Option (Keyword × Bytes × Bytes) :=
  (dkv.find? fun kv => kv.2.isPrefixOf c).map fun kv =>
    let v := c.drop kv.2.length
    if v.head? = some (chr '"') ∧ chr '"' ∈ v.tail then
      -- value with "..."
      (kv.1, v.tail.takeWhile (· ≠ chr '"'), (v.tail.dropWhile (· ≠ chr '"')).tail)
    else if chr ',' ∈ v then
      -- value without "...", terminated by ','
      (kv.1, v.takeWhile (· ≠ chr ','), (v.dropWhile (· ≠ chr ',')).tail)
    else
      -- value without "...", terminated by EOL
      (kv.1, v, [])

def scanLoop : Nat → Bytes → Fields → Fields
  | 0, _, fields => fields
  | fuel + 1, c, fields =>
    let c := c.dropWhile fun x => x == chr ' ' || x == chr '\t'
    if c = [] then fields
    else match takeField c with
      | some (k, v, rest) => scanLoop fuel rest (Function.update fields k (some v))
      | none => scanLoop fuel c.tail fields

def scan (realmStr : Bytes) : Fields := scanLoop realmStr.length realmStr fun _ => none

/-! ## The source: the check -/

/-- `strcasecmp(s, t) == 0`. -/
def sameLetters (s : Bytes) (t : String) : Bool := caselessCompare s (ascii t) == 0

/-- The fields when everything is transmitted. -/
structure Credentials where
  username : Bytes
  realm : Bytes
  nonce : Bytes
  uri : Bytes
  response : Bytes
  algorithm : Option Bytes
  qop : Option Bytes
  cnonce : Option Bytes
  nc : Option Bytes
deriving DecidableEq, Repr

def Credentials.session (cr : Credentials) : Bool := cr.algorithm.any (sameLetters · "md5-sess")

/-- Everything is transmitted, and `qop` is supported; `none` is `-1`. -/
def credentials (fields : Fields) : Option Credentials := do
  let username ← fields .username
  let realm ← fields .realm
  let nonce ← fields .nonce
  let uri ← fields .uri
  let response ← fields .response
  let cr : Credentials := ⟨username, realm, nonce, uri, response, fields .algorithm, fields .qop, fields .cnonce, fields .nc⟩
  if cr.qop.isSome ∧ (cr.nc.isNone ∨ cr.cnonce.isNone) then none
  else if cr.session ∧ cr.cnonce.isNone then none
  else if cr.qop.any (sameLetters · "auth-int") then none
  else some cr

/-- `password-string == HA1`. What stands behind the password in its buffer is read if it is too short. -/
def ha1 (conf : Conf) (cr : Credentials) (password : Buffer) (junk : Nat → Byte) : Bytes :=
  match conf.authBackend with
  | .plain => md5Of [cr.username, ascii ":", cr.realm, ascii ":", password.str]
  | _ =>
    let p := blockOf password junk
    (List.range 16).map fun i => hex2int (p.getD (i * 2) 0) <<< 4 ||| hex2int (p.getD (i * 2 + 1) 0)

/-- `a1`, after the step for `md5-sess`. -/
def sessionHash (cr : Credentials) (ha1 : Bytes) : Bytes :=
  if cr.session then md5Of [tohex ha1, ascii ":", cr.nonce, ascii ":", cr.cnonce.getD []] else ha1

/-- The request-target is the `uri`, or what is in front of a `?` of it. -/
def uriMatches (requestUri : Buffer) (uri : Bytes) : Bool :=
  (requestUri.used == uri.length + 1 && requestUri.str == uri) ||
  (decide (requestUri.stringLength < uri.length) && requestUri.str == uri.take requestUri.stringLength &&
    uri[requestUri.stringLength]? == some (chr '?'))

/-- The digest, with `a1` and the method. -/
def respHash (cr : Credentials) (a1 m : Bytes) : Bytes :=
  let ha2Hex := tohex (md5Of [m, ascii ":", cr.uri])
  tohex (md5Of ([a1, ascii ":", cr.nonce, ascii ":"] ++
    (if cr.qop.any (· ≠ []) then
      [cr.nc.getD [], ascii ":", cr.cnonce.getD [], ascii ":", cr.qop.getD [], ascii ":"] else []) ++
    [ha2Hex]))

/-- The time in front of a nonce, and how many digits it has. -/
def nonceTime (nonce : Bytes) : Int × Nat :=
  let digits := (nonce.take 8).takeWhile lightIsxdigit
  (digits.foldl (fun ts c => ts * 16 + (hex2int c).toNat) 0, digits.length)

/-- The nonce is stale: not of the last 10 minutes. -/
def isStale (curTs : Int) (nonce : Bytes) : Bool :=
  (nonceTime nonce).2 ≠ 8 || nonce[8]? ≠ some (chr ':') || curTs < (nonceTime nonce).1 ||
    600 < curTs - (nonceTime nonce).1

/-- `http_auth_digest_check`. `require` is the value of this field of `req`. -/
def httpAuthDigestCheck (curTs : Int) (httpMethod : Request.Method) (requestUri : Buffer) (conf : Conf) (files : Files)
    (require : Option Bytes) (realmStr : Bytes) (junk : Nat → Byte) : Int :=
  if conf.authBackend ≠ .htdigest ∧ conf.authBackend ≠ .plain then -1
  else match credentials (scan (cstr realmStr)) with
    | none => -1
    | some cr =>
      match httpAuthGetPassword conf files (.ofString cr.username) (.ofString cr.realm) .init with
      | none => 0
      | some password =>
        if ¬ uriMatches requestUri cr.uri then -1
        else
          let a1 := tohex (sessionHash cr (ha1 conf cr password junk))
          if respHash cr a1 (Backend.getHttpMethodName httpMethod) ≠ cr.response then 0
          else if ¬ httpAuthMatchRules require (some cr.username) then 0
          else if isStale curTs cr.nonce then -2
          else 1

/-! ## The fields -/

/-- The keywords that are found, in order, with their values. -/
def occurrences : Nat → Bytes → List (Keyword × Bytes)
  | 0, _ => []
  | fuel + 1, c =>
    let c := c.dropWhile fun x => x == chr ' ' || x == chr '\t'
    if c = [] then []
    else match takeField c with
      | some (k, v, rest) => (k, v) :: occurrences fuel rest
      | none => occurrences fuel c.tail

def lastValue (s : Bytes) (k : Keyword) : Option Bytes :=
  (((occurrences s.length s).filter fun kv => kv.1 = k).map Prod.snd).getLast?

theorem scanLoop_eq (n : Nat) (c : Bytes) (fields : Fields) (k : Keyword) : scanLoop n c fields k =
    ((((occurrences n c).filter fun kv => kv.1 = k).map Prod.snd).getLast?).or (fields k) := by
  induction n generalizing c fields with
  | zero => rfl
  | succ n ih =>
    unfold scanLoop occurrences
    dsimp only
    generalize c.dropWhile (fun x => x == chr ' ' || x == chr '\t') = c
    by_cases hc : c = []
    · rw [if_pos hc, if_pos hc]
      rfl
    rw [if_neg hc, if_neg hc]
    cases takeField c with
    | none => exact ih _ _
    | some kv =>
      obtain ⟨k', v, rest⟩ := kv
      dsimp only
      rw [ih]
      by_cases hk : k' = k
      · subst hk
        rw [Function.update_self, List.filter_cons_of_pos (by simp), List.map_cons, List.getLast?_cons]
        cases (((occurrences n rest).filter fun kv => kv.1 = k').map Prod.snd).getLast? <;> rfl
      · rw [Function.update_of_ne (Ne.symm hk), List.filter_cons_of_neg (by simpa using hk)]

/-- **Of several values of a keyword, the last one counts**, wherever the others stand. -/
theorem scan_eq (s : Bytes) (k : Keyword) : scan s k = lastValue s k := by
  rw [scan, scanLoop_eq]
  exact Option.or_none

/-- What the credentials are in a field. -/
structure Presents (s : Bytes) (cr : Credentials) : Prop where
  username : lastValue s .username = some cr.username
  realm : lastValue s .realm = some cr.realm
  nonce : lastValue s .nonce = some cr.nonce
  uri : lastValue s .uri = some cr.uri
  response : lastValue s .response = some cr.response
  algorithm : lastValue s .algorithm = cr.algorithm
  qop : lastValue s .qop = cr.qop
  cnonce : lastValue s .cnonce = cr.cnonce
  nc : lastValue s .nc = cr.nc
  protected_complete : cr.qop.isSome = true → cr.nc.isSome = true ∧ cr.cnonce.isSome = true
  session_complete : cr.session = true → cr.cnonce.isSome = true

theorem credentials_presents {s : Bytes} {cr : Credentials} (h : credentials (scan s) = some cr) : Presents s cr := by
  unfold credentials at h
  simp only [scan_eq] at h
  obtain ⟨username, husername, h⟩ := Option.bind_eq_some_iff.mp h
  obtain ⟨realm, hrealm, h⟩ := Option.bind_eq_some_iff.mp h
  obtain ⟨nonce, hnonce, h⟩ := Option.bind_eq_some_iff.mp h
  obtain ⟨uri, huri, h⟩ := Option.bind_eq_some_iff.mp h
  obtain ⟨response, hresponse, h⟩ := Option.bind_eq_some_iff.mp h
  split at h
  · cases h
  · rename_i hqop
    split at h
    · cases h
    · rename_i hsession
      split at h
      · cases h
      · cases h
        refine ⟨husername, hrealm, hnonce, huri, hresponse, rfl, rfl, rfl, rfl, fun hq => ?_, fun hs => ?_⟩
        · simpa [Option.isSome_iff_ne_none] using fun hmissing => hqop ⟨hq, hmissing⟩
        · simpa [Option.isSome_iff_ne_none] using fun hmissing => hsession ⟨hs, hmissing⟩

/-! ## The reference -/

/-- The request-digest of RFC 2617, with `H(A1)`, and with `nc`, `cnonce` and `qop` where the nonce is protected. -/
def requestDigest (a1 nonce : Bytes) (protection : Option (Bytes × Bytes × Bytes)) (method uri : Bytes) : Bytes :=
  let protectedBy := match protection with
    | some (nc, cnonce, qop) => nc ++ ascii ":" ++ cnonce ++ ascii ":" ++ qop ++ ascii ":"
    | none => []
  tohex (md5 (a1 ++ ascii ":" ++ nonce ++ ascii ":" ++ protectedBy ++ tohex (md5 (method ++ ascii ":" ++ uri))))

/-- `nc`, `cnonce` and `qop`, when `qop` is given. -/
def Credentials.protection (cr : Credentials) : Option (Bytes × Bytes × Bytes) :=
  if cr.qop.any (· ≠ []) then some (cr.nc.getD [], cr.cnonce.getD [], cr.qop.getD []) else none

/-- The `H(A1)` of a user in a realm, from what the file of the backend has: the password, or the digest itself. -/
def UserHash (backend : Backend) (username realm password a1 : Bytes) : Prop :=
  backend = .plain ∧ a1 = tohex (md5 (username ++ ascii ":" ++ realm ++ ascii ":" ++ password)) ∨
  backend = .htdigest ∧ (32 ≤ password.length → (∀ c ∈ password.take 32, lightIsxdigit c = true) →
    a1 = (password.take 32).map toLower)

/-- The `H(A1)` that is used: `md5-sess` has another one for each session. -/
def Credentials.sessionA1 (cr : Credentials) (a1 : Bytes) : Bytes :=
  if cr.session then tohex (md5 (a1 ++ ascii ":" ++ cr.nonce ++ ascii ":" ++ cr.cnonce.getD [])) else a1

theorem respHash_eq (cr : Credentials) (a1 m : Bytes) :
    respHash cr a1 m = requestDigest a1 cr.nonce cr.protection m cr.uri := by
  unfold respHash requestDigest Credentials.protection
  simp only [md5Of_eq]
  split
  · simp
  · simp

theorem sessionHash_eq (cr : Credentials) (ha1 : Bytes) : tohex (sessionHash cr ha1) = cr.sessionA1 (tohex ha1) := by
  unfold sessionHash Credentials.sessionA1
  split
  · simp [md5Of_eq]
  · rfl

/-! ## A digest in hexadecimal -/

theorem hexChar_byte : ∀ v < 16, ∀ w < 16,
    Buffer.hexChar (UInt8.ofNat v <<< 4 ||| UInt8.ofNat w).toNat 1 = Buffer.hexChar v 0 ∧
    Buffer.hexChar (UInt8.ofNat v <<< 4 ||| UInt8.ofNat w).toNat 0 = Buffer.hexChar w 0 := by
  decide

theorem hex2int_digit {c : Byte} (h : lightIsxdigit c = true) :
    (hex2int c).toNat < 16 ∧ Buffer.hexChar (hex2int c).toNat 0 = toLower c := by
  have hall : ∀ c : Byte, decide (lightIsxdigit c = true →
      (hex2int c).toNat < 16 ∧ Buffer.hexChar (hex2int c).toNat 0 = toLower c) = true :=
    forall_byte (by decide +kernel)
  exact of_decide_eq_true (hall c) h

/-- A byte that is read from two digits is written as them, in small letters. -/
theorem tohex_pair {c d : Byte} (hc : lightIsxdigit c = true) (hd : lightIsxdigit d = true) :
    tohex [hex2int c <<< 4 ||| hex2int d] = [toLower c, toLower d] := by
  obtain ⟨hclt, hcchar⟩ := hex2int_digit hc
  obtain ⟨hdlt, hdchar⟩ := hex2int_digit hd
  obtain ⟨hhigh, hlow⟩ := hexChar_byte _ hclt _ hdlt
  rw [UInt8.ofNat_toNat, UInt8.ofNat_toNat] at hhigh hlow
  simp only [tohex, List.flatMap_cons, List.flatMap_nil, hhigh, hlow, hcchar, hdchar, List.append_nil]

theorem tohex_read {p : Bytes} {n : Nat} (hn : 2 * n ≤ p.length) (h : ∀ c ∈ p.take (2 * n), lightIsxdigit c = true) :
    tohex ((List.range n).map fun i => hex2int (p.getD (i * 2) 0) <<< 4 ||| hex2int (p.getD (i * 2 + 1) 0)) =
      (p.take (2 * n)).map toLower := by
  induction n with
  | zero => rfl
  | succ n ih =>
    have hlt : 2 * n + 1 < p.length := by omega
    have htake : p.take (2 * (n + 1)) = p.take (2 * n) ++ [p.getD (n * 2) 0, p.getD (n * 2 + 1) 0] := by
      have h0 : p[2 * n]? = some (p.getD (n * 2) 0) := by
        rw [Nat.mul_comm n 2, List.getD_eq_getElem?_getD, List.getElem?_eq_getElem (by omega)]
        rfl
      have h1 : p[2 * n + 1]? = some (p.getD (n * 2 + 1) 0) := by
        rw [Nat.mul_comm n 2, List.getD_eq_getElem?_getD, List.getElem?_eq_getElem hlt]
        rfl
      rw [show 2 * (n + 1) = 2 * n + 1 + 1 from by omega, List.take_add_one, List.take_add_one, h0, h1,
        List.append_assoc]
      rfl
    rw [htake] at h ⊢
    have hpair := tohex_pair (h (p.getD (n * 2) 0) (by simp)) (h (p.getD (n * 2 + 1) 0) (by simp))
    have ih := ih (by omega) fun c hc => h c (List.mem_append_left _ hc)
    unfold tohex at ih hpair ⊢
    rw [List.range_succ, List.map_append, List.flatMap_append, ih, List.map_append, List.map_singleton, hpair]
    rfl

/-- **What the file has is used.** -/
theorem ha1_userHash {conf : Conf} (hconf : conf.authBackend = .htdigest ∨ conf.authBackend = .plain) (cr : Credentials)
    (password : Buffer) (junk : Nat → Byte) :
    UserHash conf.authBackend cr.username cr.realm password.str (tohex (ha1 conf cr password junk)) := by
  rcases hconf with hconf | hconf
  · refine .inr ⟨hconf, fun hlen hdigits => ?_⟩
    have hblock : ∀ i < 32, (blockOf password junk).getD i 0 = password.str.getD i 0 := by
      intro i hi
      have hlt : i < password.str.length := by omega
      rw [blockOf, List.getD_eq_getElem?_getD, List.getD_eq_getElem?_getD, List.getElem?_append_left hlt]
    have hread : tohex ((List.range 16).map fun i => hex2int (password.str.getD (i * 2) 0) <<< 4 |||
        hex2int (password.str.getD (i * 2 + 1) 0)) = (password.str.take 32).map toLower :=
      tohex_read (n := 16) hlen hdigits
    simp only [ha1, hconf]
    rw [← hread]
    refine congrArg tohex (List.map_congr_left fun i hi => ?_)
    rw [List.mem_range] at hi
    rw [hblock _ (by omega), hblock _ (by omega)]
  · refine .inl ⟨hconf, ?_⟩
    simp only [ha1, hconf, md5Of_eq]
    simp

/-! ## The result -/

theorem uriMatches_iff {requestUri : Buffer} {uri : Bytes} (h : uriMatches requestUri uri = true) :
    uri = requestUri.str ∨ ∃ q, uri = requestUri.str ++ chr '?' :: q := by
  unfold uriMatches at h
  simp only [Bool.or_eq_true, Bool.and_eq_true, beq_iff_eq, decide_eq_true_eq, Buffer.stringLength_eq] at h
  rcases h with ⟨-, h⟩ | ⟨⟨hlt, hstr⟩, hmark⟩
  · exact .inl h.symm
  · right
    refine ⟨uri.drop (requestUri.str.length + 1), ?_⟩
    have hsplit := List.take_append_drop requestUri.str.length uri
    rw [← hstr, List.drop_eq_getElem_cons hlt] at hsplit
    rw [List.getElem?_eq_getElem hlt] at hmark
    rw [Option.some.inj hmark] at hsplit
    exact hsplit.symm

def userConf : Conf := ⟨.plain, .ofString (ascii "/users"), .init, .init⟩

def userFiles : Files := fun path => if path = ascii "/users" then some (ascii "u:p\n") else none

/-- Credentials for `/x?q`, with two names. -/
def userHeader : Bytes := ascii
  "username=\"v\", username=\"u\", realm=\"r\", nonce=\"00000000:n\", uri=\"/x?q\", response=0147626e32d9bef6200d4b98cb7d963f"

/-- What the header presents. -/
def userCredentials : Credentials := ⟨ascii "u", ascii "r", ascii "00000000:n", ascii "/x?q",
  ascii "0147626e32d9bef6200d4b98cb7d963f", none, none, none, none⟩

theorem userHeader_credentials : credentials (scan (cstr userHeader)) = some userCredentials := by
  rw [userHeader, ascii_ofList]
  decide

theorem userResponse : respHash userCredentials
    (tohex (sessionHash userCredentials (ha1 userConf userCredentials (.ofString (ascii "p")) fun _ => 0)))
    (Backend.getHttpMethodName .get) = userCredentials.response := by
  have ha1 : tohex (md5Of [ascii "u", ascii ":", ascii "r", ascii ":", ascii "p"]) =
      ascii "44add22b6f3179b751eafd68ee370f7d" := by decide +kernel
  have ha2 : tohex (md5Of [ascii "GET", ascii ":", ascii "/x?q"]) = ascii "03766644f6eac635e446923913e7a4f7" := by
    decide +kernel
  show tohex (md5Of [tohex (md5Of [ascii "u", ascii ":", ascii "r", ascii ":", ascii "p"]), ascii ":", ascii "00000000:n",
    ascii ":", tohex (md5Of [ascii "GET", ascii ":", ascii "/x?q"])]) = ascii "0147626e32d9bef6200d4b98cb7d963f"
  rw [ha1, ha2]
  decide +kernel

theorem userHeader_accepted : httpAuthDigestCheck 0 .get (.ofString (ascii "/x")) userConf userFiles
    (some (ascii "valid-user")) userHeader (fun _ => 0) = 1 := by
  have hpassword : httpAuthGetPassword userConf userFiles (.ofString userCredentials.username)
      (.ofString userCredentials.realm) .init = some (.ofString (ascii "p")) := by decide
  unfold httpAuthDigestCheck
  rw [if_neg (by decide), userHeader_credentials]
  dsimp only
  rw [hpassword]
  dsimp only
  rw [if_neg (by decide), if_neg (not_not.mpr userResponse), if_neg (by decide), if_neg (by decide)]

/-- **What is the case when `1` is returned**: all fields are there, the `uri` is the request-target, perhaps with a query
behind it, and the response is the digest from what the file has for the user in the realm. -/
theorem digest_sound {curTs : Int} {httpMethod : Request.Method} {requestUri : Buffer} {conf : Conf} {files : Files}
    {require : Option Bytes} {realmStr : Bytes} {junk : Nat → Byte}
    (h : httpAuthDigestCheck curTs httpMethod requestUri conf files require realmStr junk = 1) :
    ∃ cr password a1, Presents (cstr realmStr) cr ∧
      (cr.uri = requestUri.str ∨ ∃ q, cr.uri = requestUri.str ++ chr '?' :: q) ∧
      httpAuthGetPassword conf files (.ofString cr.username) (.ofString cr.realm) .init = some password ∧
      UserHash conf.authBackend cr.username cr.realm password.str a1 ∧
      cr.response = requestDigest (cr.sessionA1 a1) cr.nonce cr.protection (Backend.getHttpMethodName httpMethod) cr.uri ∧
      httpAuthMatchRules require (some cr.username) = true ∧ isStale curTs cr.nonce = false := by
  unfold httpAuthDigestCheck at h
  split at h
  · cases h
  · rename_i hconf
    split at h
    · cases h
    · rename_i cr hcr
      split at h
      · cases h
      · rename_i password hpassword
        split at h
        · cases h
        · rename_i huri
          dsimp only at h
          split at h
          · cases h
          · rename_i hresponse
            split at h
            · cases h
            · rename_i hrules
              split at h
              · cases h
              · rename_i hstale
                refine ⟨cr, password, tohex (ha1 conf cr password junk), credentials_presents hcr,
                  uriMatches_iff (not_not.mp huri), hpassword, ha1_userHash (by tauto) cr password junk, ?_,
                  not_not.mp hrules, Bool.not_eq_true _ ▸ hstale⟩
                rw [← not_not.mp hresponse, respHash_eq, sessionHash_eq]

theorem digest_sound_query : ∃ cr password a1, Presents (cstr userHeader) cr ∧
    (cr.uri = (Buffer.ofString (ascii "/x")).str ∨ ∃ q, cr.uri = (Buffer.ofString (ascii "/x")).str ++ chr '?' :: q) ∧
    httpAuthGetPassword userConf userFiles (.ofString cr.username) (.ofString cr.realm) .init = some password ∧
    UserHash userConf.authBackend cr.username cr.realm password.str a1 ∧
    cr.response = requestDigest (cr.sessionA1 a1) cr.nonce cr.protection (Backend.getHttpMethodName .get) cr.uri ∧
    httpAuthMatchRules (some (ascii "valid-user")) (some cr.username) = true ∧ isStale 0 cr.nonce = false :=
  digest_sound userHeader_accepted

/-- The `uri` need not be the request-target, and a keyword may be there twice. -/
theorem digest_uri_repeated :
    ¬ (∀ (curTs : Int) (httpMethod : Request.Method) (requestUri : Buffer) (conf : Conf) (files : Files)
      (require : Option Bytes) (realmStr : Bytes) (junk : Nat → Byte) (cr : Credentials),
      httpAuthDigestCheck curTs httpMethod requestUri conf files require realmStr junk = 1 →
        Presents (cstr realmStr) cr → cr.uri = requestUri.str) ∧
    ¬ ∀ (curTs : Int) (httpMethod : Request.Method) (requestUri : Buffer) (conf : Conf) (files : Files)
      (require : Option Bytes) (realmStr : Bytes) (junk : Nat → Byte),
      httpAuthDigestCheck curTs httpMethod requestUri conf files require realmStr junk = 1 →
        ((occurrences realmStr.length realmStr).map Prod.fst).Nodup := by
  constructor
  · intro h
    have huri := h _ _ _ _ _ _ _ _ _ userHeader_accepted (credentials_presents userHeader_credentials)
    exact absurd huri (by decide)
  · intro h
    have hnodup := h _ _ _ _ _ _ _ _ userHeader_accepted
    rw [userHeader, ascii_ofList] at hnodup
    exact absurd hnodup (by decide)

end Lighttpd.Auth
