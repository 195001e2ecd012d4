import Lighttpd.Base.Buffer

/-!
# Passwords and rules (`http_auth.c`)

`http_auth_get_password` looks a user up in the file of the backend, line by line as `fgets` gives them, and
`http_auth_match_rules` reads the value of `require`.
-/

namespace Lighttpd.Auth

/-! ## `http_auth_get_password` -/

/-- `auth_backend_t`. -/
inductive Backend
  | unset
  | plain
  | ldap
  | htpasswd
  | htdigest
deriving DecidableEq, Repr

/-- What is read of `p->conf`. -/
structure Conf where
  authBackend : Backend
  authPlainUserfile : Buffer
  authHtpasswdUserfile : Buffer
  authHtdigestUserfile : Buffer

abbrev Files := Bytes → Option Bytes

/-- One line of at most `n - 1` bytes, with its newline, and what is behind it. -/
def fgets (n : Nat) (s : Bytes) : Bytes × Bytes :=
  let part := s.take (n - 1)
  let k := match part.idxOf? (chr '\n') with
    | some i => i + 1
    | none => part.length
  (s.take k, s.drop k)

/-- The lines of a file, as C strings. -/
def fgetsLines (n : Nat) : Nat → Bytes → List Bytes
  | 0, _ => []
  | fuel + 1, s => if s = [] then [] else cstr (fgets n s).1 :: fgetsLines n fuel (fgets n s).2

def isSkipped (line : Bytes) : Bool :=
  line.head? == some (chr '#') || line.head? == some (chr '\n') || line.isEmpty

/-- What is in front of the first `c` and behind it. -/
def splitAt (c : Byte) (s : Bytes) : Option (Bytes × Bytes) :=
  (s.idxOf? c).map fun k => (s.take k, s.drop (k + 1))

/-- The password without the newline. Of an empty password, the byte in front of it is looked at, which is a `:`. -/
def withoutNewline (pwd : Bytes) : Bytes := if pwd.getLast? = some (chr '\n') then pwd.dropLast else pwd

def htdigestLine (username realm : Buffer) (line : Bytes) : Option Bytes :=
  if isSkipped line then none
  else do
    let (user, rest) ← splitAt (chr ':') line
    let (userRealm, pwd) ← splitAt (chr ':') rest
    if username.str = user ∧ realm.str = userRealm then some (withoutNewline pwd) else none

def htpasswdLine (username : Buffer) (line : Bytes) : Option Bytes :=
  if isSkipped line then none
  else do
    let (user, pwd) ← splitAt (chr ':') line
    if username.str = user then some (withoutNewline pwd) else none

def findLine (files : Files) (fn : Buffer) (line : Bytes → Option Bytes) : Option Bytes :=
  if fn.stringIsEmpty then none
  else (files (cstr fn.str)).bind fun s => (fgetsLines 1024 s.length s).findSome? line

/-- `http_auth_get_password`: the buffer with the password, `none` for `-1`. -/
def httpAuthGetPassword (conf : Conf) (files : Files) (username realm password : Buffer) : Option Buffer :=
  if username.isEmpty || realm.isEmpty then none
  else match conf.authBackend with
    | .htdigest => (findLine files conf.authHtdigestUserfile (htdigestLine username realm)).map password.copyStringLen
    | .htpasswd => (findLine files conf.authHtpasswdUserfile (htpasswdLine username)).map password.copyStringLen
    | .plain => (findLine files conf.authPlainUserfile (htpasswdLine username)).map password.copyStringLen
    | .ldap => some password
    | .unset => none

/-! ## `http_auth_match_rules` -/

/-- The loop over the rules, from `r` on; `true` is the return value `0`. -/
def ruleLoop (username : Option Bytes) : Nat → Bytes → Bool
  | 0, _ => false
  | fuel + 1, r =>
    let rLen := (r.takeWhile (· ≠ chr '|')).length
    let kLen := (r.takeWhile (· ≠ chr '=')).length
    let k := r.take kLen
    let v := (r.drop (kLen + 1)).take (rLen - kLen - 1)
    let next := if chr '|' ∈ r then ruleLoop username fuel (r.drop (rLen + 1)) else false
    -- `strncmp(r, "valid-user", r_len)` finds no difference in the first part of it either
    if (r.take rLen).isPrefixOf (ascii "valid-user") then false
    else if chr '=' ∉ r then false
    else if rLen < kLen then false
    else if kLen = 4 then
      if k = ascii "user" then if username = some v then true else next
      else if k = ascii "host" then next
      else false
    else if kLen = 5 then if k = ascii "group" then next else false
    else false

/-- `http_auth_match_rules`, with the value of `require`; `true` is the return value `0`. -/
def httpAuthMatchRules (require : Option Bytes) (username : Option Bytes) : Bool :=
  match require with
  | none => false
  | some value => cstr value == ascii "valid-user" || ruleLoop username (value.length + 1) (cstr value)

end Lighttpd.Auth
