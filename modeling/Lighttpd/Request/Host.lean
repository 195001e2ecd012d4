import Lighttpd.Base.Strtol

/-!
# The host of a request (`request.c`)

`request_check_hostname` checks a host against the grammar in the comment at its start; `http_request_host_normalize`
writes a numeric address and the port in their canonical form. Both may change the buffer.
-/

namespace Lighttpd

namespace Request

/-! ## `request_check_hostname` -/

/-- The address inside `[...]`: what follows the `]`. -/
def skipBracket (colonCnt : Nat) : Bytes → Option Bytes
  | [] => none
  | c :: s =>
    if c = chr ']' then some s
    else if c = chr ':' then
      if colonCnt + 1 > 7 then none else skipBracket (colonCnt + 1) s
    else if !lightIsxdigit c ∧ chr '.' ≠ c then none
    else skipBracket colonCnt s

/-- What may follow `[...]`: nothing, or a port. -/
def bracketPort (s : Bytes) : Bool :=
  match s with
  | [] => true
  | c :: s => c == chr ':' && s.all lightIsdigit

inductive Stage
  | domainlabel
  | toplabel
deriving DecidableEq, Repr

/-- The variables of the scan from the right; `isIp` is unset as long as it is not known. -/
structure Scan where
  stage : Stage
  labelLen : Nat
  isIp : Option Bool
  level : Nat
deriving DecidableEq, Repr

/-- The dot that ends the top label. `right` is the character at its right. -/
def topDot (s : Scan) (right : Byte) : Option Scan :=
  if s.labelLen = 0 then none
  else
    let next : Scan := { s with stage := .domainlabel, labelLen := 0, level := s.level + 1 }
    if s.isIp = some false then
      if !lightIsalnum right then none else some next
    else if !lightIsdigit right then some { next with isIp := some false }
    else if chr '-' = right then none
    else some { next with isIp := some true }

/-- A character of the top label. `last` says that it is the last of the host and `first` that it is the first. -/
def topChar (s : Scan) (last first : Bool) (right c : Byte) : Option Scan :=
  if c = chr '.' then
    if !last then topDot s right
    else if first then none
    else some s
  else if first then
    if !lightIsalnum c then none else some { s with labelLen := s.labelLen + 1 }
  else if c ≠ chr '-' ∧ !lightIsalnum c then none
  else some { s with
    isIp := if s.isIp = none ∧ !lightIsdigit c then some false else s.isIp
    labelLen := s.labelLen + 1 }

/-- A character of the labels before the top label. -/
def domainChar (s : Scan) (first : Bool) (right c : Byte) : Option Scan :=
  if s.isIp = some true then
    if c = chr '.' then
      if s.labelLen = 0 then none else some { s with labelLen := 0, level := s.level + 1 }
    else if !lightIsdigit c then none
    else some { s with labelLen := s.labelLen + 1 }
  else if c = chr '.' then
    if s.labelLen = 0 then none
    else if chr '-' = right then none
    else some { s with labelLen := 0, level := s.level + 1 }
  else if first then
    if !lightIsalnum c then none else some { s with labelLen := s.labelLen + 1 }
  else if c ≠ chr '-' ∧ !lightIsalnum c then none
  else some { s with labelLen := s.labelLen + 1 }

/-- The scan of the host, which is given from the right. `right` is the character at the right of the next one. -/
def scanHost (s : Scan) (last : Bool) (right : Byte) : Bytes → Option Scan
  | [] => some s
  | c :: rest => do
    let s ← match s.stage with
      | .toplabel => topChar s last rest.isEmpty right c
      | .domainlabel => domainChar s rest.isEmpty right c
    scanHost s false c rest

/-- The checks behind the scan. -/
def scanOk (s : Scan) : Bool :=
  if s.isIp = some true ∧ s.level ≠ 3 then false
  else if s.labelLen = 0 then false
  else true

/-- The scan from the right over the first `hostLen` bytes. -/
def checkLabels (host : Bytes) (hostLen : Nat) : Bool :=
  match scanHost ⟨.toplabel, 0, none, 0⟩ true (host.getD hostLen 0) (host.take hostLen).reverse with
  | none => false
  | some s => scanOk s

/-- `request_check_hostname`: whether it returns `0`, and the buffer, from which it strips a dot at the end of the
host. -/
def requestCheckHostname (host : Bytes) : Bool × Bytes :=
  if host.head? = some (chr '[') then
    match skipBracket 0 (cstr host.tail) with
    | none => (false, host)
    | some port => (bracketPort port, host)
  else
    let colon := host.idxOf? (chr ':')
    let hostLen := colon.getD host.length
    if colon.isSome ∧ !(cstr (host.drop (hostLen + 1))).all lightIsdigit then (false, host)
    else if hostLen = 0 then (false, host)
    else if host.getD (hostLen - 1) 0 = chr '.' then
      let host := host.take (hostLen - 1) ++ host.drop hostLen
      if hostLen - 1 = 0 then (false, host) else (checkLabels host (hostLen - 1), host)
    else (checkLabels host hostLen, host)

/-! ## `http_request_host_normalize` -/

/-- The functions of `arpa/inet.h` that are called: an IPv4 address as `inet_aton` reads and `inet_ntop` prints it,
and an IPv6 address as `inet_pton` reads and `inet_ntop` prints it. -/
structure Inet where
  aton : Bytes → Option UInt32
  ntop : UInt32 → Bytes
  pton6 : Bytes → Option (List Byte)
  ntop6 : List Byte → Bytes

/-- `buffer_append_int` of a number that is not negative. -/
def intBytes (n : Nat) : Bytes := ascii (toString n)

/-- The port behind the colon, `0` when there is none; `none` when it is not valid. -/
def readPort (s : Bytes) : Option Nat :=
  if (cstr s).isEmpty then some 0
  else
    let (port, e) := strtol 0 s
    if 0 < port ∧ port ≤ 65535 ∧ e = [] then some port.toNat else none

def appendPort (b : Bytes) (port : Nat) : Bytes := if port = 0 then b else b ++ chr ':' :: intBytes port

/-- The host without its port, a numeric IPv4 address in canonical form. -/
def normalizeName (inet : Inet) (b : Bytes) : Bytes :=
  if lightIsdigit (b.headD 0) then
    match inet.aton (cstr b) with
    | some addr => inet.ntop addr
    | none => b
  else b

/-- The index of the bracket that ends an IPv6 address, and the port. -/
def findBracket (b : Bytes) : Option (Nat × Nat) :=
  if b.getLast? = some (chr ']') then some (b.length - 1, 0)
  else
    match b.tail.idxOf? (chr ']') with
    | none => none
    | some k =>
      let bracket := k + 1
      if b.getD (bracket + 1) 0 ≠ chr ':' ∨ bracket = 1 then none
      else (readPort (b.drop (bracket + 2))).map fun port => (bracket, port)

/-- `sizeof(buf)` for an IPv6 address: `INET6_ADDRSTRLEN + 16`. -/
def sizeofBuf6 : Nat := 62

/-- The IPv6 address between the brackets in canonical form, with its `%interface`. -/
def normalizeBracket (inet : Inet) (b : Bytes) (bracket : Nat) : Option Bytes :=
  let percent := ((cstr b.tail).idxOf? (chr '%')).map (· + 1)
  let stop := min (percent.getD bracket) bracket
  match inet.pton6 (cstr ((b.take stop).drop 1)) with
  | none => none
  | some addr =>
    let buf := inet.ntop6 addr
    match percent with
    | none => some (chr '[' :: buf ++ [chr ']'])
    | some percent =>
      if percent > bracket then none
      else if buf.length + (bracket - percent) ≥ sizeofBuf6 then none
      else some (chr '[' :: buf ++ (b.take bracket).drop percent ++ [chr ']'])

/-- `http_request_host_normalize`: whether it returns `0`, and the buffer. -/
def httpRequestHostNormalize (inet : Inet) (b : Bytes) : Bool × Bytes :=
  if b.head? ≠ some (chr '[') then
    match b.idxOf? (chr ':') with
    | none => (true, normalizeName inet b)
    | some 0 => (false, b)
    | some colon =>
      match readPort (b.drop (colon + 1)) with
      | none => (false, b)
      | some port => (true, appendPort (normalizeName inet (b.take colon)) port)
  else if b.length ≤ 2 then (false, b)
  else
    match findBracket b with
    | none => (false, b)
    | some (bracket, port) =>
      match normalizeBracket inet b bracket with
      | none => (false, b)
      | some host => (true, appendPort host port)

end Request

end Lighttpd
