import Lighttpd.Array.DataArray
import Lighttpd.Luna.Print
import Lighttpd.Luna.Requests

/-!
# A request for tags (`luna.c`, `string_util.c`, `redis_util.cpp`)

`lunaPre` is `luna_pre` for a `GET` request with the path `tags/query`. It is `none` where the program writes behind an
array on its stack or reads behind a block on its heap, and where it uses a NULL pointer; but for `getQueryValue`, which
always has a value: that `memcmp` reads behind the end of a token is in `getQueryValueOf` of `Luna.Parameter`. The heap
decides what is behind a block: `zeroBehind n` says that the byte behind a block of `n` bytes is 0. Text is in C strings,
and the arrays are those of `array.c`.
-/

namespace Lighttpd.Luna

/-! ## `string_util.c` -/

/-- The tokens that `strtok` finds one after another. -/
def strtok (delim : Byte) (s : Bytes) : List Bytes := (s.splitOn delim).filter (· ≠ [])

def paramValueMaxLen : Nat := 256

/-- `get_query_value`, with `get_value`: `key=value` is looked for between the `&`. -/
def getQueryValue (query key : Bytes) : Bytes :=
  match (strtok (chr '&') (cstr query)).find? fun pch => (key ++ [chr '=']).isPrefixOf pch with
  | none => []
  | some pch =>
    match strtok (chr '=') pch with
    | _ :: value :: _ => value.take (paramValueMaxLen - 1)
    | _ => []

/-! ## `redis_util.cpp` -/

/-- The place of a character in `TABLE`. -/
def base62Digit (c : Byte) : Option Nat :=
  if 48 ≤ c ∧ c ≤ 57 then some (c.toNat - 48)
  else if 65 ≤ c ∧ c ≤ 90 then some (c.toNat - 55)
  else if 97 ≤ c ∧ c ≤ 122 then some (c.toNat - 61)
  else none

/-- A `double` that is stored in an `int`: what does not fit is `INT_MIN`. -/
def doubleToInt (d : Int) : Int := if -2 ^ 31 ≤ d ∧ d < 2 ^ 31 then d else -2 ^ 31

/-- One character of `base62decode`. From the 172nd power on `pow` is infinite, and the product is no number in the range
of `int`. -/
def base62Step (number : Int) (i : Nat) (c : Byte) : Int :=
  match base62Digit c with
  | none => number
  | some j => if i < 172 then doubleToInt (number + j * 62 ^ i) else -2 ^ 31

/-- The characters from the last one on. -/
def base62From : Nat → Int → Bytes → Int
  | _, number, [] => number
  | i, number, c :: s => base62From (i + 1) (base62Step number i c) s

def base62decode (s : Bytes) : Bytes := decimal (base62From 0 0 s.reverse)

/-- The items that `getline` reads. -/
def getlines (s : Bytes) : List Bytes :=
  let items := s.splitOn (chr ',')
  if items.getLast? = some [] then items.dropLast else items

/-- The tags in a value of redis. -/
def decodeTags (stored : Bytes) : List Bytes := (getlines stored).map base62decode

/-- The list that is made of them. -/
def decodeValue (stored : Bytes) : Bytes := [chr ','].intercalate (decodeTags stored)

def redisKey (uuid : Bytes) (tenantId : Int) : Bytes := ascii "u:" ++ uuid.take 12 ++ ascii ":" ++ decimal tenantId

def redisValueMaxLen : Nat := 512

/-- What `redis_clu_get` stores in `value`, for what redis answers. -/
def redisValue (reply : Option Bytes) : Bytes := (reply.map decodeValue).getD []

def redisCluGet (get : Bytes → Option Bytes) (uuid : Bytes) (tenantId : Int) : Option Bytes :=
  let value := redisValue (get (redisKey uuid tenantId))
  if value.length < redisValueMaxLen then some value else none

/-! ## `luna.c` -/

/-- `client_req`, as far as the answer needs it. A buffer that has not been set is `none`. -/
structure ClientReq where
  token : Bytes
  uuid : Bytes
  tidStr : Bytes
  uip : Option Bytes
  tidArray : DataArray Int
  logDebug : Bytes
  orgIds : Bytes
  dmp : Bool
  ifDebug : Bool
  respStatus : Nat
  tenantId : Int

def creqInit : ClientReq := ⟨[], [], [], none, DataArray.init, [], [], false, false, 200, 0⟩

def ClientReq.debugAppend (creq : ClientReq) (name text : Bytes) : ClientReq :=
  if creq.ifDebug then
    { creq with logDebug := creq.logDebug ++ (ascii "[" ++ name ++ ascii "]=>" ++ text ++ ascii " // ") }
  else creq

/-- `data_integer`. -/
def integerMethods : Methods Int := ⟨fun _ => 0, fun dst _ => dst.value⟩

/-- `parse_array`, which reads behind its copy of the string unless there is a 0. -/
def parseArray (zeroBehind : Nat → Bool) (str : Bytes) (arr : DataArray Int) : Option (DataArray Int) :=
  if zeroBehind str.length then
    (strtok (chr ',') str).foldlM (fun arr pch => arr.insertUnique integerMethods ⟨.integer, some pch, false, 0⟩) arr
  else none

def verifyToken (creq : ClientReq) (i : Info) : Option ClientReq :=
  -- `char org_ids[1024]`
  if i.orgIds.length < 1024 then
    let creq := { creq with tenantId := i.tenantId, orgIds := i.orgIds }
    let creq := creq.debugAppend (ascii "token") creq.token
    let creq := creq.debugAppend (ascii "tenant_id") (decimal creq.tenantId)
    some (creq.debugAppend (ascii "org_ids") creq.orgIds)
  else none

/-- The end of `verify_query`: the parameters in the debug text, and the address of the user. -/
def ClientReq.readIp (creq : ClientReq) (query : Bytes) : ClientReq :=
  let creq := creq.debugAppend (ascii "uuid") creq.uuid
  let creq := creq.debugAppend (ascii "tid") creq.tidStr
  let ip := getQueryValue query (ascii "ip")
  let creq := { creq with uip := if ip = [] then creq.uip else some ip }
  -- `printf` writes a NULL pointer as `(null)`
  creq.debugAppend (ascii "ip") (creq.uip.getD (ascii "(null)"))

/-- `verify_query`, where the request is within its limits. It returns -1 for every status but 200. -/
def verifyTids (zeroBehind : Nat → Bool) (query : Bytes) (creq : ClientReq) : Option ClientReq :=
  let uuid := getQueryValue query (ascii "uuid")
  if uuid = [] then some { creq with respStatus := 400 } else
  let creq := { creq with uuid := uuid }
  let tid := getQueryValue query (ascii "tid")
  if tid = [] then some { creq with respStatus := 400 } else
  let creq := { creq with tidStr := tid }
  (parseArray zeroBehind creq.tidStr creq.tidArray).map fun arr => ({ creq with tidArray := arr }).readIp query

def verifyQuery (zeroBehind : Nat → Bool) (m : Table) (query : Bytes) : Option (ClientReq × Table) :=
  let creq := { creqInit with ifDebug := getQueryValue query (ascii "d") == ascii "1" }
  let token := getQueryValue query (ascii "token")
  if token = [] then some ({ creq with respStatus := 400 }, m) else
  let creq := { creq with token := token }
  match m.lookup token with
  | none => some ({ creq with respStatus := 401 }, m)
  | some i =>
    (verifyToken creq i).bind fun creq =>
      let r := verifyQpmTotalRequest token i
      let m := m.insert token r.1.1
      if r.2 = 200 then (verifyTids zeroBehind query creq).map fun creq => (creq, m)
      else some ({ creq with respStatus := r.2 }, m)

/-- The element at `i` gets the value 1 if redis has its key. -/
def markTid (redisTids arr : DataArray Int) (i : Nat) : Option (DataArray Int) := do
  let du ← arr.element i
  let found ← redisTids.getElement du.keyBuf
  if found.isSome then arr.replace ⟨.integer, du.key, false, 1⟩ else some arr

def readTag (zeroBehind : Nat → Bool) (get : Bytes → Option Bytes) (creq : ClientReq) : Option ClientReq := do
  let value ← redisCluGet get creq.uuid creq.tenantId
  let creq := { creq with dmp := value ≠ [] }
  let redisTids ← parseArray zeroBehind value DataArray.init
  let arr ← (List.range creq.tidArray.used).foldlM (markTid redisTids) creq.tidArray
  some (({ creq with tidArray := arr }).debugAppend (ascii "redis") value)

def tagMembers (i : Info) (arr : DataArray Int) : Option (List (Bytes × Value)) :=
  ((List.range arr.used).mapM arr.element).map fun dus => dus.filterMap fun du =>
    if tiVerifyTid i du.keyBuf then some (du.keyBuf, .num du.value) else none

def lunaTagsQuery (i : Info) (creq : ClientReq) : Option (List (Bytes × Value)) := do
  let tags ← if creq.dmp then tagMembers i creq.tidArray else some []
  some (tags ++ if creq.ifDebug then [(ascii "debug", .str creq.logDebug)] else [])

/-- `generate_error_resp_json`: nothing is sent when the total limit is exceeded. -/
def errorMembers (status : Nat) : Option (List (Bytes × Value)) :=
  let error (code : Int) (desc : String) := some [(ascii "err_code", .num code), (ascii "err_desc", .str (ascii desc))]
  match status with
  | 400 => error (-400) "Missing required parameters"
  | 401 => error (-401) "Request with invalid token"
  | 405 => error (-405) "Request method not supported"
  | 429 => error (-429) "QPS limit exceeded"
  | 204 => none
  | 500 => error (-500) "Internal server error"
  | _ => error (-1) "Unknown error"

/-- The answer: the status, and the object in the body. -/
structure Answer where
  status : Nat
  object : Option (List (Bytes × Value))
deriving DecidableEq

def Answer.body (a : Answer) : Bytes := (a.object.map printObject).getD []

/-- `luna_pre`: the answer and the token table. -/
def lunaPre (zeroBehind : Nat → Bool) (get : Bytes → Option Bytes) (m : Table) (query : Bytes) :
    Option (Answer × Table) := do
  let (creq, m) ← verifyQuery zeroBehind m query
  if creq.respStatus = 200 then
    let creq ← readTag zeroBehind get creq
    let i ← m.lookup creq.token
    let object ← lunaTagsQuery i creq
    some (⟨200, some object⟩, m)
  else some (⟨creq.respStatus, errorMembers creq.respStatus⟩, m)

end Lighttpd.Luna
