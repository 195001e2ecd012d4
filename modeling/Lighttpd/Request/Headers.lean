import Mathlib.Data.List.DropRight
import Lighttpd.Base.Ascii

/-!
# The header fields of a request (`array.c`, `data_string.c`, `request.c`)

`con->request.headers` is an array of `data_string`s, in the order of their insertion; keys are compared without regard
to case. A header field that is inserted a second time is appended to the first one. `ValuePtr` is a pointer into the
value of a `data_string`.
-/

namespace Lighttpd

def caselessCompare : Bytes → Bytes → Int
  | [], [] => 0
  | [], _ :: _ => -1
  | _ :: _, [] => 1
  | a :: as, b :: bs =>
    if toLower a = toLower b then caselessCompare as bs else ((toLower a).toNat : Int) - (toLower b).toNat

namespace Request

structure DataString where
  key : Bytes
  value : Bytes
deriving DecidableEq, Repr

/-- `con->request.headers`. -/
abbrev Headers := List DataString

/-- A pointer to the value of a `data_string`: one of the array, or one that is freed, with what was in it. -/
inductive ValuePtr
  | slot (n : Nat)
  | freed (value : Bytes)
deriving DecidableEq, Repr

namespace Headers

def getIndex (hs : Headers) (key : Bytes) : Option Nat :=
  hs.findIdx? fun ds => caselessCompare key ds.key == 0

def getElement (hs : Headers) (key : Bytes) : Option DataString := (getIndex hs key).bind fun n => hs[n]?

/-- `data_string_insert_dup`, without freeing the new string. The value of a string of the array has been copied into
it, so it is not an unset buffer. -/
def insertDup (new old : DataString) : DataString :=
  { old with value := old.value ++ ascii ", " ++ new.value }

/-- `array_insert_unique`. The pointer is the one to the inserted string afterwards. -/
def insertUnique (hs : Headers) (ds : DataString) : Headers × ValuePtr :=
  match hs.getIndex ds.key with
  | some n => (hs.modify n (insertDup ds), .freed ds.value)
  | none => (hs ++ [ds], .slot hs.length)

/-- The value that a pointer points to. -/
def deref (hs : Headers) : ValuePtr → Bytes
  | .slot n => ((hs[n]?).map DataString.value).getD []
  | .freed value => value

/-- The headers after a write through a pointer. -/
def setValue (hs : Headers) (p : ValuePtr) (value : Bytes) : Headers :=
  match p with
  | .slot n => hs.modify n fun ds => { ds with value := value }
  | .freed _ => hs

/-- `buffer_append_string` to the value of the header field `key`, if there is one. -/
def appendValue (hs : Headers) (key value : Bytes) : Headers :=
  match hs.getIndex key with
  | some n => hs.modify n fun ds => { ds with value := ds.value ++ value }
  | none => hs

end Headers

/-! ## `http_request_split_value` -/

def isWs (c : Byte) : Bool := c == chr ' ' || c == chr '\t'

/-- The scan for tokens. In the state `1` there is a token so far, up to `token_end`, and the blanks behind it. -/
def splitLoop (token : Option (Bytes × Bytes)) : Bytes → List Bytes
  | [] =>
    match token with
    | none => []
    | some (t, _) => [t]
  | c :: s =>
    match token with
    | none =>
      if isWs c ∨ c = chr ',' then splitLoop none s
      else if c = 0 then []
      else splitLoop (some ([c], [])) s
    | some (t, ws) =>
      if isWs c then splitLoop (some (t, ws ++ [c])) s
      else if c = chr ',' ∨ c = 0 then t :: splitLoop none s
      else splitLoop (some (t ++ ws ++ [c], [])) s

def httpRequestSplitValue (b : Bytes) : List Bytes := splitLoop none b

/-! ## The header fields that the parser knows -/

/-- The header fields that are looked at while they are read. -/
inductive FieldName
  | connection
  | contentLength
  | contentType
  | expect
  | host
  | ifModifiedSince
  | ifNoneMatch
  | range
deriving DecidableEq, Repr

/-- The names, in the order of the comparisons: they are sorted. -/
def fieldNames : List (Bytes × FieldName) :=
  [(ascii "Connection", .connection), (ascii "Content-Length", .contentLength), (ascii "Content-Type", .contentType),
   (ascii "Expect", .expect), (ascii "Host", .host), (ascii "If-Modified-Since", .ifModifiedSince),
   (ascii "If-None-Match", .ifNoneMatch), (ascii "Range", .range)]

/-- The chain of comparisons: it goes on only as long as `cmp > 0`. -/
def findName (key : Bytes) : List (Bytes × FieldName) → Option FieldName
  | [] => none
  | (name, field) :: names =>
    if caselessCompare key name = 0 then some field
    else if caselessCompare key name > 0 then findName key names
    else none

end Request

end Lighttpd
