import Lighttpd.Lib.ChunkedCoding
import Lighttpd.Lib.Netstring

/-!
# The length of a message body (RFC 7230, section 3.3.3)

A recipient finds the end of a body from the header of the message: there is none, it is in the chunked coding, it has
the length of the header, or it ends with the connection. `Exactly` says that the bytes up to the next message are what
has been announced; nothing can follow a body that ends with the connection.
-/

namespace MessageLength

/-- How the body of a message ends. -/
inductive Announced
  | nothing
  | chunked
  | length (n : Nat)
  | close
deriving DecidableEq, Repr

/-- The number in a field `Content-Length`. -/
def decimal (value : List UInt8) : Option Nat := if value = [] then none else Netstring.number 0 value

def lower (c : UInt8) : UInt8 := if 65 ≤ c ∧ c ≤ 90 then c ||| 32 else c

/-- An element of a list, without the blanks around it. -/
def trim (s : List UInt8) : List UInt8 :=
  let blank := fun c : UInt8 => c == 32 || c == 9
  ((s.dropWhile blank).reverse.dropWhile blank).reverse

/-- `chunked` in lower case. -/
def chunkedName : List UInt8 := [99, 104, 117, 110, 107, 101, 100]

/-- `chunked` is the last coding in a field `Transfer-Encoding`. -/
def endsChunked (value : List UInt8) : Bool := (trim ((value.splitOn 44).getLastD [])).map lower == chunkedName

/-- What the header announces: the fields `Transfer-Encoding` and `Content-Length`, if there are any. `bodiless` are the
responses to HEAD and those with a status that has no body. -/
def announced (bodiless : Bool) (coding length : Option (List UInt8)) : Announced :=
  if bodiless then .nothing
  else match coding with
    | some value => if endsChunked value then .chunked else .close
    | none => (length.bind decimal).elim .close .length

/-- **The bytes behind the header are what it announces.** -/
def Announced.Exactly : Announced → List UInt8 → Prop
  | .nothing, body => body = []
  | .chunked, body => ∃ data, ChunkedCoding.decode body = some (data, [])
  | .length n, body => body.length = n
  | .close, _ => False

@[simp] theorem exactly_nothing {body : List UInt8} : Announced.nothing.Exactly body ↔ body = [] := .rfl

@[simp] theorem exactly_length {n : Nat} {body : List UInt8} : (Announced.length n).Exactly body ↔ body.length = n := .rfl

@[simp] theorem announced_bodiless (coding length : Option (List UInt8)) : announced true coding length = .nothing := rfl

theorem announced_length {value : List UInt8} {n : Nat} (h : decimal value = some n) :
    announced false none (some value) = .length n := by
  simp [announced, h]

theorem announced_chunked {value : List UInt8} (h : endsChunked value = true) (length : Option (List UInt8)) :
    announced false (some value) length = .chunked := by
  simp [announced, h]

example : announced false none (some [53]) = .length 5 := by decide

end MessageLength
