import Lighttpd.Base.Itostr
import Lighttpd.Lib.BinarySearch
import Lighttpd.Lib.Memmove
import Lighttpd.Request.Fields
import Lighttpd.Request.Parse

/-!
# Arrays with keys (`array.c`)

The elements of an `array` are in the order of their insertion in `data`, and `sorted` has their places in the order of
their keys. Slots of `data` from `used` on may have elements that are used again.
-/

namespace Lighttpd
open Request Memmove

inductive DataType
  | unset
  | string
  | count
  | array
  | integer
  | fastcgi
  | config
deriving DecidableEq, Repr

/-- `data_unset`, with what the type has besides as `value`. The key is `none` when it is an empty buffer. -/
structure DataUnset (ν : Type) where
  type : DataType
  key : Option Bytes
  isIndexKey : Bool
  value : ν
deriving DecidableEq, Repr

def DataUnset.keyBuf {ν : Type} (du : DataUnset ν) : Bytes := du.key.getD []

structure DataArray (ν : Type) where
  data : List (Option (DataUnset ν))
  sorted : List Nat
  used : Nat
  size : Nat
  uniqueNdx : Nat
deriving DecidableEq, Repr

/-- The methods of the elements: `reset` of the value, and the value of the first element after `insert_dup`. -/
structure Methods (ν : Type) where
  reset : ν → ν
  insertDup : DataUnset ν → DataUnset ν → ν

def copyInt (n : Nat) : Bytes := if n < 2 ^ 63 then liUtostrn n else chr '-' :: liUtostrn (2 ^ 64 - n)

namespace DataArray

variable {ν : Type}

def notFound : Nat := 2 ^ 64 - 1

def init : DataArray ν := ⟨[], [], 0, 0, 0⟩

def element (a : DataArray ν) (i : Nat) : Option (DataUnset ν) := a.data[i]?.join

def compareAt (a : DataArray ν) (key : Bytes) (probe : Nat) : Option Int :=
  (a.sorted[probe]?).bind fun ndx => (a.element ndx).map fun du => caselessCompare key du.keyBuf

def getIndex (a : DataArray ν) (key : Bytes) : Option (Option Nat × Nat) :=
  if a.used ≤ ssizeMax then
    (BinarySearch.search (a.compareAt key) (a.used + 1) 0 a.used).bind fun r =>
      if r.1 then (a.sorted[r.2]?).map fun ndx => (some ndx, r.2) else some (none, r.2)
  else none

def getElement (a : DataArray ν) (key : Bytes) : Option (Option (DataUnset ν)) :=
  (a.getIndex (cstr key)).map fun r => r.1.bind a.element

/-- The last element moves into the slot of one that is extracted. -/
def moveLast (a : DataArray ν) (ndx : Nat) : Option (DataArray ν) :=
  let last := a.used - 1
  if ndx ≠ last then do
    let du ← a.element last
    let r ← a.getIndex du.keyBuf
    if r.1 = some last then
      return { a with data := (a.data.set ndx (some du)).set last none, sorted := a.sorted.set r.2 ndx }
    else none
  else some { a with data := a.data.set ndx none }

def removeSorted (a : DataArray ν) (pos : Nat) : DataArray ν :=
  let last := a.used - 1
  let sorted := if pos ≠ last then memmove a.sorted pos (pos + 1) (last - pos) else a.sorted
  { a with sorted := sorted.set last notFound, used := a.used - 1 }

def extractElement (a : DataArray ν) (key : Bytes) : Option (Option (DataUnset ν) × DataArray ν) := do
  let r ← a.getIndex (cstr key)
  match r.1 with
  | none => return (none, a)
  | some ndx =>
    let entry ← a.element ndx
    let a ← a.moveLast ndx
    return (some entry, a.removeSorted r.2)

/-- The loop of `array_get_unused_element`, whose `i` is an `unsigned int`. Without fuel it does not end. -/
def unusedSlot (a : DataArray ν) (t : DataType) : Nat → Nat → Option (Option Nat)
  | 0, _ => none
  | fuel + 1, i =>
    if i < a.size then
      if (a.element i).any fun du => du.type = t then some (some i) else unusedSlot a t fuel ((i + 1) % 2 ^ 32)
    else some none

def getUnusedElement (a : DataArray ν) (t : DataType) : Option (Option (DataUnset ν) × DataArray ν) := do
  match ← a.unusedSlot t (2 ^ 32 + 1) (a.used % 2 ^ 32) with
  | none => return (none, a)
  | some i =>
    -- `a->data[a->used]` must be in the array
    if a.used < a.size then
      return (a.element i, { a with data := (a.data.set i (a.element a.used)).set a.used none })
    else none

/-- A key is generated if necessary. -/
def nameEntry (uniqueNdx : Nat) (entry : DataUnset ν) : Option (DataUnset ν × Nat) :=
  if entry.key = none ∨ entry.isIndexKey then
    if uniqueNdx + 1 < 2 ^ 64 then
      some ({ entry with key := some (copyInt uniqueNdx), isIndexKey := true }, uniqueNdx + 1)
    else none
  else some (entry, uniqueNdx)

/-- There is room for one more element. What is in the new part of `sorted` is not read. -/
def grow (a : DataArray ν) : DataArray ν :=
  if a.size = 0 then { a with size := 16, data := List.replicate 16 none, sorted := List.replicate 16 0 }
  else if a.size = a.used then { a with
    size := a.size + 16
    data := a.data ++ List.replicate 16 none
    sorted := a.sorted ++ List.replicate 16 0 }
  else a

/-- The element goes behind the others, and to `pos` in their order. -/
def insertAt (a : DataArray ν) (entry : DataUnset ν) (pos : Nat) : DataArray ν :=
  let ndx := a.used
  let sorted := if pos ≠ ndx then memmove a.sorted (pos + 1) pos (ndx - pos) else a.sorted
  { a with data := a.data.set ndx (some entry), used := a.used + 1, sorted := sorted.set pos ndx }

/-- `array_find_or_insert`: the slot of the element with the same key, and the entry with its key. -/
def findOrInsert (a : DataArray ν) (entry : DataUnset ν) : Option (Option Nat × DataUnset ν × DataArray ν) := do
  let (entry, uniqueNdx) ← nameEntry a.uniqueNdx entry
  let a := { a with uniqueNdx := uniqueNdx }
  let r ← a.getIndex entry.keyBuf
  match r.1 with
  | some ndx => return (some ndx, entry, a)
  | none => if a.used + 1 ≤ ssizeMax then return (none, entry, a.grow.insertAt entry r.2) else none

def replace (a : DataArray ν) (entry : DataUnset ν) : Option (DataArray ν) :=
  (a.findOrInsert entry).map fun (old, entry, a) =>
    match old with
    | some ndx => { a with data := a.data.set ndx (some entry) }
    | none => a

def insertUnique (methods : Methods ν) (a : DataArray ν) (entry : DataUnset ν) : Option (DataArray ν) := do
  let (old, entry, a) ← a.findOrInsert entry
  match old with
  | some ndx =>
    let du ← a.element ndx
    if du.type = entry.type then
      return { a with data := a.data.set ndx (some { du with value := methods.insertDup du entry }) }
    else none
  | none => return a

def resetElement (methods : Methods ν) (du : DataUnset ν) : DataUnset ν :=
  { du with key := none, value := methods.reset du.value }

def reset (methods : Methods ν) (a : DataArray ν) : DataArray ν :=
  { a with
    data := (a.data.take a.used).map (Option.map (resetElement methods)) ++ a.data.drop a.used
    used := 0
    uniqueNdx := 0 }

end DataArray
end Lighttpd
