import Lighttpd.Base.Buffer
import Lighttpd.Base.Itostr

/-!
# Dates in text

`gmtime` and `strftime` of the C library, for the conversions that the server uses, and `buffer_append_strftime`.

- `length_rfcDate`: a date of a response is short;
- `appendStrftime_spec`: so there is room for it.
-/

namespace Lighttpd

/-! ## `gmtime` -/

/-- `struct tm`, as far as it is written out. -/
structure Tm where
  sec : Nat
  min : Nat
  hour : Nat
  mday : Nat
  mon : Nat
  year : Int
  wday : Nat
deriving DecidableEq, Repr

/-- The year, the month and the day of the month. Years begin in March here, so that the leap day is the last one. -/
def civil (days : Int) : Int × Nat × Nat :=
  let z := days + 719468
  let era := z / 146097
  let doe := (z % 146097).toNat
  let yoe := (doe - doe / 1460 + doe / 36524 - doe / 146096) / 365
  let doy := doe - (365 * yoe + yoe / 4 - yoe / 100)
  let mp := (5 * doy + 2) / 153
  let mday := doy - (153 * mp + 2) / 5 + 1
  let mon := if mp < 10 then mp + 2 else mp - 10
  (yoe + era * 400 + (if mon ≤ 1 then 1 else 0), mon, mday)

/-- `gmtime`: `NULL` if the year does not fit in an `int`. -/
def gmtime (t : Int) : Option Tm :=
  let days := t / 86400
  let rem := (t % 86400).toNat
  let (year, mon, mday) := civil days
  if -2 ^ 31 ≤ year - 1900 ∧ year - 1900 < 2 ^ 31 then
    some ⟨rem % 60, rem / 60 % 60, rem / 3600, mday, mon, year - 1900, ((days + 4) % 7).toNat⟩
  else none

/-! ## `strftime` -/

def dayNames : List Bytes :=
  [ascii "Sun", ascii "Mon", ascii "Tue", ascii "Wed", ascii "Thu", ascii "Fri", ascii "Sat"]

def monthNames : List Bytes :=
  [ascii "Jan", ascii "Feb", ascii "Mar", ascii "Apr", ascii "May", ascii "Jun", ascii "Jul", ascii "Aug", ascii "Sep",
   ascii "Oct", ascii "Nov", ascii "Dec"]

def pad2 (n : Nat) : Bytes := if n < 10 then chr '0' :: liUtostrn n else liUtostrn n

def conversion (c : Byte) (tm : Tm) : Bytes :=
  if c = chr 'a' then dayNames.getD tm.wday (ascii "?")
  else if c = chr 'd' then pad2 tm.mday
  else if c = chr 'b' then monthNames.getD tm.mon (ascii "?")
  else if c = chr 'Y' then liItostrn (tm.year + 1900)
  else if c = chr 'H' then pad2 tm.hour
  else if c = chr 'M' then pad2 tm.min
  else if c = chr 'S' then pad2 tm.sec
  else [chr '%', c]

/-- What `strftime` writes if there is room. -/
def strftimeText : Bytes → Tm → Bytes
  | [], _ => []
  | [c], _ => [c]
  | c :: d :: format, tm =>
    if c = chr '%' then conversion d tm ++ strftimeText format tm else c :: strftimeText (d :: format) tm

/-- `strftime`: nothing if there is no room for the text and a NUL. -/
def strftime (max : Nat) (format : Bytes) (tm : Tm) : Bytes :=
  if (strftimeText format tm).length < max then strftimeText format tm else []

/-- `buffer_append_strftime`; an assertion of `buffer_commit` may fail. -/
def Buffer.appendStrftime (b : Buffer) (format : Bytes) (tm : Tm) : Option Buffer :=
  if format = [] then some (b.stringPrepareAppend 0)
  else
    let b₁ := b.stringPrepareAppend 255
    let r := strftime b₁.stringSpace format tm
    -- the second try, with a larger string
    let b₂ := if r.length = 0 ∨ b₁.stringSpace ≤ r.length then b₁.stringPrepareAppend 4095 else b₁
    let r := strftime b₂.stringSpace format tm
    b₂.commit (if b₂.stringSpace ≤ r.length then [] else r)

def rfcFormat : Bytes := ascii "%a, %d %b %Y %H:%M:%S GMT"

def rfcDate (t : Int) : Option Bytes := (gmtime t).map (strftimeText rfcFormat)

example : rfcDate 0 = some (ascii "Thu, 01 Jan 1970 00:00:00 GMT") := by decide

example : rfcDate 784111777 = some (ascii "Sun, 06 Nov 1994 08:49:37 GMT") := by decide

example : rfcDate 951782399 = some (ascii "Mon, 28 Feb 2000 23:59:59 GMT") := by decide

/-! ## The length of a date -/

/-- The numbers of a date are small. -/
structure Tm.Small (tm : Tm) : Prop where
  sec : tm.sec < 10 ^ 6
  min : tm.min < 10 ^ 6
  hour : tm.hour < 10 ^ 6
  mday : tm.mday < 10 ^ 6
  year : (tm.year + 1900).natAbs < 10 ^ 10

theorem gmtime_small {t : Int} {tm : Tm} (h : gmtime t = some tm) : tm.Small := by
  unfold gmtime at h
  dsimp only at h
  split_ifs at h with hyear
  cases h
  have hrem : (t % 86400).toNat < 86400 := by omega
  refine ⟨?_, ?_, ?_, ?_, ?_⟩
  · dsimp only
    omega
  · dsimp only
    omega
  · dsimp only
    omega
  · have hdoe : ((t / 86400 + 719468) % 146097).toNat < 146097 := by omega
    dsimp only [civil]
    omega
  · dsimp only
    omega

theorem length_pad2 {n : Nat} (h : n < 10 ^ 6) : (pad2 n).length ≤ 7 := by
  have hlen : (liUtostrn n).length ≤ 6 := length_liUtostrn h
  unfold pad2
  split_ifs
  · rw [List.length_cons]
    omega
  · omega

theorem length_liItostrn {v : Int} (h : v.natAbs < 10 ^ 10) : (liItostrn v).length ≤ 11 := by
  have hlen : (liUtostrn v.natAbs).length ≤ 10 := length_liUtostrn h
  unfold liItostrn
  split_ifs
  · rw [List.length_cons]
    omega
  · omega

theorem length_getD {l : List Bytes} {d : Bytes} {n : Nat} (h : ∀ s ∈ d :: l, s.length ≤ n) (i : Nat) :
    (l.getD i d).length ≤ n := by
  rw [List.getD_eq_getElem?_getD]
  cases hi : l[i]? with
  | none => exact h d List.mem_cons_self
  | some s => exact h s (List.mem_cons_of_mem _ (List.mem_of_getElem? hi))

/-- **A date of a response is short.** -/
theorem length_rfcDate {tm : Tm} (h : tm.Small) : (strftimeText rfcFormat tm).length < 255 := by
  have htext : strftimeText rfcFormat tm = conversion (chr 'a') tm ++ (ascii ", " ++ (conversion (chr 'd') tm ++
      (ascii " " ++ (conversion (chr 'b') tm ++ (ascii " " ++ (conversion (chr 'Y') tm ++ (ascii " " ++
      (conversion (chr 'H') tm ++ (ascii ":" ++ (conversion (chr 'M') tm ++ (ascii ":" ++ (conversion (chr 'S') tm ++
      ascii " GMT")))))))))))) := rfl
  have ha : (conversion (chr 'a') tm).length ≤ 3 := length_getD (by decide) _
  have hd : (conversion (chr 'd') tm).length ≤ 7 := length_pad2 h.mday
  have hb : (conversion (chr 'b') tm).length ≤ 3 := length_getD (by decide) _
  have hy : (conversion (chr 'Y') tm).length ≤ 11 := length_liItostrn h.year
  have hh : (conversion (chr 'H') tm).length ≤ 7 := length_pad2 h.hour
  have hm : (conversion (chr 'M') tm).length ≤ 7 := length_pad2 h.min
  have hs : (conversion (chr 'S') tm).length ≤ 7 := length_pad2 h.sec
  have hcomma : (ascii ", ").length = 2 := rfl
  have hblank : (ascii " ").length = 1 := rfl
  have hcolon : (ascii ":").length = 1 := rfl
  have hgmt : (ascii " GMT").length = 4 := rfl
  rw [htext]
  simp only [List.length_append, hcomma, hblank, hcolon, hgmt]
  omega

theorem rfcDate_ne_nil (tm : Tm) : strftimeText rfcFormat tm ≠ [] := by
  have htext : strftimeText rfcFormat tm =
    conversion (chr 'a') tm ++ chr ',' :: strftimeText (rfcFormat.drop 3) tm := rfl
  simp [htext]

theorem appendStrftime_spec (b : Buffer) {format : Bytes} {tm : Tm} (hne : strftimeText format tm ≠ [])
    (hlt : (strftimeText format tm).length < 255) :
    ∃ b', b.appendStrftime format tm = some b' ∧ b'.str = b.str ++ strftimeText format tm := by
  have hspace := b.stringPrepareAppend_space 255
  have hformat : format ≠ [] := by
    rintro rfl
    exact hne rfl
  have htext : strftime (b.stringPrepareAppend 255).stringSpace format tm = strftimeText format tm :=
    if_pos (Nat.lt_of_lt_of_le hlt hspace)
  have honce : ¬ ((strftimeText format tm).length = 0 ∨
      (b.stringPrepareAppend 255).stringSpace ≤ (strftimeText format tm).length) := by
    rw [List.length_eq_zero_iff, not_or]
    exact ⟨hne, by omega⟩
  have hfits : ¬ (b.stringPrepareAppend 255).stringSpace ≤ (strftimeText format tm).length := by omega
  have hcommit := Buffer.commit_isSome (s := strftimeText format tm) (b.stringPrepareAppend_size_pos 255) (by omega)
  obtain ⟨b', hb'⟩ := Option.isSome_iff_exists.mp hcommit
  refine ⟨b', ?_, by rw [Buffer.commit_str hb', Buffer.stringPrepareAppend_str]⟩
  unfold Buffer.appendStrftime
  rw [if_neg hformat]
  dsimp only
  rw [htext, if_neg honce, htext, if_neg hfits]
  exact hb'

end Lighttpd
