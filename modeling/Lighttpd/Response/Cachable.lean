import Lighttpd.Response.Etag
import Lighttpd.Response.Run

/-!
# Conditional requests (`http-header-glue.c`)

`http_response_handle_cachable` looks at `If-None-Match`, and at `If-Modified-Since` only without it. The functions of
the C library that read a date are parameters (`Libc`). `noStatus_iff` says when the request is finished without a
status, `handleCachable_eq` what the answer is otherwise.
-/

namespace Lighttpd
namespace Respond
open Request Etag

/-! ## Dates -/

structure Tm where
  sec : Int := 0
  min : Int := 0
  hour : Int := 0
  mday : Int := 0
  mon : Int := 0
  year : Int := 0
  wday : Int := 0
  yday : Int := 0
  isdst : Int := 0
deriving DecidableEq, Repr

/-- `strptime` with the format `%a, %d %b %Y %H:%M:%S GMT`, which returns `NULL` (`false`) when it fails and writes to
the `struct tm`, and `mktime`. -/
structure Libc where
  strptime : Bytes → Tm → Bool × Tm
  mktime : Tm → Int

/-- `mktime` of what `strptime` has written, with `tm_isdst = 0`. -/
def Libc.timestamp (l : Libc) (s : Bytes) (tm : Tm) : Int := l.mktime { (l.strptime s tm).2 with isdst := 0 }

/-- The time that a text stands for. -/
def Libc.time (l : Libc) (s : Bytes) : Option Int := if (l.strptime s {}).1 then some (l.timestamp s {}) else none

/-- **The format has every field that `mktime` looks at**, so that what was in the `struct tm` before does not matter. -/
structure Libc.Lawful (l : Libc) : Prop where
  strptime_ok : ∀ s tm, (l.strptime s tm).1 = (l.strptime s {}).1
  timestamp_eq : ∀ s tm, (l.strptime s {}).1 = true → l.timestamp s tm = l.timestamp s {}

/-! ## `http_response_handle_cachable` -/

def headOrGet (method : Option Method) : Bool := method == some .get || method == some .head

/-- The text of `If-Modified-Since` up to a semicolon. -/
def dateText (ims : Bytes) : Bytes :=
  match (cstr ims).idxOf? (chr ';') with
  | none => cstr ims
  | some semicolon => (cstr ims).take semicolon

/-- The branch for `If-Modified-Since`; `tm` is not initialized. -/
def handleModifiedSince (l : Libc) (tm : Tm) (ims mtime : Bytes) : Cachable :=
  if dateText ims <+: mtime then
    if dateText ims = mtime then .notModified else .noStatus
  else
    -- convert to timestamp
    if 30 ≤ (dateText ims).length then .goOn
    else if (l.strptime (dateText ims) tm).1 = false then .goOn
    else
      let header := { (l.strptime (dateText ims) tm).2 with isdst := 0 }
      if l.timestamp mtime header > l.mktime header then .goOn else .notModified

/-- `http_response_handle_cachable`; `etag` is `con->physical.etag`. -/
def httpResponseHandleCachable (l : Libc) (tm : Tm) (method : Option Method) (etag : Option Buffer)
    (ifNoneMatch ifModifiedSince : Option Bytes) (mtime : Buffer) : Cachable :=
  match ifNoneMatch with
  | some value =>
    -- use strong etag checking for now
    if etagIsEqual etag value false then
      if headOrGet method then .notModified else .preconditionFailed
    else .goOn
  | none =>
    match ifModifiedSince with
    | none => .goOn
    | some value => if headOrGet method then handleModifiedSince l tm value (cstr mtime.str) else .goOn

def Cachable.finished (c : Cachable) : Bool := c != .goOn

def Cachable.status : Cachable → Option Nat
  | .notModified => some 304
  | .preconditionFailed => some 412
  | .noStatus => none
  | .goOn => none

/-! ## When it answers -/

section

variable {l : Libc} {tm : Tm} {method : Option Method} {etag : Option Buffer} {ifNoneMatch ifModifiedSince : Option Bytes}
  {mtime : Buffer}

/-- `If-Modified-Since` is not earlier than the date of the file: it is the same text, or a time that is not earlier. -/
def NotEarlier (l : Libc) (ims mtime : Bytes) : Prop :=
  dateText ims = mtime ∨ ((dateText ims).length < 30 ∧
    ∃ header ∈ l.time (dateText ims), ∃ file ∈ l.time mtime, file ≤ header)

/-- The text of `If-Modified-Since` is a proper prefix of the date of the file. -/
def Truncated (ims mtime : Bytes) : Prop := dateText ims <+: mtime ∧ dateText ims ≠ mtime

theorem handleModifiedSince_noStatus {ims date : Bytes} : handleModifiedSince l tm ims date = .noStatus ↔
    Truncated ims date := by
  unfold handleModifiedSince Truncated
  by_cases hpre : dateText ims <+: date
  · by_cases heq : dateText ims = date
    · simp [heq]
    · simp [hpre, heq]
  · simp only [hpre, if_false, false_and, iff_false]
    split
    · simp
    · split
      · simp
      · split <;> simp

/-- **A date that is not cut off is answered if it is not earlier.** -/
theorem handleModifiedSince_eq (hl : l.Lawful) {ims date : Bytes} (hdate : (l.time date).isSome)
    (htruncated : ¬ Truncated ims date) [Decidable (NotEarlier l ims date)] :
    handleModifiedSince l tm ims date = if NotEarlier l ims date then .notModified else .goOn := by
  obtain ⟨hok, hfile⟩ : (l.strptime date {}).1 = true ∧ l.time date = some (l.timestamp date {}) := by
    unfold Libc.time at hdate ⊢
    split at hdate
    · rename_i hok
      exact ⟨hok, if_pos hok⟩
    · cases hdate
  unfold handleModifiedSince
  by_cases heq : dateText ims = date
  · rw [if_pos (heq ▸ List.prefix_rfl), if_pos heq, if_pos (show NotEarlier l ims date from Or.inl heq)]
  · have hpre : ¬ dateText ims <+: date := fun h => htruncated ⟨h, heq⟩
    have hiff : NotEarlier l ims date ↔ (dateText ims).length < 30 ∧ (l.strptime (dateText ims) {}).1 = true ∧
        l.timestamp date {} ≤ l.timestamp (dateText ims) {} := by
      simp only [NotEarlier, hfile]
      simp [heq, Libc.time]
    rw [if_neg hpre]
    simp only [hiff, hl.strptime_ok, hl.timestamp_eq date _ hok]
    by_cases hlen : (dateText ims).length < 30
    · rw [if_neg (Nat.not_le.mpr hlen)]
      by_cases hread : (l.strptime (dateText ims) {}).1 = true
      · have hheader := hl.timestamp_eq (dateText ims) tm hread
        simp only [Libc.timestamp] at hheader ⊢
        rw [hheader]
        simp only [hread, hlen, true_and, Bool.true_eq_false, if_false, gt_iff_lt]
        split <;> rename_i hlt
        · rw [if_neg (by omega)]
        · rw [if_pos (by omega)]
      · simp [hread]
    · simp [hlen, Nat.not_lt.mp hlen]

/-- **When a request is finished without a status.** -/
theorem noStatus_iff : httpResponseHandleCachable l tm method etag ifNoneMatch ifModifiedSince mtime = .noStatus ↔
    ifNoneMatch = none ∧ headOrGet method = true ∧ ∃ v ∈ ifModifiedSince, Truncated v (cstr mtime.str) := by
  unfold httpResponseHandleCachable
  rcases ifNoneMatch with _ | value
  · rcases ifModifiedSince with _ | value
    · simp
    · by_cases hmethod : headOrGet method = true
      · simp [hmethod, handleModifiedSince_noStatus]
      · simp [hmethod]
  · simp only [reduceCtorEq, false_and, iff_false]
    split
    · split <;> simp
    · simp

/-- `If-None-Match` is there and matches, or it is not there and `If-Modified-Since` of a `GET` or `HEAD` is not earlier. -/
def Answered (l : Libc) (method : Option Method) (etag : Option Buffer) (ifNoneMatch ifModifiedSince : Option Bytes)
    (mtime : Buffer) : Prop :=
  match ifNoneMatch with
  | some value => etagIsEqual etag value false = true
  | none => headOrGet method = true ∧ ∃ v ∈ ifModifiedSince, NotEarlier l v (cstr mtime.str)

/-- **A conditional request is finished with 304 or 412, or goes on**, unless its date is cut off. -/
theorem handleCachable_status (hl : l.Lawful) (hdate : (l.time (cstr mtime.str)).isSome)
    (htruncated : ifNoneMatch = none → headOrGet method = true → ∀ v ∈ ifModifiedSince, ¬ Truncated v (cstr mtime.str))
    (hanswered : Answered l method etag ifNoneMatch ifModifiedSince mtime) :
    (httpResponseHandleCachable l tm method etag ifNoneMatch ifModifiedSince mtime).status =
      some (if headOrGet method then 304 else 412) := by
  classical
  unfold httpResponseHandleCachable
  rcases ifNoneMatch with _ | value
  · obtain ⟨hmethod, value, hvalue, hearlier⟩ := hanswered
    cases hvalue
    simp only [hmethod, if_true]
    rw [handleModifiedSince_eq hl hdate (htruncated rfl hmethod value rfl), if_pos hearlier]
    rfl
  · have hequal : etagIsEqual etag value false = true := hanswered
    simp only [hequal, if_true]
    split <;> rfl

theorem handleCachable_goOn (hl : l.Lawful) (hdate : (l.time (cstr mtime.str)).isSome)
    (htruncated : ifNoneMatch = none → headOrGet method = true → ∀ v ∈ ifModifiedSince, ¬ Truncated v (cstr mtime.str))
    (hanswered : ¬ Answered l method etag ifNoneMatch ifModifiedSince mtime) :
    httpResponseHandleCachable l tm method etag ifNoneMatch ifModifiedSince mtime = .goOn := by
  classical
  unfold httpResponseHandleCachable
  rcases ifNoneMatch with _ | value
  · rcases ifModifiedSince with _ | value
    · rfl
    · by_cases hmethod : headOrGet method = true
      · have hearlier : ¬ NotEarlier l value (cstr mtime.str) := fun h => hanswered ⟨hmethod, value, rfl, h⟩
        simp only [hmethod, if_true]
        rw [handleModifiedSince_eq hl hdate (htruncated rfl hmethod value rfl), if_neg hearlier]
      · simp [hmethod]
  · have hequal : ¬ etagIsEqual etag value false = true := hanswered
    simp [hequal]

end

/-! ## Dates of one month -/

/-- `strptime` for three texts. -/
def sampleStrptime (s : Bytes) (tm : Tm) : Bool × Tm :=
  if s = ascii "Sat, 23 Jul 2005 21:20:01 GMT" then
    (true, { sec := 1, min := 20, hour := 21, mday := 23, mon := 6, year := 105, wday := 6, yday := 203 })
  else if s = ascii "Sun, 24 Jul 2005 21:20:01 GMT" then
    (true, { sec := 1, min := 20, hour := 21, mday := 24, mon := 6, year := 105, wday := 0, yday := 204 })
  else (false, tm)

/-- `mktime` in July, where the local time is that of Greenwich. -/
def sampleMktime (tm : Tm) : Int :=
  tm.sec + 60 * tm.min + 3600 * tm.hour + 86400 * (tm.mday - 1 + 181 + 365 * (tm.year - 70) + (tm.year - 69) / 4)

def sampleLibc : Libc := ⟨sampleStrptime, sampleMktime⟩

theorem sampleLibc_lawful : sampleLibc.Lawful := by
  constructor
  · intro s tm
    show (sampleStrptime s tm).1 = (sampleStrptime s {}).1
    unfold sampleStrptime
    split
    · rfl
    · split <;> rfl
  · intro s tm
    show (sampleStrptime s {}).1 = true →
      sampleMktime { (sampleStrptime s tm).2 with isdst := 0 } = sampleMktime { (sampleStrptime s {}).2 with isdst := 0 }
    unfold sampleStrptime
    split
    · exact fun _ => rfl
    · split
      · exact fun _ => rfl
      · exact fun h => by cases h

/-! ## The answer -/

section

variable {l : Libc} {tm : Tm} {method : Option Method} {etag : Option Buffer} {ifNoneMatch ifModifiedSince : Option Bytes}
  {mtime : Buffer}

/-- **Conditional requests always answer.** `HANDLER_FINISHED` comes with 304 (`GET`, `HEAD`) or 412, exactly when
`If-None-Match` matches, or is not there and `If-Modified-Since` of a `GET` or `HEAD` is not earlier; for a well-formed
list that the scan is not cut in, matching is membership. -/
theorem cachable_answers (hl : l.Lawful) (hdate : (l.time (cstr mtime.str)).isSome)
    (htruncated : ifNoneMatch = none → headOrGet method = true → ∀ v ∈ ifModifiedSince, ¬ Truncated v (cstr mtime.str)) :
    ((httpResponseHandleCachable l tm method etag ifNoneMatch ifModifiedSince mtime).finished = true ↔
      ∃ status, (httpResponseHandleCachable l tm method etag ifNoneMatch ifModifiedSince mtime).status = some status ∧
        (status = 304 ∨ status = 412)) ∧
    ((∃ status, (httpResponseHandleCachable l tm method etag ifNoneMatch ifModifiedSince mtime).status = some status) ↔
      Answered l method etag ifNoneMatch ifModifiedSince mtime) ∧
    (∀ status, (httpResponseHandleCachable l tm method etag ifNoneMatch ifModifiedSince mtime).status = some status →
      status = if headOrGet method then 304 else 412) ∧
    ∀ b value list, etag = some b → Mutated b.str → ifNoneMatch = some value → IfNoneMatch list value →
      ¬ Cut b.str false list →
      (Answered l method etag ifNoneMatch ifModifiedSince mtime ↔ Listed b.str false list) := by
  refine ⟨?_, ?_, ?_, ?_⟩
  · by_cases h : Answered l method etag ifNoneMatch ifModifiedSince mtime
    · have hstatus : (httpResponseHandleCachable l tm _ _ _ _ _).status = _ :=
        handleCachable_status hl hdate htruncated h
      refine ⟨fun _ => ⟨_, hstatus, by split <;> simp⟩, fun _ => ?_⟩
      unfold Cachable.finished
      rw [bne_iff_ne]
      intro hgo
      rw [hgo] at hstatus
      cases hstatus
    · rw [handleCachable_goOn hl hdate htruncated h]
      simp [Cachable.finished, Cachable.status]
  · refine ⟨fun ⟨status, hstatus⟩ => ?_, fun h => ⟨_, handleCachable_status hl hdate htruncated h⟩⟩
    by_contra h
    rw [handleCachable_goOn hl hdate htruncated h] at hstatus
    cases hstatus
  · intro status hstatus
    by_cases h : Answered l method etag ifNoneMatch ifModifiedSince mtime
    · rw [handleCachable_status hl hdate htruncated h] at hstatus
      exact (Option.some.inj hstatus).symm
    · rw [handleCachable_goOn hl hdate htruncated h] at hstatus
      cases hstatus
  · rintro b value list rfl hb rfl hlist hcut
    show etagIsEqual (some b) value false = true ↔ _
    rw [etagIsEqual_iff hb hlist]
    exact and_iff_left hcut

/-- `GET` with a later date. -/
theorem cachable_answers_sample :
    let c := httpResponseHandleCachable sampleLibc {} (some .get) (some (Buffer.ofString (ascii "\"97\""))) none
      (some (ascii "Sun, 24 Jul 2005 21:20:01 GMT; length=5"))
      (Buffer.ofString (ascii "Sat, 23 Jul 2005 21:20:01 GMT"))
    ((∃ status, c.status = some status) ↔
      Answered sampleLibc (some .get) (some (Buffer.ofString (ascii "\"97\""))) none
        (some (ascii "Sun, 24 Jul 2005 21:20:01 GMT; length=5"))
        (Buffer.ofString (ascii "Sat, 23 Jul 2005 21:20:01 GMT"))) ∧ c.status = some 304 := by
  refine ⟨(cachable_answers sampleLibc_lawful (by decide) ?_).2.1, by decide⟩
  intro _ _ v hv htruncated
  cases hv
  have hno : ¬ dateText (ascii "Sun, 24 Jul 2005 21:20:01 GMT; length=5") <+:
      cstr (Buffer.ofString (ascii "Sat, 23 Jul 2005 21:20:01 GMT")).str := by decide
  exact hno htruncated.1

/-- A `POST` goes on, whatever its date. -/
theorem post_not_conditional :
    ¬ ((∃ status, (httpResponseHandleCachable sampleLibc {} (some .post) (some (Buffer.ofString (ascii "\"97\""))) none
        (some (ascii "Sat, 23 Jul 2005 21:20:01 GMT"))
        (Buffer.ofString (ascii "Sat, 23 Jul 2005 21:20:01 GMT"))).status = some status) ↔
      NotEarlier sampleLibc (ascii "Sat, 23 Jul 2005 21:20:01 GMT")
        (cstr (Buffer.ofString (ascii "Sat, 23 Jul 2005 21:20:01 GMT")).str)) := by
  intro h
  obtain ⟨status, hstatus⟩ := h.mpr (Or.inl (by decide))
  have hnone : (httpResponseHandleCachable sampleLibc {} (some .post) (some (Buffer.ofString (ascii "\"97\""))) none
      (some (ascii "Sat, 23 Jul 2005 21:20:01 GMT"))
      (Buffer.ofString (ascii "Sat, 23 Jul 2005 21:20:01 GMT"))).status = none := by decide
  rw [hnone] at hstatus
  cases hstatus

end

end Respond
end Lighttpd
