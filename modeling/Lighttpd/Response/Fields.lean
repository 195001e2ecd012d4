import Lighttpd.Response.Run
import Lighttpd.Request.Fields
import Lighttpd.Lib.MessageLength

/-!
# What the header of a response announces

The values of `Transfer-Encoding` and `Content-Length` among the header fields that are written (`codingField`,
`lengthField`). `overwriteHeader` changes the value of its own field only (`valueOf_overwriteHeader`), and a number that
is written is read back (`decimal_liUtostrn`).
-/

namespace Lighttpd

namespace Request.Headers

def valueOf (hs : Headers) (key : Bytes) : Option Bytes := (hs.getElement key).map DataString.value

theorem getElement_cons (ds : DataString) (hs : Headers) (key : Bytes) :
    getElement (ds :: hs) key = if caselessCompare key ds.key = 0 then some ds else getElement hs key := by
  unfold getElement getIndex
  rw [List.findIdx?_cons]
  by_cases h : caselessCompare key ds.key = 0
  · simp [h]
  · simp only [h, beq_eq_false_iff_ne.mpr h, if_false, Bool.false_eq_true]
    cases List.findIdx? (fun ds => caselessCompare key ds.key == 0) hs <;> rfl

variable {hs : Headers} {key : Bytes}

theorem getIndex_eq_none (h : getElement hs key = none) : getIndex hs key = none := by
  cases hi : getIndex hs key with
  | none => rfl
  | some n =>
    obtain ⟨hlt, -⟩ := List.findIdx?_eq_some_iff_getElem.mp hi
    rw [getElement, hi, Option.bind_some, List.getElem?_eq_getElem hlt] at h
    cases h

theorem getElement_filter {p : DataString → Bool}
    (h : ∀ ds ∈ hs, caselessCompare key ds.key = 0 → p ds = true) : getElement (hs.filter p) key = getElement hs key := by
  induction hs with
  | nil => rfl
  | cons ds hs ih =>
    have ih := ih fun ds' hds' => h ds' (List.mem_cons_of_mem _ hds')
    have hds := h ds List.mem_cons_self
    rw [List.filter_cons, getElement_cons]
    by_cases hk : caselessCompare key ds.key = 0
    · rw [hds hk, if_pos rfl, getElement_cons, if_pos hk, if_pos hk]
    · rw [if_neg hk]
      split
      · rw [getElement_cons, if_neg hk, ih]
      · exact ih

theorem getElement_filter_none {p : DataString → Bool}
    (h : ∀ ds ∈ hs, caselessCompare key ds.key = 0 → p ds = false) : getElement (hs.filter p) key = none := by
  induction hs with
  | nil => rfl
  | cons ds hs ih =>
    have ih := ih fun ds' hds' => h ds' (List.mem_cons_of_mem _ hds')
    rw [List.filter_cons]
    split
    · rename_i hp
      have hk : ¬ caselessCompare key ds.key = 0 := fun hk => by
        rw [h ds List.mem_cons_self hk] at hp
        cases hp
      rw [getElement_cons, if_neg hk, ih]
    · exact ih

end Request.Headers

namespace Respond
open Request Backend MessageLength

theorem isKey_iff {key : Bytes} {name : String} : isKey key name = true ↔ key.map toLower = (ascii name).map toLower := by
  rw [isKey, beq_iff_eq, caselessCompare_eq_zero]

namespace Con

theorem overwriteHeader_cons (ds : DataString) (hs : Headers) (key value : Bytes) :
    overwriteHeader (ds :: hs) key value =
      if caselessCompare key ds.key = 0 then { ds with value := value } :: hs
      else ds :: overwriteHeader hs key value := by
  unfold overwriteHeader Headers.getIndex
  rw [List.findIdx?_cons]
  by_cases h : caselessCompare key ds.key = 0
  · simp [h]
  · simp only [h, beq_eq_false_iff_ne.mpr h, if_false, Bool.false_eq_true]
    cases List.findIdx? (fun ds => caselessCompare key ds.key == 0) hs <;> simp [List.modify_succ_cons]

/-- **Overwriting a field** changes its own value only. -/
theorem valueOf_overwriteHeader (hs : Headers) (key value name : Bytes) :
    (overwriteHeader hs key value).valueOf name =
      if caselessCompare name key = 0 then some value else hs.valueOf name := by
  unfold Headers.valueOf
  induction hs with
  | nil =>
    have hnil : overwriteHeader [] key value = [⟨key, value⟩] := rfl
    rw [hnil, Headers.getElement_cons]
    split <;> rfl
  | cons ds hs ih =>
    rw [overwriteHeader_cons, Headers.getElement_cons]
    by_cases hk : caselessCompare key ds.key = 0
    · rw [if_pos hk, Headers.getElement_cons]
      by_cases hn : caselessCompare name key = 0
      · rw [if_pos hn, if_pos (caselessCompare_trans hn hk)]
        rfl
      · rw [if_neg hn, if_neg fun h => hn (caselessCompare_trans h (caselessCompare_symm hk))]
        rw [if_neg fun h => hn (caselessCompare_trans h (caselessCompare_symm hk))]
    · rw [if_neg hk, Headers.getElement_cons]
      by_cases hds : caselessCompare name ds.key = 0
      · rw [if_pos hds, if_pos hds, if_neg fun h => hk (caselessCompare_trans (caselessCompare_symm h) hds)]
      · rw [if_neg hds, if_neg hds, ih]

/-! ## The two fields -/

def codingField (c : Con) : Option Bytes := c.fields.valueOf (ascii "Transfer-Encoding")

def lengthField (c : Con) : Option Bytes := c.fields.valueOf (ascii "Content-Length")

theorem isWritten_of_key {c : Con} {ds : DataString} {name : Bytes} (h : caselessCompare name ds.key = 0)
    (hx : isKey (name.take 11) "X-LIGHTTPD-" = false)
    (hs : isKey (name.take 10) "X-Sendfile" = false) (he : isKey name "Content-Encoding" = false)
    (hc : c.lengthReset = true → isKey name "Content-Length" = false) : c.isWritten ds = true := by
  have hmap : ds.key.map toLower = name.map toLower := (caselessCompare_eq_zero.mp h).symm
  have hkey : ∀ n, isKey ds.key n = isKey name n := fun n => by
    rw [Bool.eq_iff_iff, isKey_iff, isKey_iff, hmap]
  have htake : ∀ n m, isKey (ds.key.take m) n = isKey (name.take m) n := fun n m => by
    rw [Bool.eq_iff_iff, isKey_iff, isKey_iff, List.map_take, List.map_take, hmap]
  have hl' : hasPrefix ds.key "X-LIGHTTPD-" = false := (htake _ _).trans hx
  have hs' : hasPrefix ds.key "X-Sendfile" = false := (htake _ _).trans hs
  unfold isWritten
  rw [hkey, hkey, hl', hs', he]
  cases hr : c.lengthReset with
  | true =>
    rw [hc hr]
    rfl
  | false => rfl

theorem codingField_eq (c : Con) : c.codingField = c.reply.headers.valueOf (ascii "Transfer-Encoding") := by
  unfold codingField fields Headers.valueOf
  rw [Headers.getElement_filter]
  intro ds _ h
  exact isWritten_of_key h (by decide) (by decide) (by decide) fun _ => by decide

theorem lengthField_eq (c : Con) :
    c.lengthField = if c.lengthReset then none else c.reply.headers.valueOf (ascii "Content-Length") := by
  unfold lengthField fields Headers.valueOf
  cases hr : c.lengthReset with
  | true =>
    rw [Headers.getElement_filter_none, if_pos rfl]
    · rfl
    · intro ds _ h
      have hkey : isKey ds.key "Content-Length" = true := isKey_iff.mpr (caselessCompare_eq_zero.mp h).symm
      simp [isWritten, hr, hkey]
  | false =>
    rw [Headers.getElement_filter, if_neg Bool.false_ne_true]
    intro ds _ h
    exact isWritten_of_key h (by decide) (by decide) (by decide) fun h' => by rw [hr] at h'; cases h'

theorem fields_congr (c c' : Con) (hr : c'.reply = c.reply) (hl : c'.lengthReset = c.lengthReset) :
    c'.lengthField = c.lengthField ∧ c'.codingField = c.codingField := by
  rw [lengthField_eq, lengthField_eq, codingField_eq, codingField_eq, hr, hl]
  exact ⟨rfl, rfl⟩

/-- Overwriting `Transfer-Encoding`. -/
theorem codingField_overwrite (c : Con) (key value : Bytes) : (c.responseHeaderOverwrite key value).codingField =
    if caselessCompare (ascii "Transfer-Encoding") key = 0 then some value else c.codingField := by
  rw [codingField_eq, codingField_eq]
  exact valueOf_overwriteHeader _ _ _ _

/-- Overwriting `Content-Length`. -/
theorem lengthField_overwrite (c : Con) (key value : Bytes) : (c.responseHeaderOverwrite key value).lengthField =
    if caselessCompare (ascii "Content-Length") key = 0 then some value else c.lengthField := by
  have hvalue := valueOf_overwriteHeader c.reply.headers key value (ascii "Content-Length")
  rw [lengthField_eq, lengthField_eq]
  unfold responseHeaderOverwrite setHeaders
  dsimp only
  rw [hvalue]
  by_cases h : caselessCompare (ascii "Content-Length") key = 0
  · have hkey : isKey key "Content-Length" = true := isKey_iff.mpr (caselessCompare_eq_zero.mp h).symm
    simp [h, hkey]
  · have hkey : isKey key "Content-Length" = false := by
      rw [Bool.eq_false_iff]
      exact fun hk => h (caselessCompare_eq_zero.mpr (isKey_iff.mp hk).symm)
    simp [h, hkey]

/-- **A length that is written is read back.** -/
theorem decimal_liUtostrn (n : Nat) : decimal (liUtostrn n) = some n := by
  obtain ⟨hne, -, hn⟩ := liUtostrn_spec n
  rw [decimal, if_neg hne, hn]

theorem endsChunked_chunked : endsChunked (ascii "chunked") = true := by decide

end Con
end Respond
end Lighttpd
