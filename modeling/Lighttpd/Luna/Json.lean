import Lighttpd.Lib.Quotes
import Lighttpd.Luna.TidArray

/-!
# Documents that are printed (`cJSON.c`)

`cJSON_PrintUnformatted` of any document. What is printed is balanced: its quotes are closed, and there is no backslash and
no `^` outside of its strings.

- `quoted_printObject`: an object of numbers and strings;
- `quoted_printJson`: any document.
-/

namespace Lighttpd.Luna
open Quotes

/-! ## Documents -/

/-- What `print_number` writes: digits, signs, a point, the letter of an exponent, and `null`. -/
def isNumberChar (c : Byte) : Bool := isDecimal c || (ascii "+.enul").contains c

structure NumberText where
  text : Bytes
  chars : ∀ c ∈ text, isNumberChar c = true

/-- A document, as far as it is printed. -/
inductive Json where
  | null
  | bool (b : Bool)
  | number (n : NumberText)
  | string (s : Bytes)
  | array (items : List Json)
  | object (members : List (Bytes × Json))

mutual

def printJson : Json → Bytes
  | .null => ascii "null"
  | .bool b => if b then ascii "true" else ascii "false"
  | .number n => n.text
  | .string s => printString s
  | .array items => chr '[' :: ([chr ','].intercalate (printItems items) ++ [chr ']'])
  | .object members => chr '\x7b' :: ([chr ','].intercalate (printJsonMembers members) ++ [chr '\x7d'])

def printItems : List Json → List Bytes
  | [] => []
  | j :: js => printJson j :: printItems js

def printJsonMembers : List (Bytes × Json) → List Bytes
  | [] => []
  | (name, j) :: ms => (printString name ++ chr ':' :: printJson j) :: printJsonMembers ms

end

/-! ## Quotes -/

/-- The quotes of a text are closed, and there is no backslash and no `^` outside of its strings. -/
def Quoted (s : Bytes) : Prop := Balanced (chr '\"') (chr '\\') (· = chr '^') s

/-- No character of the text has a meaning. -/
def isBare (c : Byte) : Bool := c != chr '\"' && c != chr '\\' && c != chr '^'

variable {s t : Bytes} {c : Byte}

theorem isBare_iff : isBare c = true ↔ c ≠ chr '\"' ∧ c ≠ chr '\\' ∧ c ≠ chr '^' := by
  simp [isBare, and_assoc]

theorem quoted_bare (h : ∀ c ∈ s, isBare c = true) : Quoted s :=
  within_plain (fun c hc => ⟨(Iff.mp isBare_iff (h c hc)).1, (Iff.mp isBare_iff (h c hc)).2.1⟩)
    (fun _ c hc => (Iff.mp isBare_iff (h c hc)).2.2) nofun

theorem Quoted.append (hs : Quoted s) (ht : Quoted t) : Quoted (s ++ t) := Within.append hs ht

theorem Quoted.cons (hc : isBare c = true) (hs : Quoted s) : Quoted (c :: s) :=
  @Quoted.append [c] s (quoted_bare (by simpa using hc)) hs

theorem Quoted.bracket {d : Byte} (hc : isBare c = true) (hd : isBare d = true) (hs : Quoted s) :
    Quoted (c :: (s ++ [d])) :=
  (hs.append (quoted_bare (by simpa using hd))).cons hc

theorem quoted_intercalate {ts : List Bytes} (h : ∀ t ∈ ts, Quoted t) : Quoted ([chr ','].intercalate ts) := by
  induction ts with
  | nil => exact quoted_bare nofun
  | cons t ts ih =>
    rw [List.forall_mem_cons] at h
    cases ts with
    | nil => simpa [List.intercalate] using h.1
    | cons t' ts =>
      rw [intercalate_cons_cons]
      exact h.1.append ((ih h.2).cons (by decide))

/-! ## What is printed -/

theorem within_escapeByte (c : Byte) :
    Within (chr '\"') (chr '\\') (· = chr '^') .inside (escapeByte c) .inside := by
  have hplain : ∀ s : Bytes, (∀ d ∈ s, d ≠ chr '\"' ∧ d ≠ chr '\\') →
      Within (chr '\"') (chr '\\') (· = chr '^') .inside s .inside := by
    intro s hs
    exact within_plain hs (by rintro ⟨⟩) (by rintro ⟨⟩)
  -- a backslash and the character it takes with it
  have hescaped : ∀ (d : Byte) (s : Bytes), (∀ e ∈ s, e ≠ chr '\"' ∧ e ≠ chr '\\') →
      Within (chr '\"') (chr '\\') (· = chr '^') .inside (chr '\\' :: d :: s) .inside := by
    intro d s hs
    exact ⟨by rintro ⟨⟩, by rintro ⟨⟩, hplain s hs⟩
  have hnone : ∀ e ∈ ([] : Bytes), e ≠ chr '\"' ∧ e ≠ chr '\\' := by simp
  have hhex : ∀ n < 16, hexDigit n ≠ chr '\"' ∧ hexDigit n ≠ chr '\\' := by decide
  have hlow := hhex (c.toNat % 16) (Nat.mod_lt _ (by omega))
  have hhigh := hhex (c.toNat / 16) (Nat.div_lt_of_lt_mul c.toNat_lt)
  have hzero : chr '0' ≠ chr '\"' ∧ chr '0' ≠ chr '\\' := by decide
  have hunicode : ∀ d ∈ [chr '0', chr '0', hexDigit (c.toNat / 16), hexDigit (c.toNat % 16)],
      d ≠ chr '\"' ∧ d ≠ chr '\\' := by
    simp only [List.forall_mem_cons]
    exact ⟨hzero, hzero, hhigh, hlow, hnone⟩
  unfold escapeByte
  split_ifs with hc
  · exact hplain _ (by simpa using hc.2)
  · exact hescaped _ [] hnone
  · exact hescaped _ [] hnone
  · exact hescaped _ [] hnone
  · exact hescaped _ [] hnone
  · exact hescaped _ [] hnone
  · exact hescaped _ [] hnone
  · exact hescaped _ [] hnone
  · exact hescaped (chr 'u') _ hunicode

theorem quoted_printString (s : Bytes) : Quoted (printString s) := by
  have hescape : Within (chr '\"') (chr '\\') (· = chr '^') .inside (escape s) .inside := by
    unfold escape
    induction s with
    | nil => rfl
    | cons c s ih => exact (within_escapeByte c).append ih
  exact within_string hescape (by decide) (by decide)

theorem isBare_of_isNumberChar (h : isNumberChar c = true) : isBare c = true := by
  have hall := @forall_byte (fun c => !isNumberChar c || isBare c) (by decide +kernel) c
  simpa [h] using hall

theorem quoted_decimal (n : Int) : Quoted (decimal n) :=
  quoted_bare fun c hc => isBare_of_isNumberChar (by simp [isNumberChar, decimal_isDecimal n c hc])

theorem quoted_printMember (m : Bytes × Value) : Quoted (printMember m) := by
  refine (quoted_printString m.1).append (Quoted.cons (by decide) ?_)
  cases m.2 with
  | num n => exact quoted_decimal n
  | str s => exact quoted_printString s

/-- **An object of numbers and strings.** -/
theorem quoted_printObject (ms : List (Bytes × Value)) : Quoted (printObject ms) := by
  have hmembers : Quoted (printMembers ms) := by
    induction ms with
    | nil => exact quoted_bare nofun
    | cons m ms ih =>
      cases ms with
      | nil => exact quoted_printMember m
      | cons m' ms => exact (quoted_printMember m).append (ih.cons (by decide))
  exact hmembers.bracket (by decide) (by decide)

mutual

/-- **Any document.** -/
theorem quoted_printJson : ∀ j : Json, Quoted (printJson j)
  | .null => quoted_bare (List.all_eq_true.mp rfl)
  | .bool false => quoted_bare (List.all_eq_true.mp rfl)
  | .bool true => quoted_bare (List.all_eq_true.mp rfl)
  | .number n => quoted_bare fun c hc => isBare_of_isNumberChar (n.chars c hc)
  | .string s => quoted_printString s
  | .array items => (quoted_intercalate (quoted_printItems items)).bracket (by decide) (by decide)
  | .object members => (quoted_intercalate (quoted_printJsonMembers members)).bracket (by decide) (by decide)

theorem quoted_printItems : ∀ (js : List Json), ∀ t ∈ printItems js, Quoted t
  | [] => nofun
  | j :: js => by
    rw [printItems, List.forall_mem_cons]
    exact ⟨quoted_printJson j, quoted_printItems js⟩

theorem quoted_printJsonMembers : ∀ (ms : List (Bytes × Json)), ∀ t ∈ printJsonMembers ms, Quoted t
  | [] => nofun
  | (name, j) :: ms => by
    rw [printJsonMembers, List.forall_mem_cons]
    exact ⟨(quoted_printString name).append ((quoted_printJson j).cons (by decide)), quoted_printJsonMembers ms⟩

end

end Lighttpd.Luna
