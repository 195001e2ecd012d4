import Lighttpd.Base.Itostr

/-!
# What luna prints (`cJSON.c`)

`cJSON_PrintUnformatted` of an object of numbers and strings. A member that is printed last can be read off the text as
it has been escaped (`printObject_last`), and text without special characters is printed as it is (`escape_plain`).
-/

namespace Lighttpd.Luna

def decimal (n : Int) : Bytes := if n < 0 then chr '-' :: liUtostrn n.natAbs else liUtostrn n.natAbs

inductive Value where
  | num (n : Int)
  | str (s : Bytes)
deriving DecidableEq, Repr

def hexDigit (n : Nat) : Byte := if n < 10 then (48 + n).toUInt8 else (87 + n).toUInt8

/-- One character in `print_string_ptr`. -/
def escapeByte (c : Byte) : Bytes :=
  if 31 < c ∧ c ≠ chr '\"' ∧ c ≠ chr '\\' then [c]
  else if c = chr '\\' then ascii "\\\\"
  else if c = chr '\"' then ascii "\\\""
  else if c = 8 then ascii "\\b"
  else if c = 12 then ascii "\\f"
  else if c = 10 then ascii "\\n"
  else if c = 13 then ascii "\\r"
  else if c = 9 then ascii "\\t"
  else ascii "\\u00" ++ [hexDigit (c.toNat / 16), hexDigit (c.toNat % 16)]

/-- The characters of a string in `print_string_ptr`. -/
def escape (s : Bytes) : Bytes := s.flatMap escapeByte

/-- `print_string_ptr`. -/
def printString (s : Bytes) : Bytes := chr '\"' :: (escape s ++ [chr '\"'])

/-- `print_value` of a number in the range of `int`, and of a string. -/
def printValue : Value → Bytes
  | .num n => decimal n
  | .str s => printString s

def printMember (m : Bytes × Value) : Bytes := printString m.1 ++ chr ':' :: printValue m.2

def printMembers : List (Bytes × Value) → Bytes
  | [] => []
  | [m] => printMember m
  | m :: ms => printMember m ++ chr ',' :: printMembers ms

def printObject (ms : List (Bytes × Value)) : Bytes := chr '\x7b' :: (printMembers ms ++ [chr '\x7d'])

/-! ## What can be read off the text -/

@[simp] theorem escape_append (s t : Bytes) : escape (s ++ t) = escape s ++ escape t := List.flatMap_append

def isPlain (c : Byte) : Bool := 31 < c && c != chr '\"' && c != chr '\\'

theorem escape_plain {s : Bytes} (h : ∀ c ∈ s, isPlain c = true) : escape s = s := by
  unfold escape
  induction s with
  | nil => rfl
  | cons c s ih =>
    have hc := h c List.mem_cons_self
    simp only [isPlain, Bool.and_eq_true, decide_eq_true_eq, bne_iff_ne, ne_eq] at hc
    rw [List.flatMap_cons, ih fun d hd => h d (List.mem_cons_of_mem c hd), escapeByte, if_pos ⟨hc.1.1, hc.1.2, hc.2⟩]
    rfl

theorem printMembers_last (ms : List (Bytes × Value)) :
    ∃ pre, ∀ m, printMembers (ms ++ [m]) = pre ++ printMember m := by
  induction ms with
  | nil => exact ⟨[], fun m => rfl⟩
  | cons m₀ ms ih =>
    obtain ⟨pre, hpre⟩ := ih
    refine ⟨printMember m₀ ++ chr ',' :: pre, fun m => ?_⟩
    have hcons : printMembers (m₀ :: (ms ++ [m])) = printMember m₀ ++ chr ',' :: printMembers (ms ++ [m]) := by
      cases ms <;> rfl
    rw [List.cons_append, hcons, hpre, List.append_assoc, List.cons_append]

/-- **The last member of an object is printed as its string has been escaped.** -/
theorem printObject_last {ms : List (Bytes × Value)} {name s s' : Bytes}
    (h : printObject (ms ++ [(name, .str s)]) = printObject (ms ++ [(name, .str s')])) : escape s = escape s' := by
  obtain ⟨pre, hpre⟩ := printMembers_last ms
  unfold printObject at h
  rw [hpre, hpre] at h
  simpa [printMember, printValue, printString] using h

/-! ## Decimal numbers -/

/-- A digit, or the minus sign. -/
def isDecimal (c : Byte) : Bool := Netstring.isDigit c || c == chr '-'

theorem isDecimal_iff {c : Byte} : isDecimal c = true ↔ (48 ≤ c ∧ c ≤ 57) ∨ c = chr '-' := by
  simp [isDecimal, Netstring.isDigit]

theorem decimal_isDecimal (n : Int) : ∀ c ∈ decimal n, isDecimal c = true := by
  have hdigits : ∀ c ∈ liUtostrn n.natAbs, isDecimal c = true := fun c hc => by
    simp [isDecimal, (liUtostrn_spec n.natAbs).2.1 c hc]
  intro c hc
  unfold decimal at hc
  split at hc
  · rcases List.mem_cons.mp hc with rfl | hc
    · rfl
    · exact hdigits c hc
  · exact hdigits c hc

theorem decimal_ne_nil (n : Int) : decimal n ≠ [] := by
  unfold decimal
  split
  · exact List.cons_ne_nil _ _
  · exact (liUtostrn_spec n.natAbs).1

theorem isPlain_of_isDecimal {c : Byte} (h : isDecimal c = true) : isPlain c = true := by
  rcases Iff.mp isDecimal_iff h with hc | rfl
  · have hquote : chr '\"' < 48 := by decide
    have hbackslash : 57 < chr '\\' := by decide
    grind [isPlain]
  · rfl

theorem toLower_of_isDecimal {c : Byte} (h : isDecimal (toLower c) = true) : toLower c = c := by
  refine (toLower_cases c).resolve_right fun ⟨_, hletter⟩ => ?_
  rcases Iff.mp isDecimal_iff h with hc | hc
  · grind
  · rw [hc] at hletter
    exact absurd hletter (by decide)

end Lighttpd.Luna
