import Mathlib.Algebra.Group.Nat.Defs
import Mathlib.Algebra.Group.Int.Defs
import Mathlib.Data.List.Basic
import Mathlib.Data.List.TakeWhile

/-!
# Bytes and characters

Strings of the source are lists of bytes. `ascii` writes a string constant of the source; `cstr` is what the string
functions of C see of a byte sequence, up to its first NUL.
-/

namespace Lighttpd

abbrev Byte := UInt8
abbrev Bytes := List UInt8

def ascii (s : String) : Bytes := s.toList.map fun c => c.toNat.toUInt8

/-- The bytes of a string constant; a constant is made of its characters by definition. -/
theorem ascii_ofList (l : List Char) : ascii (String.ofList l) = l.map fun c => c.toNat.toUInt8 := by
  rw [ascii, String.toList_ofList]

theorem ascii_append (s t : String) : ascii (s ++ t) = ascii s ++ ascii t := by
  rw [ascii, String.toList_append, List.map_append]
  rfl

/-- The byte of a character constant. -/
def chr (c : Char) : Byte := c.toNat.toUInt8

def cstr (s : Bytes) : Bytes := s.takeWhile (· ≠ 0)

theorem cstr_eq_self {s : Bytes} (h : (0 : Byte) ∉ s) : cstr s = s := by
  refine List.takeWhile_eq_self_iff.mpr fun c hc => ?_
  rw [decide_eq_true_eq]
  rintro rfl
  exact h hc

theorem cstr_eq_iff {s : Bytes} : cstr s = s ↔ (0 : Byte) ∉ s := by
  refine ⟨fun h hmem => ?_, cstr_eq_self⟩
  have hne := List.takeWhile_eq_self_iff.mp h 0 hmem
  simp at hne

theorem forall_byte {p : Byte → Bool} (h : ∀ n : Fin 256, p (UInt8.ofNat n) = true) (c : Byte) : p c = true := by
  have hc := h ⟨c.toNat, c.toNat_lt⟩
  rwa [UInt8.ofNat_toNat] at hc

/-- The first occurrence of a byte, with what stands before and behind it. -/
theorem idxOf?_split {a : Byte} {s : Bytes} {k : Nat} (h : s.idxOf? a = some k) :
    s = s.take k ++ a :: s.drop (k + 1) ∧ a ∉ s.take k := by
  obtain ⟨hk, ha, hfirst⟩ := List.idxOf?_eq_some_iff.mp h
  refine ⟨?_, fun hmem => ?_⟩
  · rw [← ha, List.getElem_cons_drop, List.take_append_drop]
  · obtain ⟨j, hj, hja⟩ := List.getElem_of_mem hmem
    rw [List.getElem_take] at hja
    exact hfirst j (by rw [List.length_take] at hj; omega) hja

theorem idxOf?_append_cons {a : Byte} {s : Bytes} (h : a ∉ s) (t : Bytes) : (s ++ a :: t).idxOf? a = some s.length := by
  rw [List.idxOf?_eq_some_iff]
  refine ⟨by simp, by simp, fun j hj heq => h ?_⟩
  rw [List.getElem_append_left hj] at heq
  exact heq ▸ List.getElem_mem hj

def lightIsdigit (c : Byte) : Bool := 48 ≤ c && c ≤ 57

/-- `light_isalpha`: `c |= 32` first. -/
def lightIsalpha (c : Byte) : Bool := 97 ≤ (c ||| 32) && (c ||| 32) ≤ 122

def lightIsxdigit (c : Byte) : Bool := lightIsdigit c || (97 ≤ (c ||| 32) && (c ||| 32) ≤ 102)

def lightIsalnum (c : Byte) : Bool := lightIsdigit c || lightIsalpha c

def toLower (c : Byte) : Byte := if 65 ≤ c ∧ c ≤ 90 then c ||| 32 else c

theorem lightIsdigit_iff {c : Byte} : lightIsdigit c = true ↔ 48 ≤ c ∧ c ≤ 57 := by
  simp [lightIsdigit]

theorem toLower_cases (c : Byte) : toLower c = c ∨ (65 ≤ c ∧ c ≤ 90) ∧ 97 ≤ toLower c ∧ toLower c ≤ 122 :=
  of_decide_eq_true (forall_byte
    (p := fun c => decide (toLower c = c ∨ (65 ≤ c ∧ c ≤ 90) ∧ 97 ≤ toLower c ∧ toLower c ≤ 122)) (by decide +kernel) c)

theorem toLower_eq_iff {c d : Byte} (hd : d < 65 ∨ 122 < d) : toLower c = d ↔ c = d := by
  constructor
  · intro h
    rcases toLower_cases c with hc | hc
    · exact hc.symm.trans h
    · rw [h] at hc
      grind
  · rintro rfl
    exact if_neg (by grind)

end Lighttpd
