import Mathlib.Data.List.Basic

/-!
# Netstrings

A netstring is a length in decimal digits, a colon, as many bytes, and a comma. `decode` takes the first one off a
stream.
-/

namespace Netstring

def isDigit (c : UInt8) : Bool := 48 ≤ c && c ≤ 57

/-- The number that digits stand for, `n` being that of the digits before. -/
def number : Nat → List UInt8 → Option Nat
  | n, [] => some n
  | n, c :: s => if isDigit c then number (n * 10 + (c.toNat - 48)) s else none

/-- What follows the digits. -/
def content (n : Nat) : List UInt8 → Option (List UInt8 × List UInt8)
  | [] => none
  | c :: s => if c = 58 ∧ s[n]? = some 44 then some (s.take n, s.drop (n + 1)) else none

/-- **The first netstring of a stream, and the rest.** -/
def decode (s : List UInt8) : Option (List UInt8 × List UInt8) :=
  if s.takeWhile isDigit = [] then none
  else (number 0 (s.takeWhile isDigit)).bind fun n => content n (s.dropWhile isDigit)

/-- **A netstring that is written is read back.** -/
theorem decode_append {digits c : List UInt8} (hne : digits ≠ []) (hd : ∀ d ∈ digits, isDigit d)
    (hn : number 0 digits = some c.length) (t : List UInt8) :
    decode (digits ++ 58 :: (c ++ 44 :: t)) = some (c, t) := by
  have htake : (digits ++ 58 :: (c ++ 44 :: t)).takeWhile isDigit = digits := by
    rw [List.takeWhile_append_of_pos hd, List.takeWhile_cons_of_neg (by decide), List.append_nil]
  have hdrop : (digits ++ 58 :: (c ++ 44 :: t)).dropWhile isDigit = 58 :: (c ++ 44 :: t) := by
    rw [List.dropWhile_append_of_pos hd, List.dropWhile_cons_of_neg (by decide)]
  unfold decode
  rw [htake, hdrop, if_neg hne, hn, Option.bind_some]
  unfold content
  have hcomma : (c ++ 44 :: t)[c.length]? = some 44 := by simp
  dsimp only
  rw [if_pos ⟨rfl, hcomma⟩, List.take_left, ← List.drop_drop, List.drop_left]
  rfl

end Netstring
