import Mathlib.Data.List.Basic

/-!
# Strings with a NUL behind

A stream of names and values, each of which ends in a NUL. `pairs` reads them.
-/

namespace NulStrings

/-- The strings of a stream; `acc` is what has been read of the first one, backwards. -/
def strings : List UInt8 → List UInt8 → Option (List (List UInt8))
  | acc, [] => if acc = [] then some [] else none
  | acc, c :: s => if c = 0 then (strings [] s).map (acc.reverse :: ·) else strings (c :: acc) s

/-- Two strings at a time. -/
def inPairs {α : Type} : List α → Option (List (α × α))
  | [] => some []
  | [_] => none
  | a :: b :: l => (inPairs l).map ((a, b) :: ·)

/-- **The names and values of a stream.** -/
def pairs (s : List UInt8) : Option (List (List UInt8 × List UInt8)) := (strings [] s).bind inPairs

/-- A name and a value, each with a NUL behind. -/
def encode (p : List UInt8 × List UInt8) : List UInt8 := p.1 ++ 0 :: (p.2 ++ [0])

theorem strings_append {s : List UInt8} (h : 0 ∉ s) (acc t : List UInt8) :
    strings acc (s ++ 0 :: t) = (strings [] t).map ((acc.reverse ++ s) :: ·) := by
  induction s generalizing acc with
  | nil => rw [List.nil_append, strings, if_pos rfl, List.append_nil]
  | cons c s ih =>
    rw [List.mem_cons, not_or] at h
    rw [List.cons_append, strings, if_neg (fun hc => h.1 hc.symm), ih h.2, List.reverse_cons, List.append_assoc,
      List.singleton_append]

theorem strings_flatMap {ps : List (List UInt8 × List UInt8)} (h : ∀ p ∈ ps, 0 ∉ p.1 ∧ 0 ∉ p.2) :
    strings [] (ps.flatMap encode) = some (ps.flatMap fun p => [p.1, p.2]) := by
  induction ps with
  | nil => rfl
  | cons p ps ih =>
    obtain ⟨⟨hname, hvalue⟩, hrest⟩ := List.forall_mem_cons.mp h
    have hsplit : (p :: ps).flatMap encode = p.1 ++ 0 :: (p.2 ++ 0 :: ps.flatMap encode) := by
      simp [List.flatMap_cons, encode]
    rw [hsplit, strings_append hname, strings_append hvalue, ih hrest]
    rfl

theorem inPairs_flatMap {α : Type} (ps : List (α × α)) : inPairs (ps.flatMap fun p => [p.1, p.2]) = some ps := by
  induction ps with
  | nil => rfl
  | cons p ps ih =>
    have hstep : inPairs ((p :: ps).flatMap fun p => [p.1, p.2]) =
        (inPairs (ps.flatMap fun p => [p.1, p.2])).map (p :: ·) := rfl
    rw [hstep, ih]
    rfl

/-- **Names and values without a NUL are read back.** -/
theorem pairs_flatMap {ps : List (List UInt8 × List UInt8)} (h : ∀ p ∈ ps, 0 ∉ p.1 ∧ 0 ∉ p.2) :
    pairs (ps.flatMap encode) = some ps := by
  rw [pairs, strings_flatMap h, Option.bind_some, inPairs_flatMap]

end NulStrings
