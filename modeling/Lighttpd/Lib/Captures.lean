import Mathlib.Data.List.Basic

/-!
# What a regular expression captures

A match says which part of the subject each group has captured, if it is set. A search reports this in a vector with
some slots, and returns one more than the highest group that is set, or zero if there are more groups than slots.

- `substring_eq`: a report that fits has the captures;
- `flatMap_eq_iff`: pieces that are not longer than others make the same text only if they are the same.
-/

namespace Captures

/-- A match: the part of the subject that matches, and the parts of the groups that are set. -/
structure Match where
  whole : Nat × Nat
  groups : List (Option (Nat × Nat))

/-- One more than the highest position that is set. -/
def setCount {α : Type} : List (Option α) → Nat
  | [] => 0
  | g :: gs => if setCount gs = 0 ∧ g.isNone then 0 else setCount gs + 1

theorem getElem?_of_setCount_le {α : Type} {gs : List (Option α)} {k : Nat} (h : setCount gs ≤ k) :
    gs[k]?.join = none := by
  induction gs generalizing k with
  | nil => rfl
  | cons g gs ih =>
    unfold setCount at h
    split at h
    · rename_i hnone
      cases k with
      | zero => simp [Option.isNone_iff_eq_none.mp hnone.2]
      | succ k => exact ih (by omega)
    · cases k with
      | zero => omega
      | succ k => exact ih (by omega)

namespace Match

variable {α : Type} {m : Match} {subject : List α} {slots k : Nat}

/-- The part of a group; group `0` is the whole match. -/
def span (m : Match) (k : Nat) : Option (Nat × Nat) := (some m.whole :: m.groups)[k]?.join

/-- **The text of capture `k`**, which is empty if the group is not set. -/
def capture (m : Match) (subject : List α) (k : Nat) : List α :=
  match m.span k with
  | some (i, j) => (subject.drop i).take (j - i)
  | none => []

def count (m : Match) : Nat := setCount (some m.whole :: m.groups)

def returned (m : Match) (slots : Nat) : Nat := if m.count ≤ slots then m.count else 0

/-- The vector that a search fills. -/
def vector (m : Match) (slots : Nat) : List (Int × Int) :=
  (List.range slots).map fun k => ((m.span k).map fun p => ((p.1 : Int), (p.2 : Int))).getD (-1, -1)

/-- The strings that a vector describes. -/
def substringList (subject : List α) (vector : List (Int × Int)) (count : Nat) : List (List α) :=
  (vector.take count).map fun p => (subject.drop p.1.toNat).take (p.2 - p.1).toNat

theorem capture_of_count_le (h : m.count ≤ k) : m.capture subject k = [] := by
  have hspan : m.span k = none := getElem?_of_setCount_le h
  rw [capture, hspan]

theorem substring_eq (hk : k < m.count) (hslots : m.count ≤ slots) :
    (substringList subject (m.vector slots) m.count)[k]? = some (m.capture subject k) := by
  have hrange : (List.range slots)[k]? = some k := by
    rw [List.getElem?_range (by omega)]
  rw [substringList, List.getElem?_map, List.getElem?_take_of_lt hk, vector, List.getElem?_map, hrange, Option.map_some,
    Option.map_some, capture]
  cases m.span k with
  | none => simp
  | some p => simp

end Match

/-! ## Text made of pieces -/

variable {α β : Type} {f g : α → List β} {l : List α}

theorem length_flatMap_le (h : ∀ x ∈ l, (f x).length ≤ (g x).length) : (l.flatMap f).length ≤ (l.flatMap g).length := by
  induction l with
  | nil => exact Nat.le_refl _
  | cons x l ih =>
    have hx := h x List.mem_cons_self
    have hl := ih fun y hy => h y (List.mem_cons_of_mem _ hy)
    rw [List.flatMap_cons, List.flatMap_cons, List.length_append, List.length_append]
    omega

/-- **Pieces that are not longer make the same text only if they are the same.** -/
theorem flatMap_eq_iff (h : ∀ x ∈ l, (f x).length ≤ (g x).length) : l.flatMap f = l.flatMap g ↔ ∀ x ∈ l, f x = g x := by
  induction l with
  | nil => simp
  | cons x l ih =>
    have hx := h x List.mem_cons_self
    have hl : ∀ y ∈ l, (f y).length ≤ (g y).length := fun y hy => h y (List.mem_cons_of_mem _ hy)
    rw [List.flatMap_cons, List.flatMap_cons, List.forall_mem_cons]
    constructor
    · intro heq
      have hlen := congrArg List.length heq
      rw [List.length_append, List.length_append] at hlen
      have hle := length_flatMap_le hl
      obtain ⟨hfx, hrest⟩ := List.append_inj heq (by omega)
      exact ⟨hfx, (ih hl).mp hrest⟩
    · rintro ⟨hfx, hrest⟩
      rw [hfx, (ih hl).mpr hrest]

end Captures
