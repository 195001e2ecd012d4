import Mathlib.Data.List.Basic

/-!
# Splitting a stream that arrives in pieces

A reader that has to find the end of a head appends every piece to what it has and scans all of it again. When the scan
finds nothing, what has accumulated is compared with a limit. A scan whose verdict stays when more follows is a
`Scanner`.

- `accumulate_refused_iff`: the head is refused exactly when some piece ends behind the limit inside the head;
- `accumulate_found`, `accumulate_pending`: otherwise the pieces do not matter.
-/

namespace Splitter

variable {α β : Type}

/-- A scan for the end of a head; its verdict on a stream stays when more follows. -/
structure Scanner (α β : Type) where
  scan : List α → Option β
  stable : ∀ {s v}, scan s = some v → ∀ t, scan (s ++ t) = some v

/-- What has become of the head: it is not complete, too large, or found in what has accumulated by then. -/
inductive Result (α β : Type)
  | pending (buf : List α)
  | refused
  | found (v : β) (buf : List α) (rest : List (List α))
deriving DecidableEq, Repr

/-- **The reader**: `buf` is what has accumulated, and the list is what is to come. -/
def accumulate (scan : List α → Option β) (limit : Nat) (buf : List α) : List (List α) → Result α β
  | [] => .pending buf
  | d :: ds =>
    match scan (buf ++ d) with
    | some v => .found v (buf ++ d) ds
    | none => if limit < (buf ++ d).length then .refused else accumulate scan limit (buf ++ d) ds

/-- What has accumulated when the scan finds something for the first time. -/
def arrival (scan : List α → Option β) (buf : List α) : List (List α) → Option (List α)
  | [] => none
  | d :: ds => if (scan (buf ++ d)).isSome then some (buf ++ d) else arrival scan (buf ++ d) ds

/-- **Some piece ends behind the limit, and the head is not complete there.** -/
def Overrun (scan : List α → Option β) (limit : Nat) (buf : List α) (ds : List (List α)) : Prop :=
  ∃ k, 0 < k ∧ k ≤ ds.length ∧ limit < (buf ++ (ds.take k).flatten).length ∧ scan (buf ++ (ds.take k).flatten) = none

/-- Nothing is lost of a scan when more follows. -/
def Lasting (scan : List α → Option β) : Prop := ∀ s t, scan (s ++ t) = none → scan s = none

theorem Scanner.lasting (sc : Scanner α β) : Lasting sc.scan := by
  intro s t h
  cases hs : sc.scan s with
  | none => rfl
  | some v =>
    rw [sc.stable hs t] at h
    cases h

variable {scan : List α → Option β} {limit : Nat}

theorem not_overrun_nil (buf : List α) : ¬ Overrun scan limit buf [] := by
  rintro ⟨k, hpos, hk, -⟩
  rw [List.length_nil] at hk
  omega

variable {buf buf' : List α} {ds : List (List α)} {v : β}

theorem overrun_cons {d : List α} : Overrun scan limit buf (d :: ds) ↔
      (limit < (buf ++ d).length ∧ scan (buf ++ d) = none) ∨ Overrun scan limit (buf ++ d) ds := by
  have hflat : ∀ k, buf ++ ((d :: ds).take (k + 1)).flatten = buf ++ d ++ (ds.take k).flatten := fun k => by
    rw [List.take_succ_cons, List.flatten_cons, List.append_assoc]
  constructor
  · rintro ⟨k, hpos, hk, hlong, hnone⟩
    obtain ⟨k, rfl⟩ : ∃ j, k = j + 1 := ⟨k - 1, by omega⟩
    rw [hflat] at hlong hnone
    rcases Nat.eq_zero_or_pos k with rfl | hk0
    · rw [List.take_zero, List.flatten_nil, List.append_nil] at hlong hnone
      exact Or.inl ⟨hlong, hnone⟩
    · exact Or.inr ⟨k, hk0, by rw [List.length_cons] at hk; omega, hlong, hnone⟩
  · rintro (⟨hlong, hnone⟩ | ⟨k, hpos, hk, hlong, hnone⟩)
    · refine ⟨1, Nat.one_pos, by simp, ?_⟩
      rw [hflat 0, List.take_zero, List.flatten_nil, List.append_nil]
      exact ⟨hlong, hnone⟩
    · refine ⟨k + 1, Nat.succ_pos k, Nat.succ_le_succ hk, ?_⟩
      rw [hflat]
      exact ⟨hlong, hnone⟩

theorem not_overrun_of_found (hl : Lasting scan) (h : scan buf = some v)
    (ds : List (List α)) : ¬ Overrun scan limit buf ds := by
  rintro ⟨k, -, -, -, hnone⟩
  have := hl _ _ hnone
  rw [h] at this
  cases this

/-- **The head is refused exactly when a piece ends behind the limit inside the head.** -/
theorem accumulate_refused_iff (limit : Nat) (hl : Lasting scan) (buf : List α) (ds : List (List α)) :
    accumulate scan limit buf ds = .refused ↔ Overrun scan limit buf ds := by
  induction ds generalizing buf with
  | nil =>
    constructor
    · intro h
      cases h
    · intro h
      exact absurd h (not_overrun_nil buf)
  | cons d ds ih =>
    unfold accumulate
    rw [overrun_cons]
    cases hscan : scan (buf ++ d) with
    | some v =>
      constructor
      · intro h
        cases h
      · rintro (⟨-, h⟩ | h)
        · cases h
        · exact absurd h (not_overrun_of_found hl hscan ds)
    | none =>
      dsimp only
      by_cases hlong : limit < (buf ++ d).length
      · rw [if_pos hlong]
        exact iff_of_true rfl (Or.inl ⟨hlong, rfl⟩)
      · rw [if_neg hlong, ih]
        exact ⟨Or.inr, fun h => h.resolve_left fun h' => hlong h'.1⟩

/-- Where the head has been found: nothing is lost, and it had not been found before. -/
theorem accumulate_arrival {rest : List (List α)} (h : accumulate scan limit buf ds = .found v buf' rest) :
    scan buf' = some v ∧ buf' ++ rest.flatten = buf ++ ds.flatten ∧ arrival scan buf ds = some buf' := by
  induction ds generalizing buf with
  | nil => cases h
  | cons d ds ih =>
    unfold accumulate at h
    unfold arrival
    rw [List.flatten_cons, ← List.append_assoc]
    cases hscan : scan (buf ++ d) with
    | some v' =>
      rw [hscan] at h
      cases h
      exact ⟨hscan, rfl, rfl⟩
    | none =>
      rw [hscan] at h
      dsimp only at h
      split at h
      · cases h
      · exact ih h

/-- While the head is pending, all pieces accumulate and the scan finds nothing. -/
theorem accumulate_pending (hbuf : scan buf = none)
    (h : accumulate scan limit buf ds = .pending buf') : buf' = buf ++ ds.flatten ∧ scan buf' = none := by
  induction ds generalizing buf with
  | nil =>
    cases h
    exact ⟨(List.append_nil _).symm, hbuf⟩
  | cons d ds ih =>
    unfold accumulate at h
    rw [List.flatten_cons, ← List.append_assoc]
    cases hscan : scan (buf ++ d) with
    | some v =>
      rw [hscan] at h
      cases h
    | none =>
      rw [hscan] at h
      dsimp only at h
      split at h
      · cases h
      · exact ih hscan h

/-- **The verdict of a scanner is its verdict on the whole stream.** -/
theorem accumulate_found (sc : Scanner α β) {rest : List (List α)}
    (h : accumulate sc.scan limit buf ds = .found v buf' rest) : sc.scan (buf ++ ds.flatten) = some v := by
  obtain ⟨hscan, heq, -⟩ := accumulate_arrival h
  rw [← heq]
  exact sc.stable hscan _

end Splitter
