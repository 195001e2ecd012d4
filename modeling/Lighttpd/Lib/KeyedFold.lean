import Mathlib.Algebra.Ring.Int.Defs
import Mathlib.Algebra.BigOperators.Group.List.Basic
import Mathlib.Data.List.AList

/-!
# A loop over the keys of a map

`visit f m` changes the value of every key of `m` in turn, and collects what `f` reports of it. Every key is visited
once, so that the loop is known key by key.

- `lookup_visit`: the value of a key after the loop;
- `sum_visit`: the sum over the reports that belong to one key;
- `mem_visit`: the reports.
-/

namespace KeyedFold

variable {κ ν ε : Type} [DecidableEq κ]

abbrev Map (κ ν : Type) [DecidableEq κ] := AList fun _ : κ => ν

def visitKey (f : κ → ν → ν × List ε) (s : Map κ ν × List ε) (k : κ) : Map κ ν × List ε :=
  match s.1.lookup k with
  | some v => (s.1.insert k (f k v).1, s.2 ++ (f k v).2)
  | none => s

def visitKeys (f : κ → ν → ν × List ε) (ks : List κ) (s : Map κ ν × List ε) : Map κ ν × List ε :=
  ks.foldl (visitKey f) s

/-- **The loop over all keys.** -/
def visit (f : κ → ν → ν × List ε) (m : Map κ ν) : Map κ ν × List ε := visitKeys f m.keys (m, [])

def keep (p : κ → Bool) (m : Map κ ν) : Map κ ν := m.keys.foldl (fun m k => if p k then m else m.erase k) m

variable {f : κ → ν → ν × List ε} {m : Map κ ν}

theorem lookup_visitKey (s : Map κ ν × List ε) (k j : κ) : (visitKey f s k).1.lookup j =
    if j = k then (s.1.lookup j).map fun v => (f j v).1 else s.1.lookup j := by
  unfold visitKey
  by_cases hj : j = k
  · subst hj
    rw [if_pos rfl]
    cases hv : s.1.lookup j with
    | none => simp [hv]
    | some v => simp
  · rw [if_neg hj]
    split
    · exact AList.lookup_insert_ne hj
    · rfl

theorem lookup_visitKeys {ks : List κ} (hnodup : ks.Nodup) (s : Map κ ν × List ε) (j : κ) :
    (visitKeys f ks s).1.lookup j = if j ∈ ks then (s.1.lookup j).map fun v => (f j v).1 else s.1.lookup j := by
  induction ks generalizing s with
  | nil => rfl
  | cons k ks ih =>
    obtain ⟨hk, hks⟩ := List.nodup_cons.mp hnodup
    have hstep := lookup_visitKey (f := f) s k j
    show (visitKeys f ks (visitKey f s k)).1.lookup j = _
    rw [ih hks, hstep]
    by_cases hj : j = k
    · subst hj
      simp [hk]
    · simp [hj]

/-- **Every key has been visited once.** -/
theorem lookup_visit (j : κ) : (visit f m).1.lookup j = (m.lookup j).map fun v => (f j v).1 := by
  unfold visit
  rw [lookup_visitKeys m.keys_nodup]
  split
  · rfl
  · rename_i hj
    rw [AList.lookup_eq_none.mpr fun hmem => hj (AList.mem_keys.mp hmem)]
    rfl

theorem sum_visitKeys {w : ε → Int} {j : κ} (hother : ∀ k v, k ≠ j → ((f k v).2.map w).sum = 0) {ks : List κ}
    (hnodup : ks.Nodup) (s : Map κ ν × List ε) : ((visitKeys f ks s).2.map w).sum =
      (s.2.map w).sum + if j ∈ ks then ((s.1.lookup j).map fun v => ((f j v).2.map w).sum).getD 0 else 0 := by
  induction ks generalizing s with
  | nil => simp [visitKeys]
  | cons k ks ih =>
    obtain ⟨hk, hks⟩ := List.nodup_cons.mp hnodup
    have hstep := lookup_visitKey (f := f) s k j
    show ((visitKeys f ks (visitKey f s k)).2.map w).sum = _
    rw [ih hks, hstep]
    have hsum : ((visitKey f s k).2.map w).sum =
        (s.2.map w).sum + ((s.1.lookup k).map fun v => ((f k v).2.map w).sum).getD 0 := by
      unfold visitKey
      cases s.1.lookup k <;> simp
    rw [hsum]
    by_cases hj : j = k
    · subst hj
      simp [hk]
    · have hzero : ((s.1.lookup k).map fun v => ((f k v).2.map w).sum).getD 0 = 0 := by
        cases s.1.lookup k with
        | none => rfl
        | some v => exact hother k v (Ne.symm hj)
      simp [hj, hzero]

/-- **What is reported of one key.** -/
theorem sum_visit {w : ε → Int} {j : κ} (hother : ∀ k v, k ≠ j → ((f k v).2.map w).sum = 0) :
    ((visit f m).2.map w).sum = ((m.lookup j).map fun v => ((f j v).2.map w).sum).getD 0 := by
  unfold visit
  rw [sum_visitKeys hother m.keys_nodup]
  split
  · simp
  · rename_i hj
    rw [AList.lookup_eq_none.mpr fun hmem => hj (AList.mem_keys.mp hmem)]
    rfl

theorem mem_visitKeys {e : ε} {ks : List κ} (hnodup : ks.Nodup) (s : Map κ ν × List ε) :
    e ∈ (visitKeys f ks s).2 ↔ e ∈ s.2 ∨ ∃ k v, k ∈ ks ∧ s.1.lookup k = some v ∧ e ∈ (f k v).2 := by
  induction ks generalizing s with
  | nil => simp [visitKeys]
  | cons k ks ih =>
    obtain ⟨hk, hks⟩ := List.nodup_cons.mp hnodup
    have hstep : e ∈ (visitKey f s k).2 ↔ e ∈ s.2 ∨ ∃ v, s.1.lookup k = some v ∧ e ∈ (f k v).2 := by
      unfold visitKey
      cases s.1.lookup k <;> simp
    have hlookup : ∀ j ∈ ks, (visitKey f s k).1.lookup j = s.1.lookup j := fun j hj => by
      have hne : j ≠ k := fun h => hk (h ▸ hj)
      rw [lookup_visitKey, if_neg hne]
    show e ∈ (visitKeys f ks (visitKey f s k)).2 ↔ _
    rw [ih hks, hstep, or_assoc]
    refine or_congr_right ⟨?_, ?_⟩
    · rintro (⟨v, hv, he⟩ | ⟨j, v, hj, hv, he⟩)
      · exact ⟨k, v, List.mem_cons_self, hv, he⟩
      · exact ⟨j, v, List.mem_cons_of_mem k hj, by rwa [hlookup j hj] at hv, he⟩
    · rintro ⟨j, v, hj, hv, he⟩
      rcases List.mem_cons.mp hj with rfl | hj
      · exact .inl ⟨v, hv, he⟩
      · exact .inr ⟨j, v, hj, by rwa [hlookup j hj], he⟩

/-- **Every report is the report of one key.** -/
theorem mem_visit {e : ε} : e ∈ (visit f m).2 ↔ ∃ k v, m.lookup k = some v ∧ e ∈ (f k v).2 := by
  unfold visit
  rw [mem_visitKeys m.keys_nodup]
  constructor
  · rintro (h | ⟨k, v, -, hv, he⟩)
    · cases h
    · exact ⟨k, v, hv, he⟩
  · rintro ⟨k, v, hv, he⟩
    have hk : k ∈ m := AList.lookup_isSome.mp (by rw [hv]; rfl)
    exact .inr ⟨k, v, AList.mem_keys.mp hk, hv, he⟩

/-- **Only the keys that are kept are there.** -/
theorem lookup_keep (p : κ → Bool) (j : κ) : (keep p m).lookup j = if p j then m.lookup j else none := by
  have hkeys : ∀ (ks : List κ) (m : Map κ ν),
      (ks.foldl (fun m k => if p k then m else m.erase k) m).lookup j =
        if j ∈ ks ∧ p j = false then none else m.lookup j := by
    intro ks
    induction ks with
    | nil => simp
    | cons k ks ih =>
      intro m
      rw [List.foldl_cons, ih]
      by_cases hj : j = k
      · subst hj
        cases hp : p j with
        | false => simp
        | true => simp
      · have hlookup : (if p k then m else m.erase k).lookup j = m.lookup j := by
          split
          · rfl
          · exact AList.lookup_erase_ne hj
        rw [hlookup]
        simp [hj]
  unfold keep
  rw [hkeys]
  cases hp : p j with
  | true => simp
  | false =>
    by_cases hj : j ∈ m.keys
    · simp [hj]
    · rw [AList.lookup_eq_none.mpr fun hmem => hj (AList.mem_keys.mp hmem)]
      simp

end KeyedFold
