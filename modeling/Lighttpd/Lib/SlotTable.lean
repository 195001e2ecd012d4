import Mathlib.Data.List.Basic
import Mathlib.Logic.Function.Basic

/-!
# Tables of slots

A table has slots, each free or with an owner. Free slots are on a list and are used again; `index` gives the slot of an
owner.

- `SlotTable`: slots, list of free slots and index agree; `SlotTable.write`, `SlotTable.reuse`, `SlotTable.append` and
  `SlotTable.release` keep that;
- `Scan`: what a scan of the slots from one place will come to; `Scan.set` says which changes of a slot the scan does
  not see, `Scan.next` what it comes to first.
-/

variable {ι α β : Type*}

/-- **Slots, free slots and index agree.** -/
structure SlotTable (owner : α → Option ι) (slots : List α) (free : List ℕ) (index : ι → Option ℕ) : Prop where
  index_iff : ∀ x i, index x = some i ↔ ∃ a, slots[i]? = some a ∧ owner a = some x
  unowned : ∀ k ∈ free, ∃ a, slots[k]? = some a ∧ owner a = none
  nodup : free.Nodup

namespace SlotTable

variable {owner : α → Option ι} {slots : List α} {free : List ℕ} {index : ι → Option ℕ} {i k : ℕ} {a a' : α} {x : ι}

theorem nil (owner : α → Option ι) : SlotTable owner [] [] fun _ => none :=
  by
  refine ⟨?_, nofun, List.nodup_nil⟩
  simp

theorem of_map_owner {slots' : List α} (h : SlotTable owner slots free index)
    (hmap : slots'.map owner = slots.map owner) : SlotTable owner slots' free index := by
  have hget : ∀ (i : ℕ) (o : Option ι), (∃ a, slots'[i]? = some a ∧ owner a = o) ↔ ∃ a, slots[i]? = some a ∧ owner a = o := by
    intro i o
    rw [← Option.map_eq_some_iff, ← Option.map_eq_some_iff, ← List.getElem?_map, ← List.getElem?_map, hmap]
  exact ⟨fun x i => (h.index_iff x i).trans (hget i _).symm, fun k hk => (hget k _).mpr (h.unowned k hk), h.nodup⟩

theorem write (h : SlotTable owner slots free index) (hi : slots[i]? = some a) (ho : owner a' = owner a) :
    SlotTable owner (slots.set i a') free index := by
  apply h.of_map_owner
  rw [List.map_set, ho]
  apply List.ext_getElem?
  intro j
  rw [List.getElem?_set]
  split
  · next hij =>
    subst hij
    have hlt := (List.getElem?_eq_some_iff.mp hi).1
    simp [hlt, (List.getElem?_eq_some_iff.mp hi).2]
  · rfl

variable [DecidableEq ι]

theorem reuse (h : SlotTable owner slots (k :: free) index) (ho : owner a = some x) (hx : index x = none) :
    SlotTable owner (slots.set k a) free (Function.update index x (some k)) := by
  obtain ⟨b, hb, hnone⟩ := h.unowned k List.mem_cons_self
  have hlt : k < slots.length := (List.getElem?_eq_some_iff.mp hb).1
  refine ⟨fun y j => ?_, fun j hj => ?_, h.nodup.of_cons⟩
  · by_cases hy : y = x
    · subst hy
      rw [Function.update_self]
      constructor
      · intro hj
        cases hj
        exact ⟨a, List.getElem?_set_self hlt, ho⟩
      · rintro ⟨c, hc, hcy⟩
        by_cases hkj : k = j
        · rw [hkj]
        · rw [List.getElem?_set_ne hkj] at hc
          cases hx.symm.trans ((h.index_iff y j).mpr ⟨c, hc, hcy⟩)
    · rw [Function.update_of_ne hy, h.index_iff]
      by_cases hkj : k = j
      · subst hkj
        rw [List.getElem?_set_self hlt, hb]
        simp [hnone, ho, Ne.symm hy]
      · simp [List.getElem?_set_ne hkj]
  · obtain ⟨c, hc, hcnone⟩ := h.unowned j (List.mem_cons_of_mem _ hj)
    have hkj : k ≠ j := fun heq => (List.nodup_cons.mp h.nodup).1 (heq ▸ hj)
    exact ⟨c, by rw [List.getElem?_set_ne hkj, hc], hcnone⟩

theorem append (h : SlotTable owner slots free index) (ho : owner a = some x) (hx : index x = none) :
    SlotTable owner (slots ++ [a]) free (Function.update index x (some slots.length)) := by
  have hlast : (slots ++ [a])[slots.length]? = some a := by simp
  refine ⟨fun y j => ?_, fun j hj => ?_, h.nodup⟩
  · by_cases hy : y = x
    · subst hy
      rw [Function.update_self]
      constructor
      · intro hj
        cases hj
        exact ⟨a, hlast, ho⟩
      · rintro ⟨c, hc, hcy⟩
        rcases Nat.lt_or_ge j slots.length with hj | hj
        · rw [List.getElem?_append_left hj] at hc
          cases hx.symm.trans ((h.index_iff y j).mpr ⟨c, hc, hcy⟩)
        · have hlt := (List.getElem?_eq_some_iff.mp hc).1
          simp only [List.length_append, List.length_singleton] at hlt
          rw [Nat.le_antisymm hj (Nat.lt_succ_iff.mp hlt)]
    · rw [Function.update_of_ne hy, h.index_iff]
      constructor
      · rintro ⟨c, hc, hcy⟩
        have hlt := (List.getElem?_eq_some_iff.mp hc).1
        exact ⟨c, by rw [List.getElem?_append_left hlt, hc], hcy⟩
      · rintro ⟨c, hc, hcy⟩
        rcases Nat.lt_or_ge j slots.length with hj | hj
        · rw [List.getElem?_append_left hj] at hc
          exact ⟨c, hc, hcy⟩
        · have hlt := (List.getElem?_eq_some_iff.mp hc).1
          simp only [List.length_append, List.length_singleton] at hlt
          rw [Nat.le_antisymm (Nat.lt_succ_iff.mp hlt) hj, hlast] at hc
          cases hc
          exact absurd (Option.some_inj.mp (hcy.symm.trans ho)) hy
  · obtain ⟨c, hc, hcnone⟩ := h.unowned j hj
    have hlt := (List.getElem?_eq_some_iff.mp hc).1
    exact ⟨c, by rw [List.getElem?_append_left hlt, hc], hcnone⟩

theorem release (h : SlotTable owner slots free index) (hx : index x = some i) (ho : owner a = none) :
    SlotTable owner (slots.set i a) (i :: free) (Function.update index x none) := by
  obtain ⟨b, hb, hbx⟩ := (h.index_iff x i).mp hx
  have hlt : i < slots.length := (List.getElem?_eq_some_iff.mp hb).1
  have hself : (slots.set i a)[i]? = some a := List.getElem?_set_self hlt
  have hne : ∀ k ∈ free, i ≠ k := by
    rintro k hk rfl
    obtain ⟨c, hc, hcnone⟩ := h.unowned i hk
    cases hb.symm.trans hc
    cases hbx.symm.trans hcnone
  refine ⟨fun y j => ?_, fun k hk => ?_, List.nodup_cons.mpr ⟨fun hi => hne i hi rfl, h.nodup⟩⟩
  · by_cases hij : i = j
    · subst hij
      simp only [hself, Option.some.injEq, exists_eq_left', ho, reduceCtorEq, iff_false]
      by_cases hy : y = x
      · simp [hy]
      · rw [Function.update_of_ne hy, h.index_iff, hb]
        simp [hbx, Ne.symm hy]
    · rw [List.getElem?_set_ne hij, ← h.index_iff]
      by_cases hy : y = x
      · simp [hy, hx, hij]
      · rw [Function.update_of_ne hy]
  · rcases List.mem_cons.mp hk with rfl | hk
    · exact ⟨a, hself, ho⟩
    · obtain ⟨c, hc, hcnone⟩ := h.unowned k hk
      exact ⟨c, by rw [List.getElem?_set_ne (hne k hk), hc], hcnone⟩

end SlotTable

/-! ## Scanning -/

/-- **The scan has passed `start` slots and will come to `xs`**, among the slots that the table had when it began. -/
def Scan (f : α → Option β) (slots : List α) (start : ℕ) (xs : List β) : Prop :=
  ∃ u w v, slots = u ++ (w ++ v) ∧ u.length = start ∧ w.filterMap f = xs

namespace Scan

variable {f : α → Option β} {slots : List α} {start k : ℕ} {xs : List β} {a a' : α} {x : β}

theorem all (f : α → Option β) (slots : List α) : Scan f slots 0 (slots.filterMap f) :=
  ⟨[], slots, [], by simp, rfl, rfl⟩

theorem filterMap_set {w : List α} (hk : w[k]? = some a) (ha : f a' = f a) : (w.set k a').filterMap f = w.filterMap f := by
  induction w generalizing k with
  | nil => rfl
  | cons b w ih =>
    cases k with
    | zero =>
      cases hk
      simp [List.filterMap_cons, ha]
    | succ k => simp [List.filterMap_cons, ih hk]

/-- **The scan does not see** that a slot changes, if it shows the same as before or what it showed is not among what the
scan will come to. -/
theorem set (h : Scan f slots start xs) (hk : slots[k]? = some a)
    (ha : f a' = f a ∨ ∃ x, f a = some x ∧ x ∉ xs) : Scan f (slots.set k a') start xs := by
  obtain ⟨u, w, v, rfl, hu, hw⟩ := h
  rcases Nat.lt_or_ge k u.length with hlt | hge
  · exact ⟨u.set k a', w, v, List.set_append_left k a' hlt, by rw [List.length_set, hu], hw⟩
  · rw [List.getElem?_append_right hge] at hk
    rcases Nat.lt_or_ge (k - u.length) w.length with hlt' | hge'
    · rw [List.getElem?_append_left hlt'] at hk
      have ha : f a' = f a := by
        rcases ha with ha | ⟨x, hx, hmem⟩
        · exact ha
        · rw [← hw] at hmem
          exact absurd (List.mem_filterMap.mpr ⟨a, List.mem_of_getElem? hk, hx⟩) hmem
      refine ⟨u, w.set (k - u.length) a', v, ?_, hu, (filterMap_set hk ha).trans hw⟩
      rw [List.set_append_right k a' hge, List.set_append_left _ a' hlt']
    · refine ⟨u, w, v.set (k - u.length - w.length) a', ?_, hu, hw⟩
      rw [List.set_append_right k a' hge, List.set_append_right _ a' hge']

theorem append (h : Scan f slots start xs) : Scan f (slots ++ [a]) start xs := by
  obtain ⟨u, w, v, rfl, hu, hw⟩ := h
  exact ⟨u, w, v ++ [a], by simp, hu, hw⟩

/-- **What the scan comes to next.** -/
theorem next {p : α → Bool} (h : Scan f slots start (x :: xs)) (hp : ∀ a, p a = (f a).isSome) :
    ∃ i a, (slots.drop start).findIdx? p = some i ∧ slots[start + i]? = some a ∧ f a = some x ∧
      Scan f slots (start + i + 1) xs := by
  obtain ⟨u, w, v, rfl, hu, hw⟩ := h
  obtain ⟨w₁, a, w₂, rfl, hnone, ha, hrest⟩ := List.filterMap_eq_cons_iff.mp hw
  have hfree : w₁.findIdx? p = none := by
    rw [List.findIdx?_eq_none_iff]
    intro b hb
    simp [hp, hnone b hb]
  have hfound : p a = true := by simp [hp, ha]
  subst hu
  refine ⟨w₁.length, a, ?_, by simp, ha, u ++ (w₁ ++ [a]), w₂, v, by simp, by simp [Nat.add_assoc], hrest⟩
  simp [hfree, hfound, List.findIdx?_cons]

end Scan
