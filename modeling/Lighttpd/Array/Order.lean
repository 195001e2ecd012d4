import Lighttpd.Array.DataArray
import Lighttpd.Lib.Memmove
import Mathlib.Data.List.Nodup

/-!
# The order of an array

`Ok` is the order that the operations of an array keep: `sorted` has the places of the elements by increasing keys.

- `caselessCompare_lt`: the comparison is the lexicographic order of lower case keys;
- `getIndex_spec`: the binary search finds the element with the key, or the place for it;
- `set_ok`, `grow_ok`, `insertAt_ok`, `removeSorted_ok`: what changes an array keeps it in order.
-/

namespace Lighttpd
open Request Memmove

/-! ## The order of keys -/

/-- A key without regard to case. -/
def foldKey (key : Bytes) : Bytes := key.map toLower

theorem caselessCompare_lt {a b : Bytes} : caselessCompare a b < 0 ↔ foldKey a < foldKey b := by
  induction a generalizing b with
  | nil => cases b <;> simp [caselessCompare, foldKey]
  | cons x a ih =>
    cases b with
    | nil => simp [caselessCompare, foldKey]
    | cons y b =>
      unfold foldKey at ih ⊢
      rw [caselessCompare, List.map_cons, List.map_cons, List.cons_lt_cons_iff]
      by_cases h : toLower x = toLower y
      · rw [if_pos h, ih]
        simp [h, UInt8.lt_irrefl]
      · rw [if_neg h, UInt8.lt_iff_toNat_lt]
        simp only [h, false_and, or_false]
        omega

theorem caselessCompare_eq {a b : Bytes} : caselessCompare a b = 0 ↔ foldKey a = foldKey b := caselessCompare_eq_zero

theorem caselessCompare_swap {a b : Bytes} : 0 < caselessCompare a b ↔ caselessCompare b a < 0 := by
  induction a generalizing b with
  | nil => cases b <;> simp [caselessCompare]
  | cons x a ih =>
    cases b with
    | nil => simp [caselessCompare]
    | cons y b =>
      rw [caselessCompare, caselessCompare]
      by_cases h : toLower x = toLower y
      · rw [if_pos h, if_pos h.symm, ih]
      · rw [if_neg h, if_neg (Ne.symm h)]
        omega

theorem caselessCompare_gt {a b : Bytes} : 0 < caselessCompare a b ↔ foldKey b < foldKey a :=
  caselessCompare_swap.trans caselessCompare_lt

theorem caselessCompare_le_lt {a b c : Bytes} (h : caselessCompare a b ≤ 0) (h' : caselessCompare b c < 0) :
    caselessCompare a c < 0 := by
  rw [caselessCompare_lt] at h' ⊢
  rcases Int.lt_or_eq_of_le h with hlt | heq
  · exact List.lt_trans (Iff.mp caselessCompare_lt hlt) h'
  · rw [Iff.mp caselessCompare_eq heq]
    exact h'

/-- **`buffer_caseless_compare` is a total preorder**, and keys are equivalent if they are equal but for the case. -/
theorem caselessCompare_preorder :
    (∀ a, caselessCompare a a ≤ 0) ∧
    (∀ a b c, caselessCompare a b ≤ 0 → caselessCompare b c ≤ 0 → caselessCompare a c ≤ 0) ∧
    (∀ a b, caselessCompare a b ≤ 0 ∨ caselessCompare b a ≤ 0) ∧
    ∀ a b, caselessCompare a b ≤ 0 ∧ caselessCompare b a ≤ 0 ↔ foldKey a = foldKey b := by
  have hrefl : ∀ a, caselessCompare a a = 0 := fun a => Iff.mpr caselessCompare_eq rfl
  refine ⟨fun a => Int.le_of_eq (hrefl a), fun a b c h h' => ?_, fun a b => ?_, fun a b => ⟨fun h => ?_, fun h => ?_⟩⟩
  · rcases Int.lt_or_eq_of_le h' with hlt | heq
    · exact Int.le_of_lt (caselessCompare_le_lt h hlt)
    · by_contra hnot
      rw [Int.not_le, caselessCompare_gt, ← Iff.mp caselessCompare_eq heq, ← caselessCompare_gt] at hnot
      omega
  · by_contra hnot
    rw [not_or, Int.not_le, Int.not_le] at hnot
    have := Iff.mp caselessCompare_swap hnot.1
    omega
  · rw [← caselessCompare_eq]
    by_contra hne
    have hlt : caselessCompare a b < 0 := by omega
    have := Iff.mpr caselessCompare_swap hlt
    omega
  · exact ⟨Int.le_of_eq (Iff.mpr caselessCompare_eq h), Int.le_of_eq (Iff.mpr caselessCompare_eq h.symm)⟩

/-! ## The order of an array -/

namespace DataArray

variable {ν : Type} {a a' : DataArray ν}

def keyAt (a : DataArray ν) (i : Nat) : Bytes := ((a.element i).map DataUnset.keyBuf).getD []

/-- The places of the elements, in the order of their keys. -/
def order (a : DataArray ν) : List Nat := a.sorted.take a.used

/-- **The array is in order.** -/
structure Ok (a : DataArray ν) : Prop where
  data : a.data.length = a.size
  sorted : a.sorted.length = a.size
  used : a.used ≤ a.size
  max : a.used ≤ ssizeMax
  slots : ∀ i, i < a.used → ∃ du, a.element i = some du
  perm : a.order.Perm (List.range a.used)
  increasing : (a.order.map a.keyAt).Pairwise fun k k' => caselessCompare k k' < 0

variable {i pos : Nat}

theorem keyAt_element {du : DataUnset ν} (h : a.element i = some du) : a.keyAt i = du.keyBuf := by
  simp [keyAt, h]

theorem init_ok : Ok (init : DataArray ν) :=
  ⟨rfl, rfl, Nat.le_refl 0, Nat.zero_le _, fun _ hi => absurd hi (Nat.not_lt_zero _), List.Perm.refl _, List.Pairwise.nil⟩

theorem Ok.length_order (h : Ok a) : a.order.length = a.used := by
  have := h.sorted
  have := h.used
  simp only [order, List.length_take]
  omega

theorem Ok.mem_order (h : Ok a) : i ∈ a.order ↔ i < a.used := by
  rw [h.perm.mem_iff, List.mem_range]

theorem order_getElem (h : Ok a) {p : Nat} (hp : p < a.used) :
    ∃ i, a.sorted[p]? = some i ∧ a.order[p]? = some i ∧ i < a.used := by
  have hlen : p < a.order.length := h.length_order ▸ hp
  have hget := List.getElem?_eq_getElem hlen
  refine ⟨a.order[p], ?_, hget, h.mem_order.mp (List.getElem_mem hlen)⟩
  rw [← hget, order, List.getElem?_take_of_lt hp]

theorem order_getD {p : Nat} (hp : p < a.order.length) : a.order.getD p 0 = a.order[p] := by
  rw [List.getD_eq_getElem?_getD, List.getElem?_eq_getElem hp, Option.getD_some]

theorem Ok.key_inj (h : Ok a) {j : Nat} (hi : i < a.used) (hj : j < a.used)
    (heq : foldKey (a.keyAt i) = foldKey (a.keyAt j)) : i = j := by
  have hnodup : (a.order.map fun i => foldKey (a.keyAt i)).Nodup := by
    rw [show (a.order.map fun i => foldKey (a.keyAt i)) = (a.order.map a.keyAt).map foldKey by simp]
    refine List.Pairwise.map foldKey ?_ h.increasing
    intro k k' hlt heq
    rw [caselessCompare_lt, heq] at hlt
    exact List.lt_irrefl _ hlt
  exact List.inj_on_of_nodup_map hnodup (h.mem_order.mpr hi) (h.mem_order.mpr hj) heq

/-! ## The search -/

/-- **The result of `array_get_index`** for a key: the element with the key, or the place for it. -/
inductive Lookup (a : DataArray ν) (key : Bytes) : Option Nat × Nat → Prop
  | found (i pos : Nat) (du : DataUnset ν) (place : a.order[pos]? = some i) (lt : i < a.used)
      (element : a.element i = some du) (eq : foldKey du.keyBuf = foldKey key) : Lookup a key (some i, pos)
  | missing (pos : Nat) (le : pos ≤ a.used)
      (before : ∀ k ∈ (a.order.map a.keyAt).take pos, caselessCompare k key < 0)
      (behind : ∀ k ∈ (a.order.map a.keyAt).drop pos, caselessCompare key k < 0) : Lookup a key (none, pos)

/-- **The binary search finds the element with the key, or the place for it.** -/
theorem getIndex_spec (h : Ok a) (key : Bytes) : ∃ r, a.getIndex key = some r ∧ Lookup a key r := by
  have hlen := h.length_order
  have hcmp : ∀ p, p < a.used → a.compareAt key p = some (caselessCompare key (a.keyAt (a.order.getD p 0))) := by
    intro p hp
    obtain ⟨i, hs, ho, hi⟩ := order_getElem h hp
    obtain ⟨du, hdu⟩ := h.slots i hi
    simp [compareAt, hs, ho, hdu, keyAt, List.getD_eq_getElem?_getD]
  have hsort : ∀ p q, p < q → q < a.used → caselessCompare key (a.keyAt (a.order.getD p 0)) ≤ 0 →
      caselessCompare key (a.keyAt (a.order.getD q 0)) < 0 := by
    intro p q hpq hq hle
    have hp' : p < (a.order.map a.keyAt).length := by
      rw [List.length_map]
      omega
    have hq' : q < (a.order.map a.keyAt).length := by
      rw [List.length_map]
      omega
    have hlt := List.pairwise_iff_getElem.mp h.increasing p q hp' hq' hpq
    rw [List.getElem_map, List.getElem_map] at hlt
    rw [order_getD (by omega)] at hle ⊢
    exact caselessCompare_le_lt hle hlt
  obtain ⟨r, hr, hres⟩ := BinarySearch.search_spec hcmp hsort
  unfold getIndex
  rw [if_pos h.max, hr, Option.bind_some]
  cases hres with
  | found pos lt eq =>
    obtain ⟨i, hs, ho, hi⟩ := order_getElem h lt
    obtain ⟨du, hdu⟩ := h.slots i hi
    refine ⟨(some i, pos), by simp [hs], .found i pos du ho hi hdu ?_⟩
    rw [List.getD_eq_getElem?_getD, ho, Option.getD_some, keyAt_element hdu] at eq
    exact (caselessCompare_eq.mp eq).symm
  | missing pos le before behind =>
    refine ⟨(none, pos), by simp, .missing pos le ?_ ?_⟩
    · intro k hk
      obtain ⟨p, hp, rfl⟩ := List.mem_take_iff_getElem.mp hk
      rw [List.length_map] at hp
      have hlt := before p (by omega)
      rw [order_getD (by omega)] at hlt
      rw [List.getElem_map]
      exact caselessCompare_swap.mp hlt
    · intro k hk
      obtain ⟨p, hp, rfl⟩ := List.mem_drop_iff_getElem.mp hk
      rw [List.length_map] at hp
      have hlt := behind (pos + p) (by omega) (by omega)
      rw [order_getD (by omega)] at hlt
      rw [List.getElem_map]
      exact hlt

theorem Lookup.missing_key {key : Bytes} (h : Ok a) (hr : Lookup a key (none, pos))
    (hi : i < a.used) : foldKey (a.keyAt i) ≠ foldKey key := by
  cases hr with
  | missing _ le before behind =>
    intro heq
    have hirrefl : ¬ caselessCompare (a.keyAt i) key < 0 ∧ ¬ caselessCompare key (a.keyAt i) < 0 := by
      rw [caselessCompare_lt, caselessCompare_lt, heq]
      exact ⟨List.lt_irrefl _, List.lt_irrefl _⟩
    have hmem : a.keyAt i ∈ (a.order.map a.keyAt).take pos ++ (a.order.map a.keyAt).drop pos := by
      rw [List.take_append_drop]
      exact List.mem_map_of_mem (h.mem_order.mpr hi)
    rcases List.mem_append.mp hmem with hm | hm
    · exact hirrefl.1 (before _ hm)
    · exact hirrefl.2 (behind _ hm)

/-! ## Changing one slot -/

theorem element_eq : a.element i = a.data[i]?.join := rfl

theorem Ok.lt_length (h : Ok a) (hi : i < a.used) : i < a.data.length := by
  have := h.data
  have := h.used
  omega

theorem element_set (a : DataArray ν) (hi : i < a.data.length) (x : Option (DataUnset ν)) (j : Nat) :
    ({ a with data := a.data.set i x } : DataArray ν).element j = if i = j then x else a.element j := by
  simp only [element, List.getElem?_set, hi, if_true]
  split <;> rfl

theorem increasing_iff {l : List Nat} {f : Nat → Bytes} :
    ((l.map f).Pairwise fun k k' => caselessCompare k k' < 0) ↔ (l.map fun i => foldKey (f i)).Pairwise (· < ·) := by
  simp only [List.pairwise_map, caselessCompare_lt]

/-- **An element is replaced by one with the same key.** -/
theorem set_ok (h : Ok a) {du : DataUnset ν} (hi : i < a.used)
    (hkey : foldKey du.keyBuf = foldKey (a.keyAt i)) : Ok { a with data := a.data.set i (some du) } := by
  have hlen := h.lt_length hi
  have hel := element_set a hlen (some du)
  have hkeys : ∀ j, foldKey (({ a with data := a.data.set i (some du) } : DataArray ν).keyAt j) = foldKey (a.keyAt j) := by
    intro j
    unfold keyAt
    rw [hel j]
    split
    · rename_i heq
      subst heq
      exact hkey
    · rfl
  refine ⟨by simp [h.data], h.sorted, h.used, h.max, fun j hj => ?_, h.perm, ?_⟩
  · rw [hel j]
    split
    · exact ⟨du, rfl⟩
    · exact h.slots j hj
  · have hinc := Iff.mp increasing_iff h.increasing
    rw [increasing_iff]
    simp only [hkeys]
    exact hinc

/-! ## Inserting -/

theorem grow_ok (h : Ok a) : Ok a.grow ∧ a.grow.used = a.used ∧ a.used < a.grow.size ∧ a.grow.order = a.order ∧
    (∀ i, i < a.used → a.grow.element i = a.element i) ∧ a.grow.uniqueNdx = a.uniqueNdx := by
  have hused := h.used
  have hdata := h.data
  have hsorted := h.sorted
  by_cases hzero : a.size = 0
  · have hu : a.used = 0 := by omega
    have hg : a.grow = { a with size := 16, data := List.replicate 16 none, sorted := List.replicate 16 0 } := by
      rw [grow, if_pos hzero]
    rw [hg]
    have ho : ({ a with size := 16, data := List.replicate 16 none, sorted := List.replicate 16 0 } : DataArray ν).order
        = [] := by simp [order, hu]
    have ho' : a.order = [] := by simp [order, hu]
    refine ⟨⟨rfl, rfl, ?_, h.max, fun i hi => ?_, ?_, ?_⟩, rfl, ?_, ho.trans ho'.symm, fun i hi => ?_, rfl⟩
    · show a.used ≤ 16
      omega
    · exact absurd hi (by rw [hu]; exact Nat.not_lt_zero i)
    · rw [ho]
      show [].Perm (List.range a.used)
      rw [hu]
      exact List.Perm.refl _
    · rw [ho]
      exact List.Pairwise.nil
    · show a.used < 16
      omega
    · omega
  · by_cases hfull : a.size = a.used
    · have hg : a.grow = { a with
          size := a.size + 16
          data := a.data ++ List.replicate 16 none
          sorted := a.sorted ++ List.replicate 16 0 } := by
        rw [grow, if_neg hzero, if_pos hfull]
      rw [hg]
      generalize hb : ({ a with
          size := a.size + 16
          data := a.data ++ List.replicate 16 none
          sorted := a.sorted ++ List.replicate 16 0 } : DataArray ν) = b
      have ho : b.order = a.order := by
        rw [← hb]
        exact List.take_append_of_le_length (show a.used ≤ a.sorted.length by omega)
      have hel : ∀ i, i < a.used → b.element i = a.element i := by
        intro i hi
        rw [← hb, element_eq, element_eq]
        show ((a.data ++ List.replicate 16 none)[i]?).join = _
        rw [List.getElem?_append_left (by omega)]
      have hbused : b.used = a.used := by rw [← hb]
      refine ⟨⟨?_, ?_, ?_, ?_, fun i hi => ?_, ?_, ?_⟩, hbused, ?_, ho, hel, by rw [← hb]⟩
      · rw [← hb]
        simp [hdata]
      · rw [← hb]
        simp [hsorted]
      · rw [← hb]
        show a.used ≤ a.size + 16
        omega
      · rw [hbused]
        exact h.max
      · rw [hbused] at hi
        rw [hel i hi]
        exact h.slots i hi
      · rw [ho, hbused]
        exact h.perm
      · have hkeys : b.order.map b.keyAt = a.order.map a.keyAt := by
          rw [ho]
          refine List.map_congr_left fun i hi => ?_
          unfold keyAt
          rw [hel i (h.mem_order.mp hi)]
        rw [hkeys]
        exact h.increasing
      · rw [← hb]
        show a.used < a.size + 16
        omega
    · have hg : a.grow = a := by rw [grow, if_neg hzero, if_neg hfull]
      rw [hg]
      exact ⟨h, rfl, by omega, rfl, fun _ _ => rfl, rfl⟩

theorem grow_element (h : Ok a) (i : Nat) : a.grow.element i = a.element i := by
  have hdata := h.data
  unfold grow
  split
  · rename_i hzero
    have hnil : a.data = [] := List.eq_nil_of_length_eq_zero (hdata.trans hzero)
    rw [element_eq, element_eq, hnil]
    show ((List.replicate 16 none)[i]? : Option (Option (DataUnset ν))).join = _
    rw [List.getElem?_replicate]
    split <;> rfl
  · split
    · rw [element_eq, element_eq]
      show ((a.data ++ List.replicate 16 none)[i]?).join = _
      rw [List.getElem?_append]
      split
      · rfl
      · rw [List.getElem?_replicate, List.getElem?_eq_none (by omega)]
        split <;> rfl
    · rfl

theorem Lookup.grow {key : Bytes} (h : Ok a) (hr : Lookup a key (none, pos)) : Lookup a.grow key (none, pos) := by
  obtain ⟨-, hused, -, hord, hel, -⟩ := grow_ok h
  have hkeys : a.grow.order.map a.grow.keyAt = a.order.map a.keyAt := by
    rw [hord]
    refine List.map_congr_left fun i hi => ?_
    unfold keyAt
    rw [hel i (h.mem_order.mp hi)]
  cases hr with
  | missing _ le before behind => exact .missing pos (hused ▸ le) (hkeys ▸ before) (hkeys ▸ behind)

theorem insertAt_element (h : a.used < a.data.length) (entry : DataUnset ν) (pos i : Nat) :
    (a.insertAt entry pos).element i = if a.used = i then some entry else a.element i :=
  element_set a h (some entry) i

/-- **A new element** goes behind the others, and to its place in their order. -/
theorem insertAt_ok (h : Ok a) (hroom : a.used < a.size) (hmax : a.used + 1 ≤ ssizeMax) {entry : DataUnset ν}
    (hr : Lookup a entry.keyBuf (none, pos)) : Ok (a.insertAt entry pos) ∧
      ∀ i, i < a.used + 1 → (a.insertAt entry pos).element i = if i = a.used then some entry else a.element i := by
  have hsorted := h.sorted
  have hdata := h.data
  cases hr with
  | missing _ hle before behind =>
    have hel := insertAt_element (a := a) (by omega) entry pos
    have hord : (a.insertAt entry pos).order = a.order.take pos ++ a.used :: a.order.drop pos :=
      take_insert (by omega) hle
    have hkey : ∀ i ∈ a.order, (a.insertAt entry pos).keyAt i = a.keyAt i := by
      intro i hi
      have hlt := h.mem_order.mp hi
      unfold keyAt
      rw [hel i, if_neg (by omega)]
    have hnew : (a.insertAt entry pos).keyAt a.used = entry.keyBuf := by
      unfold keyAt
      rw [hel a.used, if_pos rfl]
      rfl
    have hmap : (a.insertAt entry pos).order.map (a.insertAt entry pos).keyAt =
        (a.order.map a.keyAt).take pos ++ entry.keyBuf :: (a.order.map a.keyAt).drop pos := by
      rw [hord, List.map_append, List.map_cons, hnew, ← List.map_take, ← List.map_drop]
      congr 1
      · exact List.map_congr_left fun i hi => hkey i (List.mem_of_mem_take hi)
      · congr 1
        exact List.map_congr_left fun i hi => hkey i (List.mem_of_mem_drop hi)
    refine ⟨⟨?_, ?_, hroom, hmax, fun i hi => ?_, ?_, ?_⟩, fun i _ => ?_⟩
    · simp [insertAt, hdata]
    · show (List.set _ _ _).length = a.size
      rw [List.length_set, ← hsorted]
      split
      · exact memmove_length (by omega) (by omega)
      · rfl
    · rw [hel i]
      split
      · exact ⟨entry, rfl⟩
      · rename_i hne
        have hi' : i < a.used + 1 := hi
        exact h.slots i (by omega)
    · rw [hord]
      show (_ : List Nat).Perm (List.range (a.used + 1))
      rw [List.range_succ]
      apply List.perm_middle.trans
      rw [List.take_append_drop]
      exact (h.perm.cons a.used).trans (List.perm_append_singleton _ _).symm
    · rw [hmap]
      have hinc := h.increasing
      rw [← List.take_append_drop pos (a.order.map a.keyAt)] at hinc
      obtain ⟨hbefore, hbehind, hcross⟩ := List.pairwise_append.mp hinc
      refine List.pairwise_append.mpr ⟨hbefore, List.pairwise_cons.mpr ⟨behind, hbehind⟩, fun k hk k' hk' => ?_⟩
      rcases List.mem_cons.mp hk' with rfl | hk'
      · exact before k hk
      · exact hcross k hk k' hk'
    · rw [hel i]
      simp only [eq_comm]

/-- **What an array is after an insertion**, with more room if it was full. -/
theorem growInsertAt_ok (h : Ok a) (hmax : a.used + 1 ≤ ssizeMax) {entry : DataUnset ν}
    (hr : Lookup a entry.keyBuf (none, pos)) : Ok (a.grow.insertAt entry pos) ∧
      (a.grow.insertAt entry pos).used = a.used + 1 ∧ (a.grow.insertAt entry pos).uniqueNdx = a.uniqueNdx ∧
      ∀ i, i < a.used + 1 → (a.grow.insertAt entry pos).element i = if i = a.used then some entry else a.element i := by
  obtain ⟨hok, hused, hroom, -, hel, huniq⟩ := grow_ok h
  obtain ⟨hok', hel'⟩ := insertAt_ok hok (hused ▸ hroom) (hused ▸ hmax) (hr.grow h)
  refine ⟨hok', congrArg (· + 1) hused, huniq, fun i hi => ?_⟩
  rw [hel' i (hused ▸ hi), hused]
  split
  · rfl
  · exact hel i (by omega)

/-! ## Extracting -/

/-- **What `array_extract_element` has done before `sorted` is made shorter**: the last element has moved into the slot,
and its place in `sorted` is that of the slot. -/
structure Moved (a a₁ : DataArray ν) (ndx pos : Nat) : Prop where
  data : a₁.data.length = a.size
  sorted : a₁.sorted.length = a.size
  used : a₁.used = a.used
  size : a₁.size = a.size
  uniqueNdx : a₁.uniqueNdx = a.uniqueNdx
  element : ∀ i, i < a.used - 1 → a₁.element i = if i = ndx then a.element (a.used - 1) else a.element i
  order : ∀ q i, q ≠ pos → a.order[q]? = some i → a₁.order[q]? = some (if i = a.used - 1 then ndx else i)

theorem moveLast_moved (h : Ok a) {ndx : Nat} (hndx : ndx < a.used) (hpos : a.order[pos]? = some ndx) :
    ∃ a₁, a.moveLast ndx = some a₁ ∧ Moved a a₁ ndx pos := by
  have hnodup : a.order.Nodup := h.perm.nodup_iff.mpr List.nodup_range
  have hlast : a.used - 1 < a.used := by omega
  have hdata := h.data
  have hused := h.used
  unfold moveLast
  by_cases hne : ndx ≠ a.used - 1
  · obtain ⟨du, hdu⟩ := h.slots _ hlast
    obtain ⟨r, hr, hlookup⟩ := getIndex_spec h du.keyBuf
    have hplace : r.1 = some (a.used - 1) ∧ a.order[r.2]? = some (a.used - 1) := by
      cases hlookup with
      | found i p du' place lt element eq =>
        have hi : i = a.used - 1 := by
          apply h.key_inj lt hlast
          rw [keyAt_element element, keyAt_element hdu, eq]
        subst hi
        exact ⟨rfl, place⟩
      | missing p le before behind =>
        have hmiss := Lookup.missing_key h (Lookup.missing p le before behind) hlast
        rw [keyAt_element hdu] at hmiss
        exact absurd rfl hmiss
    refine ⟨{ a with data := (a.data.set ndx (some du)).set (a.used - 1) none, sorted := a.sorted.set r.2 ndx }, ?_,
      ⟨by simp [hdata], by simp [h.sorted], rfl, rfl, rfl, fun i hi => ?_, fun q i hq hi => ?_⟩⟩
    · simp [hne, hdu, hr, hplace.1]
    · show ((((a.data.set ndx (some du)).set (a.used - 1) none)[i]?).join : Option (DataUnset ν)) = _
      rw [List.getElem?_set_ne (by omega), hdu]
      have hset := element_set a (h.lt_length hndx) (some du) i
      simp only [eq_comm (a := ndx)] at hset
      exact hset
    · have hlt : r.2 < a.order.length := (List.getElem?_eq_some_iff.mp hplace.2).1
      show ((a.sorted.set r.2 ndx).take a.used)[q]? = _
      rw [List.take_set]
      show (a.order.set r.2 ndx)[q]? = _
      by_cases hqr : r.2 = q
      · subst hqr
        rw [List.getElem?_set_self hlt]
        rw [hplace.2] at hi
        rw [if_pos (Option.some.inj hi).symm]
      · have hilast : i ≠ a.used - 1 := by
          rintro rfl
          exact hqr ((List.getElem?_inj hlt hnodup).mp (hplace.2.trans hi.symm))
        rw [List.getElem?_set_ne hqr, if_neg hilast]
        exact hi
  · rw [if_neg hne]
    rw [ne_eq, not_not] at hne
    refine ⟨_, rfl, by simp [hdata], h.sorted, rfl, rfl, rfl, fun i hi => ?_, fun q i hq hi => ?_⟩
    · rw [element_set a (h.lt_length hndx), if_neg (by omega), if_neg (by omega)]
    · have hilast : i ≠ a.used - 1 := by
        rintro rfl
        have hlt : pos < a.order.length := (List.getElem?_eq_some_iff.mp hpos).1
        exact hq ((List.getElem?_inj hlt hnodup).mp (hpos.trans (hne ▸ hi.symm))).symm
      rw [if_neg hilast]
      exact hi

theorem nodup_of_increasing {l : List Nat} {f : Nat → Bytes}
    (h : (l.map f).Pairwise fun k k' => caselessCompare k k' < 0) : l.Nodup := by
  refine List.Nodup.of_map f (h.imp fun {k k'} hlt heq => ?_)
  rw [heq, caselessCompare_lt] at hlt
  exact List.lt_irrefl _ hlt

/-- **The slots and the order without the element at `ndx`**, whose place in the order is `pos`. -/
theorem removeSorted_ok (h : Ok a) {a₁ : DataArray ν} {ndx : Nat} (hndx : ndx < a.used)
    (hpos : a.order[pos]? = some ndx) (hm : Moved a a₁ ndx pos) : Ok (a₁.removeSorted pos) ∧
      ∀ i, i < a.used - 1 →
        (a₁.removeSorted pos).element i = if i = ndx then a.element (a.used - 1) else a.element i := by
  have hnodup : a.order.Nodup := h.perm.nodup_iff.mpr List.nodup_range
  have hlen := h.length_order
  have hsize := h.used
  have hposlt : pos < a.used := hlen ▸ (List.getElem?_eq_some_iff.mp hpos).1
  have hsorted : a₁.used ≤ a₁.sorted.length := by
    rw [hm.used, hm.sorted]
    exact hsize
  have hord : (a₁.removeSorted pos).order = a₁.order.eraseIdx pos := take_remove hsorted (hm.used ▸ hposlt)
  have hlen₁ : a₁.order.length = a.used := by
    rw [order, List.length_take, Nat.min_eq_left hsorted, hm.used]
  -- the places of the order but `pos`
  have hplace : ∀ q, q ≠ pos → q < a.used → ∃ j, a.order[q]? = some j ∧ j < a.used ∧ j ≠ ndx ∧
      a₁.order[q]? = some (if j = a.used - 1 then ndx else j) ∧ (if j = a.used - 1 then ndx else j) < a.used - 1 := by
    intro q hq hlt
    obtain ⟨j, -, hj, hjlt⟩ := order_getElem h hlt
    have hjndx : j ≠ ndx := by
      rintro rfl
      exact hq ((List.getElem?_inj (hlen ▸ hlt) hnodup).mp (hj.trans hpos.symm))
    refine ⟨j, hj, hjlt, hjndx, hm.order q j hq hj, ?_⟩
    split <;> omega
  have hmap : (a₁.removeSorted pos).order.map (a₁.removeSorted pos).keyAt = (a.order.map a.keyAt).eraseIdx pos := by
    rw [hord, ← List.eraseIdx_map]
    have hsame : ∀ q, q ≠ pos →
        (a₁.order.map (a₁.removeSorted pos).keyAt)[q]? = (a.order.map a.keyAt)[q]? := by
      intro q hq
      rw [List.getElem?_map, List.getElem?_map]
      by_cases hlt : q < a.used
      · obtain ⟨j, hj, -, hjndx, hj₁, hlast⟩ := hplace q hq hlt
        rw [hj, hj₁]
        simp only [Option.map_some, Option.some.injEq]
        show (((a₁.element _).map DataUnset.keyBuf).getD []) = ((a.element j).map DataUnset.keyBuf).getD []
        rw [hm.element _ hlast]
        by_cases hjlast : j = a.used - 1
        · rw [if_pos hjlast, if_pos rfl, ← hjlast]
        · rw [if_neg hjlast, if_neg hjndx]
      · rw [List.getElem?_eq_none (by omega), List.getElem?_eq_none (by omega)]
        rfl
    refine List.ext_getElem? fun k => ?_
    rw [List.getElem?_eraseIdx, List.getElem?_eraseIdx]
    split
    · exact hsame k (by omega)
    · exact hsame (k + 1) (by omega)
  have hinc : ((a₁.removeSorted pos).order.map (a₁.removeSorted pos).keyAt).Pairwise
      fun k k' => caselessCompare k k' < 0 := by
    rw [hmap]
    exact h.increasing.sublist (List.eraseIdx_sublist _ _)
  have hused : (a₁.removeSorted pos).used = a.used - 1 := by
    show a₁.used - 1 = _
    rw [hm.used]
  have hel : ∀ i, i < a.used - 1 →
      (a₁.removeSorted pos).element i = if i = ndx then a.element (a.used - 1) else a.element i := hm.element
  refine ⟨⟨hm.data.trans hm.size.symm, ?_, ?_, ?_, fun i hi => ?_, ?_, hinc⟩, hel⟩
  · show (List.set _ _ _).length = a₁.size
    rw [List.length_set, hm.size, ← hm.sorted]
    have := hm.used
    have := hm.sorted
    split
    · exact memmove_length (by omega) (by omega)
    · rfl
  · show a₁.used - 1 ≤ a₁.size
    rw [hm.used, hm.size]
    omega
  · have := h.max
    omega
  · rw [hused] at hi
    rw [hel i hi]
    split
    · exact h.slots _ (by omega)
    · exact h.slots i (by omega)
  · rw [hused]
    refine perm_range (nodup_of_increasing hinc) ?_ fun i hi => ?_
    · rw [hord, List.length_eraseIdx_of_lt (by omega), hlen₁]
    · rw [hord] at hi
      obtain ⟨q, hq, hget⟩ := List.mem_eraseIdx_iff_getElem?.mp hi
      have hlt : q < a.used := hlen₁ ▸ (List.getElem?_eq_some_iff.mp hget).1
      obtain ⟨j, -, -, -, hj₁, hlast⟩ := hplace q hq hlt
      rw [hget] at hj₁
      rw [Option.some.inj hj₁]
      exact hlast

end DataArray
end Lighttpd
