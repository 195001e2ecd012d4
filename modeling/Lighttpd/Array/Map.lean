import Lighttpd.Array.Order
import Lighttpd.Lib.OptionRel
import Lighttpd.Lib.Run
import Mathlib.Logic.Function.Basic

/-!
# Arrays are maps

A `KeyMap` is what an array is for: it takes keys, without regard to case, to elements. `Refines` says that an array is
in order and has the elements of a map.

- `findOrInsert_refines`, `extractElement_refines`, …: each operation does to the array what it does to the map;
- `array_refines_map`: so does every sequence of operations, with the same results.
-/

namespace Lighttpd
open Request

/-- The elements by their keys in lower case, and the number of the next generated key. -/
structure KeyMap (ν : Type) where
  entries : Bytes → Option (DataUnset ν)
  count : Nat
  uniqueNdx : Nat

namespace KeyMap

variable {ν : Type}

def init : KeyMap ν := ⟨fun _ => none, 0, 0⟩

def set (m : KeyMap ν) (du : DataUnset ν) : KeyMap ν :=
  { m with entries := Function.update m.entries (foldKey du.keyBuf) (some du) }

def add (m : KeyMap ν) (du : DataUnset ν) : Option (KeyMap ν) :=
  if m.count + 1 ≤ ssizeMax then some { m.set du with count := m.count + 1 } else none

/-- `array_replace`: the entry takes the place of the element with its key. -/
def replace (m : KeyMap ν) (entry : DataUnset ν) : Option (KeyMap ν) := do
  let (entry, uniqueNdx) ← DataArray.nameEntry m.uniqueNdx entry
  let m := { m with uniqueNdx := uniqueNdx }
  if (m.entries (foldKey entry.keyBuf)).isSome then return m.set entry
  m.add entry

/-- `array_insert_unique`: `insert_dup` changes the element with its key, which must be of the same type. -/
def insertUnique (methods : Methods ν) (m : KeyMap ν) (entry : DataUnset ν) : Option (KeyMap ν) := do
  let (entry, uniqueNdx) ← DataArray.nameEntry m.uniqueNdx entry
  let m := { m with uniqueNdx := uniqueNdx }
  match m.entries (foldKey entry.keyBuf) with
  | some du => if du.type = entry.type then return m.set { du with value := methods.insertDup du entry } else none
  | none => m.add entry

/-- `array_extract_element`. -/
def extract (m : KeyMap ν) (key : Bytes) : Option (DataUnset ν) × KeyMap ν :=
  match m.entries (foldKey key) with
  | some du => (some du, { m with entries := Function.update m.entries (foldKey key) none, count := m.count - 1 })
  | none => (none, m)

end KeyMap

namespace DataArray

variable {ν : Type} {a a' : DataArray ν} {m : KeyMap ν}

/-- **The array is in order and has the elements of the map.** -/
structure Refines (a : DataArray ν) (m : KeyMap ν) : Prop where
  ok : Ok a
  entries : ∀ k du, m.entries k = some du ↔ ∃ i, i < a.used ∧ a.element i = some du ∧ foldKey du.keyBuf = k
  count : m.count = a.used
  uniqueNdx : m.uniqueNdx = a.uniqueNdx

theorem init_refines : Refines (init : DataArray ν) KeyMap.init :=
  ⟨init_ok, fun _ _ => ⟨nofun, fun ⟨i, hi, _⟩ => absurd hi (Nat.not_lt_zero i)⟩, rfl, rfl⟩

theorem Refines.lookup (h : Refines a m) {key : Bytes} {r : Option Nat × Nat} (hr : Lookup a key r) :
    m.entries (foldKey key) = r.1.bind a.element := by
  cases hr with
  | found i pos du place lt element eq =>
    rw [Option.bind_some, element]
    exact (h.entries _ du).mpr ⟨i, lt, element, eq⟩
  | missing pos le before behind =>
    rw [Option.bind_none, Option.eq_none_iff_forall_ne_some]
    intro du hdu
    obtain ⟨i, hi, hel, hkey⟩ := (h.entries _ du).mp hdu
    apply Lookup.missing_key h.ok (.missing pos le before behind) hi
    rw [keyAt_element hel, hkey]

/-- **`array_get_element`** returns the element stored under an equal key, and `NULL` if there is none. -/
theorem getElement_refines (h : Refines a m) (key : Bytes) : a.getElement key = some (m.entries (foldKey (cstr key))) := by
  obtain ⟨r, hr, hlookup⟩ := getIndex_spec h.ok (cstr key)
  unfold getElement
  rw [hr, Option.map_some, h.lookup hlookup]

variable {i n : Nat}

theorem set_refines (h : Refines a m) {old du : DataUnset ν} (hi : i < a.used) (hold : a.element i = some old)
    (hkey : foldKey du.keyBuf = foldKey old.keyBuf) : Refines { a with data := a.data.set i (some du) } (m.set du) := by
  have hkeyAt : foldKey du.keyBuf = foldKey (a.keyAt i) := by rw [keyAt_element hold, hkey]
  have hel := element_set a (h.ok.lt_length hi) (some du)
  refine ⟨set_ok h.ok hi hkeyAt, fun k e => ?_, h.count, h.uniqueNdx⟩
  show Function.update m.entries (foldKey du.keyBuf) (some du) k = some e ↔ ∃ j, j < a.used ∧ _ ∧ _
  by_cases hk : k = foldKey du.keyBuf
  · subst hk
    rw [Function.update_self]
    constructor
    · intro he
      obtain rfl := Option.some.inj he
      exact ⟨i, hi, by rw [hel i, if_pos rfl], rfl⟩
    · rintro ⟨j, hj, hje, hjk⟩
      rw [hel j] at hje
      split at hje
      · exact hje
      · rename_i hne
        have hj' : foldKey (a.keyAt i) = foldKey (a.keyAt j) := by rw [keyAt_element hje, hjk, hkeyAt]
        exact absurd (h.ok.key_inj hi hj hj') hne
  · rw [Function.update_of_ne hk, h.entries k e]
    constructor
    · rintro ⟨j, hj, hje, hjk⟩
      refine ⟨j, hj, ?_, hjk⟩
      rw [hel j, if_neg]
      · exact hje
      · rintro rfl
        rw [hold] at hje
        rw [← hjk, ← Option.some.inj hje] at hk
        exact hk hkey.symm
    · rintro ⟨j, hj, hje, hjk⟩
      rw [hel j] at hje
      split at hje
      · rw [← Option.some.inj hje] at hjk
        exact absurd hjk.symm hk
      · exact ⟨j, hj, hje, hjk⟩

variable {entry e : DataUnset ν}

theorem insertAt_refines (h : Refines a m) (hmax : a.used + 1 ≤ ssizeMax) {pos : Nat}
    (hr : Lookup a entry.keyBuf (none, pos)) :
    Refines (a.grow.insertAt entry pos) { m.set entry with count := m.count + 1 } := by
  obtain ⟨hok', hused', huniq, hel'⟩ := growInsertAt_ok h.ok hmax hr
  have hnew : m.entries (foldKey entry.keyBuf) = none := h.lookup hr
  refine ⟨hok', fun k e => ?_, ?_, h.uniqueNdx.trans huniq.symm⟩
  · show Function.update m.entries (foldKey entry.keyBuf) (some entry) k = some e ↔ _
    rw [hused']
    by_cases hk : k = foldKey entry.keyBuf
    · subst hk
      rw [Function.update_self]
      constructor
      · intro he
        obtain rfl := Option.some.inj he
        exact ⟨a.used, Nat.lt_succ_self _, by rw [hel' _ (Nat.lt_succ_self _), if_pos rfl], rfl⟩
      · rintro ⟨i, hi, hie, hik⟩
        rw [hel' i hi] at hie
        split at hie
        · exact hie
        · have := (h.entries _ e).mpr ⟨i, by omega, hie, hik⟩
          rw [hnew] at this
          cases this
    · rw [Function.update_of_ne hk, h.entries k e]
      constructor
      · rintro ⟨i, hi, hie, hik⟩
        exact ⟨i, by omega, by rw [hel' i (by omega), if_neg (by omega), hie], hik⟩
      · rintro ⟨i, hi, hie, hik⟩
        rw [hel' i hi] at hie
        split at hie
        · rw [← Option.some.inj hie] at hik
          exact absurd hik.symm hk
        · exact ⟨i, by omega, hie, hik⟩
  · show m.count + 1 = _
    rw [hused', h.count]

/-! ## The operations -/

theorem Refines.setNdx (h : Refines a m) (n : Nat) : Refines { a with uniqueNdx := n } { m with uniqueNdx := n } :=
  ⟨⟨h.ok.data, h.ok.sorted, h.ok.used, h.ok.max, h.ok.slots, h.ok.perm, h.ok.increasing⟩, h.entries, h.count, rfl⟩

/-- **`array_find_or_insert`** finds the element with the key of the entry, or inserts the entry. -/
theorem findOrInsert_refines (h : Refines a m) (hname : nameEntry a.uniqueNdx entry = some (e, n)) :
    (∃ i old, i < a.used ∧ a.element i = some old ∧ foldKey old.keyBuf = foldKey e.keyBuf ∧
      m.entries (foldKey e.keyBuf) = some old ∧
      a.findOrInsert entry = some (some i, e, { a with uniqueNdx := n })) ∨
    (m.entries (foldKey e.keyBuf) = none ∧ ∃ a',
      (a.used + 1 ≤ ssizeMax → Refines a' { m.set e with count := m.count + 1, uniqueNdx := n }) ∧
      a.findOrInsert entry = if a.used + 1 ≤ ssizeMax then some (none, e, a') else none) := by
  have h' := h.setNdx n
  obtain ⟨r, hr, hlookup⟩ := getIndex_spec h'.ok e.keyBuf
  have hfound := h'.lookup hlookup
  unfold findOrInsert
  simp only [hname, Option.bind_eq_bind, Option.bind_some, hr]
  cases hlookup with
  | found i pos du place lt element eq =>
    exact Or.inl ⟨i, du, lt, element, eq, hfound.trans element, rfl⟩
  | missing pos le before behind =>
    exact Or.inr ⟨hfound, _, fun hmax => insertAt_refines h' hmax (.missing pos le before behind), rfl⟩

/-- **`array_replace`**. -/
theorem replace_refines (h : Refines a m) (entry : DataUnset ν) :
    Option.Rel Refines (a.replace entry) (m.replace entry) := by
  unfold DataArray.replace KeyMap.replace
  rw [h.uniqueNdx]
  cases hname : nameEntry a.uniqueNdx entry with
  | none =>
    have hnone : a.findOrInsert entry = none := by simp [findOrInsert, hname]
    rw [hnone]
    exact .none
  | some named =>
    obtain ⟨e, n⟩ := named
    simp only [Option.bind_eq_bind, Option.bind_some]
    rcases findOrInsert_refines h hname with ⟨i, old, hi, hold, hkey, hentry, heq⟩ | ⟨hentry, a', href, heq⟩
    · rw [heq, hentry]
      exact .some (set_refines (h.setNdx n) hi hold hkey.symm)
    · rw [heq, hentry]
      simp only [Option.isSome_none, Bool.false_eq_true, if_false, KeyMap.add, h.count]
      by_cases hmax : a.used + 1 ≤ ssizeMax
      · rw [if_pos hmax, if_pos hmax]
        have href := href hmax
        rw [h.count] at href
        exact .some href
      · rw [if_neg hmax, if_neg hmax]
        exact .none

/-- An entry with the key of the element at `i` takes its place. -/
theorem replace_element (h : Refines a m) {du : DataUnset ν} (hi : i < a.used)
    (hdu : a.element i = some du) (hkey : e.key = du.key) (hsome : e.key ≠ none) (hindex : e.isIndexKey = false) :
    a.replace e = some { a with data := a.data.set i (some e) } ∧
      Refines { a with data := a.data.set i (some e) } (m.set e) := by
  have hbuf : foldKey e.keyBuf = foldKey du.keyBuf := by rw [DataUnset.keyBuf, hkey, DataUnset.keyBuf]
  refine ⟨?_, set_refines h hi hdu hbuf⟩
  have hname : nameEntry a.uniqueNdx e = some (e, a.uniqueNdx) := by simp [nameEntry, hsome, hindex]
  unfold DataArray.replace
  rcases findOrInsert_refines h hname with ⟨j, old, hj, hold, heq, -, hfind⟩ | ⟨hentry, -, -, -⟩
  · have hij : j = i := h.ok.key_inj hj hi (by rw [keyAt_element hold, keyAt_element hdu, heq, hbuf])
    rw [hfind, hij]
    rfl
  · have hmem := (h.entries (foldKey e.keyBuf) du).mpr ⟨i, hi, hdu, hbuf.symm⟩
    rw [hentry] at hmem
    cases hmem

/-- **`array_insert_unique`**. -/
theorem insertUnique_refines (methods : Methods ν) (h : Refines a m) (entry : DataUnset ν) :
    Option.Rel Refines (a.insertUnique methods entry) (m.insertUnique methods entry) := by
  unfold DataArray.insertUnique KeyMap.insertUnique
  rw [h.uniqueNdx]
  cases hname : nameEntry a.uniqueNdx entry with
  | none =>
    have hnone : a.findOrInsert entry = none := by simp [findOrInsert, hname]
    rw [hnone]
    exact .none
  | some named =>
    obtain ⟨e, n⟩ := named
    simp only [Option.bind_eq_bind, Option.bind_some]
    rcases findOrInsert_refines h hname with ⟨i, old, hi, hold, hkey, hentry, heq⟩ | ⟨hentry, a', href, heq⟩
    · have hel : ({ a with uniqueNdx := n } : DataArray ν).element i = some old := hold
      rw [heq, hentry]
      simp only [Option.bind_some, hel]
      by_cases htype : old.type = e.type
      · rw [if_pos htype, if_pos htype]
        exact .some (set_refines (h.setNdx n) hi hold rfl)
      · rw [if_neg htype, if_neg htype]
        exact .none
    · rw [heq, hentry]
      simp only [KeyMap.add, h.count]
      by_cases hmax : a.used + 1 ≤ ssizeMax
      · rw [if_pos hmax, if_pos hmax]
        have href := href hmax
        rw [h.count] at href
        exact .some href
      · rw [if_neg hmax, if_neg hmax]
        exact .none

theorem insertUnique_new (methods : Methods ν) (h : Refines a m) (hname : nameEntry a.uniqueNdx entry = some (e, n))
    (hnew : ∀ i, i < a.used → foldKey (a.keyAt i) ≠ foldKey e.keyBuf) (hmax : a.used + 1 ≤ ssizeMax) :
    ∃ a', a.insertUnique methods entry = some a' ∧ (∃ m', Refines a' m') ∧ a'.used = a.used + 1 ∧ a'.uniqueNdx = n ∧
      a'.size = a.grow.size ∧ ∀ i, a'.element i = if a.used = i then some e else a.element i := by
  have h' := h.setNdx n
  obtain ⟨r, hr, hlookup⟩ := getIndex_spec h'.ok e.keyBuf
  cases hlookup with
  | found i pos du place lt element eq =>
    have hkey : a.keyAt i = du.keyBuf := keyAt_element (a := a) element
    exact absurd (by rw [hkey, eq]) (hnew i lt)
  | missing pos le before behind =>
    obtain ⟨hok, hused, hroom, -, -, hndx⟩ := grow_ok h'.ok
    have hdata := hok.data
    have hsize : (grow { a with uniqueNdx := n }).size = a.grow.size := by
      unfold grow
      split
      · rfl
      · split <;> rfl
    refine ⟨(grow { a with uniqueNdx := n }).insertAt e pos, ?_, ⟨_, insertAt_refines h' hmax (.missing pos le before behind)⟩,
      congrArg (· + 1) hused, hndx, hsize, fun i => ?_⟩
    · have hfind : a.findOrInsert entry = some (none, e, (grow { a with uniqueNdx := n }).insertAt e pos) := by
        unfold findOrInsert
        simp only [hname, Option.bind_eq_bind, Option.bind_some, hr]
        exact if_pos hmax
      unfold DataArray.insertUnique
      rw [hfind]
      rfl
    · rw [insertAt_element (by omega), grow_element h'.ok, hused]
      rfl

/-- **`array_extract_element`** removes exactly the key and returns its element. -/
theorem extractElement_refines (h : Refines a m) (key : Bytes) :
    ∃ a', a.extractElement key = some ((m.extract (cstr key)).1, a') ∧ Refines a' (m.extract (cstr key)).2 := by
  obtain ⟨r, hr, hlookup⟩ := getIndex_spec h.ok (cstr key)
  have hentry := h.lookup hlookup
  unfold extractElement KeyMap.extract
  cases hlookup with
  | missing pos le before behind =>
    rw [Option.bind_none] at hentry
    rw [hr, hentry]
    exact ⟨a, rfl, h⟩
  | found i pos du place lt element eq =>
    rw [Option.bind_some, element] at hentry
    obtain ⟨a₁, hmove, hmoved⟩ := moveLast_moved h.ok lt place
    obtain ⟨hok, hel⟩ := removeSorted_ok h.ok lt place hmoved
    have hused : (a₁.removeSorted pos).used = a.used - 1 := congrArg (· - 1) hmoved.used
    rw [hr, hentry]
    refine ⟨a₁.removeSorted pos, by simp [element, hmove], hok, fun k e => ?_, ?_, h.uniqueNdx.trans hmoved.uniqueNdx.symm⟩
    · show Function.update m.entries (foldKey (cstr key)) none k = some e ↔ _
      rw [hused]
      -- the only element with the key is the one at `i`
      have honly : ∀ j, j < a.used → a.element j = some e → foldKey e.keyBuf = foldKey (cstr key) → j = i := by
        intro j hj hje hkey
        apply h.ok.key_inj hj lt
        rw [keyAt_element hje, keyAt_element element, hkey, eq]
      by_cases hk : k = foldKey (cstr key)
      · subst hk
        rw [Function.update_self]
        refine ⟨nofun, fun ⟨j, hj, hje, hkey⟩ => ?_⟩
        rw [hel j hj] at hje
        split at hje
        · have := honly _ (by omega) hje hkey
          omega
        · have := honly j (by omega) hje hkey
          omega
      · rw [Function.update_of_ne hk, h.entries k e]
        constructor
        · rintro ⟨j, hj, hje, hkey⟩
          have hji : j ≠ i := by
            rintro rfl
            rw [element] at hje
            rw [← hkey, ← Option.some.inj hje] at hk
            exact hk eq
          by_cases hlast : j = a.used - 1
          · exact ⟨i, by omega, by rw [hel i (by omega), if_pos rfl, ← hlast, hje], hkey⟩
          · exact ⟨j, by omega, by rw [hel j (by omega), if_neg hji, hje], hkey⟩
        · rintro ⟨j, hj, hje, hkey⟩
          rw [hel j hj] at hje
          split at hje
          · exact ⟨a.used - 1, by omega, hje, hkey⟩
          · exact ⟨j, by omega, hje, hkey⟩
    · show m.count - 1 = _
      rw [hused, h.count]

/-- Only the slots below `used` are seen. -/
theorem Refines.congr (h : Refines a m) (hdata : a'.data.length = a.data.length)
    (hrest : a'.sorted = a.sorted ∧ a'.used = a.used ∧ a'.size = a.size ∧ a'.uniqueNdx = a.uniqueNdx)
    (hel : ∀ i, i < a.used → a'.element i = a.element i) : Refines a' m := by
  obtain ⟨hsorted, hused, hsize, huniq⟩ := hrest
  have hord : a'.order = a.order := by rw [order, order, hsorted, hused]
  refine ⟨⟨?_, ?_, ?_, hused ▸ h.ok.max, fun i hi => ?_, ?_, ?_⟩, fun k e => ?_, h.count.trans hused.symm,
    h.uniqueNdx.trans huniq.symm⟩
  · rw [hdata, hsize, h.ok.data]
  · rw [hsorted, hsize, h.ok.sorted]
  · rw [hused, hsize]
    exact h.ok.used
  · rw [hused] at hi
    rw [hel i hi]
    exact h.ok.slots i hi
  · rw [hord, hused]
    exact h.ok.perm
  · have hkeys : a'.order.map a'.keyAt = a.order.map a.keyAt := by
      rw [hord]
      refine List.map_congr_left fun i hi => ?_
      unfold keyAt
      rw [hel i (h.ok.mem_order.mp hi)]
    rw [hkeys]
    exact h.ok.increasing
  · rw [h.entries k e, hused]
    refine exists_congr fun i => and_congr_right fun hi => ?_
    rw [hel i hi]

def ofType (a : DataArray ν) (t : DataType) (i : Nat) : Bool := (a.element i).any fun du => du.type = t

/-- **The `unsigned int` does not wrap**: the array has less than 2 ^ 32 slots, or an element is found before. -/
def NoWrap (a : DataArray ν) (t : DataType) : Prop :=
  a.size < 2 ^ 32 ∨ ∃ i, a.used ≤ i ∧ i < a.size ∧ i < 2 ^ 32 ∧ a.ofType t i = true

theorem unusedSlot_spec (t : DataType) (fuel : Nat) (hfuel : 2 ^ 32 < fuel + i) (hi : i < 2 ^ 32) (hused : a.used ≤ i)
    (hwrap : a.size < 2 ^ 32 ∨ ∃ j, i ≤ j ∧ j < a.size ∧ j < 2 ^ 32 ∧ a.ofType t j = true) :
    ∃ r, a.unusedSlot t fuel i = some r ∧ ∀ j, r = some j → a.used ≤ j ∧ j < a.size := by
  induction fuel generalizing i with
  | zero => omega
  | succ fuel ih =>
    unfold unusedSlot
    by_cases hlt : i < a.size
    · rw [if_pos hlt]
      by_cases htype : a.ofType t i = true
      · exact ⟨some i, if_pos htype, fun j hj => Option.some.inj hj ▸ ⟨hused, hlt⟩⟩
      · have hnext : i + 1 < 2 ^ 32 := by
          rcases hwrap with hsize | ⟨j, hij, -, hj, hjtype⟩
          · omega
          · rcases Nat.eq_or_lt_of_le hij with rfl | hlt
            · exact absurd hjtype htype
            · omega
        obtain ⟨r, hr, hres⟩ := ih (i := i + 1) (by omega) hnext (by omega) <| hwrap.imp_right fun ⟨j, hij, hj⟩ =>
          ⟨j, Nat.lt_of_le_of_ne hij fun heq => htype (heq ▸ hj.2.2), hj⟩
        refine ⟨r, ?_, hres⟩
        rw [Nat.mod_eq_of_lt hnext, hr]
        exact if_neg htype
    · rw [if_neg hlt]
      exact ⟨none, rfl, nofun⟩

/-- The element that `array_get_unused_element` takes is behind those in use. -/
theorem getUnusedElement_spec (h : Ok a) (t : DataType) (hwrap : a.NoWrap t) :
    a.getUnusedElement t = some (none, a) ∨ ∃ i, a.used ≤ i ∧ i < a.size ∧
      a.getUnusedElement t = some (a.element i, { a with data := (a.data.set i (a.element a.used)).set a.used none }) := by
  have hused := h.used
  have hlt : a.used < 2 ^ 32 := by
    rcases hwrap with hsize | ⟨i, hi, -, hlt, -⟩ <;> omega
  obtain ⟨r, hr, hres⟩ := unusedSlot_spec (a := a) t (2 ^ 32 + 1) (i := a.used) (by omega) hlt (Nat.le_refl _) hwrap
  unfold getUnusedElement
  rw [Nat.mod_eq_of_lt hlt, hr]
  cases r with
  | none => exact Or.inl rfl
  | some i =>
    obtain ⟨hi, hsize⟩ := hres i rfl
    have hroom : a.used < a.size := by omega
    exact Or.inr ⟨i, hi, hsize, by simp [hroom]⟩

/-- The slots without the element that is taken: the one at `used` is free. -/
theorem taken_element (h : Ok a) (hi : i < a.size) (hused : a.used < a.size) (j : Nat) :
    ({ a with data := (a.data.set i (a.element a.used)).set a.used none } : DataArray ν).element j =
      if a.used = j then none else if i = j then a.element a.used else a.element j := by
  have hdata := h.data
  have hset := element_set { a with data := a.data.set i (a.element a.used) } (i := a.used) (by simp; omega) none j
  rw [element_set a (by omega)] at hset
  exact hset

/-- **`array_get_unused_element`** changes nothing that is in use. -/
theorem getUnusedElement_refines (h : Refines a m) (t : DataType) (hwrap : a.NoWrap t) :
    ∃ r a', a.getUnusedElement t = some (r, a') ∧ Refines a' m := by
  rcases getUnusedElement_spec h.ok t hwrap with hnone | ⟨i, hi, hsize, hsome⟩
  · exact ⟨none, a, hnone, h⟩
  · refine ⟨_, _, hsome, h.congr (by simp) ⟨rfl, rfl, rfl, rfl⟩ fun j hj => ?_⟩
    rw [taken_element h.ok hsize (by omega), if_neg (by omega), if_neg (by omega)]

/-- The elements behind `array_reset`. -/
theorem reset_element (methods : Methods ν) (h : Ok a) (i : Nat) : (a.reset methods).element i =
    if i < a.used then (a.element i).map (resetElement methods) else a.element i := by
  have hused := h.used
  have hdata := h.data
  have hlen : ((a.data.take a.used).map (Option.map (resetElement methods))).length = a.used := by simp; omega
  show (_ ++ a.data.drop a.used)[i]?.join = _
  by_cases hi : i < a.used
  · rw [if_pos hi, List.getElem?_append_left (by omega), List.getElem?_map, List.getElem?_take_of_lt hi, element_eq]
    cases a.data[i]? <;> rfl
  · rw [if_neg hi, List.getElem?_append_right (by omega), hlen, List.getElem?_drop, Nat.add_sub_cancel' (by omega)]
    rfl

/-- **`array_reset`**. -/
theorem reset_refines (methods : Methods ν) (h : Refines a m) : Refines (a.reset methods) KeyMap.init := by
  have hused := h.ok.used
  have hdata := h.ok.data
  refine ⟨⟨?_, h.ok.sorted, Nat.zero_le _, Nat.zero_le _, fun i hi => absurd hi (Nat.not_lt_zero i), List.Perm.refl _,
    List.Pairwise.nil⟩, fun k e => ⟨nofun, fun ⟨i, hi, _⟩ => absurd hi (Nat.not_lt_zero i)⟩, rfl, rfl⟩
  show (List.map _ _ ++ _).length = a.size
  simp
  omega

/-! ## Runs -/

/-- An operation of an array. -/
inductive Op (ν : Type)
  | getUnusedElement (t : DataType)
  | insertUnique (entry : DataUnset ν)
  | replace (entry : DataUnset ν)
  | extractElement (key : Bytes)
  | getElement (key : Bytes)
  | reset

/-- An operation of the array. The elements that are looked up or extracted are recorded. -/
def step (methods : Methods ν) (s : DataArray ν × List (Option (DataUnset ν))) :
    Op ν → Option (DataArray ν × List (Option (DataUnset ν)))
  | .getUnusedElement t => (s.1.getUnusedElement t).map fun r => (r.2, s.2)
  | .insertUnique entry => (s.1.insertUnique methods entry).map fun a => (a, s.2)
  | .replace entry => (s.1.replace entry).map fun a => (a, s.2)
  | .extractElement key => (s.1.extractElement key).map fun r => (r.2, s.2 ++ [r.1])
  | .getElement key => (s.1.getElement key).map fun r => (s.1, s.2 ++ [r])
  | .reset => some (s.1.reset methods, s.2)

def mapStep (methods : Methods ν) (s : KeyMap ν × List (Option (DataUnset ν))) :
    Op ν → Option (KeyMap ν × List (Option (DataUnset ν)))
  | .getUnusedElement _ => some s
  | .insertUnique entry => (s.1.insertUnique methods entry).map fun m => (m, s.2)
  | .replace entry => (s.1.replace entry).map fun m => (m, s.2)
  | .extractElement key => some ((s.1.extract (cstr key)).2, s.2 ++ [(s.1.extract (cstr key)).1])
  | .getElement key => some (s.1, s.2 ++ [s.1.entries (foldKey (cstr key))])
  | .reset => some (KeyMap.init, s.2)

/-- The array has the elements of the map, and the same elements were returned. -/
def SameResults (s : DataArray ν × List (Option (DataUnset ν))) (s' : KeyMap ν × List (Option (DataUnset ν))) : Prop :=
  Refines s.1 s'.1 ∧ s.2 = s'.2

/-- An unused element is asked for where `NoWrap` holds. -/
def InRange (s : DataArray ν × List (Option (DataUnset ν))) : Op ν → Prop
  | .getUnusedElement t => s.1.NoWrap t
  | _ => True

/-- **One operation.** -/
theorem step_refines (methods : Methods ν) {s : DataArray ν × List (Option (DataUnset ν))}
    {s' : KeyMap ν × List (Option (DataUnset ν))} (h : SameResults s s') (op : Op ν) (hop : InRange s op) :
    Option.Rel SameResults (step methods s op) (mapStep methods s' op) := by
  obtain ⟨a, log⟩ := s
  obtain ⟨m, log'⟩ := s'
  obtain ⟨href, hlog⟩ := h
  obtain rfl : log = log' := hlog
  cases op with
  | getUnusedElement t =>
    obtain ⟨r, a', heq, href'⟩ := getUnusedElement_refines href t hop
    show Option.Rel SameResults ((a.getUnusedElement t).map _) _
    rw [heq]
    exact .some ⟨href', rfl⟩
  | insertUnique entry => exact OptionRel.map (insertUnique_refines methods href entry) fun a m href' => ⟨href', rfl⟩
  | replace entry => exact OptionRel.map (replace_refines href entry) fun a m href' => ⟨href', rfl⟩
  | extractElement key =>
    obtain ⟨a', heq, href'⟩ := extractElement_refines href key
    show Option.Rel SameResults ((a.extractElement key).map _) _
    rw [heq]
    exact .some ⟨href', rfl⟩
  | getElement key =>
    show Option.Rel SameResults ((a.getElement key).map _) _
    rw [getElement_refines href key]
    exact .some ⟨href, rfl⟩
  | reset => exact .some ⟨reset_refines methods href, rfl⟩

theorem run_refines (methods : Methods ν) (ops : List (Op ν)) {s : DataArray ν × List (Option (DataUnset ν))}
    {s' : KeyMap ν × List (Option (DataUnset ν))} (h : SameResults s s') (hops : Run.Meets (step methods) InRange s ops) :
    Option.Rel SameResults (Run.run (step methods) s ops) (Run.run (mapStep methods) s' ops) := by
  induction ops generalizing s s' with
  | nil => exact .some h
  | cons op ops ih =>
    rw [Run.run_cons, Run.run_cons]
    have hstep := step_refines methods h op hops.1
    cases hs : step methods s op with
    | none =>
      rw [hs] at hstep
      cases hm : mapStep methods s' op with
      | none => exact .none
      | some m => rw [hm] at hstep; cases hstep
    | some s₁ =>
      obtain ⟨m₁, hm₁, hsame⟩ := OptionRel.of_some hstep hs
      rw [hm₁]
      exact ih hsame (hops.2 s₁ hs)

/-- **An array refines a map**, without regard to the case of keys, as long as the `unsigned int` of
`array_get_unused_element` does not wrap. The comparison of keys is a total preorder. -/
theorem array_refines_map (methods : Methods ν) (ops : List (Op ν))
    (hops : Run.Meets (step methods) InRange (init, []) ops) :
    Option.Rel SameResults (Run.run (step methods) (init, []) ops) (Run.run (mapStep methods) (KeyMap.init, []) ops) ∧
    (∀ a, caselessCompare a a ≤ 0) ∧
    (∀ a b c, caselessCompare a b ≤ 0 → caselessCompare b c ≤ 0 → caselessCompare a c ≤ 0) ∧
    (∀ a b, caselessCompare a b ≤ 0 ∨ caselessCompare b a ≤ 0) ∧
    ∀ a b, caselessCompare a b ≤ 0 ∧ caselessCompare b a ≤ 0 ↔ foldKey a = foldKey b :=
  ⟨run_refines methods ops ⟨init_refines, rfl⟩ hops, caselessCompare_preorder⟩

/-- The methods of strings without a value. -/
def unitMethods : Methods Unit := ⟨fun _ => (), fun _ _ => ()⟩

def keyed (key : String) : DataUnset Unit := ⟨.string, some (ascii key), false, ()⟩

/-- Three elements, of which the middle one is taken out, and a new one. -/
def sampleOps : List (Op Unit) := [
  .insertUnique (keyed "Key"),
  .insertUnique (keyed "Accept"),
  .insertUnique (keyed "Host"),
  .extractElement (ascii "HOST"),
  .getElement (ascii "host"),
  .getUnusedElement .string,
  .insertUnique (keyed "Date"),
  .getElement (ascii "ACCEPT"),
  .getElement (ascii "date"),
  .getElement (ascii "key")]

theorem array_refines_map_sample :
    (Run.run (step unitMethods) (init, []) sampleOps).map (fun s => s.2.map (Option.map DataUnset.keyBuf)) =
        some [some (ascii "Host"), none, some (ascii "Accept"), some (ascii "Date"), some (ascii "Key")] ∧
      Option.Rel SameResults (Run.run (step unitMethods) (init, []) sampleOps)
        (Run.run (mapStep unitMethods) (KeyMap.init, []) sampleOps) := by
  refine ⟨by decide, (array_refines_map unitMethods sampleOps ?_).1⟩
  have hsize : (Run.run (step unitMethods) (init, []) (sampleOps.take 5)).map (·.1.size) = some 16 := by decide
  refine ⟨trivial, fun s₁ h₁ => ⟨trivial, fun s₂ h₂ => ⟨trivial, fun s₃ h₃ => ⟨trivial, fun s₄ h₄ => ⟨trivial,
    fun s₅ h₅ => ⟨.inl ?_, fun _ _ => ⟨trivial, fun _ _ => ⟨trivial, fun _ _ => ⟨trivial, fun _ _ => ⟨trivial,
      fun _ _ => trivial⟩⟩⟩⟩⟩⟩⟩⟩⟩⟩
  have hrun : Run.run (step unitMethods) (init, []) (sampleOps.take 5) = some s₅ := by
    simp only [sampleOps, List.take, Run.run_cons, h₁, h₂, h₃, h₄, h₅, Option.bind_some]
    rfl
  rw [hrun, Option.map_some, Option.some.injEq] at hsize
  omega

/-! ## More elements than an `unsigned int` counts -/

def numbered (n : Nat) : DataUnset Unit := ⟨.string, some (copyInt n), false, ()⟩

theorem foldKey_liUtostrn (n : Nat) : foldKey (liUtostrn n) = liUtostrn n := by
  have hdigit : ∀ c : Byte, Netstring.isDigit c = true → toLower c = c := by
    intro c hc
    simp only [Netstring.isDigit, Bool.and_eq_true, decide_eq_true_eq] at hc
    have hle : ¬ 65 ≤ c := by
      have := UInt8.le_iff_toNat_le.mp hc.2
      rw [UInt8.le_iff_toNat_le]
      simp at this ⊢
      omega
    unfold toLower
    rw [if_neg fun h => hle h.1]
  refine (List.map_congr_left fun c hc => ?_).trans (List.map_id' _)
  exact hdigit c ((liUtostrn_spec n).2.1 c hc)

theorem numbered_inj {j : Nat} (hi : i < 2 ^ 63) (hj : j < 2 ^ 63)
    (h : foldKey (numbered i).keyBuf = foldKey (numbered j).keyBuf) : i = j := by
  have hkey : ∀ n, n < 2 ^ 63 → foldKey (numbered n).keyBuf = liUtostrn n := by
    intro n hn
    show foldKey (copyInt n) = _
    rw [copyInt, if_pos hn, foldKey_liUtostrn]
  rw [hkey i hi, hkey j hj] at h
  exact liUtostrn_inj h

/-- The array has the first `n` numbers, and no other elements. -/
structure Numbers (n : Nat) (a : DataArray Unit) : Prop where
  refines : ∃ m, Refines a m
  used : a.used = n
  size : a.size % 16 = 0
  element : ∀ i, a.element i = if i < n then some (numbered i) else none

theorem Numbers.insert {a : DataArray Unit} (h : Numbers n a) (hn : n + 1 ≤ ssizeMax) :
    ∃ a', a.insertUnique unitMethods (numbered n) = some a' ∧ Numbers (n + 1) a' := by
  obtain ⟨m, href⟩ := h.refines
  have hused := h.used
  have hlt : n < 2 ^ 63 := by
    unfold ssizeMax at hn
    omega
  have hname : nameEntry a.uniqueNdx (numbered n) = some (numbered n, a.uniqueNdx) := by simp [nameEntry, numbered]
  have hnew : ∀ i, i < a.used → foldKey (a.keyAt i) ≠ foldKey (numbered n).keyBuf := by
    intro i hi heq
    rw [hused] at hi
    have hel : a.element i = some (numbered i) := by rw [h.element, if_pos hi]
    rw [keyAt_element hel] at heq
    have := numbered_inj (by omega) hlt heq
    omega
  obtain ⟨a', hins, href', hused', -, hsize', hel'⟩ := insertUnique_new unitMethods href hname hnew (hused ▸ hn)
  refine ⟨a', hins, href', hused' ▸ hused ▸ rfl, ?_, fun i => ?_⟩
  · have hsize := h.size
    rw [hsize']
    unfold grow
    split
    · exact Nat.mod_self 16
    · split
      · show (a.size + 16) % 16 = 0
        omega
      · exact hsize
  · rw [hel', h.element, hused]
    by_cases heq : n = i
    · subst heq
      simp
    · rw [if_neg heq]
      congr 1
      simp
      omega

theorem numbers_run (hn : n ≤ ssizeMax) :
    ∃ a, Run.run (step unitMethods) (init, []) ((List.range n).map fun i => .insertUnique (numbered i)) = some (a, []) ∧
      Numbers n a := by
  induction n with
  | zero => exact ⟨init, rfl, ⟨_, init_refines⟩, rfl, rfl, fun i => rfl⟩
  | succ n ih =>
    obtain ⟨a, hrun, h⟩ := ih (by omega)
    obtain ⟨a', hins, h'⟩ := h.insert hn
    refine ⟨a', ?_, h'⟩
    rw [List.range_succ, List.map_append, Run.run_append, hrun]
    show Run.run _ _ [_] = _
    rw [Run.run_cons]
    show ((a.insertUnique unitMethods (numbered n)).map _).bind _ = _
    rw [hins]
    rfl

/-- **With 2 ^ 32 + 1 elements, `array_get_unused_element` takes one that is in use**, and leaves a hole. -/
theorem unused_element_wraps :
    ∃ a, Run.run (step unitMethods) (init, [])
      (((List.range (2 ^ 32 + 1)).map fun i => .insertUnique (numbered i)) ++ [.getUnusedElement .string]) = some (a, []) ∧
      1 < a.used ∧ a.element 1 = none := by
  generalize hN : 2 ^ 32 + 1 = N
  obtain ⟨a, hrun, h⟩ := numbers_run (n := N) (by unfold ssizeMax; omega)
  obtain ⟨m, href⟩ := h.refines
  have hused := h.used
  have hsize := h.size
  have hle := href.ok.used
  have hdata := href.ok.data
  have hroom : a.used < a.size := by omega
  have hone : 1 < a.used := by omega
  have hslot : a.unusedSlot .string (2 ^ 32 + 1) (a.used % 2 ^ 32) = some (some 1) := by
    have hi : a.used % 2 ^ 32 = 1 := by omega
    rw [hi, unusedSlot, if_pos (by omega), h.element 1, if_pos (show 1 < N by omega)]
    rfl
  have hnone : a.element a.used = none := by rw [h.element, if_neg (by omega)]
  refine ⟨{ a with data := (a.data.set 1 (a.element a.used)).set a.used none }, ?_, hone, ?_⟩
  · rw [Run.run_append, hrun]
    show Run.run _ _ [_] = _
    rw [Run.run_cons]
    show ((a.getUnusedElement .string).map _).bind _ = _
    unfold getUnusedElement
    rw [hslot]
    simp only [Option.bind_eq_bind, Option.bind_some, if_pos hroom]
    rfl
  · show ((a.data.set 1 (a.element a.used)).set a.used none)[1]?.join = none
    rw [List.getElem?_set_ne (by omega), List.getElem?_set_self (by omega), hnone]
    rfl

end DataArray
end Lighttpd
