import Lighttpd.Array.Map

/-!
# Entries that are never reached (`mod_alias.c`)

The entries of `alias.url` are tried in the order of their declaration, so that an entry is never reached whose key begins
with the key of an earlier one. `mod_alias_set_defaults` looks for such pairs in the order of the keys, in which the case of
letters does not matter, and stops at the first key that does not begin with the same bytes.

- `scanFrom_iff`, `rejects_iff`: the pairs that the two loops see;
- `begins_between`: between a key and one that begins with it there are only keys that begin with the same letters;
- `complete_iff`: the tables for which the check finds every such pair or none is there.
-/

namespace Lighttpd.Alias
open DataArray

variable {ν : Type} {a : DataArray ν} {i j k : Nat}

/-! ## The source -/

/-- The inner loop, over the places `k` in `sorted` behind that of the entry `i`: it returns an error. -/
def scanFrom (a : DataArray ν) (i : Nat) : List Nat → Bool
  | [] => false
  | k :: ks =>
    if (a.keyAt k).length < (a.keyAt i).length then false
    else if (a.keyAt k).take (a.keyAt i).length ≠ a.keyAt i then false
    -- ok, they have same prefix. check position
    else if i < k then true
    else scanFrom a i ks

def scanAll (a : DataArray ν) : List Nat → Bool
  | [] => false
  | i :: ks => scanFrom a i ks || scanAll a ks

/-- The check of `mod_alias_set_defaults`: it returns an error. -/
def rejects (a : DataArray ν) : Bool := if a.used ≥ 2 then scanAll a a.order else false

/-- **The entry `j` is never reached**, as its key begins with that of the earlier entry `i`. -/
structure Shadows (a : DataArray ν) (i j : Nat) : Prop where
  earlier : i < j
  lt : j < a.used
  begins : a.keyAt i <+: a.keyAt j
  ne : a.keyAt i ≠ a.keyAt j

/-- No key between the two has the letters of the first one in another case. -/
def Seen (a : DataArray ν) (i j : Nat) : Prop :=
  ∀ k < a.used, foldKey (a.keyAt i) <+: foldKey (a.keyAt k) → caselessCompare (a.keyAt k) (a.keyAt j) < 0 →
    a.keyAt i <+: a.keyAt k

/-! ## The loops -/

theorem begins_iff {key p : Bytes} : p <+: key ↔ ¬key.length < p.length ∧ key.take p.length = p := by
  rw [List.prefix_iff_eq_take]
  constructor
  · intro h
    have hlen := congrArg List.length h
    rw [List.length_take] at hlen
    exact ⟨by omega, h.symm⟩
  · exact fun h => h.2.symm

/-- **The inner loop** finds the first later entry, if every key in front of it begins with the same bytes. -/
theorem scanFrom_iff {l : List Nat} : scanFrom a i l = true ↔
    ∃ front k back, l = front ++ k :: back ∧ (∀ m ∈ front, a.keyAt i <+: a.keyAt m) ∧ a.keyAt i <+: a.keyAt k ∧ i < k := by
  induction l with
  | nil => simp [scanFrom]
  | cons m l ih =>
    rw [scanFrom]
    by_cases hbegins : a.keyAt i <+: a.keyAt m
    · obtain ⟨hlen, htake⟩ := Iff.mp begins_iff hbegins
      rw [if_neg hlen, if_neg (not_not.mpr htake)]
      by_cases hlater : i < m
      · rw [if_pos hlater]
        exact ⟨fun _ => ⟨[], m, l, rfl, fun _ h => absurd h List.not_mem_nil, hbegins, hlater⟩, fun _ => rfl⟩
      · rw [if_neg hlater, ih]
        constructor
        · rintro ⟨front, k, back, rfl, hfront, hk, hik⟩
          exact ⟨m :: front, k, back, rfl, List.forall_mem_cons.mpr ⟨hbegins, hfront⟩, hk, hik⟩
        · rintro ⟨front, k, back, heq, hfront, hk, hik⟩
          cases front with
          | nil =>
            cases heq
            exact absurd hik hlater
          | cons n front =>
            cases heq
            exact ⟨front, k, back, rfl, (List.forall_mem_cons.mp hfront).2, hk, hik⟩
    · have hstop : (if (a.keyAt m).length < (a.keyAt i).length then false
          else if (a.keyAt m).take (a.keyAt i).length ≠ a.keyAt i then false
          else if i < m then true else scanFrom a i l) = false := by
        rw [begins_iff, not_and_or, not_not] at hbegins
        rcases hbegins with hlen | htake
        · rw [if_pos hlen]
        · rw [if_pos htake, ite_self]
      rw [hstop]
      refine ⟨fun h => Bool.noConfusion h, ?_⟩
      rintro ⟨front, k, back, heq, hfront, hk, -⟩
      cases front with
      | nil =>
        cases heq
        exact absurd hk hbegins
      | cons n front =>
        cases heq
        exact absurd (hfront m List.mem_cons_self) hbegins

theorem scanAll_iff {l : List Nat} : scanAll a l = true ↔ ∃ pre i ks, l = pre ++ i :: ks ∧ scanFrom a i ks = true := by
  induction l with
  | nil => simp [scanAll]
  | cons m l ih =>
    rw [scanAll, Bool.or_eq_true, ih]
    constructor
    · rintro (h | ⟨pre, i, ks, rfl, h⟩)
      · exact ⟨[], m, l, rfl, h⟩
      · exact ⟨m :: pre, i, ks, rfl, h⟩
    · rintro ⟨pre, i, ks, heq, h⟩
      cases pre with
      | nil =>
        cases heq
        exact .inl h
      | cons n pre =>
        cases heq
        exact .inr ⟨pre, i, ks, rfl, h⟩

/-! ## The order of the keys -/

/-- **Between a key and one that begins with it**, every key begins with the same letters. -/
theorem begins_between {p s t : Bytes} (h : p <+: t) (hps : caselessCompare p s < 0) (hst : caselessCompare s t < 0) :
    foldKey p <+: foldKey s := by
  induction p generalizing s t with
  | nil => exact List.nil_prefix
  | cons c p ih =>
    obtain ⟨u, rfl⟩ := h
    cases s with
    | nil => simp [caselessCompare] at hps
    | cons d s =>
      rw [List.cons_append, caselessCompare] at hst
      rw [caselessCompare] at hps
      unfold foldKey at ih ⊢
      rw [List.map_cons, List.map_cons, List.cons_prefix_cons]
      by_cases hcd : toLower c = toLower d
      · rw [if_pos hcd] at hps
        rw [if_pos hcd.symm] at hst
        exact ⟨hcd, ih (List.prefix_append p u) hps hst⟩
      · rw [if_neg hcd] at hps
        rw [if_neg (Ne.symm hcd)] at hst
        omega

theorem compare_of_begins {p s : Bytes} (h : foldKey p <+: foldKey s) (hne : foldKey p ≠ foldKey s) :
    caselessCompare p s < 0 := by
  rw [caselessCompare_lt]
  obtain ⟨u, hu⟩ := h
  rw [← hu] at hne ⊢
  cases u with
  | nil => simp at hne
  | cons c u =>
    clear hne
    induction foldKey p with
    | nil => exact List.nil_lt_cons c u
    | cons d q ih => exact List.cons_lt_cons_iff.mpr (.inr ⟨rfl, ih⟩)

theorem order_split (h : a.Ok) {pre ks : List Nat} (heq : a.order = pre ++ i :: ks) :
    (∀ k ∈ pre, caselessCompare (a.keyAt k) (a.keyAt i) < 0) ∧ ∀ k ∈ ks, caselessCompare (a.keyAt i) (a.keyAt k) < 0 := by
  have hincreasing := h.increasing
  rw [List.pairwise_map, heq, List.pairwise_append, List.pairwise_cons] at hincreasing
  exact ⟨fun k hk => hincreasing.2.2 k hk i List.mem_cons_self, hincreasing.2.1.1⟩

theorem not_both {p s : Bytes} (h : caselessCompare p s < 0) : ¬caselessCompare s p < 0 := by
  intro h'
  have := caselessCompare_swap.mpr h
  omega

theorem Shadows.compare (h : a.Ok) (hs : Shadows a i j) : caselessCompare (a.keyAt i) (a.keyAt j) < 0 := by
  obtain ⟨u, hu⟩ := hs.begins
  refine compare_of_begins ⟨foldKey u, ?_⟩ fun heq => ?_
  · rw [← hu]
    exact (List.map_append).symm
  · exact Nat.ne_of_lt hs.earlier (h.key_inj (hs.earlier.trans hs.lt) hs.lt heq)

theorem shadows_of_rejects (h : a.Ok) (hrejects : rejects a = true) : ∃ i j, Shadows a i j ∧ Seen a i j := by
  unfold rejects at hrejects
  split at hrejects
  · obtain ⟨pre, i, ks, horder, hscan⟩ := scanAll_iff.mp hrejects
    obtain ⟨front, j, back, rfl, hfront, hj, hij⟩ := scanFrom_iff.mp hscan
    obtain ⟨hpre, hks⟩ := order_split h horder
    have hsplit : a.order = (pre ++ i :: front) ++ j :: back := by
      rw [horder, List.append_assoc, List.cons_append]
    have hback := (order_split h hsplit).2
    have hjlt : j < a.used := h.mem_order.mp (by rw [horder]; simp)
    have hcmp := hks j (by simp)
    refine ⟨i, j, ⟨hij, hjlt, hj, fun heq => ?_⟩, fun k hk hfold hlt => ?_⟩
    · rw [heq] at hcmp
      exact not_both hcmp hcmp
    · have hmem := h.mem_order.mpr hk
      rw [horder, List.mem_append, List.mem_cons, List.mem_append, List.mem_cons] at hmem
      rcases hmem with hmem | rfl | hmem | rfl | hmem
      · have hsmaller := hpre k hmem
        by_cases heq : foldKey (a.keyAt i) = foldKey (a.keyAt k)
        · rw [caselessCompare_lt, heq] at hsmaller
          exact absurd hsmaller (List.lt_irrefl _)
        · exact absurd hsmaller (not_both (compare_of_begins hfold heq))
      · exact List.prefix_refl _
      · exact hfront k hmem
      · exact hj
      · exact absurd hlt (not_both (hback k hmem))
  · cases hrejects

theorem rejects_of_shadows {i j : Nat} (h : a.Ok) (hs : Shadows a i j) (hseen : Seen a i j) : rejects a = true := by
  have hused : a.used ≥ 2 := by
    have := hs.earlier
    have := hs.lt
    omega
  have hcmp := hs.compare h
  obtain ⟨pre, ks, horder⟩ := List.append_of_mem (h.mem_order.mpr (hs.earlier.trans hs.lt))
  obtain ⟨hpre, hks⟩ := order_split h horder
  have hmem := h.mem_order.mpr hs.lt
  rw [horder, List.mem_append, List.mem_cons] at hmem
  have hj : j ∈ ks := by
    rcases hmem with hmem | hmem | hmem
    · exact absurd (hpre j hmem) (not_both hcmp)
    · exact absurd hmem (Nat.ne_of_gt hs.earlier)
    · exact hmem
  obtain ⟨mid, back, rfl⟩ := List.append_of_mem hj
  have hsplit : a.order = (pre ++ i :: mid) ++ j :: back := by
    rw [horder, List.append_assoc, List.cons_append]
  have hmid := (order_split h hsplit).1
  unfold rejects
  rw [if_pos hused]
  refine scanAll_iff.mpr ⟨pre, i, _, horder, scanFrom_iff.mpr ⟨mid, j, back, rfl, fun k hk => ?_, hs.begins, hs.earlier⟩⟩
  have hsmaller := hmid k (by simp [hk])
  have hlt : k < a.used := h.mem_order.mp (by rw [horder]; simp [hk])
  exact hseen k hlt (begins_between hs.begins (hks k (by simp [hk])) hsmaller) hsmaller

/-- **The pairs that are found**: one entry shadows another one, and no key between them has the same letters in another
case. -/
theorem rejects_iff (h : a.Ok) : rejects a = true ↔ ∃ i j, Shadows a i j ∧ Seen a i j := by
  constructor
  · exact shadows_of_rejects h
  · rintro ⟨i, j, hs, hseen⟩
    exact rejects_of_shadows h hs hseen

/-- **The check is complete for a table**, that is, without an error no entry is shadowed, if and only if, when there are
entries that are shadowed, some such pair has no key between them with the same letters in another case. -/
theorem complete_iff (h : a.Ok) :
    (rejects a = false → ∀ i j, ¬Shadows a i j) ↔ ((∃ i j, Shadows a i j) → ∃ i j, Shadows a i j ∧ Seen a i j) := by
  rw [← rejects_iff h]
  constructor
  · rintro hcomplete ⟨i, j, hs⟩
    by_contra hnot
    exact hcomplete (Bool.eq_false_iff.mpr hnot) i j hs
  · intro hfound hfalse i j hs
    rw [hfound ⟨i, j, hs⟩] at hfalse
    cases hfalse

/-- **Keys in one case**: the check is complete. -/
theorem complete_of_one_case (h : a.Ok)
    (hcase : ∀ i < a.used, ∀ k < a.used, foldKey (a.keyAt i) <+: foldKey (a.keyAt k) → a.keyAt i <+: a.keyAt k)
    (haccepts : rejects a = false) : ¬Shadows a i j := by
  intro hs
  have hrejects := (rejects_iff h).mpr ⟨i, j, hs, fun k hk hfold _ => hcase i (hs.earlier.trans hs.lt) k hk hfold⟩
  rw [haccepts] at hrejects
  cases hrejects

/-! ## A table -/

/-- `alias.url` with these keys, as `config_insert_values_global` inserts them one after the other. -/
def tableOf (keys : List Bytes) : Option (DataArray Unit) :=
  keys.foldlM (fun a key => a.insertUnique unitMethods ⟨.string, some key, false, ()⟩) init

theorem tableOf_ok {keys : List Bytes} {a : DataArray Unit} (h : tableOf keys = some a) : a.Ok := by
  have hall : ∀ (keys : List Bytes) (b : DataArray Unit) (m : KeyMap Unit), Refines b m →
      keys.foldlM (fun a key => a.insertUnique unitMethods ⟨.string, some key, false, ()⟩) b = some a → a.Ok := by
    intro keys
    induction keys with
    | nil =>
      intro b m hb hfold
      cases hfold
      exact hb.ok
    | cons key keys ih =>
      intro b m hb hfold
      rw [List.foldlM_cons] at hfold
      obtain ⟨b', hinsert, hfold⟩ := Option.bind_eq_some_iff.mp hfold
      have hrel := insertUnique_refines unitMethods hb ⟨.string, some key, false, ()⟩
      rw [hinsert] at hrel
      cases hm : m.insertUnique unitMethods ⟨.string, some key, false, ()⟩ with
      | none =>
        rw [hm] at hrel
        cases hrel
      | some m' =>
        rw [hm] at hrel
        cases hrel with
        | some href => exact ih b' m' href hfold
  exact hall keys init KeyMap.init init_refines h

def sampleKeys : List Bytes := [ascii "/a", ascii "/Ab", ascii "/ac"]

theorem complete_iff_sample : ∃ a, tableOf sampleKeys = some a ∧
    ((rejects a = false → ∀ i j, ¬Shadows a i j) ↔ ((∃ i j, Shadows a i j) → ∃ i j, Shadows a i j ∧ Seen a i j)) := by
  obtain ⟨a, ha⟩ := Option.isSome_iff_exists.mp (show (tableOf sampleKeys).isSome = true by decide)
  exact ⟨a, ha, complete_iff (tableOf_ok ha)⟩

/-- **`/ac` is never reached, and there is no error**: behind `/a`, the key `/Ab` stops the loop. -/
theorem shadow_overlooked : ∃ a, tableOf sampleKeys = some a ∧ rejects a = false ∧ Shadows a 0 2 := by
  obtain ⟨a, ha⟩ := Option.isSome_iff_exists.mp (show (tableOf sampleKeys).isSome = true by decide)
  have hall : (tableOf sampleKeys).map (fun a => (rejects a, decide (2 < a.used), a.keyAt 0, a.keyAt 2)) =
      some (false, true, ascii "/a", ascii "/ac") := by decide
  rw [ha, Option.map_some, Option.some.injEq, Prod.mk.injEq, Prod.mk.injEq, Prod.mk.injEq] at hall
  obtain ⟨hrejects, hused, hkey, hkey'⟩ := hall
  refine ⟨a, ha, hrejects, ⟨by decide, of_decide_eq_true hused, ?_, ?_⟩⟩
  · rw [hkey, hkey']
    decide
  · rw [hkey, hkey']
    decide

end Lighttpd.Alias
