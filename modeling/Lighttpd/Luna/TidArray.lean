import Lighttpd.Array.Map
import Lighttpd.Lib.PathName
import Lighttpd.Lib.Traverse
import Lighttpd.Luna.Query
import Lighttpd.Response.ByteRange

/-!
# The tags of a request and of redis

- `parseArray_spec`: `parse_array` makes an array of the tokens of a list;
- `markTids_spec`: the loop of `read_tag` marks the elements whose key redis has;
- `strtok_decodeValue`, `atoi_decimal`: the list that is made of a value of redis has the tags in decimal.
-/

namespace Lighttpd.Luna
open DataArray

/-! ## Lists of tokens -/

theorem intercalate_cons_cons (d : Byte) (t t' : Bytes) (ts : List Bytes) :
    [d].intercalate (t :: t' :: ts) = t ++ d :: [d].intercalate (t' :: ts) := by
  simp [List.intercalate]

theorem mem_intercalate {d c : Byte} {ts : List Bytes} (h : c ∈ [d].intercalate ts) : c = d ∨ ∃ t ∈ ts, c ∈ t := by
  induction ts with
  | nil => cases h
  | cons t ts ih =>
    cases ts with
    | nil => exact .inr ⟨t, by simp, by simpa [List.intercalate] using h⟩
    | cons t' ts =>
      rw [intercalate_cons_cons] at h
      rcases List.mem_append.mp h with h | h
      · exact .inr ⟨t, List.mem_cons_self, h⟩
      · rcases List.mem_cons.mp h with h | h
        · exact .inl h
        · obtain h | ⟨t'', ht, hc⟩ := ih h
          · exact .inl h
          · exact .inr ⟨t'', List.mem_cons_of_mem t ht, hc⟩

theorem mem_of_mem_strtok {s t : Bytes} {d c : Byte} (ht : t ∈ strtok d s) (hc : c ∈ t) : c ∈ s :=
  (PathName.mem_splitOn (List.mem_filter.mp ht).1).2 hc

theorem length_splitOn_le (d : Byte) (s : Bytes) : (s.splitOn d).length ≤ s.length + 1 := by
  induction s with
  | nil => simp
  | cons c s ih =>
    rw [List.splitOn_cons_eq_if_modifyHead]
    split <;> simp <;> omega

theorem length_strtok_le (d : Byte) (s : Bytes) : (strtok d s).length ≤ s.length + 1 :=
  (List.length_filter_le _ _).trans (length_splitOn_le d s)

/-! ## `parse_array` -/

/-- The element for a tag that has been parsed. -/
def tidEntry (k : Bytes) : DataUnset Int := ⟨.integer, some k, false, 0⟩

/-- The array is made of the tags `keys`. -/
structure Tids (keys : List Bytes) (a : DataArray Int) (m : KeyMap Int) : Prop where
  refines : Refines a m
  entries : ∀ key du, m.entries key = some du → ∃ k ∈ keys, du = tidEntry k ∧ foldKey k = key
  mem : ∀ k ∈ keys, (m.entries (foldKey k)).isSome
  count : m.count ≤ keys.length

theorem init_tids : Tids [] DataArray.init KeyMap.init :=
  ⟨init_refines, nofun, nofun, Nat.le_refl 0⟩

variable {keys : List Bytes} {a a' : DataArray Int} {m : KeyMap Int}

theorem Tids.insert (h : Tids keys a m) (k : Bytes) (hlen : keys.length + 1 ≤ Request.ssizeMax) :
    ∃ a' m', a.insertUnique integerMethods (tidEntry k) = some a' ∧ Tids (keys ++ [k]) a' m' := by
  have hname : nameEntry m.uniqueNdx (tidEntry k) = some (tidEntry k, m.uniqueNdx) := by simp [nameEntry, tidEntry]
  have hrel := insertUnique_refines integerMethods h.refines (tidEntry k)
  have hmap : ∃ m', m.insertUnique integerMethods (tidEntry k) = some m' ∧
      (∀ key, m'.entries key = if key = foldKey k ∧ m.entries key = none then some (tidEntry k) else m.entries key) ∧
      m'.count ≤ keys.length + 1 := by
    unfold KeyMap.insertUnique
    rw [hname]
    simp only [Option.bind_eq_bind, Option.bind_some]
    have hbuf : foldKey (tidEntry k).keyBuf = foldKey k := rfl
    simp only [hbuf]
    cases hentry : m.entries (foldKey k) with
    | some du =>
      obtain ⟨k', -, hdu, -⟩ := h.entries _ du hentry
      have htype : du.type = (tidEntry k).type := by
        rw [hdu]
        rfl
      have hkey : foldKey du.keyBuf = foldKey k := by
        obtain ⟨i, -, -, hkey⟩ := (h.refines.entries _ du).mp hentry
        exact hkey
      refine ⟨_, if_pos htype, fun key => ?_, Nat.le_succ_of_le h.count⟩
      show Function.update m.entries (foldKey du.keyBuf) (some du) key = _
      rw [hkey]
      by_cases hk : key = foldKey k
      · simp [hk, hentry]
      · simp [hk]
    | none =>
      have hcount := h.count
      refine ⟨_, if_pos (by show m.count + 1 ≤ _; omega), fun key => ?_, Nat.succ_le_succ h.count⟩
      show Function.update m.entries (foldKey k) (some (tidEntry k)) key = _
      by_cases hk : key = foldKey k
      · simp [hk, hentry]
      · simp [hk]
  obtain ⟨m', hm', hentries, hcount⟩ := hmap
  rw [hm'] at hrel
  obtain ⟨a', ha', href⟩ : ∃ a', a.insertUnique integerMethods (tidEntry k) = some a' ∧ Refines a' m' := by
    cases ha : a.insertUnique integerMethods (tidEntry k) with
    | none => rw [ha] at hrel; cases hrel
    | some a' =>
      rw [ha] at hrel
      cases hrel with
      | some href => exact ⟨a', rfl, href⟩
  refine ⟨a', m', ha', href, fun key du hdu => ?_, fun k' hk' => ?_, by simpa using hcount⟩
  · rw [hentries] at hdu
    split at hdu
    · rename_i hkey
      exact ⟨k, by simp, (Option.some.inj hdu).symm, hkey.1.symm⟩
    · obtain ⟨k', hk', hpar⟩ := h.entries key du hdu
      exact ⟨k', List.mem_append_left _ hk', hpar⟩
  · rw [hentries]
    split
    · rfl
    · rename_i hne
      rcases List.mem_append.mp hk' with hk' | hk'
      · exact h.mem k' hk'
      · rw [List.mem_singleton.mp hk'] at hne ⊢
        by_contra hnone
        exact hne ⟨rfl, by simpa using hnone⟩

/-- **`parse_array` makes an array of the tokens of the list.** -/
theorem parseArray_spec {zeroBehind : Nat → Bool} {str : Bytes} (hz : zeroBehind str.length = true)
    (hlen : str.length < Request.ssizeMax) :
    ∃ a m, parseArray zeroBehind str DataArray.init = some a ∧ Tids (strtok (chr ',') str) a m := by
  have hfold : ∀ (ks keys : List Bytes) (a : DataArray Int) (m : KeyMap Int), Tids keys a m →
      (keys ++ ks).length ≤ Request.ssizeMax →
      ∃ a' m', ks.foldlM (fun arr pch => arr.insertUnique integerMethods (tidEntry pch)) a = some a' ∧
        Tids (keys ++ ks) a' m' := by
    intro ks
    induction ks with
    | nil =>
      intro keys a m h _
      exact ⟨a, m, rfl, by rwa [List.append_nil]⟩
    | cons k ks ih =>
      intro keys a m h hlen
      obtain ⟨a₁, m₁, hins, h₁⟩ := h.insert k (by simp at hlen ⊢; omega)
      obtain ⟨a', m', hrest, h'⟩ := ih (keys ++ [k]) a₁ m₁ h₁ (by simpa using hlen)
      refine ⟨a', m', ?_, by simpa using h'⟩
      rw [List.foldlM_cons, hins]
      exact hrest
  obtain ⟨a, m, ha, h⟩ := hfold (strtok (chr ',') str) [] _ _ init_tids (by
    have := length_strtok_le (chr ',') str
    rw [List.nil_append]
    omega)
  exact ⟨a, m, (if_pos hz).trans ha, by simpa using h⟩

/-! ## The loop of `read_tag` -/

/-- A tag is among the tags of redis, without regard to case. -/
def hit (tags : List Bytes) (key : Bytes) : Bool := tags.any fun t => foldKey t == foldKey key

/-- The element gets the value 1 if redis has its key. -/
def marked (tags : List Bytes) (du : DataUnset Int) : DataUnset Int :=
  if hit tags du.keyBuf then ⟨.integer, du.key, false, 1⟩ else du

/-- What `array_get_element` says of the tags of redis. -/
theorem Tids.getElement (h : Tids keys a m) {key : Bytes} (hkey : (0 : Byte) ∉ key) :
    ∃ r, a.getElement key = some r ∧ r.isSome = hit keys key := by
  refine ⟨_, getElement_refines h.refines key, ?_⟩
  rw [cstr_eq_self hkey, Bool.eq_iff_iff]
  constructor
  · intro hsome
    obtain ⟨du, hdu⟩ := Option.isSome_iff_exists.mp hsome
    obtain ⟨k, hk, -, heq⟩ := h.entries _ du hdu
    exact List.any_eq_true.mpr ⟨k, hk, by simpa using heq⟩
  · intro hhit
    obtain ⟨k, hk, heq⟩ := List.any_eq_true.mp hhit
    have heq : foldKey k = foldKey key := by simpa using heq
    rw [← heq]
    exact h.mem k hk

theorem markTid_spec {redis : DataArray Int} {tags : List Bytes} {mr : KeyMap Int} (hr : Tids tags redis mr)
    (href : ∃ m, Refines a m) {i : Nat} {du : DataUnset Int} (hi : i < a.used) (hdu : a.element i = some du)
    (hkey : ∃ k, du.key = some k ∧ (0 : Byte) ∉ k) :
    ∃ a', markTid redis a i = some a' ∧ (∃ m, Refines a' m) ∧ a'.used = a.used ∧
      ∀ j, a'.element j = if i = j then some (marked tags du) else a.element j := by
  obtain ⟨m, href⟩ := href
  obtain ⟨k, hk, hzero⟩ := hkey
  have hbuf : du.keyBuf = k := by simp [DataUnset.keyBuf, hk]
  obtain ⟨r, hget, hhit⟩ := hr.getElement (hbuf ▸ hzero)
  unfold markTid marked
  rw [hdu]
  simp only [Option.bind_eq_bind, Option.bind_some, hget, hhit]
  cases hit tags du.keyBuf with
  | false =>
    refine ⟨a, rfl, ⟨m, href⟩, rfl, fun j => ?_⟩
    by_cases hj : i = j
    · simp [← hj, hdu]
    · simp [hj]
  | true =>
    obtain ⟨hreplace, href'⟩ := replace_element (e := ⟨.integer, du.key, false, 1⟩) href hi hdu rfl (by simp [hk]) rfl
    refine ⟨_, hreplace, ⟨_, href'⟩, rfl, fun j => ?_⟩
    exact element_set a (href.ok.lt_length hi) _ j

/-- **The loop of `read_tag` marks the elements whose keys redis has.** -/
theorem markTids_spec {redis : DataArray Int} {tags : List Bytes} {mr : KeyMap Int} (hr : Tids tags redis mr)
    (href : ∃ m, Refines a m)
    (hkeys : ∀ i du, i < a.used → a.element i = some du → ∃ k, du.key = some k ∧ (0 : Byte) ∉ k)
    {n : Nat} (hn : n ≤ a.used) :
    ∃ a', (List.range n).foldlM (markTid redis) a = some a' ∧ (∃ m, Refines a' m) ∧ a'.used = a.used ∧
      ∀ j, a'.element j = if j < n then (a.element j).map (marked tags) else a.element j := by
  induction n with
  | zero => exact ⟨a, rfl, href, rfl, fun j => by simp⟩
  | succ n ih =>
    obtain ⟨a₁, hfold, href₁, hused, hel⟩ := ih (by omega)
    obtain ⟨m, hm⟩ := href
    obtain ⟨du, hdu⟩ := hm.ok.slots n (by omega)
    have hdu₁ : a₁.element n = some du := by rw [hel, if_neg (by omega), hdu]
    obtain ⟨a', hmark, href', hused', hel'⟩ :=
      markTid_spec hr href₁ (by omega) hdu₁ (hkeys n du (by omega) hdu)
    refine ⟨a', ?_, href', hused'.trans hused, fun j => ?_⟩
    · rw [List.range_succ, List.foldlM_append, hfold]
      simpa using hmark
    · rw [hel', hel]
      by_cases hj : n = j
      · subst hj
        simp [hdu]
      · have hiff : j < n + 1 ↔ j < n := by omega
        simp [hj, hiff]

/-! ## The members of the answer -/

/-- The member of the answer for a tag: whether it is among those of redis, if the token may query it. -/
def tagMember (i : Info) (tags : List Bytes) (du : DataUnset Int) : Option (Bytes × Value) :=
  if tiVerifyTid i du.keyBuf then some (du.keyBuf, .num (if hit tags du.keyBuf then 1 else 0)) else none

theorem Tids.elements (h : Tids keys a m) : ∃ dus, (List.range a.used).mapM a.element = some dus ∧
    (∀ du ∈ dus, ∃ k ∈ keys, du = tidEntry k) ∧ ∀ k ∈ keys, ∃ du ∈ dus, foldKey du.keyBuf = foldKey k := by
  obtain ⟨dus, hdus⟩ := Traverse.exists_of_forall (f := a.element) (l := List.range a.used)
    fun j hj => h.refines.ok.slots j (List.mem_range.mp hj)
  have hmem := Traverse.mem_iff hdus
  refine ⟨dus, hdus, fun du hdu => ?_, fun k hk => ?_⟩
  · obtain ⟨j, hj, hdu⟩ := (hmem du).mp hdu
    obtain ⟨k, hk, hpar, -⟩ := h.entries _ du
      ((h.refines.entries _ du).mpr ⟨j, List.mem_range.mp hj, hdu, rfl⟩)
    exact ⟨k, hk, hpar⟩
  · obtain ⟨du, hdu⟩ := Option.isSome_iff_exists.mp (h.mem k hk)
    obtain ⟨j, hj, hdu, hkey⟩ := (h.refines.entries _ du).mp hdu
    exact ⟨du, (hmem du).mpr ⟨j, List.mem_range.mpr hj, hdu⟩, hkey⟩

/-- **What `luna_tags_query` adds for the tags that `read_tag` has marked.** -/
theorem tagMembers_marked {dus : List (DataUnset Int)} (hdus : (List.range a.used).mapM a.element = some dus)
    (hentry : ∀ du ∈ dus, ∃ k ∈ keys, du = tidEntry k) (i : Info) {tags : List Bytes} (hused : a'.used = a.used)
    (hel : ∀ j, a'.element j = if j < a.used then (a.element j).map (marked tags) else a.element j) :
    tagMembers i a' = some (dus.filterMap (tagMember i tags)) := by
  have hmark : (List.range a'.used).mapM a'.element = some (dus.map (marked tags)) := by
    rw [hused, Traverse.mapM_map (f := a.element) (g := marked tags) fun j hj => by rw [hel, if_pos (List.mem_range.mp hj)], hdus]
    rfl
  unfold tagMembers
  rw [hmark, Option.map_some, List.filterMap_map]
  congr 1
  refine List.filterMap_congr fun du hdu => ?_
  obtain ⟨k, -, hpar⟩ := hentry du hdu
  have hkey : (marked tags du).keyBuf = du.keyBuf := by
    unfold marked
    split <;> rfl
  have hvalue : (marked tags du).value = if hit tags du.keyBuf then 1 else 0 := by
    unfold marked
    split
    · rfl
    · rw [hpar]
      rfl
  simp only [Function.comp_apply, tagMember, hkey, hvalue]

/-! ## The list of redis -/

/-- The tags that redis has for a key. -/
def tagsOf (reply : Option Bytes) : List Bytes := (reply.map decodeTags).getD []

theorem mem_tagsOf {r : Option Bytes} {t : Bytes} (h : t ∈ tagsOf r) :
    ∃ n : Int, t = decimal n ∧ -2 ^ 31 ≤ n ∧ n < 2 ^ 31 := by
  cases r with
  | none => cases h
  | some stored =>
    obtain ⟨s, -, rfl⟩ := List.mem_map.mp h
    refine ⟨_, rfl, ?_⟩
    have hstep : ∀ number i c, -2 ^ 31 ≤ number ∧ number < 2 ^ 31 →
        -2 ^ 31 ≤ base62Step number i c ∧ base62Step number i c < 2 ^ 31 := by
      intro number i c hnumber
      unfold base62Step doubleToInt
      split
      · exact hnumber
      · split
        · split
          · assumption
          · omega
        · omega
    have hfrom : ∀ (s : Bytes) i number, -2 ^ 31 ≤ number ∧ number < 2 ^ 31 →
        -2 ^ 31 ≤ base62From i number s ∧ base62From i number s < 2 ^ 31 := by
      intro s
      induction s with
      | nil => intro i number h; exact h
      | cons c s ih => intro i number h; exact ih _ _ (hstep number i c h)
    exact hfrom _ _ _ (by omega)

/-- Only the tag itself is equal to a tag of redis without regard to case. -/
theorem eq_of_foldKey_decimal {n : Int} {k : Bytes} (h : foldKey (decimal n) = foldKey k) : k = decimal n := by
  have hfold : foldKey (decimal n) = decimal n := by
    refine (List.map_congr_left fun c hc => ?_).trans (List.map_id _)
    refine if_neg fun hupper => ?_
    rcases isDecimal_iff.mp (decimal_isDecimal n c hc) with hdigit | rfl
    · grind
    · exact absurd hupper (by decide)
  rw [hfold] at h
  have hk : foldKey k = k := by
    refine (List.map_congr_left fun c hc => ?_).trans (List.map_id _)
    refine toLower_of_isDecimal (decimal_isDecimal n _ ?_)
    rw [h]
    exact List.mem_map_of_mem hc
  rw [h, hk]

theorem hit_iff {reply : Option Bytes} {k : Bytes} : hit (tagsOf reply) k = true ↔ k ∈ tagsOf reply := by
  unfold hit
  rw [List.any_eq_true]
  constructor
  · rintro ⟨t, ht, heq⟩
    obtain ⟨n, rfl, -⟩ := mem_tagsOf ht
    have heq : foldKey (decimal n) = foldKey k := by simpa using heq
    rwa [eq_of_foldKey_decimal heq]
  · intro hk
    exact ⟨k, hk, by simp⟩

/-- **The list has the tags.** -/
theorem strtok_redisValue (reply : Option Bytes) : strtok (chr ',') (redisValue reply) = tagsOf reply := by
  cases reply with
  | none => rfl
  | some stored =>
    show strtok (chr ',') (decodeValue stored) = decodeTags stored
    have hmem : ∀ t ∈ decodeTags stored, ∃ n : Int, t = decimal n := fun t ht => by
      obtain ⟨n, rfl, -⟩ := mem_tagsOf (r := some stored) ht
      exact ⟨n, rfl⟩
    unfold strtok decodeValue
    cases hdecode : decodeTags stored with
    | nil => rfl
    | cons t ts =>
      rw [hdecode] at hmem
      rw [List.splitOn_intercalate _ (fun l hl hc => ?_) (List.cons_ne_nil t ts)]
      · refine List.filter_eq_self.mpr fun l hl => ?_
        obtain ⟨n, rfl⟩ := hmem l hl
        simpa using decimal_ne_nil n
      · obtain ⟨n, rfl⟩ := hmem l hl
        exact absurd (decimal_isDecimal n _ hc) (by decide)

theorem redisValue_isPlain (reply : Option Bytes) : ∀ c ∈ redisValue reply, isPlain c = true := by
  intro c hc
  cases reply with
  | none => cases hc
  | some stored =>
    obtain rfl | ⟨t, ht, hct⟩ := mem_intercalate hc
    · rfl
    · obtain ⟨n, rfl, -⟩ := mem_tagsOf (r := some stored) ht
      exact isPlain_of_isDecimal (decimal_isDecimal n c hct)

/-! ## `atoi` -/

theorem strtolBody_digits {s : Bytes} {v : Nat} (neg : Bool) (hne : s ≠ []) (hread : readDigits 10 0 s = (v, []))
    (hv : v ≤ 2 ^ 31) {w w' : Bytes} (hsign : readSign w = (neg, s)) :
    (strtolBody w' w).1 = if neg then -(v : Int) else v := by
  unfold strtolBody longMax
  simp only [hsign, hread]
  rw [if_neg (Ne.symm hne)]
  cases neg with
  | true => simp only [if_true]; omega
  | false => simp only [Bool.false_eq_true, if_false]; omega

/-- **`atoi` reads what is printed with `"%d"`.** -/
theorem atoi_decimal {n : Int} (hlow : -2 ^ 31 ≤ n) (hhigh : n < 2 ^ 31) : atoi (decimal n) = n := by
  obtain ⟨hne, hdigits, hnumber⟩ := liUtostrn_spec n.natAbs
  have hread := readDigits_number hnumber
  have hzero : (0 : Byte) ∉ decimal n := fun h => absurd (decimal_isDecimal n 0 h) (by decide)
  have hspace : (decimal n).dropWhile isspace = decimal n := by
    cases hdec : decimal n with
    | nil => rfl
    | cons c s =>
      have hc := decimal_isDecimal n c (by rw [hdec]; exact List.mem_cons_self)
      have hcs : isspace c = false := by
        rcases isDecimal_iff.mp hc with hdigit | rfl
        · exact (digit_facts (lightIsdigit_iff.mpr hdigit)).1
        · rfl
      simp [hcs]
  have hvalue : (strtol 10 (decimal n)).1 = n := by
    rw [strtol_eq hzero, hspace]
    by_cases hneg : n < 0
    · have hsign : readSign (decimal n) = (true, liUtostrn n.natAbs) := by
        rw [decimal, if_pos hneg]
        rfl
      rw [strtolBody_digits true hne hread (by omega) hsign]
      simp only [if_true]
      omega
    · have hsign : readSign (decimal n) = (false, liUtostrn n.natAbs) := by
        rw [decimal, if_neg hneg]
        cases hstr : liUtostrn n.natAbs with
        | nil => rfl
        | cons c s =>
          have hc := hdigits c (by rw [hstr]; exact List.mem_cons_self)
          have hminus : c ≠ 45 := fun h => by rw [h] at hc; exact absurd hc (by decide)
          have hplus : c ≠ 43 := fun h => by rw [h] at hc; exact absurd hc (by decide)
          unfold readSign
          split <;> simp_all
      rw [strtolBody_digits false hne hread (by omega) hsign]
      simp only [Bool.false_eq_true, if_false]
      omega
  unfold atoi toInt
  rw [hvalue, Int.bmod_eq_of_le (by omega) (by omega)]

end Lighttpd.Luna
