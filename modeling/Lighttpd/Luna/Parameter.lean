import Lighttpd.Lib.StrTok
import Lighttpd.Luna.TidArray
import Mathlib.Data.List.GetD

/-!
# The parameters of a query (`string_util.c`, `luna.c`)

`get_query_value` and `parse_array` work on copies of their strings, with `strtok` and `memcmp`. Here they are `none` where
they read behind the copy (or write to an output of no bytes).

- `findKey_spec`: the segment that is found, and when a comparison reads behind the copy;
- `paramExact_iff`: when the value of a parameter is the text behind its first `=`;
- `parseArrayOf_eq_none`: `parse_array` reads behind its copy of every string;
- `parameters_iff`: both together.
-/

namespace Lighttpd.Luna

/-! ## `get_query_value` -/

/-- The loop over the segments. `memcmp` reads as many bytes as the key has. -/
def findKey (key : Bytes) : Nat → Bytes → Option (Option Bytes)
  | 0, _ => none
  | fuel + 1, block =>
    match StrTok.next 0 (chr '&') block with
    | none => none
    | some (none, _) => some none
    | some (some (pch, left), rest) =>
      if left.length < key.length then none
      else if (key ++ [chr '=']).isPrefixOf pch then some (some pch)
      else findKey key fuel rest

/-- The second token of a segment, which is copied. -/
def secondPiece (pch : Bytes) : Bytes := (strtok (chr '=') pch).getD 1 []

/-- `get_query_value`, with `get_value`, for an output of `size` bytes. -/
def getQueryValueOf (query key : Bytes) (size : Nat) : Option Bytes :=
  -- `value[0] = '\0'`
  if size = 0 then none
  else
    (findKey (cstr key) ((cstr query).length + 1) (cstr query ++ [0])).map fun pch =>
      ((pch.map secondPiece).getD []).take (size - 1)

/-! ## The parameters of a query -/

def HasName (key seg : Bytes) : Prop := chr '=' ∈ seg ∧ seg.takeWhile (· ≠ chr '=') = key

instance (key seg : Bytes) : Decidable (HasName key seg) := inferInstanceAs (Decidable (_ ∧ _))

/-- **The value of a parameter**: the text behind the first `=` of the first segment with the name. -/
def queryParam (query key : Bytes) : Bytes :=
  match ((cstr query).splitOn (chr '&')).find? fun seg => HasName key seg with
  | some seg => (seg.dropWhile (· ≠ chr '=')).tail
  | none => []

/-- The value that is stored is the one of the parameter, as far as there is room for it, and nothing is read or written
outside. -/
def ParamExact (query key : Bytes) (size : Nat) : Prop :=
  getQueryValueOf query key size = some ((queryParam query (cstr key)).take (size - 1))

/-! ## The segment that is found -/

/-- The first segment that begins with the key and `=`. -/
def keySegment (query key : Bytes) : Option Bytes :=
  (strtok (chr '&') query).find? fun pch => (key ++ [chr '=']).isPrefixOf pch

/-- Somewhere a segment begins, and there are fewer bytes from there on than the key has. -/
def ShortRest (query key : Bytes) : Prop := ∃ rest, StrTok.Begins (chr '&') query rest ∧ rest.length + 1 < key.length

variable {key : Bytes}

theorem length_of_prefix {pch : Bytes} (h : (key ++ [chr '=']).isPrefixOf pch = true) : key.length + 1 ≤ pch.length := by
  have := (List.isPrefixOf_iff_prefix.mp h).length_le
  simpa using this

theorem findKey_token {ds t block : Bytes} (hds : ∀ c ∈ ds, c = chr '&') (hne : t ≠ []) (ht : chr '&' ∉ t)
    (hzero : (0 : Byte) ∉ t) (hblock : ∀ c ∈ block.head?, c = chr '&' ∨ c = 0) (hsome : block ≠ []) (fuel : Nat) :
    findKey key (fuel + 1) (ds ++ (t ++ block)) =
      if (t ++ block).length < key.length then none
      else if (key ++ [chr '=']).isPrefixOf t then some (some t)
      else findKey key fuel (if block.head? = some 0 then block else block.tail) := by
  obtain ⟨e, rest, rfl⟩ := List.exists_cons_of_ne_nil hsome
  rw [findKey, StrTok.next_delims hds, StrTok.next_token hne ht hzero hblock]
  simp only [List.head?_cons, Option.some_inj, List.tail_cons]

/-- **What the loop finds**: the first segment that begins with the key and `=`; and where there is none, it reads behind
the copy if a segment begins too close to its end. -/
theorem findKey_spec {query : Bytes} (hzero : (0 : Byte) ∉ query) {fuel : Nat} (hfuel : query.length < fuel) :
    (∀ pch, keySegment query key = some pch → findKey key fuel (query ++ [0]) = some (some pch)) ∧
    (keySegment query key = none →
      (ShortRest query key → findKey key fuel (query ++ [0]) = none) ∧
      (¬ ShortRest query key → findKey key fuel (query ++ [0]) = some none)) := by
  have hcut := StrTok.cut_tokens (chr '&') query
  unfold keySegment ShortRest
  rw [show strtok (chr '&') query = StrTok.tokens (chr '&') query from rfl]
  generalize StrTok.tokens (chr '&') query = ts at hcut
  have hnul : (0 : Byte) ≠ chr '&' := by decide
  induction hcut generalizing fuel with
  | @delims ds hds =>
    obtain ⟨fuel, rfl⟩ : ∃ n, fuel = n + 1 := ⟨fuel - 1, by omega⟩
    have hno : ¬ ∃ rest, StrTok.Begins (chr '&') ds rest ∧ rest.length + 1 < key.length := by
      rintro ⟨rest, hrest, -⟩
      rw [← List.append_nil ds, StrTok.begins_delims hds] at hrest
      exact StrTok.not_begins_nil rest hrest
    refine ⟨nofun, fun _ => ⟨fun h => absurd h hno, fun _ => ?_⟩⟩
    rw [findKey, StrTok.next_delims hds, StrTok.next_nul hnul]
  | @last ds t hds hne ht =>
    rw [List.mem_append, not_or] at hzero
    rw [List.length_append] at hfuel
    have hpos := List.length_pos_iff.mpr hne
    obtain ⟨fuel, rfl⟩ : ∃ n, fuel = n + 1 + 1 := ⟨fuel - 2, by omega⟩
    have hshort : (∃ rest, StrTok.Begins (chr '&') (ds ++ t) rest ∧ rest.length + 1 < key.length) ↔
        t.length + 1 < key.length := by
      simp only [StrTok.begins_delims hds, StrTok.begins_last hne ht, exists_eq_left]
    have hend : findKey key (fuel + 1) [0] = some none := by
      rw [findKey, StrTok.next_nul hnul]
    rw [hshort, List.append_assoc, findKey_token hds hne ht hzero.2 (by simp) (by simp), List.find?_singleton]
    simp only [List.length_append, List.length_singleton, List.head?_cons, if_true, hend]
    by_cases hkey : (key ++ [chr '=']).isPrefixOf t = true
    · have := length_of_prefix hkey
      simp only [hkey, if_true, Option.some_inj]
      refine ⟨?_, nofun⟩
      rintro pch rfl
      rw [if_neg (by omega)]
    · simp only [hkey]
      refine ⟨nofun, fun _ => ⟨fun h => if_pos h, fun h => if_neg h⟩⟩
  | @cons ds t s ts hds hne ht hcut ih =>
    simp only [List.mem_append, List.mem_cons, not_or] at hzero
    simp only [List.length_append, List.length_cons] at hfuel
    obtain ⟨fuel, rfl⟩ : ∃ n, fuel = n + 1 := ⟨fuel - 1, by omega⟩
    obtain ⟨ihfound, ihnone⟩ := ih hzero.2.2.2 (show s.length < fuel by omega)
    have hshort : (∃ rest, StrTok.Begins (chr '&') (ds ++ (t ++ chr '&' :: s)) rest ∧ rest.length + 1 < key.length) ↔
        (t ++ chr '&' :: s).length + 1 < key.length ∨
          ∃ rest, StrTok.Begins (chr '&') s rest ∧ rest.length + 1 < key.length := by
      simp only [StrTok.begins_delims hds, StrTok.begins_cons hne ht, or_and_right, exists_or, exists_eq_left]
    have hsplit : ds ++ (t ++ chr '&' :: s) ++ [0] = ds ++ (t ++ chr '&' :: (s ++ [0])) := by simp
    rw [hshort, hsplit, findKey_token hds hne ht hzero.2.1 (by simp) (by simp)]
    simp only [List.head?_cons, Option.some_inj, Ne.symm hnul, if_false, List.tail_cons]
    have hlen : (t ++ chr '&' :: (s ++ [0])).length = (t ++ chr '&' :: s).length + 1 := by
      simp only [List.length_append, List.length_cons, List.length_nil]
      omega
    by_cases hkey : (key ++ [chr '=']).isPrefixOf t = true
    · have hlong := length_of_prefix hkey
      rw [List.find?_cons_of_pos hkey, if_neg (by simp only [List.length_append, List.length_cons]; omega), if_pos hkey]
      exact ⟨fun pch hpch => by rw [hpch], nofun⟩
    · rw [List.find?_cons_of_neg hkey, hlen, if_neg hkey]
      by_cases hclose : (t ++ chr '&' :: s).length + 1 < key.length
      · rw [if_pos hclose]
        refine ⟨fun pch hpch => ?_, fun _ => ⟨fun _ => rfl, fun h => absurd (.inl hclose) h⟩⟩
        -- a segment behind this one is shorter than the key
        have hlong := length_of_prefix (by simpa using List.find?_some hpch)
        have := hcut.length_le pch (List.mem_of_find?_eq_some hpch)
        simp only [List.length_append, List.length_cons] at hclose
        omega
      · rw [if_neg hclose, or_iff_right hclose]
        exact ⟨ihfound, ihnone⟩

/-! ## The value -/

/-- A segment with the name is one that begins with it and `=`. -/
theorem hasName_iff (hkey : chr '=' ∉ key) (seg : Bytes) :
    HasName key seg ↔ (key ++ [chr '=']).isPrefixOf seg = true := by
  rw [List.isPrefixOf_iff_prefix]
  constructor
  · rintro ⟨hmem, rfl⟩
    have hsplit : seg.takeWhile (· ≠ chr '=') ++ seg.dropWhile (· ≠ chr '=') = seg := List.takeWhile_append_dropWhile
    cases hdrop : seg.dropWhile (· ≠ chr '=') with
    | nil =>
      rw [hdrop, List.append_nil] at hsplit
      exact absurd (by rw [hsplit]; exact hmem) hkey
    | cons c rest =>
      have hc : c = chr '=' := by
        have := List.head?_dropWhile_not (· ≠ chr '=') seg
        rw [hdrop] at this
        simpa using this
      rw [hdrop, hc] at hsplit
      exact ⟨rest, by simpa using hsplit⟩
  · rintro ⟨rest, rfl⟩
    refine ⟨by simp, ?_⟩
    rw [List.append_assoc, List.takeWhile_append_of_pos fun c hc => decide_eq_true (ne_of_mem_of_not_mem hc hkey)]
    simp

theorem queryParam_eq (hkey : chr '=' ∉ key) (query : Bytes) : queryParam query key =
    match keySegment (cstr query) key with
    | some seg => seg.drop (key.length + 1)
    | none => [] := by
  have hfind : ((cstr query).splitOn (chr '&')).find? (fun seg => HasName key seg) = keySegment (cstr query) key := by
    unfold keySegment strtok
    rw [List.find?_filter]
    congr 1
    funext seg
    rw [Bool.eq_iff_iff, decide_eq_true_iff, hasName_iff hkey, decide_eq_true_iff, decide_eq_true_iff]
    refine (and_iff_right_of_imp ?_).symm
    rintro hprefix rfl
    have := length_of_prefix hprefix
    simp at this
  unfold queryParam
  rw [hfind]
  cases hseg : keySegment (cstr query) key with
  | none => rfl
  | some seg =>
    obtain ⟨rest, rfl⟩ : key ++ [chr '='] <+: seg := by simpa [keySegment] using List.find?_some hseg
    dsimp only
    rw [List.append_assoc, List.dropWhile_append_of_pos fun c hc => decide_eq_true (ne_of_mem_of_not_mem hc hkey)]
    simp

theorem queryParam_nil (hkey : chr '=' ∈ key) (query : Bytes) : queryParam query key = [] := by
  unfold queryParam
  rw [List.find?_eq_none.mpr]
  intro seg _ hname
  obtain ⟨-, rfl⟩ := of_decide_eq_true hname
  simpa using List.mem_takeWhile_imp hkey

theorem head_take {rest : Bytes} {n : Nat} (h : chr '=' ∉ rest.take n) (hn : n ≠ 0) : rest.head? ≠ some (chr '=') := by
  obtain ⟨n, rfl⟩ := Nat.exists_eq_succ_of_ne_zero hn
  cases rest with
  | nil => nofun
  | cons c rest =>
    rw [List.take_succ_cons, List.mem_cons, not_or] at h
    exact fun heq => h.1 (Option.some.inj heq).symm

theorem delims_nil {ds rest : Bytes} (hds : ∀ c ∈ ds, c = chr '=') (h : (ds ++ rest).head? ≠ some (chr '=')) : ds = [] := by
  cases ds with
  | nil => rfl
  | cons c ds => exact absurd (congrArg some (hds c List.mem_cons_self)) h

/-- The first token of a text is the text, as far as it is copied, just when there is no `=` in this part. -/
theorem firstPiece_iff (rest : Bytes) (n : Nat) :
    ((strtok (chr '=') rest).getD 0 []).take n = rest.take n ↔ chr '=' ∉ rest.take n := by
  constructor
  · -- a token has no `=`
    intro h hmem
    rw [← h] at hmem
    cases htokens : strtok (chr '=') rest with
    | nil => simp [htokens] at hmem
    | cons t ts =>
      rw [htokens] at hmem
      have ht : t ∈ strtok (chr '=') rest := by simp [htokens]
      exact (PathName.mem_splitOn (List.mem_filter.mp ht).1).1 (List.mem_of_mem_take hmem)
  · intro h
    by_cases hn : n = 0
    · simp [hn]
    have hhead := head_take h hn
    have hcut := StrTok.cut_tokens (chr '=') rest
    rw [show strtok (chr '=') rest = StrTok.tokens (chr '=') rest from rfl]
    generalize StrTok.tokens (chr '=') rest = ts at hcut
    cases hcut with
    | delims hds =>
      rw [← List.append_nil rest] at hhead
      rw [delims_nil hds hhead]
      rfl
    | last hds =>
      rw [delims_nil hds hhead]
      rfl
    | @cons ds t s ts hds hne ht hcut =>
      rw [delims_nil hds hhead] at h ⊢
      rw [List.nil_append, List.take_append] at h ⊢
      have hbehind : (chr '=' :: s).take (n - t.length) = [] := by
        cases hlen : n - t.length with
        | zero => rfl
        | succ k =>
          rw [hlen, List.take_succ_cons] at h
          simp at h
      rw [hbehind, List.append_nil]
      rfl

theorem secondPiece_eq (hne : key ≠ []) (hkey : chr '=' ∉ key) (rest : Bytes) :
    secondPiece (key ++ chr '=' :: rest) = (strtok (chr '=') rest).getD 0 [] := by
  unfold secondPiece strtok
  rw [List.splitOn_append_cons_self, List.splitOn_eq_singleton hkey]
  simp [hne]

/-- The token that is copied is the value, as far as there is room for it. The key of the program's own calls is neither
empty nor has it a `=`. -/
def PieceExact (query key : Bytes) (size : Nat) : Prop :=
  if chr '=' ∈ key then size = 1 ∨ ∀ pch, keySegment (cstr query) key = some pch → (strtok (chr '=') pch).length ≤ 1
  else if key = [] then
    ((strtok (chr '=') (queryParam query key)).getD 1 []).take (size - 1) = (queryParam query key).take (size - 1)
  else chr '=' ∉ (queryParam query key).take (size - 1)

theorem strtok_ne_nil {d : Byte} {s t : Bytes} (h : t ∈ strtok d s) : t ≠ [] := by
  simpa using (List.mem_filter.mp h).2

theorem secondPiece_take {pch : Bytes} {size : Nat} (hsize : size ≠ 0) :
    (secondPiece pch).take (size - 1) = [] ↔ size = 1 ∨ (strtok (chr '=') pch).length ≤ 1 := by
  have hpiece : secondPiece pch = [] ↔ (strtok (chr '=') pch).length ≤ 1 := by
    unfold secondPiece
    constructor
    · intro h
      by_contra hlen
      rw [Nat.not_le] at hlen
      rw [List.getD_eq_getElem _ _ hlen] at h
      exact strtok_ne_nil (List.getElem_mem hlen) h
    · intro h
      exact List.getD_eq_default _ _ h
  rw [List.take_eq_nil_iff, hpiece]
  refine or_congr_left ?_
  omega

theorem pieceExact_iff (query key : Bytes) {size : Nat} (hsize : size ≠ 0) : PieceExact query key size ↔
    ∀ pch, keySegment (cstr query) key = some pch →
      (secondPiece pch).take (size - 1) = (queryParam query key).take (size - 1) := by
  unfold PieceExact
  by_cases hkey : chr '=' ∈ key
  · rw [if_pos hkey, queryParam_nil hkey, List.take_nil, ← forall_or_left]
    refine forall_congr' fun pch => ?_
    rw [secondPiece_take hsize]
    tauto
  rw [if_neg hkey]
  have hparam := queryParam_eq hkey query
  cases hseg : keySegment (cstr query) key with
  | none =>
    rw [hseg] at hparam
    simp [hparam, strtok]
  | some seg =>
    obtain ⟨rest, rfl⟩ : key ++ [chr '='] <+: seg := by simpa [keySegment] using List.find?_some hseg
    rw [hseg] at hparam
    have hdrop : (key ++ [chr '='] ++ rest).drop (key.length + 1) = rest := List.drop_left' (by simp)
    simp only [hdrop] at hparam
    rw [hparam]
    simp only [Option.some_inj, forall_eq']
    rw [List.append_assoc, List.singleton_append]
    split_ifs with hne
    · rw [hne, List.nil_append, secondPiece, show strtok (chr '=') (chr '=' :: rest) = strtok (chr '=') rest from
        StrTok.tokens_delim (chr '=') rest]
    · rw [secondPiece_eq hne hkey, firstPiece_iff]

/-- **When the value of a parameter is exact.** -/
theorem paramExact_iff (query key : Bytes) (size : Nat) :
    ParamExact query key size ↔ size ≠ 0 ∧
      (keySegment (cstr query) (cstr key) = none → ¬ ShortRest (cstr query) (cstr key)) ∧
      PieceExact query (cstr key) size := by
  have hzero : (0 : Byte) ∉ cstr query := fun h => by simpa using List.mem_takeWhile_imp h
  obtain ⟨hfound, hnone⟩ := @findKey_spec (cstr key) _ hzero _ (Nat.lt_succ_self _)
  unfold ParamExact getQueryValueOf
  by_cases hsize : size = 0
  · simp [hsize]
  rw [pieceExact_iff query (cstr key) hsize, if_neg hsize, and_iff_right hsize]
  cases hseg : keySegment (cstr query) (cstr key) with
  | some pch => simp [hfound pch hseg]
  | none =>
    have hparam : queryParam query (cstr key) = [] := by
      by_cases hkey : chr '=' ∈ cstr key
      · exact queryParam_nil hkey query
      · rw [queryParam_eq hkey, hseg]
    by_cases hshort : ShortRest (cstr query) (cstr key)
    · simp [(hnone hseg).1 hshort, hshort]
    · simp [(hnone hseg).2 hshort, hshort, hparam]

/-- The value that is stored in `PARAM_VALUE_MAX_LEN` bytes. -/
theorem getQueryValueOf_eq {query key value : Bytes} (hzero : (0 : Byte) ∉ key)
    (h : getQueryValueOf query key paramValueMaxLen = some value) : getQueryValue query key = value := by
  have hquery : (0 : Byte) ∉ cstr query := fun h => by simpa using List.mem_takeWhile_imp h
  obtain ⟨hfound, hnone⟩ := @findKey_spec (cstr key) _ hquery _ (Nat.lt_succ_self _)
  unfold getQueryValueOf at h
  rw [if_neg (by decide), cstr_eq_self hzero] at h
  rw [cstr_eq_self hzero] at hfound hnone
  have hvalue : getQueryValue query key =
      (((keySegment (cstr query) key).map secondPiece).getD []).take (paramValueMaxLen - 1) := by
    unfold getQueryValue
    rw [show (strtok (chr '&') (cstr query)).find? (fun pch => (key ++ [chr '=']).isPrefixOf pch) =
      keySegment (cstr query) key from rfl]
    cases keySegment (cstr query) key with
    | none => rfl
    | some pch =>
      dsimp only [Option.map_some, Option.getD_some, secondPiece]
      rcases strtok (chr '=') pch with _ | ⟨t, _ | ⟨t', ts⟩⟩ <;> rfl
  rw [hvalue]
  cases hseg : keySegment (cstr query) key with
  | some pch =>
    rw [hfound pch hseg] at h
    exact Option.some.inj h
  | none =>
    by_cases hshort : ShortRest (cstr query) key
    · rw [(hnone hseg).1 hshort] at h
      cases h
    · rw [(hnone hseg).2 hshort] at h
      exact Option.some.inj h

/-! ## `parse_array` -/

def insertTokens (fuel : Nat) (block : Bytes) (arr : DataArray Int) : Option (DataArray Int) :=
  (StrTok.all 0 (chr ',') fuel block).bind fun tokens =>
    tokens.foldlM (fun arr pch => arr.insertUnique integerMethods (tidEntry pch)) arr

/-- `parse_array`. The block for its copy has `strlen(str)` bytes, and no terminator. -/
def parseArrayOf (str : Bytes) (arr : DataArray Int) : Option (DataArray Int) :=
  insertTokens ((cstr str).length + 1) (cstr str) arr

/-- The elements are the pieces between the commas, each one once, and nothing is read behind the copy. -/
def ParseArrayExact (str : Bytes) : Prop :=
  ∃ arr dus, parseArrayOf str DataArray.init = some arr ∧ (List.range arr.used).mapM arr.element = some dus ∧
    (dus.map DataUnset.keyBuf).Nodup ∧ ∀ k, k ∈ dus.map DataUnset.keyBuf ↔ k ≠ [] ∧ k ∈ (cstr str).splitOn (chr ',')

theorem zero_ne_comma : (0 : Byte) ≠ chr ',' := by decide

/-- `parseArray` is the same loop, on the copy and the byte behind it. -/
theorem parseArray_eq (zeroBehind : Nat → Bool) {str : Bytes} (hzero : (0 : Byte) ∉ str) (arr : DataArray Int) :
    parseArray zeroBehind str arr =
      insertTokens (str.length + 1) (str ++ if zeroBehind str.length then [0] else []) arr := by
  unfold parseArray insertTokens
  by_cases hz : zeroBehind str.length = true
  · rw [if_pos hz, if_pos hz, StrTok.all_terminated zero_ne_comma hzero (Nat.lt_succ_self _)]
    rfl
  · rw [if_neg hz, if_neg hz, List.append_nil, StrTok.all_unterminated zero_ne_comma _ hzero]
    rfl

/-- **`parse_array` reads behind its copy** of every string. -/
theorem parseArrayOf_eq_none (str : Bytes) (arr : DataArray Int) : parseArrayOf str arr = none := by
  have hzero : (0 : Byte) ∉ cstr str := fun h => by simpa using List.mem_takeWhile_imp h
  unfold parseArrayOf insertTokens
  rw [StrTok.all_unterminated zero_ne_comma _ hzero]
  rfl

/-! ## Both parsers -/

/-- **When the parameters are parsed exactly and within bounds**: the value of a parameter where a segment has its name or no
comparison reaches behind the copy, and the part of the value that fits has no `=`; a list of tags never. -/
theorem parameters_iff (query key : Bytes) (size : Nat) (str : Bytes) :
    (ParamExact query key size ↔ size ≠ 0 ∧
      (keySegment (cstr query) (cstr key) = none → ¬ ShortRest (cstr query) (cstr key)) ∧
      PieceExact query (cstr key) size) ∧
    ¬ ParseArrayExact str := by
  refine ⟨paramExact_iff query key size, ?_⟩
  rintro ⟨arr, dus, hparse, -⟩
  rw [parseArrayOf_eq_none] at hparse
  cases hparse

/-- A token with a `=`, a query that is shorter than the name of a parameter, and a list of two tags. -/
theorem parameters_inexact :
    ¬ ((∀ query key size, size ≠ 0 → ParamExact query key size) ∧ ∀ str, ParseArrayExact str) ∧
    ¬ ParamExact (ascii "token=a=b") (ascii "token") paramValueMaxLen ∧
    ¬ ParamExact (ascii "a") (ascii "token") paramValueMaxLen ∧
    ¬ ParseArrayExact (ascii "1,2") := by
  have hequals : ¬ ParamExact (ascii "token=a=b") (ascii "token") paramValueMaxLen := by
    unfold ParamExact
    decide
  refine ⟨fun h => hequals (h.1 _ _ _ (by decide)), hequals, ?_, ?_⟩
  · unfold ParamExact
    decide
  · rintro ⟨arr, dus, hparse, -⟩
    rw [parseArrayOf_eq_none] at hparse
    cases hparse

end Lighttpd.Luna
