import Lighttpd.Array.Map
import Lighttpd.Base.Buffer
import Lighttpd.Request.Fields

/-!
# The values of a header (`http_request_split_value`)

The loop looks at every byte of the value and at the NUL behind it. Its tokens go into `srv->split_vals`, an array that
is reset for each value and whose strings are used again.

- `splitScan_eq`: the loop puts what `httpRequestSplitValue` returns into the array;
- `httpRequestSplitValue_eq`: these are the parts between commas without the blanks around them, but for empty ones;
- `insertToken_holds`: one token becomes the last element of the array;
- `split_elements`: after any values before it, the array has the elements of the value in their order.
-/

namespace Lighttpd.Request
open DataArray

/-! ## The loop -/

def dataStringInsertDup (dst src : DataUnset Buffer) : Buffer :=
  if dst.value.isEmpty then dst.value.copyBuffer src.value
  else (dst.value.appendStringLen (ascii ", ")).appendStringLen src.value.str

def stringMethods : Methods Buffer := ⟨Buffer.reset, dataStringInsertDup⟩

def dataStringInit : DataUnset Buffer := ⟨.string, none, false, .init⟩

/-- The token is copied into an unused string, or a new one, which is inserted. -/
def insertToken (vals : DataArray Buffer) (token : Bytes) : Option (DataArray Buffer) := do
  let (ds, vals) ← vals.getUnusedElement .string
  let ds := ds.getD dataStringInit
  vals.insertUnique stringMethods { ds with value := ds.value.copyStringLen token }

/-- The `state` of the loop, with `token_start` and `token_end` in state `1`. -/
inductive SplitState
  | findStart
  | findEnd (tokenStart tokenEnd : Nat)
deriving DecidableEq, Repr

/-- The loop from `i` on, for so many more bytes. -/
def splitScan (b : Bytes) : Nat → Nat → SplitState → DataArray Buffer → Option (DataArray Buffer)
  | 0, _, _, vals => some vals
  | n + 1, i, .findStart, vals =>
    -- `b->ptr[len]` is the NUL
    let c := b.getD i 0
    if isWs c ∨ c = chr ',' then splitScan b n (i + 1) .findStart vals
    else if c = 0 then some vals
    else splitScan b n (i + 1) (.findEnd i i) vals
  | n + 1, i, .findEnd tokenStart tokenEnd, vals =>
    let c := b.getD i 0
    if isWs c then splitScan b n (i + 1) (.findEnd tokenStart tokenEnd) vals
    else if c = chr ',' ∨ c = 0 then do
      let vals ← insertToken vals ((b.drop tokenStart).take (tokenEnd - tokenStart + 1))
      splitScan b n (i + 1) .findStart vals
    else splitScan b n (i + 1) (.findEnd tokenStart i) vals

def httpRequestSplitValueInto (vals : DataArray Buffer) (b : Buffer) : Option (DataArray Buffer) :=
  if b.stringIsEmpty then some vals else splitScan b.str (b.stringLength + 1) 0 .findStart vals

/-- What the parser does with `srv->split_vals` for one value. -/
def refill (vals : DataArray Buffer) (b : Buffer) : Option (DataArray Buffer) :=
  httpRequestSplitValueInto (vals.reset stringMethods) b

def strings (vals : DataArray Buffer) : List (Option Bytes) :=
  (List.range vals.used).map fun vi => (vals.element vi).map fun ds => ds.value.str

/-! ## The tokens of the loop -/

/-- What is copied for a token: the bytes from `token_start` to `token_end`. -/
theorem take_token (pre : Bytes) (c : Byte) (t ws rest : Bytes) :
    ((pre ++ (c :: t ++ ws) ++ rest).drop pre.length).take (pre.length + t.length - pre.length + 1) = c :: t := by
  rw [List.append_assoc, List.drop_left, List.append_assoc, Nat.add_sub_cancel_left]
  show ((c :: t) ++ (ws ++ rest)).take (c :: t).length = _
  exact List.take_left

/-- The loop in front of a token, and in one: `c :: t` ends at `token_end`, and the blanks `ws` are behind it. -/
theorem splitScan_eq (rest : Bytes) :
    (∀ (pre : Bytes) (vals : DataArray Buffer), splitScan (pre ++ rest) (rest.length + 1) pre.length .findStart vals =
      (splitLoop none rest).foldlM insertToken vals) ∧
    ∀ (pre : Bytes) (c : Byte) (t ws : Bytes) (vals : DataArray Buffer),
      splitScan (pre ++ (c :: t ++ ws) ++ rest) (rest.length + 1) (pre ++ (c :: t ++ ws)).length
        (.findEnd pre.length (pre.length + t.length)) vals =
      (splitLoop (some (c :: t, ws)) rest).foldlM insertToken vals := by
  induction rest with
  | nil =>
    have hget : ∀ pre : Bytes, (pre ++ []).getD pre.length 0 = 0 := by simp
    refine ⟨fun pre vals => ?_, fun pre c t ws vals => ?_⟩
    · rw [List.length_nil, splitScan, hget]
      rfl
    · rw [List.length_nil, splitScan, hget, take_token]
      rfl
  | cons d rest ih =>
    obtain ⟨hstart, hend⟩ := ih
    have hget : ∀ pre : Bytes, (pre ++ d :: rest).getD pre.length 0 = d := by simp
    have hnext : ∀ pre : Bytes, pre ++ d :: rest = pre ++ [d] ++ rest := by simp
    refine ⟨fun pre vals => ?_, fun pre c t ws vals => ?_⟩
    · have hlen : pre.length + 1 = (pre ++ [d]).length := by simp
      rw [List.length_cons, splitScan, hget, splitLoop, hnext, hlen]
      split
      · exact hstart _ vals
      · split
        · rfl
        · exact hend pre d [] [] vals
    · have hlen : (pre ++ (c :: t ++ ws)).length + 1 = (pre ++ (c :: t ++ ws) ++ [d]).length := by simp; omega
      rw [List.length_cons, splitScan, hget, take_token, splitLoop, hnext, hlen]
      split
      · have := hend pre c t (ws ++ [d]) vals
        simpa using this
      · split
        · rw [List.foldlM_cons]
          exact congrArg _ (funext fun vals => hstart _ vals)
        · have := hend pre c (t ++ ws ++ [d]) [] vals
          simpa [Nat.add_assoc] using this

/-- **The loop puts its tokens into the array.** -/
theorem splitValueInto_eq (vals : DataArray Buffer) (b : Buffer) :
    httpRequestSplitValueInto vals b = (httpRequestSplitValue b.str).foldlM insertToken vals := by
  unfold httpRequestSplitValueInto httpRequestSplitValue
  split
  · rename_i hempty
    rw [(Buffer.stringIsEmpty_iff b).mp hempty]
    rfl
  · rw [Buffer.stringLength_eq]
    exact (splitScan_eq b.str).1 [] vals

/-! ## The elements of a list -/

/-- **The reference splitter**: the parts between the commas, without the blanks around them. -/
def trimmedParts (s : Bytes) : List Bytes := (s.splitOn (chr ',')).map trim

/-- The parts of which more than blanks is left. -/
def keptParts (parts : List Bytes) : List Bytes := (parts.map trim).filter (· ≠ [])

theorem keptParts_cons (part : Bytes) (parts : List Bytes) :
    keptParts (part :: parts) = if trim part = [] then keptParts parts else trim part :: keptParts parts := by
  unfold keptParts
  rw [List.map_cons, List.filter_cons]
  by_cases h : trim part = [] <;> simp [h]

theorem trim_blank {c : Byte} (hc : isWs c = true) (s : Bytes) : trim (c :: s) = trim s := by
  unfold trim
  rw [List.dropWhile_cons_of_pos hc]

/-- A token starts and ends with no blank. -/
structure IsToken (t : Bytes) : Prop where
  ne_nil : t ≠ []
  head : ∀ c ∈ t.head?, isWs c = false
  last : ∀ c ∈ t.getLast?, isWs c = false

theorem isToken_singleton {c : Byte} (hc : isWs c = false) : IsToken [c] :=
  ⟨List.cons_ne_nil c [], by simpa using hc, by simpa using hc⟩

theorem IsToken.append {t : Bytes} (h : IsToken t) (ws : Bytes) {c : Byte} (hc : isWs c = false) :
    IsToken (t ++ ws ++ [c]) := by
  refine ⟨by simp, ?_, ?_⟩
  · obtain ⟨d, t, rfl⟩ := List.exists_cons_of_ne_nil h.ne_nil
    exact h.head
  · rw [List.getLast?_concat]
    simpa using hc

theorem IsToken.trim {t : Bytes} (h : IsToken t) {ws : Bytes} (hws : ∀ c ∈ ws, isWs c = true) : trim (t ++ ws) = t := by
  obtain ⟨d, u, rfl⟩ := List.exists_cons_of_ne_nil h.ne_nil
  have hhead : isWs d = false := h.head d rfl
  unfold Request.trim
  rw [List.cons_append, List.dropWhile_cons_of_neg (by simp [hhead]), ← List.cons_append, rdropWhile_append,
    if_pos (List.all_eq_true.mpr hws), List.rdropWhile_eq_self_iff]
  intro hne
  simp [h.last _ (List.getLast?_eq_some_getLast hne)]

/-- **The scan keeps the parts between the commas**, in front of a token and in one. -/
theorem splitLoop_eq {s : Bytes} (hs : (0 : Byte) ∉ s) :
    splitLoop none s = keptParts (s.splitOn (chr ',')) ∧
    ∀ t ws : Bytes, IsToken t → (∀ c ∈ ws, isWs c = true) →
      splitLoop (some (t, ws)) s = keptParts ((s.splitOn (chr ',')).modifyHead (t ++ ws ++ ·)) := by
  induction s with
  | nil =>
    refine ⟨rfl, fun t ws ht hws => ?_⟩
    rw [splitLoop, List.splitOn_nil, List.modifyHead_cons, List.append_nil, keptParts_cons, ht.trim hws, if_neg ht.ne_nil]
    rfl
  | cons c s ih =>
    rw [List.mem_cons, not_or] at hs
    obtain ⟨hnone, hsome⟩ := ih hs.2
    have hnul : c ≠ 0 := Ne.symm hs.1
    obtain ⟨part, parts, hparts⟩ := List.exists_cons_of_ne_nil (List.splitOn_ne_nil (chr ',') s)
    rw [List.splitOn_cons_eq_if_modifyHead]
    rw [hparts] at hnone hsome ⊢
    simp only [List.modifyHead_cons, beq_iff_eq] at hsome ⊢
    by_cases hcomma : c = chr ','
    · subst hcomma
      have hws : isWs (chr ',') = false := by decide
      simp only [splitLoop, hws, or_true, true_or, if_true, Bool.false_eq_true, if_false, List.modifyHead_cons,
        List.append_nil]
      refine ⟨hnone, fun t ws ht hblank => ?_⟩
      rw [keptParts_cons, ht.trim hblank, if_neg ht.ne_nil, hnone]
    · simp only [splitLoop, hcomma, hnul, or_false, if_false, List.modifyHead_cons]
      by_cases hws : isWs c = true
      · refine ⟨?_, fun t ws ht hblank => ?_⟩
        · rw [if_pos hws, hnone, keptParts_cons, keptParts_cons, trim_blank hws]
        · rw [if_pos hws, hsome t (ws ++ [c]) ht fun d hd => ?_]
          · simp
          · rcases List.mem_append.mp hd with hd | hd
            · exact hblank d hd
            · rwa [List.mem_singleton.mp hd]
      · have hplain : isWs c = false := by simpa using hws
        refine ⟨?_, fun t ws ht hblank => ?_⟩
        · rw [if_neg hws, hsome [c] [] (isToken_singleton hplain) nofun]
          rfl
        · rw [if_neg hws, hsome _ [] (ht.append ws hplain) nofun]
          simp

/-- **The tokens are the parts between the commas**, but for the empty ones. -/
theorem httpRequestSplitValue_eq {s : Bytes} (hs : (0 : Byte) ∉ s) :
    httpRequestSplitValue s = (trimmedParts s).filter (· ≠ []) := (splitLoop_eq hs).1

/-! ## The array -/

/-- **The array holds the strings `ts`**, under the numbers that are generated, and has at most `n + 16` slots. The
strings behind them have been reset. -/
structure Holds (n : Nat) (ts : List Bytes) (a : DataArray Buffer) : Prop where
  refines : ∃ m, Refines a m
  size : a.size ≤ n + 16
  used : a.used = ts.length
  uniqueNdx : a.uniqueNdx = ts.length
  element : ∀ i t, ts[i]? = some t → ∃ v : Buffer, v.str = t ∧ a.element i = some ⟨.string, some (copyInt i), true, v⟩
  unused : ∀ i du, a.used ≤ i → a.element i = some du → du.type = .string ∧ du.key = none

variable {n : Nat} {ts : List Bytes} {a : DataArray Buffer}

theorem init_holds (n : Nat) : Holds n [] .init :=
  ⟨⟨_, init_refines⟩, Nat.zero_le _, rfl, rfl, nofun, nofun⟩

theorem Holds.strings (h : Holds n ts a) : strings a = ts.map some := by
  refine List.ext_getElem (by simp [Request.strings, h.used]) fun i hi hi' => ?_
  rw [List.length_map] at hi'
  obtain ⟨v, hstr, hv⟩ := h.element i _ (List.getElem?_eq_getElem hi')
  simp [Request.strings, hv, hstr]

/-- **`array_reset`** leaves strings that are used again. -/
theorem Holds.reset (h : Holds n ts a) : Holds n [] (a.reset stringMethods) := by
  obtain ⟨m, href⟩ := h.refines
  refine ⟨⟨_, reset_refines stringMethods href⟩, h.size, rfl, rfl, nofun, fun i du _ hdu => ?_⟩
  rw [reset_element stringMethods href.ok] at hdu
  split at hdu
  · rename_i hi
    rw [h.used] at hi
    obtain ⟨v, -, hv⟩ := h.element i _ (List.getElem?_eq_getElem hi)
    rw [hv] at hdu
    cases hdu
    exact ⟨rfl, rfl⟩
  · rename_i hi
    exact h.unused i du (by omega) hdu

theorem Holds.unusedString (h : Holds n ts a) (hn : n + 16 < 2 ^ 32) : ∃ r a', a.getUnusedElement .string = some (r, a') ∧
    Holds n ts a' ∧ (r.getD dataStringInit).type = .string ∧ (r.getD dataStringInit).key = none := by
  obtain ⟨m, href⟩ := h.refines
  have hsize := h.size
  have hwrap : a.NoWrap .string := Or.inl (by omega)
  rcases getUnusedElement_spec href.ok .string hwrap with hnone | ⟨i, hi, hsize, hsome⟩
  · exact ⟨none, a, hnone, h, rfl, rfl⟩
  · obtain ⟨r, a', heq, href'⟩ := getUnusedElement_refines href .string hwrap
    have hel := taken_element href.ok hsize (by omega)
    rw [hsome] at heq
    cases heq
    refine ⟨_, _, hsome, ⟨⟨m, href'⟩, h.size, h.used, h.uniqueNdx, fun j t hj => ?_, fun j du hj hdu => ?_⟩, ?_⟩
    · have hlt := (List.getElem?_eq_some_iff.mp hj).1
      have hused := h.used
      rw [hel, if_neg (by omega), if_neg (by omega)]
      exact h.element j t hj
    · rw [hel] at hdu
      split at hdu
      · cases hdu
      · split at hdu
        · exact h.unused a.used du (Nat.le_refl _) hdu
        · exact h.unused j du hj hdu
    · cases hdu : a.element i with
      | none => exact ⟨rfl, rfl⟩
      | some du => exact h.unused i du hi hdu

/-- **One token becomes the last element.** -/
theorem insertToken_holds (h : Holds n ts a) (hn : n + 16 < 2 ^ 32) (hlen : ts.length < n) (t : Bytes) :
    ∃ a', insertToken a t = some a' ∧ Holds n (ts ++ [t]) a' := by
  obtain ⟨r, b, hunused, hb, htype, hkey⟩ := h.unusedString hn
  obtain ⟨m, href⟩ := hb.refines
  have hused := hb.used
  generalize hds : ({ r.getD dataStringInit with value := (r.getD dataStringInit).value.copyStringLen t } : DataUnset Buffer) =
    ds
  have hname : nameEntry b.uniqueNdx ds =
      some (⟨.string, some (copyInt ts.length), true, (r.getD dataStringInit).value.copyStringLen t⟩, ts.length + 1) := by
    rw [← hds, nameEntry, if_pos (Or.inl hkey), hb.uniqueNdx, if_pos (by omega), htype]
  have hnew : ∀ i, i < b.used → foldKey (b.keyAt i) ≠ foldKey (copyInt ts.length) := by
    intro i hi heq
    obtain ⟨v, -, hv⟩ := hb.element i _ (List.getElem?_eq_getElem (hused ▸ hi))
    rw [keyAt_element hv] at heq
    have := numbered_inj (i := i) (j := ts.length) (by omega) (by omega) heq
    omega
  obtain ⟨a', hins, href', hused', hndx', hsize', hel'⟩ :=
    insertUnique_new stringMethods href hname hnew (by unfold ssizeMax; omega)
  refine ⟨a', ?_, href', ?_, ?_, ?_, fun i u hi => ?_, fun i du hi hdu => ?_⟩
  · unfold insertToken
    rw [hunused, ← hins, ← hds]
    rfl
  · have hsize := hb.size
    rw [hsize']
    unfold grow
    split
    · exact Nat.le_add_left 16 n
    · split
      · show b.size + 16 ≤ n + 16
        omega
      · exact hsize
  · rw [hused', hused, List.length_append, List.length_singleton]
  · rw [hndx', List.length_append, List.length_singleton]
  · rw [hel', hused]
    rcases Nat.lt_or_ge i ts.length with hlt | hge
    · rw [List.getElem?_append_left hlt] at hi
      rw [if_neg (by omega)]
      exact hb.element i u hi
    · obtain rfl : ts.length = i := by
        have hlast := (List.getElem?_eq_some_iff.mp hi).1
        simp at hlast
        omega
      rw [List.getElem?_concat_length, Option.some.injEq] at hi
      rw [if_pos rfl]
      exact ⟨_, hi, rfl⟩
  · rw [hel', if_neg (by omega)] at hdu
    exact hb.unused i du (by omega) hdu

theorem insertTokens_holds (h : Holds n ts a) (hn : n + 16 < 2 ^ 32) (us : List Bytes) (hlen : ts.length + us.length ≤ n) :
    ∃ a', us.foldlM insertToken a = some a' ∧ Holds n (ts ++ us) a' := by
  induction us generalizing ts a with
  | nil => exact ⟨a, rfl, by rwa [List.append_nil]⟩
  | cons u us ih =>
    rw [List.length_cons] at hlen
    obtain ⟨a₁, hins, h₁⟩ := insertToken_holds h hn (by omega) u
    obtain ⟨a', hrun, h'⟩ := ih h₁ (by simp; omega)
    refine ⟨a', ?_, by rwa [List.append_assoc] at h'⟩
    rw [List.foldlM_cons, hins]
    exact hrun

/-! ## Header values -/

theorem length_splitLoop (s : Bytes) :
    2 * (splitLoop none s).length ≤ s.length + 1 ∧ ∀ t ws, 2 * (splitLoop (some (t, ws)) s).length ≤ s.length + 2 := by
  induction s with
  | nil => exact ⟨Nat.zero_le _, fun t ws => Nat.le_refl 2⟩
  | cons c s ih =>
    obtain ⟨hnone, hsome⟩ := ih
    simp only [splitLoop, List.length_cons]
    refine ⟨?_, fun t ws => ?_⟩
    · split
      · omega
      · split
        · exact Nat.zero_le _
        · exact hsome [c] []
    · split
      · exact Nat.le_succ_of_le (hsome t _)
      · split
        · rw [List.length_cons]
          omega
        · exact Nat.le_succ_of_le (hsome _ [])

/-- The value of a header: the parser refuses a NUL in it, and a header of more than 64 KiB is not read. -/
structure HeaderValue where
  buffer : Buffer
  nonzero : (0 : Byte) ∉ buffer.str
  small : buffer.str.length < 2 ^ 32

/-- **One value**: the array has its tokens, whatever it had before. -/
theorem refill_holds (h : Holds (2 ^ 31) ts a) (b : HeaderValue) :
    ∃ a', refill a b.buffer = some a' ∧ Holds (2 ^ 31) ((trimmedParts b.buffer.str).filter (· ≠ [])) a' := by
  have hsmall := b.small
  have hlen : 2 * (httpRequestSplitValue b.buffer.str).length ≤ b.buffer.str.length + 1 := (length_splitLoop _).1
  unfold refill
  rw [splitValueInto_eq, ← httpRequestSplitValue_eq b.nonzero]
  exact insertTokens_holds h.reset (by omega) _ (by rw [List.length_nil]; omega)

theorem refill_run (bs : List HeaderValue) :
    ∃ a ts, Run.run (fun a (b : HeaderValue) => refill a b.buffer) .init bs = some a ∧ Holds (2 ^ 31) ts a := by
  suffices ∀ a ts, Holds (2 ^ 31) ts a → ∃ a' ts',
      Run.run (fun a (b : HeaderValue) => refill a b.buffer) a bs = some a' ∧ Holds (2 ^ 31) ts' a' from
    this .init [] (init_holds _)
  induction bs with
  | nil => exact fun a ts h => ⟨a, ts, rfl, h⟩
  | cons b bs ih =>
    intro a ts h
    obtain ⟨a₁, hfill, h₁⟩ := refill_holds h b
    obtain ⟨a', ts', hrun, h'⟩ := ih a₁ _ h₁
    refine ⟨a', ts', ?_, h'⟩
    rw [Run.run_cons, hfill]
    exact hrun

/-- **The array holds exactly the elements of the value**, in their order, whatever values were split before: the parts
between the commas without the blanks around them, but for empty ones. -/
theorem split_elements (bs : List HeaderValue) (b : HeaderValue) :
    ∃ a a', Run.run (fun a (b : HeaderValue) => refill a b.buffer) .init bs = some a ∧ refill a b.buffer = some a' ∧
      strings a' = ((trimmedParts b.buffer.str).filter (· ≠ [])).map some := by
  obtain ⟨a, ts, hrun, h⟩ := refill_run bs
  obtain ⟨a', hfill, h'⟩ := refill_holds h b
  exact ⟨a, a', hrun, hfill, h'.strings⟩

def leadingComma : HeaderValue := ⟨Buffer.ofString (ascii ",close"), by decide, by decide⟩

/-- **An empty part is passed over**, here the one in front of the first comma. -/
theorem empty_part_skipped : ∃ a, refill .init leadingComma.buffer = some a ∧ strings a = [some (ascii "close")] ∧
    trimmedParts leadingComma.buffer.str = [[], ascii "close"] := by
  obtain ⟨a, hfill, h⟩ := refill_holds (init_holds _) leadingComma
  have hparts : trimmedParts leadingComma.buffer.str = [[], ascii "close"] := by decide
  refine ⟨a, hfill, ?_, hparts⟩
  rw [h.strings, hparts]
  decide

end Lighttpd.Request
