import Lighttpd.Response.Range

/-!
# The ranges that a field selects

`byteRange` reads an element of the list in the field `Range`, and `ByteRange.resolve` gives its first and last position
in a file. `rangeLoop_walk` says that the loop of `http_response_parse_range` does this for one element after another,
and where it stops.

- `strtol_append`: what follows a number does not change it;
- `readRange_error`, `readRange_unsatisfiable`, `readRange_range`: how an element is read;
- `rangeLoop_walk`: the loop.
-/

namespace Lighttpd

/-! ## Numbers in front of other text -/

theorem readDigits_append {t : Bytes} (ht : ∀ c ∈ t.head?, digitVal c = none) (base acc : Nat) (u : Bytes) :
    readDigits base acc (u ++ t) = ((readDigits base acc u).1, (readDigits base acc u).2 ++ t) := by
  induction u generalizing acc with
  | nil =>
    cases t with
    | nil => rfl
    | cons c t => simp [readDigits, ht c rfl]
  | cons c u ih =>
    simp only [List.cons_append, readDigits]
    cases digitVal c with
    | none => rfl
    | some d =>
      dsimp only
      split
      · exact ih _
      · rfl

theorem readSign_append {w : Bytes} (hw : w ≠ []) (t : Bytes) :
    readSign (w ++ t) = ((readSign w).1, (readSign w).2 ++ t) := by
  cases w with
  | nil => exact absurd rfl hw
  | cons c w =>
    unfold readSign
    by_cases hminus : c = 45
    · subst hminus
      rfl
    · by_cases hplus : c = 43
      · subst hplus
        rfl
      · simp [hminus, hplus]

/-- What the number is made of, behind the blanks. -/
def strtolBody (s w : Bytes) : Int × Bytes :=
  let r := readDigits 10 0 (readSign w).2
  if r.2 = (readSign w).2 then (0, s)
  else if (readSign w).1 then (max (-(r.1 : Int)) (-(longMax : Int) - 1), r.2) else (min r.1 longMax, r.2)

theorem strtol_eq {s : Bytes} (h : (0 : Byte) ∉ s) : strtol 10 s = strtolBody s (s.dropWhile isspace) := by
  unfold strtol strtolBody
  rw [cstr_eq_self h]
  rfl

theorem strtolBody_append {s w t : Bytes} (hw : w ≠ []) (ht : ∀ c ∈ t.head?, digitVal c = none) :
    strtolBody (s ++ t) (w ++ t) = ((strtolBody s w).1, (strtolBody s w).2 ++ t) := by
  unfold strtolBody
  rw [readSign_append hw, readDigits_append ht]
  simp only [List.append_left_inj]
  split
  · rfl
  · split <;> rfl

/-- **What follows a number does not change it**, unless there are blanks only, and a sign follows. -/
theorem strtol_append {s t : Bytes} (hz : (0 : Byte) ∉ s ++ t) (ht : ∀ c ∈ t.head?, digitVal c = none)
    (hw : s.dropWhile isspace ≠ [] ∨ ∀ c ∈ t.head?, isspace c = false ∧ c ≠ 45 ∧ c ≠ 43) :
    strtol 10 (s ++ t) = ((strtol 10 s).1, (strtol 10 s).2 ++ t) := by
  have hs : (0 : Byte) ∉ s := fun h => hz (List.mem_append_left t h)
  rw [strtol_eq hz, strtol_eq hs, List.dropWhile_append]
  by_cases hblank : s.dropWhile isspace = []
  · have hsep := hw.resolve_left fun h => h hblank
    rw [if_pos (by simp [hblank]), hblank]
    cases t with
    | nil => simp
    | cons c t =>
      obtain ⟨hspace, hminus, hplus⟩ := hsep c rfl
      have hdigit := ht c rfl
      simp [hspace, strtolBody, readSign, hminus, hplus, readDigits, hdigit]
  · rw [if_neg (by simpa using hblank)]
    exact strtolBody_append hblank ht

theorem readDigits_suffix (u : Bytes) (acc : Nat) : (readDigits 10 acc u).2 <:+ u := by
  induction u generalizing acc with
  | nil => exact List.suffix_rfl
  | cons c u ih =>
    unfold readDigits
    cases digitVal c with
    | none => exact List.suffix_rfl
    | some d =>
      dsimp only
      split
      · exact (ih _).trans (List.suffix_cons c u)
      · exact List.suffix_rfl

theorem strtol_suffix {s : Bytes} (hz : (0 : Byte) ∉ s) : (strtol 10 s).2 <:+ s := by
  have hsign : ∀ w : Bytes, (readSign w).2 <:+ w := by
    intro w
    unfold readSign
    split
    · exact List.suffix_cons _ _
    · exact List.suffix_cons _ _
    · exact List.suffix_rfl
  have hrest : (readDigits 10 0 (readSign (s.dropWhile isspace)).2).2 <:+ s :=
    (readDigits_suffix _ 0).trans ((hsign _).trans (List.dropWhile_suffix _))
  rw [strtol_eq hz]
  unfold strtolBody
  dsimp only
  split
  · exact List.suffix_rfl
  · split
    · exact hrest
    · exact hrest

namespace Respond
open Request Backend

/-! ## Byte ranges -/

/-- A range of bytes as it is asked for: so many at the end, or from a position on, perhaps up to another. -/
inductive ByteRange
  | suffix (length : Nat)
  | onward (first : Nat)
  | between (first last : Nat)
deriving DecidableEq, Repr

/-- The first and the last position in a file of the size. -/
def ByteRange.resolve (size : Nat) : ByteRange → Option (Nat × Nat)
  | .suffix length => if 0 < size then some (size - length, size - 1) else none
  | .onward first => if first < size then some (first, size - 1) else none
  | .between first last => if first < size then some (first, min last (size - 1)) else none

/-- A position, which is all of the text. -/
def position (p : Bytes) : Option Nat :=
  if p ≠ [] ∧ (strtol 10 p).2 = [] ∧ 0 ≤ (strtol 10 p).1 then some (strtol 10 p).1.toNat else none

/-- An element of the list of ranges. -/
def byteRange (e : Bytes) : Option ByteRange :=
  match e.dropWhile (· ≠ chr '-') with
  | [] => none
  | _ :: post =>
    let pre := e.takeWhile (· ≠ chr '-')
    if pre = [] then
      if (strtol 10 e).2 = [] ∧ (strtol 10 e).1 < 0 then some (.suffix (strtol 10 e).1.natAbs) else none
    else if post = [] then (position pre).map .onward
    else (position pre).bind fun first => (position post).bind fun last =>
      if first ≤ last then some (.between first last) else none

/-- The file has no byte of the range; also `-` without a number, or with zero. -/
def Unsatisfiable (size : Nat) (e : Bytes) : Prop :=
  (e.head? = some (chr '-') ∧ (strtol 10 e).1 = 0) ∨ ∃ r, byteRange e = some r ∧ r.resolve size = none

instance (size : Nat) (e : Bytes) : Decidable (Unsatisfiable size e) :=
  inferInstanceAs (Decidable (_ ∨ ∃ r, byteRange e = some r ∧ _))

def positions (size : Nat) (e : Bytes) : Option (Nat × Nat) := (byteRange e).bind (·.resolve size)

variable {s post : Bytes} {size : Nat}

theorem strtol_nonneg (hz : (0 : Byte) ∉ s) (h : chr '-' ∉ s) : 0 ≤ (strtol 10 s).1 := by
  have hsign : (readSign (s.dropWhile isspace)).1 = false := by
    have hmem : chr '-' ∉ s.dropWhile isspace := fun hm => h ((List.dropWhile_suffix _).subset hm)
    unfold readSign
    split
    · rename_i heq
      exact absurd (heq ▸ List.mem_cons_self) hmem
    · rfl
    · rfl
  rw [strtol_eq hz]
  unfold strtolBody
  rw [hsign]
  dsimp only
  split
  · exact Int.le_refl 0
  · simp only [Bool.false_eq_true, if_false]
    omega

/-! ## How an element is read -/

/-- What the element asks for, before it is cut to the file. -/
def ByteRange.bounds (size : Nat) : ByteRange → Int × Int
  | .suffix length => (size - length, size - 1)
  | .onward first => (first, size - 1)
  | .between first last => (first, last)

/-- A suffix is not empty, and the last position does not precede the first. -/
def ByteRange.Ok : ByteRange → Prop
  | .suffix length => 0 < length
  | .onward _ => True
  | .between first last => first ≤ last

theorem cutRange_eq (size : Nat) (rest : Bytes) (comma : Bool) (start stop : Int) :
    cutRange size (.range rest comma start stop) =
      if (size : Int) - 1 < max start 0 then .unsatisfiable
      else .range rest comma (max start 0) (min stop ((size : Int) - 1)) := by
  have hstart : (if start < 0 then 0 else start) = max start 0 := by split <;> omega
  have hstop : (if stop > (size : Int) - 1 then (size : Int) - 1 else stop) = min stop ((size : Int) - 1) := by
    split <;> omega
  simp only [cutRange, hstart, hstop, gt_iff_lt]

theorem cutRange_some {a b : Nat} {start stop : Int} (rest : Bytes) (comma : Bool) (hstart : max start 0 = a)
    (hlt : a < size) (hstop : min stop ((size : Int) - 1) = b) :
    cutRange size (.range rest comma start stop) = .range rest comma a b := by
  rw [cutRange_eq, if_neg (by omega), hstart, hstop]

theorem cutRange_none {start : Int} (rest : Bytes) (comma : Bool) (stop : Int)
    (h : (size : Int) - 1 < max start 0) : cutRange size (.range rest comma start stop) = .unsatisfiable := by
  rw [cutRange_eq, if_pos h]

/-- The range is cut to what `resolve` gives. -/
theorem cutRange_bounds {r : ByteRange} (h : r.Ok) (size : Nat) (rest : Bytes) (comma : Bool) :
    cutRange size (.range rest comma (r.bounds size).1 (r.bounds size).2) =
      match r.resolve size with
      | some (a, b) => .range rest comma a b
      | none => .unsatisfiable := by
  cases r with
  | suffix length =>
    have hlen : 0 < length := h
    simp only [ByteRange.bounds, ByteRange.resolve]
    by_cases hsize : 0 < size
    · rw [if_pos hsize]
      exact cutRange_some rest comma (by omega) (by omega) (by omega)
    · rw [if_neg hsize]
      exact cutRange_none rest comma _ (by omega)
  | onward first =>
    simp only [ByteRange.bounds, ByteRange.resolve]
    by_cases hsize : first < size
    · rw [if_pos hsize]
      exact cutRange_some rest comma (by omega) hsize (by omega)
    · rw [if_neg hsize]
      exact cutRange_none rest comma _ (by omega)
  | between first last =>
    have hle : first ≤ last := h
    simp only [ByteRange.bounds, ByteRange.resolve]
    by_cases hsize : first < size
    · rw [if_pos hsize]
      exact cutRange_some rest comma (by omega) hsize (by omega)
    · rw [if_neg hsize]
      exact cutRange_none rest comma _ (by omega)

structure Element (e t : Bytes) : Prop where
  noComma : chr ',' ∉ e
  separated : t = [] ∨ t.head? = some (chr ',')
  noNul : (0 : Byte) ∉ e ++ t

namespace Element

variable {e t : Bytes}

theorem head (h : Element e t) {c : Byte} (hc : c ∈ t.head?) : c = chr ',' := by
  rcases h.separated with rfl | ht
  · cases hc
  · rw [ht] at hc
    exact (Option.some.inj hc).symm

theorem strtol_eq (h : Element e t) {p : Bytes} (hp : p <:+ e) :
    strtol 10 (p ++ t) = ((strtol 10 p).1, (strtol 10 p).2 ++ t) := by
  refine strtol_append (fun hz => ?_) (fun c hc => ?_) (Or.inr fun c hc => ?_)
  · rcases List.mem_append.mp hz with hz | hz
    · exact h.noNul (List.mem_append_left t (hp.subset hz))
    · exact h.noNul (List.mem_append_right e hz)
  · rw [h.head hc]
    decide
  · rw [h.head hc]
    decide

theorem rangeEnd_eq (h : Element e t) {p : Bytes} (hp : p <:+ e) (start stop : Int) :
    rangeEnd (p ++ t) start stop = if p = [] then .range t.tail (!t.isEmpty) start stop else .error := by
  cases p with
  | nil =>
    rw [if_pos rfl, List.nil_append]
    rcases h.separated with rfl | ht
    · rfl
    · cases t with
      | nil => cases ht
      | cons c t =>
        rw [h.head rfl]
        rfl
  | cons c p =>
    have hc : c ≠ chr ',' := by
      rintro rfl
      exact h.noComma (hp.subset List.mem_cons_self)
    simp [rangeEnd, hc]

end Element

variable {t pre e : Bytes}

/-- The number in front of a `-`, and where it ends. -/
theorem strtol_minus (u : Bytes) (hpre : pre ≠ []) (hz : (0 : Byte) ∉ pre ++ chr '-' :: u) :
    ((strtol 10 (pre ++ chr '-' :: u)).2.length = (chr '-' :: u).length ↔ (strtol 10 pre).2 = []) ∧
    ((strtol 10 pre).2 = [] → strtol 10 (pre ++ chr '-' :: u) = ((strtol 10 pre).1, chr '-' :: u)) := by
  have hpz : (0 : Byte) ∉ pre := fun h => hz (List.mem_append_left _ h)
  by_cases hblank : pre.dropWhile isspace = []
  · have hlocal : (strtol 10 pre).2 = pre := by
      rw [Lighttpd.strtol_eq hpz, hblank]
      rfl
    rw [hlocal]
    refine ⟨iff_of_false ?_ hpre, fun h => absurd h hpre⟩
    have hlen : 0 < pre.length := List.length_pos_iff.mpr hpre
    rw [Lighttpd.strtol_eq hz, List.dropWhile_append, if_pos (by simp [hblank])]
    have hu : (0 : Byte) ∉ u := fun h => hz (List.mem_append_right _ (List.mem_cons_of_mem _ h))
    have hdash : (chr '-' :: u).dropWhile isspace = chr '-' :: u := rfl
    have hsign : readSign (chr '-' :: u) = (true, u) := rfl
    rw [hdash, strtolBody, hsign]
    dsimp only
    split
    · simp
      omega
    · have hle := (readDigits_suffix u 0).length_le
      simp
      omega
  · -- the number is not preceded by blanks only, so that the minus is not its sign
    have happ := strtol_append hz (fun c hc => by rw [← Option.some.inj hc]; decide) (Or.inl hblank)
    rw [happ]
    refine ⟨?_, fun h => by rw [h, List.nil_append]⟩
    simp

theorem strtol_neg (hz : (0 : Byte) ∉ chr '-' :: post) : (strtol 10 (chr '-' :: post)).1 ≤ 0 := by
  rw [Lighttpd.strtol_eq hz]
  show (strtolBody (chr '-' :: post) (chr '-' :: post)).1 ≤ 0
  unfold strtolBody
  have hsign : readSign (chr '-' :: post) = (true, post) := rfl
  rw [hsign]
  dsimp only
  split
  · exact Int.le_refl 0
  · rw [if_pos rfl]
    have : (0 : Int) ≤ longMax := Int.natCast_nonneg _
    dsimp only
    omega

theorem byteRange_ok {r : ByteRange} (h : byteRange e = some r) : r.Ok := by
  unfold byteRange at h
  split at h
  · cases h
  · dsimp only at h
    split at h
    · split at h
      · rename_i hneg
        cases h
        show 0 < (strtol 10 e).1.natAbs
        omega
      · cases h
    · split at h
      · obtain ⟨first, -, rfl⟩ := Option.map_eq_some_iff.mp h
        trivial
      · obtain ⟨first, -, h⟩ := Option.bind_eq_some_iff.mp h
        obtain ⟨last, -, h⟩ := Option.bind_eq_some_iff.mp h
        split at h
        · rename_i hle
          cases h
          exact hle
        · cases h

theorem noMinus {p : Bytes} (h : chr '-' ∉ p) : ∀ c ∈ p, decide (c ≠ chr '-') = true := by
  intro c hc
  rw [decide_eq_true_eq]
  rintro rfl
  exact h hc

/-- An element without a `-`. -/
theorem readRange_noMinus (h : Element e t) (hnot : chr '-' ∉ e) (hdash : chr '-' ∈ e ++ t) (size : Nat) :
    readRange size (e ++ t) ((e ++ t).dropWhile (· ≠ chr '-')) = .error := by
  have hdrop : (e ++ t).dropWhile (· ≠ chr '-') = t.dropWhile (· ≠ chr '-') :=
    List.dropWhile_append_of_pos (noMinus hnot)
  have ht : (t.dropWhile (· ≠ chr '-')).length < t.length := by
    rcases h.separated with rfl | ht
    · rw [List.append_nil] at hdash
      exact absurd hdash hnot
    · cases t with
      | nil => cases ht
      | cons c t =>
        obtain rfl := h.head (c := c) rfl
        show (t.dropWhile (· ≠ chr '-')).length < t.length + 1
        exact Nat.lt_succ_of_le (List.dropWhile_suffix _).length_le
  have hrest := h.strtol_eq List.suffix_rfl
  rw [hdrop]
  unfold readRange
  rw [if_neg (by rw [List.length_append]; omega), hrest]
  dsimp only
  split
  · rw [if_neg (by rw [List.length_append]; omega)]
  · rw [if_neg (by rw [List.length_append]; omega)]

/-- An element that starts with a `-`. -/
theorem readRange_suffix (h : Element (chr '-' :: post) t) (size : Nat) :
    readRange size (chr '-' :: post ++ t) (chr '-' :: post ++ t) =
      if (strtol 10 (chr '-' :: post)).1 = 0 then .unsatisfiable
      else if (strtol 10 (chr '-' :: post)).2 = [] then
        .range t.tail (!t.isEmpty) (size + (strtol 10 (chr '-' :: post)).1) (size - 1)
      else .error := by
  have hz : (0 : Byte) ∉ chr '-' :: post := fun hz => h.noNul (List.mem_append_left t hz)
  unfold readRange
  rw [if_pos rfl, h.strtol_eq List.suffix_rfl]
  dsimp only
  rw [h.rangeEnd_eq (strtol_suffix hz)]

/-- An element with a `-` behind something else. -/
theorem readRange_first (h : Element (pre ++ chr '-' :: post) t) (hne : pre ≠ []) (size : Nat) :
    readRange size (pre ++ chr '-' :: (post ++ t)) (chr '-' :: (post ++ t)) =
      if (strtol 10 pre).2 = [] then
        if post = [] then .range t.tail (!t.isEmpty) (strtol 10 pre).1 (size - 1)
        else if (strtol 10 pre).1 > (strtol 10 post).1 then .error
        else if (strtol 10 post).2 = [] then .range t.tail (!t.isEmpty) (strtol 10 pre).1 (strtol 10 post).1
        else .error
      else .error := by
  have hlen : 0 < pre.length := List.length_pos_iff.mpr hne
  have hassoc : pre ++ chr '-' :: post ++ t = pre ++ chr '-' :: (post ++ t) := by simp
  have hsuffix : post <:+ pre ++ chr '-' :: post := (List.suffix_cons _ _).trans (List.suffix_append _ _)
  have hpz : (0 : Byte) ∉ post := fun hz => h.noNul (List.mem_append_left t (hsuffix.subset hz))
  obtain ⟨hplace, hvalue⟩ := strtol_minus (post ++ t) hne (hassoc ▸ h.noNul)
  have hcond : (chr '-' :: (post ++ t)).tail = [] ∨ (chr '-' :: (post ++ t)).tail.head? = some (chr ',') ↔ post = [] := by
    rw [List.tail_cons]
    constructor
    · rintro (hnil | hcomma)
      · exact (List.append_eq_nil_iff.mp hnil).1
      · by_contra hpost
        rw [List.head?_append_of_ne_nil _ hpost] at hcomma
        exact h.noComma (hsuffix.subset (List.mem_of_head? hcomma))
    · rintro rfl
      exact h.separated
  unfold readRange
  rw [if_neg (by simp; omega)]
  dsimp only
  by_cases hnum : (strtol 10 pre).2 = []
  · rw [hvalue hnum, if_pos hnum]
    dsimp only
    by_cases hpost : post = []
    · rw [if_pos (hcond.mpr hpost), if_pos rfl, if_pos hpost, List.tail_cons, hpost,
        h.rangeEnd_eq List.nil_suffix, if_pos rfl]
    · rw [if_neg fun hc => hpost (hcond.mp hc), if_pos rfl, if_neg hpost, List.tail_cons, h.strtol_eq hsuffix]
      dsimp only
      rw [h.rangeEnd_eq ((strtol_suffix hpz).trans hsuffix)]
  · rw [if_neg hnum, if_neg (fun hl => hnum (hplace.mp hl)), if_neg (fun hl => hnum (hplace.mp hl))]
    split <;> rfl

theorem byteRange_suffix (post : Bytes) : byteRange (chr '-' :: post) =
    if (strtol 10 (chr '-' :: post)).2 = [] ∧ (strtol 10 (chr '-' :: post)).1 < 0 then
      some (.suffix (strtol 10 (chr '-' :: post)).1.natAbs)
    else none := rfl

theorem split_minus (hnot : chr '-' ∉ pre) (post : Bytes) :
    (pre ++ chr '-' :: post).dropWhile (· ≠ chr '-') = chr '-' :: post ∧
      (pre ++ chr '-' :: post).takeWhile (· ≠ chr '-') = pre := by
  constructor
  · rw [List.dropWhile_append_of_pos (noMinus hnot)]
    rfl
  · rw [List.takeWhile_append_of_pos (noMinus hnot)]
    exact List.append_nil pre

theorem byteRange_first (post : Bytes) (hne : pre ≠ []) (hnot : chr '-' ∉ pre) : byteRange (pre ++ chr '-' :: post) =
      if post = [] then (position pre).map .onward
      else (position pre).bind fun first => (position post).bind fun last =>
        if first ≤ last then some (.between first last) else none := by
  obtain ⟨hdrop, htake⟩ := split_minus hnot post
  unfold byteRange
  rw [hdrop, htake]
  dsimp only
  rw [if_neg hne]

/-- **How an element is read.** -/
theorem readRange_spec (h : Element e t) (hdash : chr '-' ∈ e ++ t) (size : Nat) :
    readRange size (e ++ t) ((e ++ t).dropWhile (· ≠ chr '-')) =
      match byteRange e with
      | some r => .range t.tail (!t.isEmpty) (r.bounds size).1 (r.bounds size).2
      | none => if e.head? = some (chr '-') ∧ (strtol 10 e).1 = 0 then .unsatisfiable else .error := by
  have hez : (0 : Byte) ∉ e := fun hz => h.noNul (List.mem_append_left t hz)
  by_cases hmem : chr '-' ∈ e
  · obtain ⟨pre, post, rfl, hnot⟩ := List.eq_append_cons_of_mem hmem
    have hassoc : pre ++ chr '-' :: post ++ t = pre ++ chr '-' :: (post ++ t) := by simp
    have hdrop : (pre ++ chr '-' :: post ++ t).dropWhile (· ≠ chr '-') = chr '-' :: (post ++ t) := by
      rw [hassoc, List.dropWhile_append_of_pos (noMinus hnot)]
      rfl
    by_cases hne : pre = []
    · subst hne
      have hneg := strtol_neg hez
      rw [hdrop]
      apply (readRange_suffix h size).trans
      rw [List.nil_append, byteRange_suffix]
      by_cases hzero : (strtol 10 (chr '-' :: post)).1 = 0
      · rw [if_pos hzero, if_neg (by omega)]
        exact (if_pos ⟨rfl, hzero⟩).symm
      · rw [if_neg hzero]
        by_cases hrest : (strtol 10 (chr '-' :: post)).2 = []
        · rw [if_pos hrest, if_pos ⟨hrest, by omega⟩]
          simp only [ByteRange.bounds, RangeSpec.range.injEq, true_and, and_true]
          omega
        · rw [if_neg hrest, if_neg (fun hh => hrest hh.1)]
          exact (if_neg fun hh => hzero hh.2).symm
    · have hhead : ¬ ((pre ++ chr '-' :: post).head? = some (chr '-') ∧ (strtol 10 (pre ++ chr '-' :: post)).1 = 0) := by
        rintro ⟨hh, -⟩
        rw [List.head?_append_of_ne_nil _ hne] at hh
        exact hnot (List.mem_of_head? hh)
      have hprez : (0 : Byte) ∉ pre := fun hz => hez (List.mem_append_left _ hz)
      have hpos := strtol_nonneg hprez hnot
      rw [hdrop, hassoc, readRange_first h hne, byteRange_first post hne hnot, if_neg hhead]
      by_cases hnum : (strtol 10 pre).2 = []
      · have hfirst : position pre = some (strtol 10 pre).1.toNat := if_pos ⟨hne, hnum, hpos⟩
        rw [if_pos hnum, hfirst]
        by_cases hpost : post = []
        · rw [if_pos hpost, if_pos hpost]
          simp only [Option.map_some, ByteRange.bounds, RangeSpec.range.injEq, true_and, and_true]
          omega
        · rw [if_neg hpost, if_neg hpost, Option.bind_some]
          by_cases hlast : (strtol 10 post).2 = [] ∧ 0 ≤ (strtol 10 post).1
          · have hposition : position post = some (strtol 10 post).1.toNat := if_pos ⟨hpost, hlast⟩
            rw [hposition, Option.bind_some, if_pos hlast.1]
            by_cases hle : (strtol 10 pre).1.toNat ≤ (strtol 10 post).1.toNat
            · rw [if_neg (by omega), if_pos hle]
              simp only [ByteRange.bounds, RangeSpec.range.injEq, true_and]
              omega
            · rw [if_pos (by omega), if_neg hle]
          · have hposition : position post = none := if_neg fun hh => hlast hh.2
            rw [hposition, Option.bind_none]
            dsimp only
            split
            · rfl
            · rw [if_neg (fun hh => hlast ⟨hh, by omega⟩)]
      · have hfirst : position pre = none := if_neg fun hh => hnum hh.2.1
        rw [if_neg hnum, hfirst, Option.map_none, Option.bind_none, ite_self]
  · have hnone : byteRange e = none := by
      have hdrop : e.dropWhile (· ≠ chr '-') = [] := List.dropWhile_eq_nil_iff.mpr (noMinus hmem)
      unfold byteRange
      rw [hdrop]
    have hhead : ¬ (e.head? = some (chr '-') ∧ (strtol 10 e).1 = 0) := fun hh => hmem (List.mem_of_head? hh.1)
    rw [hnone, readRange_noMinus h hmem hdash]
    dsimp only
    rw [if_neg hhead]

/-- **An element that is read and cut to the file.** -/
theorem cutRange_spec (h : Element e t) (hdash : chr '-' ∈ e ++ t) (size : Nat) :
    cutRange size (readRange size (e ++ t) ((e ++ t).dropWhile (· ≠ chr '-'))) =
      if Unsatisfiable size e then .unsatisfiable
      else match positions size e with
        | some (a, b) => .range t.tail (!t.isEmpty) a b
        | none => .error := by
  rw [readRange_spec h hdash size]
  unfold positions
  cases hr : byteRange e with
  | none =>
    have hiff : Unsatisfiable size e ↔ e.head? = some (chr '-') ∧ (strtol 10 e).1 = 0 := by
      simp [Unsatisfiable, hr]
    rw [Option.bind_none]
    dsimp only
    by_cases hun : e.head? = some (chr '-') ∧ (strtol 10 e).1 = 0
    · rw [if_pos hun, if_pos (hiff.mpr hun)]
      rfl
    · rw [if_neg hun, if_neg (fun hu => hun (hiff.mp hu))]
      rfl
  | some r =>
    have hok := byteRange_ok hr
    have hfirst : ¬ (e.head? = some (chr '-') ∧ (strtol 10 e).1 = 0) := by
      rintro ⟨hhead, hzero⟩
      cases e with
      | nil => cases hhead
      | cons c post =>
        obtain rfl : c = chr '-' := Option.some.inj hhead
        rw [byteRange_suffix, hzero, if_neg (by omega)] at hr
        cases hr
    have hiff : Unsatisfiable size e ↔ r.resolve size = none := by
      simp [Unsatisfiable, hr, hfirst]
    dsimp only
    rw [Option.bind_some, cutRange_bounds hok]
    cases hres : r.resolve size with
    | none => rw [if_pos (hiff.mpr hres)]
    | some ab =>
      rw [if_neg]
      intro hu
      rw [hiff.mp hu] at hres
      cases hres

/-! ## The loop -/

/-- Where the loop stops: at the end or in front of elements without a `-`, or at one that it does not take. -/
inductive Stop
  | done (rest : List Bytes)
  | error
  | unsatisfiable

/-- **The elements one after another**: the positions of those that are taken, and where this stops. -/
def walk (size : Nat) : List Bytes → List (Nat × Nat) × Stop
  | [] => ([], .done [])
  | e :: es =>
    if ∃ e' ∈ e :: es, chr '-' ∈ e' then
      if Unsatisfiable size e then ([], .unsatisfiable)
      else match positions size e with
        | some ab => (ab :: (walk size es).1, (walk size es).2)
        | none => ([], .error)
    else ([], .done (e :: es))

def elements (s : Bytes) : List Bytes := s.splitOn (chr ',')

def pieces (contentType : Bytes) (size : Nat) (multipart : Bool) (ab : Nat × Nat) : List RangePart :=
  (if multipart then [.mem (partHeader contentType ab.1 ab.2 size)] else []) ++ [.file ab.1 (ab.2 + 1 - ab.1)]

/-- What the whole loop has queued, and how it ends. -/
structure Ended (contentType : Bytes) (size : Nat) (multipart : Bool) (before : List RangePart)
    (w : List (Nat × Nat) × Stop) (r : Ranges) : Prop where
  parts : r.parts = before ++ w.1.flatMap (pieces contentType size multipart) ++
    (if multipart ∧ r.ok then [.mem boundaryEnd] else [])
  ok : r.ok = true ↔ ∃ rest, w.2 = .done rest
  unsatisfiable : r.unsatisfiable = true ↔ w.2 = .unsatisfiable

theorem elements_ne_nil (s : Bytes) : elements s ≠ [] := by
  unfold elements
  rw [List.splitOn_eq_splitOnP]
  exact List.splitOnP_ne_nil _ s

theorem Ended.cons {contentType : Bytes} {l : RangeLoop} {comma multipart : Bool} {a b : Nat}
    {w : List (Nat × Nat) × Stop} {r : Ranges} (hm : (l.multipart || comma) = multipart)
    (h : Ended contentType size multipart (l.queue contentType size comma a b).parts w r) :
    Ended contentType size multipart l.parts ((a, b) :: w.1, w.2) r := by
  refine ⟨?_, h.ok, h.unsatisfiable⟩
  have hlen : ((b : Int) - a + 1).toNat = b + 1 - a := by omega
  rw [h.parts]
  simp [RangeLoop.queue, pieces, hlen, hm]

theorem elements_cases (s : Bytes) : (chr ',' ∉ s ∧ elements s = [s]) ∨
    ∃ e s', chr ',' ∉ e ∧ s = e ++ chr ',' :: s' ∧ elements s = e :: elements s' := by
  have hnot : ∀ {e : Bytes}, chr ',' ∉ e → ∀ c ∈ e, (c == chr ',') = false := by
    intro e he c hc
    rw [beq_eq_false_iff_ne]
    rintro rfl
    exact he hc
  by_cases hmem : chr ',' ∈ s
  · obtain ⟨e, s', rfl, he⟩ := List.eq_append_cons_of_mem hmem
    refine Or.inr ⟨e, s', he, rfl, ?_⟩
    unfold elements
    rw [List.splitOn_eq_splitOnP, List.splitOn_eq_splitOnP]
    exact List.splitOnP_append_cons_of_forall_mem (hnot he) (chr ',') (by decide) s'
  · refine Or.inl ⟨hmem, ?_⟩
    unfold elements
    rw [List.splitOn_eq_splitOnP]
    exact List.splitOnP_eq_singleton (hnot hmem)

theorem mem_elements {c : Byte} (hc : c ≠ chr ',') {n : Nat} (hn : s.length ≤ n) :
    c ∈ s ↔ ∃ e ∈ elements s, c ∈ e := by
  induction n generalizing s with
  | zero =>
    obtain rfl : s = [] := List.eq_nil_of_length_eq_zero (by omega)
    simp [elements]
  | succ n ih =>
    rcases elements_cases s with ⟨-, heq⟩ | ⟨e, s', -, rfl, heq⟩
    · rw [heq]
      simp
    · have hs' : s'.length ≤ n := by
        simp at hn
        omega
      have hmem := ih hs'
      rw [heq]
      simp [hc, hmem]

theorem walk_noMinus (size : Nat) {es : List Bytes} (h : ¬ ∃ e ∈ es, chr '-' ∈ e) : walk size es = ([], .done es) := by
  cases es with
  | nil => rfl
  | cons e es =>
    unfold walk
    rw [if_neg h]

/-- **The loop takes one element after another.** -/
theorem rangeLoop_walk (contentType : Bytes) (size : Nat) {fuel : Nat} (l : RangeLoop)
    (hz : (0 : Byte) ∉ s) (hfuel : s.length < fuel) :
    Ended contentType size (l.multipart || decide (1 < (elements s).length ∧ chr '-' ∈ s)) l.parts
      (walk size (elements s)) (rangeLoop contentType size fuel s l) := by
  induction fuel generalizing s l with
  | zero => omega
  | succ fuel ih =>
    have hmem := mem_elements (c := chr '-') (by decide) (Nat.le_refl s.length)
    unfold rangeLoop
    by_cases hdash : chr '-' ∈ s
    · obtain ⟨e, t, es, hel, rfl, hes, hrest⟩ : ∃ e t es, Element e t ∧ s = e ++ t ∧ elements s = e :: es ∧
          (t = [] ∧ es = [] ∨ t ≠ [] ∧ es = elements t.tail) := by
        rcases elements_cases s with ⟨hc, heq⟩ | ⟨e, s', hc, hs, heq⟩
        · exact ⟨s, [], [], ⟨hc, Or.inl rfl, by simpa using hz⟩, (List.append_nil s).symm, heq, Or.inl ⟨rfl, rfl⟩⟩
        · exact ⟨e, chr ',' :: s', _, ⟨hc, Or.inr rfl, hs ▸ hz⟩, hs, heq, Or.inr ⟨List.cons_ne_nil _ _, rfl⟩⟩
      have hwalk : ∃ e' ∈ e :: es, chr '-' ∈ e' := hes ▸ hmem.mp hdash
      rw [if_pos hdash, cutRange_spec hel hdash, hes, walk, if_pos hwalk]
      by_cases hun : Unsatisfiable size e
      · rw [if_pos hun, if_pos hun]
        exact ⟨by simp [RangeLoop.fail], by simp [RangeLoop.fail], by simp [RangeLoop.fail]⟩
      · rw [if_neg hun, if_neg hun]
        cases hpos : positions size e with
        | none => exact ⟨by simp [RangeLoop.fail], by simp [RangeLoop.fail], by simp [RangeLoop.fail]⟩
        | some ab =>
          obtain ⟨a, b⟩ := ab
          have htail : t.tail.length < fuel := by
            have := List.length_tail (l := t)
            simp at hfuel
            rcases hrest with ⟨rfl, -⟩ | ⟨hne, -⟩
            · have : 0 < e.length := List.length_pos_of_mem (by simpa using hdash)
              simp
              omega
            · have := List.length_pos_iff.mpr hne
              omega
          have htz : (0 : Byte) ∉ t.tail := fun h => hz (List.mem_append_right e (List.mem_of_mem_tail h))
          have hnext := ih (l.queue contentType size (!t.isEmpty) a b) htz htail
          rcases hrest with ⟨rfl, rfl⟩ | ⟨hne, rfl⟩
          · have hm : (l.multipart || decide (1 < [e].length ∧ chr '-' ∈ e ++ [])) = (l.multipart || false) := by simp
            have hm' : ((l.queue contentType size false a b).multipart ||
                decide (1 < (elements ([] : Bytes)).length ∧ chr '-' ∈ ([] : Bytes))) = (l.multipart || false) := by
              simp [RangeLoop.queue]
            rw [hm]
            refine Ended.cons rfl ⟨?_, ?_, ?_⟩
            · exact (hm' ▸ hnext).parts
            · exact hnext.ok.trans (by simp [elements, walk])
            · exact hnext.unsatisfiable.trans (by simp [elements, walk])
          · have hlen : 0 < (elements t.tail).length := List.length_pos_iff.mpr (elements_ne_nil _)
            have hcomma : (!t.isEmpty) = true := by simpa using hne
            rw [hcomma] at hnext ⊢
            have hm : (l.multipart || decide (1 < (e :: elements t.tail).length ∧ chr '-' ∈ e ++ t)) = true := by
              simp [hdash, hlen]
            have hm' : (l.queue contentType size true a b).multipart = true := by simp [RangeLoop.queue]
            rw [hm', Bool.true_or] at hnext
            rw [hm]
            exact Ended.cons (Bool.or_true l.multipart) hnext
    · rw [if_neg hdash, walk_noMinus size (fun h => hdash (hmem.mpr h))]
      have hm : (l.multipart || decide (1 < (elements s).length ∧ chr '-' ∈ s)) = l.multipart := by simp [hdash]
      rw [hm]
      unfold RangeLoop.finish
      cases hmulti : l.multipart with
      | false => exact ⟨by simp, by simp, by simp⟩
      | true => exact ⟨by simp, by simp, by simp⟩

end Respond
end Lighttpd
