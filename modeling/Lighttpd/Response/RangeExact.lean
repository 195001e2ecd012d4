import Lighttpd.Config.Values
import Lighttpd.Response.RangeAnswer

/-!
# What a range request selects

A list of ranges is read once more, as RFC 7233 writes it: decimal positions around a `-`, with blanks around the elements
and empty elements between the commas (`reference`). `http_response_parse_range` reads with `strtoll`, passes over what has
no `-`, and adds up `response.content_length` on the way.

- `parseRange_eq`, `parseRange_length`: the loop with `content_length`;
- `positions_written`: an element that both read selects the same bytes;
- `parseRange_exact_iff`: when the response is exact.
-/

namespace Lighttpd
namespace Respond
open Request Backend

/-! ## The source: `content_length` -/

def addOff (a b : Int) : Int := Int.bmod (a + b) (2 ^ 64)

/-- The local variables of `http_response_parse_range`, with `con->response.content_length`. -/
structure CountedLoop extends RangeLoop where
  contentLength : Int

def CountedLoop.queueCounted (contentType : Bytes) (size : Nat) (l : CountedLoop) (comma : Bool) (start stop : Int) :
    CountedLoop :=
  let next := l.queue contentType size comma start stop
  let contentLength :=
    if next.multipart then addOff l.contentLength (partHeader contentType start stop size).length else l.contentLength
  ⟨next, addOff contentLength (stop - start + 1)⟩

def countedLoop (contentType : Bytes) (size : Nat) : Nat → Bytes → CountedLoop → Ranges × Int
  | 0, _, l => (l.fail false, l.contentLength)
  | fuel + 1, s, l =>
    if chr '-' ∈ s then
      match cutRange size (readRange size s (s.dropWhile (· ≠ chr '-'))) with
      | .error => (l.fail false, l.contentLength)
      | .unsatisfiable => (l.fail true, l.contentLength)
      | .range rest comma start stop =>
        countedLoop contentType size fuel rest (l.queueCounted contentType size comma start stop)
    else (l.finish size, if l.multipart then addOff l.contentLength boundaryEnd.length else l.contentLength)

/-- `http_response_parse_range` and `con->response.content_length` behind it. -/
def parseRange (contentType : Bytes) (size : Nat) (httpRange : Bytes) : Ranges × Int :=
  countedLoop contentType size (httpRange.length + 1) (cstr httpRange) ⟨⟨false, 0, size - 1, []⟩, 0⟩

/-! ## The reference -/

/-- A byte-range-spec or a suffix-byte-range-spec of RFC 7233. -/
def writtenRange (e : Bytes) : Option ByteRange :=
  match e.dropWhile (· ≠ chr '-') with
  | [] => none
  | _ :: post =>
    let pre := e.takeWhile (· ≠ chr '-')
    if pre = [] then (decimalValue post).map .suffix
    else if post = [] then (decimalValue pre).map .onward
    else (decimalValue pre).bind fun first => (decimalValue post).bind fun last =>
      if first ≤ last then some (.between first last) else none

/-- The elements of a list, without the blanks around them and without empty ones. -/
def listElements (value : Bytes) : List Bytes := ((elements value).map trim).filter (· ≠ [])

def satisfied (size : Nat) : ByteRange → Option (Nat × Nat)
  | .suffix 0 => none
  | r => r.resolve size

/-- **The ranges of bytes that a byte-range-set selects**, `none` when the value is none. -/
def reference (size : Nat) (value : Bytes) : Option (List (Nat × Nat)) :=
  if listElements value = [] then none
  else ((listElements value).mapM writtenRange).map fun rs => rs.filterMap (satisfied size)

def Decimal (p : Bytes) : Prop := p ≠ [] ∧ p.all lightIsdigit = true

/-- A range is decimal numbers around the first `-`. -/
def Written (e : Bytes) : Prop :=
  ∃ pre post, e = pre ++ chr '-' :: post ∧ (pre = [] ∧ Decimal post ∨ Decimal pre ∧ (post = [] ∨ Decimal post))

def ByteRangeSet (value : Bytes) : Prop := listElements value ≠ [] ∧ ∀ e ∈ listElements value, Written e

/-- The bytes that are queued. -/
def partsLength (ps : List RangePart) : Nat :=
  (ps.map fun p => match p with
    | .mem b => b.length
    | .file _ len => len).sum

/-- What is to be queued for some ranges. -/
def answerParts (contentType : Bytes) (size : Nat) (multipart : Bool) (abs : List (Nat × Nat)) : List RangePart :=
  abs.flatMap (pieces contentType size multipart) ++ if multipart then [.mem boundaryEnd] else []

/-- The length of the response to a list of ranges. It has parts when there is a comma in the list. -/
def answerLength (contentType : Bytes) (size : Nat) (value : Bytes) : Nat :=
  partsLength (answerParts contentType size (decide (1 < (elements value).length)) ((reference size value).getD []))

/-- **The response is exact**: the selected ranges in order, each of them in the file, with headers when there is more than
one, and the length of all. -/
structure Exact (contentType : Bytes) (size : Nat) (value : Bytes) (r : Ranges) (contentLength : Int) : Prop where
  selected : ∃ abs, reference size value = some abs ∧ (∀ ab ∈ abs, ab.1 ≤ ab.2 ∧ ab.2 < size) ∧
    ∃ multipart : Bool, (1 < abs.length → multipart = true) ∧ r.parts = answerParts contentType size multipart abs
  length : contentLength = partsLength r.parts

/-! ## The loop with `content_length` -/

theorem partsLength_append (ps qs : List RangePart) : partsLength (ps ++ qs) = partsLength ps + partsLength qs := by
  simp [partsLength]

theorem addOff_bmod (n : Int) (m : Int) : addOff (Int.bmod n (2 ^ 64)) m = Int.bmod (n + m) (2 ^ 64) := by
  rw [addOff, Int.bmod_add_bmod]

theorem countedLoop_fst (contentType : Bytes) (size fuel : Nat) (s : Bytes) (l : CountedLoop) :
    (countedLoop contentType size fuel s l).1 = rangeLoop contentType size fuel s l.toRangeLoop := by
  induction fuel generalizing s l with
  | zero => rfl
  | succ fuel ih =>
    unfold countedLoop rangeLoop
    split
    · split
      · simp only [*]
      · simp only [*]
      · simp only [*]
        rfl
    · rfl

/-- With `content_length` or without, the parts are the same. -/
theorem parseRange_eq (contentType : Bytes) (size : Nat) (value : Bytes) :
    (parseRange contentType size value).1 = httpResponseParseRange contentType size value :=
  countedLoop_fst contentType size _ _ _

variable {e : Bytes} {size : Nat}

/-- What is queued for a range is not empty, and the rest is again a string. -/
theorem cutRange_le {s rest : Bytes} {comma : Bool} {start stop : Int} (hz : (0 : Byte) ∉ s) (hdash : chr '-' ∈ s)
    (h : cutRange size (readRange size s (s.dropWhile (· ≠ chr '-'))) = .range rest comma start stop) :
    start ≤ stop ∧ (0 : Byte) ∉ rest := by
  obtain ⟨e, t, hel, rfl⟩ : ∃ e t, Element e t ∧ s = e ++ t := by
    rcases elements_cases s with ⟨hc, -⟩ | ⟨e, s', hc, hs, -⟩
    · exact ⟨s, [], ⟨hc, .inl rfl, by simpa using hz⟩, (List.append_nil s).symm⟩
    · exact ⟨e, chr ',' :: s', ⟨hc, .inr rfl, hs ▸ hz⟩, hs⟩
  rw [cutRange_spec hel hdash] at h
  split at h
  · cases h
  · cases hpos : positions size e with
    | none =>
      rw [hpos] at h
      cases h
    | some ab =>
      rw [hpos] at h
      cases h
      have hle := (positions_lt hpos).1
      exact ⟨by omega, fun hmem => hz (List.mem_append_right e (List.mem_of_mem_tail hmem))⟩

/-- `content_length` is the number of bytes that are queued, as a number of the type `off_t`. -/
def CountedLoop.Counted (l : CountedLoop) : Prop := l.contentLength = Int.bmod (partsLength l.parts) (2 ^ 64)

theorem CountedLoop.Counted.queue {l : CountedLoop} (h : l.Counted) (contentType : Bytes) (size : Nat) (comma : Bool)
    {start stop : Int} (hle : start ≤ stop) : (l.queueCounted contentType size comma start stop).Counted := by
  have hlen : (((stop - start + 1).toNat : Nat) : Int) = stop - start + 1 := by omega
  unfold CountedLoop.Counted CountedLoop.queueCounted at *
  dsimp only [RangeLoop.queue]
  cases l.multipart || comma with
  | false =>
    simp only [h, addOff_bmod, partsLength_append, Bool.false_eq_true, if_false]
    simp [partsLength, hlen]
  | true =>
    simp only [h, addOff_bmod, partsLength_append, if_true]
    simp [partsLength, hlen]

theorem countedLoop_counted (contentType : Bytes) (size : Nat) {fuel : Nat} {s : Bytes} {l : CountedLoop}
    (hz : (0 : Byte) ∉ s) (h : l.Counted) :
    (countedLoop contentType size fuel s l).2 =
      Int.bmod (partsLength (countedLoop contentType size fuel s l).1.parts) (2 ^ 64) := by
  induction fuel generalizing s l with
  | zero => exact h
  | succ fuel ih =>
    unfold countedLoop
    by_cases hdash : chr '-' ∈ s
    · rw [if_pos hdash]
      cases hcut : cutRange size (readRange size s (s.dropWhile (· ≠ chr '-'))) with
      | error => exact h
      | unsatisfiable => exact h
      | range rest comma start stop =>
        obtain ⟨hle, hrest⟩ := cutRange_le hz hdash hcut
        exact ih hrest (h.queue contentType size comma hle)
    · rw [if_neg hdash]
      unfold CountedLoop.Counted at h
      cases hm : l.multipart with
      | false => simp [RangeLoop.finish, hm, h]
      | true =>
        simp only [RangeLoop.finish, hm, if_true, h, addOff_bmod, partsLength_append]
        simp [partsLength]

/-- **`content_length` is the number of bytes that are queued.** -/
theorem parseRange_length (contentType : Bytes) (size : Nat) (value : Bytes) :
    (parseRange contentType size value).2 =
      Int.bmod (partsLength (httpResponseParseRange contentType size value).parts) (2 ^ 64) := by
  have hz : (0 : Byte) ∉ cstr value := fun h => by simpa using List.mem_takeWhile_imp h
  have hstart : CountedLoop.Counted ⟨⟨false, 0, size - 1, []⟩, 0⟩ := by simp [CountedLoop.Counted, partsLength]
  rw [← parseRange_eq]
  exact countedLoop_counted contentType size hz hstart

/-! ## How both read an element -/

section
variable {w w' d : Bytes} {n : Nat}

theorem isspace_of_isWs {c : Byte} (h : isWs c = true) : isspace c = true ∧ digitVal c = none ∧ c ≠ 0 := by
  simp only [isWs, Bool.or_eq_true, beq_iff_eq] at h
  rcases h with rfl | rfl
  · exact ⟨rfl, rfl, by decide⟩
  · exact ⟨rfl, rfl, by decide⟩

theorem decimalValue_eq (h : decimalValue d = some n) : Decimal d ∧ d.foldl (fun n c => 10 * n + (c.toNat - 48)) 0 = n := by
  unfold decimalValue at h
  split at h
  · exact ⟨by assumption, Option.some.inj h⟩
  · cases h

theorem readDigits_blank (h : decimalValue d = some n) (hw : ∀ c ∈ w', isWs c = true) :
    readDigits 10 0 (d ++ w') = (n, w') := by
  obtain ⟨⟨-, hdigits⟩, hn⟩ := decimalValue_eq h
  have hhead : ∀ c ∈ w'.head?, digitVal c = none := fun c hc => (isspace_of_isWs (hw c (List.mem_of_mem_head? hc))).2.1
  rw [readDigits_append hhead, readDigits_digits hdigits, hn]
  rfl

theorem noNul (h : decimalValue d = some n) (hw : ∀ c ∈ w, isWs c = true) : (0 : Byte) ∉ w ++ d := by
  intro hmem
  rcases List.mem_append.mp hmem with hmem | hmem
  · exact (isspace_of_isWs (hw 0 hmem)).2.2 rfl
  · exact (digit_facts (List.all_eq_true.mp (decimalValue_eq h).1.2 0 hmem)).2.2.2 rfl

theorem strtol_blank (h : decimalValue d = some n) (hw : ∀ c ∈ w, isWs c = true) (hw' : ∀ c ∈ w', isWs c = true) :
    strtol 10 (w ++ (d ++ w')) = (min (n : Int) longMax, w') := by
  obtain ⟨⟨hne, hdigits⟩, -⟩ := decimalValue_eq h
  have hz : (0 : Byte) ∉ w ++ (d ++ w') := by
    intro hmem
    rw [← List.append_assoc] at hmem
    rcases List.mem_append.mp hmem with hmem | hmem
    · exact noNul h hw hmem
    · exact (isspace_of_isWs (hw' 0 hmem)).2.2 rfl
  obtain ⟨c, d', rfl⟩ := List.exists_cons_of_ne_nil hne
  obtain ⟨hspace, hminus, hplus, -⟩ := digit_facts (List.all_eq_true.mp hdigits c List.mem_cons_self)
  have hdrop : (w ++ (c :: d' ++ w')).dropWhile isspace = c :: d' ++ w' := by
    rw [List.dropWhile_append_of_pos fun x hx => (isspace_of_isWs (hw x hx)).1]
    simp [hspace]
  have hsign : readSign (c :: d' ++ w') = (false, c :: d' ++ w') := by
    simp [readSign, hminus, hplus]
  rw [strtol_eq hz, hdrop, strtolBody, hsign]
  dsimp only
  rw [readDigits_blank h hw']
  have hlen : w' ≠ c :: d' ++ w' := fun heq => by
    have heq := congrArg List.length heq
    rw [List.length_append, List.length_cons] at heq
    omega
  rw [if_neg hlen]
  rfl

theorem strtol_blanks (hw : ∀ c ∈ w, isWs c = true) : strtol 10 w = (0, w) := by
  have hz : (0 : Byte) ∉ w := fun hmem => (isspace_of_isWs (hw 0 hmem)).2.2 rfl
  have hdrop : w.dropWhile isspace = [] := List.dropWhile_eq_nil_iff.mpr fun c hc => (isspace_of_isWs (hw c hc)).1
  rw [strtol_eq hz, hdrop]
  rfl

theorem strtol_negative (h : decimalValue d = some n) (hw' : ∀ c ∈ w', isWs c = true) :
    strtol 10 (chr '-' :: (d ++ w')) = (max (-(n : Int)) (-(longMax : Int) - 1), w') := by
  obtain ⟨⟨hne, -⟩, -⟩ := decimalValue_eq h
  have hz : (0 : Byte) ∉ chr '-' :: (d ++ w') := by
    intro hmem
    rcases List.mem_cons.mp hmem with hmem | hmem
    · cases hmem
    · rcases List.mem_append.mp hmem with hmem | hmem
      · exact noNul h (w := []) nofun (by simpa using hmem)
      · exact (isspace_of_isWs (hw' 0 hmem)).2.2 rfl
  have hdrop : (chr '-' :: (d ++ w')).dropWhile isspace = chr '-' :: (d ++ w') := rfl
  have hsign : readSign (chr '-' :: (d ++ w')) = (true, d ++ w') := rfl
  rw [strtol_eq hz, hdrop, strtolBody, hsign]
  dsimp only
  rw [readDigits_blank h hw']
  have hlen : w' ≠ d ++ w' := fun heq => by
    have heq := congrArg List.length heq
    have hpos := List.length_pos_iff.mpr hne
    rw [List.length_append] at heq
    omega
  rw [if_neg hlen]
  rfl

/-- A position with blanks around it is read when there are none behind it. -/
theorem position_blank {k : Nat} (h : decimalValue d = some n) (hw : ∀ c ∈ w, isWs c = true)
    (hw' : ∀ c ∈ w', isWs c = true) (hk : position (w ++ (d ++ w')) = some k) : w' = [] ∧ k = min n longMax := by
  unfold position at hk
  rw [strtol_blank h hw hw'] at hk
  obtain ⟨⟨-, hrest, -⟩, hk⟩ := Option.ite_none_right_eq_some.mp hk
  have hk := Option.some.inj hk
  dsimp only at hk
  exact ⟨hrest, by omega⟩

theorem position_blanks (hw : ∀ c ∈ w, isWs c = true) : position w = none := by
  unfold position
  rw [strtol_blanks hw]
  exact if_neg fun h => h.1 h.2.1

end

/-! ## An element that both read -/

theorem writtenRange_suffix (post : Bytes) : writtenRange (chr '-' :: post) = (decimalValue post).map .suffix := rfl

theorem writtenRange_first {pre : Bytes} (post : Bytes) (hne : pre ≠ []) (hnot : chr '-' ∉ pre) :
    writtenRange (pre ++ chr '-' :: post) =
      if post = [] then (decimalValue pre).map .onward
      else (decimalValue pre).bind fun first => (decimalValue post).bind fun last =>
        if first ≤ last then some (.between first last) else none := by
  obtain ⟨hdrop, htake⟩ := split_minus hnot post
  unfold writtenRange
  rw [hdrop, htake]
  dsimp only
  rw [if_neg hne]

theorem decimal_value {p : Bytes} (h : Decimal p) : ∃ n, decimalValue p = some n := ⟨_, if_pos h⟩

theorem decimal_noMinus {p : Bytes} (h : Decimal p) : chr '-' ∉ p := fun hmem =>
  absurd (List.all_eq_true.mp h.2 _ hmem) (by decide)

theorem blank_noMinus {w : Bytes} (hw : ∀ c ∈ w, isWs c = true) : chr '-' ∉ w := fun hmem =>
  absurd (hw _ hmem) (by decide)

theorem trim_split (e : Bytes) : ∃ w w', e = w ++ trim e ++ w' ∧ (∀ c ∈ w, isWs c = true) ∧ ∀ c ∈ w', isWs c = true := by
  refine ⟨e.takeWhile isWs, (e.dropWhile isWs).rtakeWhile isWs, ?_, fun c hc => List.mem_takeWhile_imp hc,
    fun c hc => List.mem_rtakeWhile_imp hc⟩
  unfold trim
  rw [List.append_assoc, List.rdropWhile_append_rtakeWhile, List.takeWhile_append_dropWhile]

/-- **An element that is taken, and that is written as a range, is this range.** -/
theorem positions_written {ab : Nat × Nat} (hsize : size < 2 ^ 63)
    (h : positions size e = some ab) (hwritten : Written (trim e)) :
    ∃ r, writtenRange (trim e) = some r ∧ satisfied size r = some ab := by
  obtain ⟨w, w', he, hw, hw'⟩ := trim_split e
  obtain ⟨pre, post, htrim, hcases⟩ := hwritten
  obtain ⟨r, hr, hres⟩ := Option.bind_eq_some_iff.mp h
  have hmax : (longMax : Int) = 2 ^ 63 - 1 := by decide
  have hnil : ∀ c ∈ ([] : Bytes), isWs c = true := nofun
  rw [htrim] at he ⊢
  rcases hcases with ⟨rfl, hpost⟩ | ⟨hpre, hpost⟩
  · obtain ⟨n, hn⟩ := decimal_value hpost
    rw [List.nil_append] at he ⊢
    rw [writtenRange_suffix, hn, Option.map_some]
    refine ⟨_, rfl, ?_⟩
    by_cases hblank : w = []
    · subst hblank
      rw [List.nil_append, List.cons_append] at he
      rw [he, byteRange_suffix, strtol_negative hn hw'] at hr
      obtain ⟨⟨hrest, hneg⟩, hr⟩ := Option.ite_none_right_eq_some.mp hr
      dsimp only at hneg hr
      cases hr
      obtain ⟨k, rfl⟩ : ∃ k, n = k + 1 := ⟨n - 1, by omega⟩
      simp only [satisfied, ByteRange.resolve] at hres ⊢
      obtain ⟨hpos, hab⟩ := Option.ite_none_right_eq_some.mp hres
      rw [if_pos hpos, ← hab]
      congr 2
      omega
    · rw [List.append_assoc, List.cons_append] at he
      rw [he, byteRange_first _ hblank (blank_noMinus hw), position_blanks hw] at hr
      simp at hr
  · obtain ⟨n, hn⟩ := decimal_value hpre
    have hne : w ++ pre ≠ [] := by simp [hpre.1]
    have hnot : chr '-' ∉ w ++ pre := by simp [decimal_noMinus hpre, blank_noMinus hw]
    have hsplit : e = (w ++ pre) ++ chr '-' :: (post ++ w') := by rw [he]; simp
    rw [hsplit, byteRange_first _ hne hnot] at hr
    rw [writtenRange_first _ hpre.1 (decimal_noMinus hpre), hn]
    have hfirst : ∀ k, position (w ++ pre) = some k → k = min n longMax := fun k hk => by
      have hk' : position (w ++ (pre ++ [])) = some k := by rwa [List.append_nil]
      exact (position_blank hn hw hnil hk').2
    by_cases hpost' : post = []
    · subst hpost'
      rw [if_pos rfl, Option.map_some]
      refine ⟨_, rfl, ?_⟩
      by_cases hend : w' = []
      · rw [List.nil_append, if_pos hend] at hr
        obtain ⟨k, hk, rfl⟩ := Option.map_eq_some_iff.mp hr
        obtain rfl := hfirst k hk
        simp only [satisfied, ByteRange.resolve] at hres ⊢
        obtain ⟨hlt, hab⟩ := Option.ite_none_right_eq_some.mp hres
        rw [if_pos (by omega), ← hab]
        congr 2
        omega
      · rw [List.nil_append, if_neg hend, position_blanks hw'] at hr
        simp at hr
    · obtain ⟨m, hm⟩ := decimal_value (hpost.resolve_left hpost')
      rw [if_neg (by simp [hpost'])] at hr
      obtain ⟨k, hk, hr⟩ := Option.bind_eq_some_iff.mp hr
      obtain ⟨l, hl, hr⟩ := Option.bind_eq_some_iff.mp hr
      obtain ⟨hle, hr⟩ := Option.ite_none_right_eq_some.mp hr
      have hlast : l = min m longMax := by
        have hl' : position ([] ++ (post ++ w')) = some l := by rwa [List.nil_append]
        exact (position_blank hm hnil hw' hl').2
      obtain rfl := hfirst k hk
      cases hr
      simp only [ByteRange.resolve] at hres
      obtain ⟨hlt, hab⟩ := Option.ite_none_right_eq_some.mp hres
      rw [if_neg hpost', hm, Option.bind_some, Option.bind_some, if_pos (by omega)]
      refine ⟨_, rfl, ?_⟩
      simp only [satisfied, ByteRange.resolve]
      rw [if_pos (by omega), ← hab, hlast]
      congr 2
      · omega
      · omega

theorem mapM_written {es : List Bytes} {abs : List (Nat × Nat)} (hsize : size < 2 ^ 63)
    (h : es.mapM (positions size) = some abs) (hwritten : ∀ e ∈ es, Written (trim e)) :
    ∃ rs, (es.map trim).mapM writtenRange = some rs ∧ rs.filterMap (satisfied size) = abs := by
  induction es generalizing abs with
  | nil =>
    cases h
    exact ⟨[], rfl, rfl⟩
  | cons e es ih =>
    rw [List.mapM_cons] at h
    obtain ⟨ab, hab, h⟩ := Option.bind_eq_some_iff.mp h
    obtain ⟨abs', habs, h⟩ := Option.bind_eq_some_iff.mp h
    cases h
    obtain ⟨r, hr, hsat⟩ := positions_written hsize hab (hwritten e List.mem_cons_self)
    obtain ⟨rs, hrs, hfilter⟩ := ih habs fun e' he' => hwritten e' (List.mem_cons_of_mem _ he')
    refine ⟨r :: rs, ?_, ?_⟩
    · rw [List.map_cons, List.mapM_cons, hr, hrs]
      rfl
    · rw [List.filterMap_cons_some hsat, hfilter]

theorem written_minus (h : Written e) : chr '-' ∈ e := by
  obtain ⟨pre, post, rfl, -⟩ := h
  simp

theorem written_of_range {r : ByteRange} (h : writtenRange e = some r) : Written e := by
  have hdecimal : ∀ {p : Bytes} {n : Nat}, decimalValue p = some n → Decimal p := fun hp => (decimalValue_eq hp).1
  by_cases hminus : chr '-' ∈ e
  · obtain ⟨pre, post, rfl, hnot⟩ := List.eq_append_cons_of_mem hminus
    refine ⟨pre, post, rfl, ?_⟩
    by_cases hpre : pre = []
    · subst hpre
      rw [List.nil_append, writtenRange_suffix] at h
      obtain ⟨n, hn, -⟩ := Option.map_eq_some_iff.mp h
      exact .inl ⟨rfl, hdecimal hn⟩
    · rw [writtenRange_first post hpre hnot] at h
      by_cases hpost : post = []
      · rw [if_pos hpost] at h
        obtain ⟨n, hn, -⟩ := Option.map_eq_some_iff.mp h
        exact .inr ⟨hdecimal hn, .inl hpost⟩
      · rw [if_neg hpost] at h
        obtain ⟨n, hn, h⟩ := Option.bind_eq_some_iff.mp h
        obtain ⟨m, hm, -⟩ := Option.bind_eq_some_iff.mp h
        exact .inr ⟨hdecimal hn, .inr (hdecimal hm)⟩
  · unfold writtenRange at h
    rw [List.dropWhile_eq_nil_iff.mpr (noMinus hminus)] at h
    cases h

/-- The blanks that are cut off hold no `-`. -/
theorem minus_trim : chr '-' ∈ trim e ↔ chr '-' ∈ e := by
  obtain ⟨w, w', he, hw, hw'⟩ := trim_split e
  constructor
  · intro h
    rw [he]
    simp [h]
  · intro h
    rw [he] at h
    simpa [blank_noMinus hw, blank_noMinus hw'] using h

/-! ## The whole value -/

section
variable {contentType value : Bytes}

/-- A value for which the reference selects something is a list of ranges. -/
theorem byteRangeSet_of_reference {abs : List (Nat × Nat)} (h : reference size value = some abs) : ByteRangeSet value := by
  unfold reference at h
  split at h
  · cases h
  · rename_i hne
    obtain ⟨rs, hrs, -⟩ := Option.map_eq_some_iff.mp h
    refine ⟨hne, fun e he => ?_⟩
    obtain ⟨r, hr⟩ := Option.isSome_iff_exists.mp (Traverse.isSome hrs e he)
    exact written_of_range hr

/-- **What is queued for a list of ranges** when `0` is returned. -/
theorem parts_of_byteRangeSet (hsize : size < 2 ^ 63) (hok : (httpResponseParseRange contentType size value).ok = true)
    (hset : ByteRangeSet (cstr value)) :
    ∃ abs, reference size (cstr value) = some abs ∧ (∀ ab ∈ abs, ab.1 ≤ ab.2 ∧ ab.2 < size) ∧
      (1 < abs.length → 1 < (elements (cstr value)).length) ∧
      (httpResponseParseRange contentType size value).parts =
        answerParts contentType size (decide (1 < (elements (cstr value)).length)) abs := by
  obtain ⟨hne, hwritten⟩ := hset
  have hended := parseRange_ended contentType size value
  obtain ⟨rest, hdone⟩ := hended.ok.mp hok
  obtain ⟨abs, hwalk⟩ : ∃ abs, walk size (elements (cstr value)) = (abs, .done rest) := ⟨_, Prod.ext rfl hdone⟩
  obtain ⟨taken, hes, htaken, hrest⟩ := walk_done hwalk
  have hbounds := walk_lt size (elements (cstr value))
  have hparts := hended.parts
  rw [hwalk] at hbounds hparts
  have hminus : ∀ e ∈ taken, chr '-' ∈ e := fun e he => positions_minus (Traverse.isSome htaken e he)
  -- what is passed over is blank
  have hblank : ∀ e ∈ rest, trim e = [] := by
    intro e he
    by_contra hne'
    have hmem : trim e ∈ listElements (cstr value) := by
      refine List.mem_filter.mpr ⟨List.mem_map_of_mem ?_, decide_eq_true hne'⟩
      rw [hes]
      exact List.mem_append_right taken he
    exact hrest ⟨e, he, Iff.mp minus_trim (written_minus (hwritten _ hmem))⟩
  have hlist : listElements (cstr value) = taken.map trim := by
    have hkeep : (taken.map trim).filter (fun x => decide (x ≠ [])) = taken.map trim := by
      rw [List.filter_eq_self]
      intro t ht
      obtain ⟨e, he, rfl⟩ := List.mem_map.mp ht
      exact decide_eq_true (List.ne_nil_of_mem (Iff.mpr minus_trim (hminus e he)))
    have hdrop : (rest.map trim).filter (fun x => decide (x ≠ [])) = [] := by
      rw [List.filter_eq_nil_iff]
      intro t ht
      obtain ⟨e, he, rfl⟩ := List.mem_map.mp ht
      simp [hblank e he]
    rw [listElements, hes, List.map_append, List.filter_append, hkeep, hdrop, List.append_nil]
  have hwritten' : ∀ e ∈ taken, Written (trim e) := fun e he => by
    apply hwritten
    rw [hlist]
    exact List.mem_map_of_mem he
  obtain ⟨rs, hrs, hfilter⟩ := mapM_written hsize htaken hwritten'
  have hdash : chr '-' ∈ cstr value := by
    have htaken' : taken ≠ [] := by
      rintro rfl
      exact hne (by rw [hlist]; rfl)
    obtain ⟨e, he⟩ := List.exists_mem_of_ne_nil taken htaken'
    apply (mem_elements (by decide) (Nat.le_refl _)).mpr
    refine ⟨e, ?_, hminus e he⟩
    rw [hes]
    exact List.mem_append_left rest he
  have hlength : taken.length = abs.length := Traverse.length_eq htaken
  refine ⟨abs, ?_, hbounds, ?_, ?_⟩
  · rw [reference, if_neg hne, hlist, hrs, Option.map_some, hfilter]
  · intro hlt
    rw [hes, List.length_append]
    omega
  · rw [hparts, List.nil_append]
    simp only [hdash, and_true, hok, decide_eq_true_eq, answerParts]

/-- **When a range response is exact.** If `0` is returned, the parts are those that the reference selects, and
`content_length` is their length, exactly when the value is a list of ranges as they are written, and the response is not
longer than a number of the type `off_t`. -/
theorem parseRange_exact_iff (hsize : size < 2 ^ 63) (hok : (parseRange contentType size value).1.ok = true) :
    Exact contentType size (cstr value) (parseRange contentType size value).1 (parseRange contentType size value).2 ↔
      ByteRangeSet (cstr value) ∧ answerLength contentType size (cstr value) < 2 ^ 63 := by
  rw [parseRange_eq] at hok ⊢
  rw [parseRange_length]
  have hanswer : ∀ hset : ByteRangeSet (cstr value), partsLength (httpResponseParseRange contentType size value).parts =
      answerLength contentType size (cstr value) := fun hset => by
    obtain ⟨abs, habs, -, -, hparts⟩ := parts_of_byteRangeSet hsize hok hset
    rw [hparts, answerLength, habs]
    rfl
  constructor
  · rintro ⟨⟨abs, habs, -⟩, hlength⟩
    have hset := byteRangeSet_of_reference habs
    refine ⟨hset, ?_⟩
    rw [← hanswer hset]
    generalize partsLength (httpResponseParseRange contentType size value).parts = n at hlength
    have hlt := Int.bmod_lt (x := n) (m := 2 ^ 64) (by decide)
    omega
  · rintro ⟨hset, hlt⟩
    obtain ⟨abs, habs, hbounds, hmany, hparts⟩ := parts_of_byteRangeSet hsize hok hset
    refine ⟨⟨abs, habs, hbounds, _, fun h => decide_eq_true (hmany h), hparts⟩, ?_⟩
    rw [hanswer hset]
    generalize answerLength contentType size (cstr value) = n at hlt
    apply Int.bmod_eq_of_le
    · omega
    · omega

end

theorem parseRange_exact_iff_sample :
    Exact (ascii "text/plain") 6 (cstr (ascii "0-1, 2-")) (parseRange (ascii "text/plain") 6 (ascii "0-1, 2-")).1
        (parseRange (ascii "text/plain") 6 (ascii "0-1, 2-")).2 ↔
      ByteRangeSet (cstr (ascii "0-1, 2-")) ∧ answerLength (ascii "text/plain") 6 (cstr (ascii "0-1, 2-")) < 2 ^ 63 :=
  parseRange_exact_iff (by decide) (by decide)

/-- What follows the last range with a `-` is not looked at: `abc` is no range, but `0` is returned. -/
theorem parseRange_unread : ¬ ∀ (contentType value : Bytes) (size : Nat), size < 2 ^ 63 →
    (parseRange contentType size value).1.ok = true →
      Exact contentType size (cstr value) (parseRange contentType size value).1 (parseRange contentType size value).2 := by
  intro h
  have hexact := h (ascii "text/plain") (ascii "0-1,abc") 6 (by decide) (by decide)
  obtain ⟨abs, habs, -⟩ := hexact.selected
  have hnone : reference 6 (cstr (ascii "0-1,abc")) = none := by decide
  rw [hnone] at habs
  cases habs

end Respond
end Lighttpd
