import Lighttpd.Base.Strtol

/-!
# Where a directive of a server-side include ends (`mod_ssi.c`)

`mod_ssi_stmt_len` looks for the `-->` that ends a directive and counts quotes on the way, before
`mod_ssi_parse_ssi_stmt_offlen` splits the directive into its tokens. The two take the same quotes for closed exactly if
the backslashes of every quoted value are paired (`stmtLen_agrees_iff`).

- `out_iff`: the flags of `mod_ssi_stmt_len` along the tokens of a directive;
- `stmtOfflen_segments`: the tokens of a directive and what stands between them.
-/

namespace Lighttpd.Ssi

/-! ## The source -/

def dquote : Byte := 34
def squote : Byte := 39
def backslash : Byte := 92

def opening : Bytes := ascii "<!--#"

def closing : Bytes := ascii "-->"

theorem length_opening : opening.length = 5 := rfl

theorem length_closing : closing.length = 3 := rfl

/-- `sq`, `dq` and `bs` of `mod_ssi_stmt_len`. -/
structure Quotes where
  sq : Bool
  dq : Bool
  bs : Bool
deriving DecidableEq

namespace Quotes

def Out (q : Quotes) : Prop := q.sq = false ∧ q.dq = false

instance (q : Quotes) : Decidable q.Out := inferInstanceAs (Decidable (_ ∧ _))

def init : Quotes := ⟨false, false, false⟩

def next (q : Quotes) (c : Byte) : Quotes :=
  if c = dquote then if !q.sq && (!q.dq || !q.bs) then { q with dq := !q.dq } else q
  else if c = squote then if !q.dq && (!q.sq || !q.bs) then { q with sq := !q.sq } else q
  else if c = backslash then if q.sq || q.dq then { q with bs := !q.bs } else q
  else q

end Quotes

/-- The loop of `mod_ssi_stmt_len`: the number of characters up to the end of the directive. -/
def stmtEnd (q : Quotes) : Bytes → Option Nat
  | [] => none
  | c :: s =>
    if c = chr '-' ∧ q.Out ∧ s.take 2 = ascii "->" then some 3 else (stmtEnd (q.next c) s).map (· + 1)

/-- `mod_ssi_stmt_len`; 0 for an incomplete directive. -/
def stmtLen (s : Bytes) : Nat :=
  match stmtEnd .init (s.drop 5) with
  | some n => 5 + n
  | none => 0

/-- The first loop of `mod_ssi_parse_ssi_stmt_value`, behind the opening quote `c`. -/
def valueEnd (c : Byte) : Bytes → Option Nat
  | [] => none
  | x :: s =>
    if x = c then some 1
    else if x = backslash then
      match s with
      | [] => none
      | _ :: s => (valueEnd c s).map (· + 2)
    else (valueEnd c s).map (· + 1)

/-- The second loop, for a value without quotes. -/
def wordEnd : Bytes → Option Nat
  | [] => some 0
  | x :: s =>
    if isspace x then some 0
    else if x = backslash then
      match s with
      | [] => none
      | _ :: s => (wordEnd s).map (· + 2)
    else (wordEnd s).map (· + 1)

def IsQuote (c : Byte) : Prop := c = dquote ∨ c = squote

instance (c : Byte) : Decidable (IsQuote c) := inferInstanceAs (Decidable (_ ∨ _))

/-- `mod_ssi_parse_ssi_stmt_value`: the length of the value at the start of `s`, 0 for an invalid or empty one. -/
def stmtValue : Bytes → Nat
  | [] => 0
  | c :: s => if IsQuote c then ((valueEnd c s).map (· + 1)).getD 0 else (wordEnd (c :: s)).getD 0

/-- What stands behind a token: the end of the directive, or the next token behind white space. -/
def stmtNext (s : Bytes) (n : Nat) : Option (Option Nat) :=
  if n + 3 = s.length then some none
  else if (s.drop n).head?.any isspace then
    let n := n + ((s.drop n).takeWhile isspace).length
    if n + 3 = s.length then some none else some (some n)
  else none

/-- An attribute with its value: the offsets and lengths of the two, and the offset behind them. -/
def stmtParam (s : Bytes) (n : Nat) : Option (List (Nat × Nat) × Nat) :=
  let attr := ((s.drop n).takeWhile lightIsalpha).length
  if attr = 0 ∨ (s.drop (n + attr)).head? ≠ some (chr '=') then none
  else
    let v := n + attr + 1
    let len := stmtValue ((s.drop v).take (s.length - v - 3))
    if len = 0 then none else some ([(n, attr), (v, len)], v + len)

/-- `mod_ssi_parse_ssi_stmt_offlen`: the offsets and lengths of the tokens. -/
def stmtOfflen (s : Bytes) : Option (List (Nat × Nat)) :=
  let len := ((s.drop 5).takeWhile lightIsalpha).length
  if len = 0 then none
  else
    match stmtNext s (5 + len) with
    | none => none
    | some none => some [(5, len)]
    | some (some n) =>
      match stmtParam s n with
      | none => none
      | some (p, n) =>
        match stmtNext s n with
        | none => none
        | some none => some ((5, len) :: p)
        | some (some n) =>
          match stmtParam s n with
          | none => none
          | some (p', n) =>
            match stmtNext s n with
            | some none => some ((5, len) :: (p ++ p'))
            | _ => none

/-! ## Where quoted values are closed -/

def Quoted (d : Bytes) (p : Nat × Nat) : Prop := ∃ c, (d.drop p.1).head? = some c ∧ IsQuote c

def InValue (d : Bytes) (o : List (Nat × Nat)) (k : Nat) : Prop := ∃ p ∈ o, Quoted d p ∧ p.1 < k ∧ k < p.1 + p.2

/-- **A directive with the tokens `o`**: it ends with the first `-->` that is not in a quoted value. -/
structure Directive (d : Bytes) (o : List (Nat × Nat)) : Prop where
  opening : opening <+: d
  closing : closing <:+ d
  accepted : stmtOfflen d = some o
  first : ∀ k, 5 ≤ k → k + 3 < d.length → Ssi.closing <+: d.drop k → InValue d o k

/-- **`mod_ssi_stmt_len` takes the same quotes for closed**: it finds a `-->` at any place of the directive, if it is
closed there, exactly if the place is not in a quoted value. -/
def Agrees (d : Bytes) (o : List (Nat × Nat)) : Prop :=
  ∀ k, 5 ≤ k → k + 3 ≤ d.length → (stmtLen (d.take k ++ closing) = k + 3 ↔ ¬ InValue d o k)

/-- The quotes `c` of a value, behind the opening one: with an odd number of backslashes before it stands every one but the
last. -/
def Paired (c : Byte) (odd : Bool) : Bytes → Prop
  | [] => True
  | x :: s => (x = c → (odd = true ↔ s ≠ [])) ∧ Paired c (if x = backslash then !odd else odd) s

/-- The quotes of a token are those that `mod_ssi_stmt_len` counts: a token without quotes has none in it, and in a quoted
one the backslashes are paired. -/
def QuotesCounted : Bytes → Prop
  | [] => True
  | c :: s => if IsQuote c then Paired c false s else ∀ x ∈ c :: s, ¬ IsQuote x

/-! ## The flags of `mod_ssi_stmt_len` -/

variable {n m : Nat} {s d : Bytes} {c : Byte} {segs : List Segment} {seg : Segment} {o : List (Nat × Nat)}

theorem Quotes.next_other {q : Quotes} (hq : q.Out) (hc : ¬ IsQuote c) : q.next c = q := by
  obtain ⟨hd, hs⟩ := not_or.mp hc
  simp [Quotes.next, hd, hs, hq.1, hq.2]

/-- The flags behind `u`. -/
def Quotes.after (q : Quotes) (u : Bytes) : Quotes := u.foldl Quotes.next q

theorem closing_prefix_iff : closing <+: c :: s ↔ c = chr '-' ∧ s.take 2 = ascii "->" := by
  have h : closing = chr '-' :: ascii "->" := rfl
  have h2 : (ascii "->").length = 2 := rfl
  rw [h, List.cons_prefix_cons, List.prefix_iff_eq_take, h2, eq_comm, @eq_comm _ (ascii "->")]

/-- The end of the directive is found behind `u`. -/
theorem stmtEnd_iff {q : Quotes} {u : Bytes} : stmtEnd q (u ++ closing) = some (u.length + 3) ↔
    (q.after u).Out ∧ ∀ i < u.length, closing <+: (u ++ closing).drop i → ¬ (q.after (u.take i)).Out := by
  induction u generalizing q with
  | nil =>
    have hclosing : stmtEnd q closing = if q.Out then some 3 else none := by
      simp [closing, ascii, stmtEnd, Quotes.next, chr, dquote, squote, backslash]
    rw [List.nil_append, hclosing]
    simp [Quotes.after]
  | cons c u ih =>
    have hhit : (c = chr '-' ∧ q.Out ∧ (u ++ closing).take 2 = ascii "->") ↔ q.Out ∧ closing <+: c :: (u ++ closing) := by
      rw [closing_prefix_iff]
      tauto
    rw [List.cons_append, stmtEnd]
    simp only [hhit]
    constructor
    · intro h
      split_ifs at h with hh
      · simp at h
      · obtain ⟨n, hn, hlen⟩ := Option.map_eq_some_iff.mp h
        obtain rfl : n = u.length + 3 := by simpa using hlen
        obtain ⟨hout, hfirst⟩ := ih.mp hn
        refine ⟨hout, fun i hi hpre => ?_⟩
        cases i with
        | zero => exact fun hq => hh ⟨hq, hpre⟩
        | succ i => exact hfirst i (by simpa using hi) hpre
    · rintro ⟨hout, hfirst⟩
      rw [if_neg fun hh => hfirst 0 (by simp) hh.2 hh.1]
      have hrest := ih.mpr ⟨hout, fun i hi hpre => hfirst (i + 1) (by simpa using hi) hpre⟩
      simp [hrest]

theorem stmtLen_iff {k : Nat} (h5 : 5 ≤ k) (hk : k ≤ d.length) : stmtLen (d.take k ++ closing) = k + 3 ↔
      stmtEnd .init ((d.drop 5).take (k - 5) ++ closing) = some (((d.drop 5).take (k - 5)).length + 3) := by
  have htake : (d.take k).length = k := List.length_take_of_le hk
  have hdrop : (d.take k ++ closing).drop 5 = (d.drop 5).take (k - 5) ++ closing := by
    rw [List.drop_append_of_le_length (by omega), List.drop_take]
  have hlen : ((d.drop 5).take (k - 5)).length = k - 5 := by
    rw [List.length_take, List.length_drop]
    omega
  rw [stmtLen, hdrop, hlen]
  cases stmtEnd .init ((d.drop 5).take (k - 5) ++ closing) with
  | none => simp
  | some n =>
    simp only [Option.some.injEq]
    omega

/-- A `-->` in front of the place `j` stands there also if the directive is not closed at `j`. -/
theorem closing_of_take {b : Bytes} {i j : Nat} (hij : i < j) (hj : j ≤ b.length)
    (h : closing <+: (b.take j ++ closing).drop i) : closing <+: (b ++ closing).drop i := by
  have hi : i ≤ (b.take j).length := by rw [List.length_take]; omega
  rw [List.drop_append_of_le_length hi] at h
  rw [List.drop_append_of_le_length (by omega)]
  have hpre : (b.take j).drop i <+: b.drop i :=
    ⟨b.drop j, by rw [← List.drop_append_of_le_length hi, List.take_append_drop]⟩
  have hlen : ((b.take j).drop i).length = j - i := by
    rw [List.length_drop, List.length_take]
    omega
  match hw : (b.take j).drop i, h with
  | [], _ => simp [hw] at hlen; omega
  | [x], h => simp [closing, ascii] at h
  | [x, y], h => simp [closing, ascii] at h
  | x :: y :: z :: t, h =>
    have hw' : closing <+: x :: y :: z :: t := by
      exact List.prefix_of_prefix_length_le h (List.prefix_append _ _) (by simp [length_closing])
    rw [hw] at hpre
    exact (hw'.trans hpre).trans (List.prefix_append _ _)

/-- **The end of a directive is found where the flags say that no quote is open**, if every `-->` in it lies in a place
for which they say so rightly. -/
theorem stmtEnd_agrees_iff {b : Bytes} {inside : Nat → Prop}
    (hfirst : ∀ i, i < b.length → closing <+: (b ++ closing).drop i → inside i) :
    (∀ j ≤ b.length, (stmtEnd .init (b.take j ++ closing) = some ((b.take j).length + 3) ↔ ¬ inside j)) ↔
      ∀ j ≤ b.length, ((Quotes.init.after (b.take j)).Out ↔ ¬ inside j) := by
  have hone : ∀ j ≤ b.length, (∀ i < j, ((Quotes.init.after (b.take i)).Out ↔ ¬ inside i)) →
      (stmtEnd .init (b.take j ++ closing) = some ((b.take j).length + 3) ↔ (Quotes.init.after (b.take j)).Out) := by
    intro j hj hbefore
    rw [stmtEnd_iff]
    refine ⟨And.left, fun hout => ⟨hout, fun i hi hpre hq => ?_⟩⟩
    have hij : i < j := by
      rw [List.length_take] at hi
      omega
    rw [List.take_take, min_eq_left hij.le] at hq
    exact (hbefore i hij).mp hq (hfirst i (by omega) (closing_of_take hij hj hpre))
  constructor
  · intro h j
    induction j using Nat.strong_induction_on with
    | _ j ih =>
      intro hj
      rw [← hone j hj fun i hi => ih i hi (by omega)]
      exact h j hj
  · intro h j hj
    rw [hone j hj fun i hi => h i (by omega)]
    exact h j hj

/-! ## Tokens and what stands between them -/

/-- A piece of a directive: white space or `=`, a token without quotes, or a quoted one (with what stands behind the opening
quote). -/
inductive Segment
  | gap (x : Bytes)
  | word (x : Bytes)
  | quoted (c : Byte) (x : Bytes)

namespace Segment

def bytes : Segment → Bytes
  | gap x => x
  | word x => x
  | quoted c x => c :: x

/-- The places between the quotes of a piece. -/
def Inside : Segment → Nat → Prop
  | quoted _ x, k => 0 < k ∧ k < x.length + 1
  | _, _ => False

/-- The quotes of the piece are those that are counted. -/
def Counted : Segment → Prop
  | gap x => ∀ c ∈ x, ¬ IsQuote c
  | word x => ∀ c ∈ x, ¬ IsQuote c
  | quoted c x => Paired c false x

/-- A quoted piece has its quotes. -/
def Valid : Segment → Prop
  | gap x => ∀ c ∈ x, ¬ IsQuote c
  | word x => ∃ c s, x = c :: s ∧ ¬ IsQuote c
  | quoted c x => IsQuote c ∧ ∃ s, x = s ++ [c]

end Segment

def joined (segs : List Segment) : Bytes := segs.flatMap Segment.bytes

@[simp] theorem joined_nil : joined [] = [] := rfl

@[simp] theorem joined_cons (seg : Segment) (segs : List Segment) : joined (seg :: segs) = seg.bytes ++ joined segs := rfl

@[simp] theorem joined_append (segs segs' : List Segment) : joined (segs ++ segs') = joined segs ++ joined segs' := by
  simp [joined]

/-- The places between quotes. -/
def InQuotes : List Segment → Nat → Prop
  | [], _ => False
  | seg :: segs, k => if k < seg.bytes.length then seg.Inside k else InQuotes segs (k - seg.bytes.length)

def Quotes.opened (c : Byte) (bs : Bool) : Quotes := ⟨decide (c = squote), decide (c = dquote), bs⟩

theorem Quotes.next_open (hc : IsQuote c) : Quotes.init.next c = .opened c false := by
  rcases hc with rfl | rfl <;> decide

theorem Quotes.not_out_opened (hc : IsQuote c) (bs : Bool) : ¬ (Quotes.opened c bs).Out := by
  rcases hc with rfl | rfl <;> revert bs <;> decide

theorem Quotes.next_opened (hc : IsQuote c) (x : Byte) (bs : Bool) : (Quotes.opened c bs).next x =
    if x = c then (if bs then .opened c bs else .init) else .opened c (if x = backslash then !bs else bs) := by
  by_cases hd : x = dquote
  · subst hd
    rcases hc with rfl | rfl <;> revert bs <;> decide
  · by_cases hs : x = squote
    · subst hs
      rcases hc with rfl | rfl <;> revert bs <;> decide
    · by_cases hb : x = backslash
      · subst hb
        rcases hc with rfl | rfl <;> revert bs <;> decide
      · rcases hc with rfl | rfl <;> simp [next, opened, hd, hs, hb]

theorem after_plain_iff {x : Bytes} :
    (∀ j ≤ x.length, (Quotes.init.after (x.take j)).Out) ↔ ∀ c ∈ x, ¬ IsQuote c := by
  induction x with
  | nil => simp [Quotes.after, Quotes.Out, Quotes.init]
  | cons c x ih =>
    rw [List.forall_mem_cons, ← ih]
    constructor
    · intro h
      have hc : ¬ IsQuote c := by
        intro hc
        have hone := h 1 (by simp)
        simp only [List.take_succ_cons, List.take_zero, Quotes.after, List.foldl_cons, List.foldl_nil,
          Quotes.next_open hc] at hone
        exact Quotes.not_out_opened hc false hone
      refine ⟨hc, fun j hj => ?_⟩
      have hnext := h (j + 1) (by simpa using hj)
      rwa [List.take_succ_cons, Quotes.after, List.foldl_cons, Quotes.next_other ⟨rfl, rfl⟩ hc] at hnext
    · rintro ⟨hc, h⟩ j hj
      cases j with
      | zero => exact ⟨rfl, rfl⟩
      | succ j =>
        rw [List.take_succ_cons, Quotes.after, List.foldl_cons, Quotes.next_other ⟨rfl, rfl⟩ hc]
        exact h j (by simpa using hj)

theorem after_plain {x : Bytes} (h : ∀ c ∈ x, ¬ IsQuote c) : Quotes.init.after x = .init := by
  induction x with
  | nil => rfl
  | cons c x ih =>
    obtain ⟨hc, hx⟩ := List.forall_mem_cons.mp h
    rw [Quotes.after, List.foldl_cons, Quotes.next_other ⟨rfl, rfl⟩ hc]
    exact ih hx

/-- The quote stays open up to the last character and is closed by it exactly in a value with paired backslashes. -/
theorem after_opened_iff (hc : IsQuote c) {bs : Bool} :
    ((∀ j ≤ s.length, ¬ ((Quotes.opened c bs).after (s.take j)).Out) ∧
      ((Quotes.opened c bs).after (s ++ [c])).Out) ↔ Paired c bs (s ++ [c]) := by
  induction s generalizing bs with
  | nil =>
    have hout : (Quotes.opened c bs).Out ↔ False := by simpa using Quotes.not_out_opened hc bs
    simp only [List.length_nil, Nat.le_zero, forall_eq, List.take_nil, List.nil_append, Quotes.after, List.foldl_nil,
      List.foldl_cons, Quotes.next_opened hc, if_true, Paired, hout, not_false_eq_true, true_and, ne_eq, not_true_eq_false,
      iff_false, and_true, forall_const]
    cases bs
    · simp [Quotes.Out, Quotes.init]
    · simp [hout]
  | cons y s ih =>
    have hshift : ((∀ j ≤ (y :: s).length, ¬ ((Quotes.opened c bs).after ((y :: s).take j)).Out) ∧
        ((Quotes.opened c bs).after (y :: s ++ [c])).Out) ↔
        (∀ j ≤ s.length, ¬ (((Quotes.opened c bs).next y).after (s.take j)).Out) ∧
          (((Quotes.opened c bs).next y).after (s ++ [c])).Out := by
      refine and_congr_left fun _ => ⟨fun h j hj => h (j + 1) (by simpa using hj), fun h j hj => ?_⟩
      cases j with
      | zero => exact Quotes.not_out_opened hc bs
      | succ j => exact h j (by simpa using hj)
    have hcb : c ≠ backslash := by rcases hc with rfl | rfl <;> decide
    rw [hshift, Quotes.next_opened hc, List.cons_append, Paired]
    by_cases hy : y = c
    · cases bs with
      | false =>
        have hout : (Quotes.init.after (s.take 0)).Out := ⟨rfl, rfl⟩
        simp only [if_pos hy, Bool.false_eq_true, if_false]
        exact ⟨fun h => absurd hout (h.1 0 (Nat.zero_le _)), fun h => by simp [hy] at h⟩
      | true => simp [hy, hcb, ih]
    · simp [hy, ih]

theorem after_paired (hc : IsQuote c) {bs : Bool} (h : Paired c bs (s ++ [c])) :
    (Quotes.opened c bs).after (s ++ [c]) = .init := by
  induction s generalizing bs with
  | nil =>
    have hbs : bs = false := by simpa [Paired] using h
    subst hbs
    simp [Quotes.after, Quotes.next_opened hc]
  | cons y s ih =>
    have hcb : c ≠ backslash := by rcases hc with rfl | rfl <;> decide
    obtain ⟨hy, hrest⟩ := h
    rw [List.cons_append, Quotes.after, List.foldl_cons, Quotes.next_opened hc]
    by_cases hyc : y = c
    · obtain rfl : bs = true := (hy hyc).mpr (by simp)
      rw [if_pos hyc, if_pos rfl]
      exact ih (by simpa [hyc, hcb] using hrest)
    · rw [if_neg hyc]
      exact ih hrest

theorem Quotes.after_append (q : Quotes) (u v : Bytes) : q.after (u ++ v) = (q.after u).after v := List.foldl_append

namespace Segment

theorem after_counted (hv : seg.Valid) (h : seg.Counted) : Quotes.init.after seg.bytes = .init ∧
    ∀ j < seg.bytes.length, ((Quotes.init.after (seg.bytes.take j)).Out ↔ ¬ seg.Inside j) := by
  cases seg with
  | gap x => exact ⟨after_plain h, fun j hj => iff_of_true (after_plain_iff.mpr h j hj.le) not_false⟩
  | word x => exact ⟨after_plain h, fun j hj => iff_of_true (after_plain_iff.mpr h j hj.le) not_false⟩
  | quoted c x =>
    obtain ⟨hc, s, rfl⟩ := hv
    obtain ⟨hopen, -⟩ := (after_opened_iff hc).mpr h
    refine ⟨?_, fun j hj => ?_⟩
    · rw [bytes, Quotes.after, List.foldl_cons, Quotes.next_open hc]
      exact after_paired hc h
    · cases j with
      | zero => exact iff_of_true ⟨rfl, rfl⟩ (by simp [Inside])
      | succ j =>
        have hj' : j ≤ s.length := by simpa [bytes, Nat.lt_succ_iff] using hj
        rw [bytes, List.take_succ_cons, Quotes.after, List.foldl_cons, Quotes.next_open hc,
          List.take_append_of_le_length hj']
        refine iff_of_false (hopen j hj') (not_not_intro ?_)
        simp [Inside]
        omega

theorem counted_of_after (hv : seg.Valid)
    (h : ∀ j < seg.bytes.length, ((Quotes.init.after (seg.bytes.take j)).Out ↔ ¬ seg.Inside j))
    (hend : (Quotes.init.after seg.bytes).Out) : seg.Counted := by
  have hplain : ∀ {x : Bytes}, (∀ j < x.length, (Quotes.init.after (x.take j)).Out) → (Quotes.init.after x).Out →
      ∀ c ∈ x, ¬ IsQuote c := by
    intro x hx hlast
    refine after_plain_iff.mp fun j hj => ?_
    rcases hj.lt_or_eq with hlt | rfl
    · exact hx j hlt
    · rwa [List.take_length]
  cases seg with
  | gap x => exact hplain (fun j hj => (h j hj).mpr not_false) hend
  | word x => exact hplain (fun j hj => (h j hj).mpr not_false) hend
  | quoted c x =>
    obtain ⟨hc, s, rfl⟩ := hv
    refine (after_opened_iff hc).mp ⟨fun j hj hout => ?_, ?_⟩
    · have hj' : j + 1 < (bytes (quoted c (s ++ [c]))).length := by
        simp [bytes]
        omega
      have hnext := h (j + 1) hj'
      rw [bytes, List.take_succ_cons, Quotes.after, List.foldl_cons, Quotes.next_open hc,
        List.take_append_of_le_length hj] at hnext
      apply hnext.mp hout
      simp [Inside]
      omega
    · rwa [bytes, Quotes.after, List.foldl_cons, Quotes.next_open hc] at hend

end Segment

theorem not_inQuotes_zero : ∀ segs : List Segment, ¬ InQuotes segs 0
  | [] => not_false
  | seg :: segs => by
    rw [InQuotes]
    split_ifs with h
    · cases seg with
      | gap x => exact not_false
      | word x => exact not_false
      | quoted c x => exact fun hin => absurd hin.1 (lt_irrefl 0)
    · rw [Nat.zero_sub]
      exact not_inQuotes_zero segs

/-- **The flags along the pieces of a directive** are right at every place exactly if the quotes of each piece are those
that are counted. -/
theorem out_iff (hv : ∀ seg ∈ segs, seg.Valid) :
    (∀ j ≤ (joined segs).length, ((Quotes.init.after ((joined segs).take j)).Out ↔ ¬ InQuotes segs j)) ↔
      ∀ seg ∈ segs, seg.Counted := by
  induction segs with
  | nil =>
    simp [joined, Quotes.after, Quotes.Out, Quotes.init, InQuotes]
  | cons seg segs ih =>
    obtain ⟨hseg, hsegs⟩ := List.forall_mem_cons.mp hv
    have hlen : (joined (seg :: segs)).length = seg.bytes.length + (joined segs).length := by simp [joined]
    have hbytes : joined (seg :: segs) = seg.bytes ++ joined segs := rfl
    have hin : ∀ j < seg.bytes.length, (InQuotes (seg :: segs) j ↔ seg.Inside j) := fun j hj => by
      rw [InQuotes, if_pos hj]
    have hbehind : ∀ j, InQuotes (seg :: segs) (seg.bytes.length + j) ↔ InQuotes segs j := fun j => by
      rw [InQuotes, if_neg (by omega), Nat.add_sub_cancel_left]
    have htake : ∀ j < seg.bytes.length, (joined (seg :: segs)).take j = seg.bytes.take j := fun j hj => by
      rw [hbytes, List.take_append_of_le_length hj.le]
    have htake' : ∀ j, (joined (seg :: segs)).take (seg.bytes.length + j) = seg.bytes ++ (joined segs).take j :=
      fun j => by rw [hbytes, List.take_length_add_append]
    rw [List.forall_mem_cons, ← ih hsegs]
    constructor
    · intro h
      have hone : ∀ j < seg.bytes.length, ((Quotes.init.after (seg.bytes.take j)).Out ↔ ¬ seg.Inside j) := by
        intro j hj
        rw [← hin j hj, ← htake j hj]
        exact h j (by omega)
      have hend : (Quotes.init.after seg.bytes).Out := by
        have hlast := (h (seg.bytes.length + 0) (by omega)).mpr fun hin' => not_inQuotes_zero segs ((hbehind 0).mp hin')
        rwa [htake', List.take_zero, List.append_nil] at hlast
      have hcounted := Segment.counted_of_after hseg hone hend
      refine ⟨hcounted, fun j hj => ?_⟩
      have hj' := h (seg.bytes.length + j) (by omega)
      rwa [hbehind, htake', Quotes.after_append, (Segment.after_counted hseg hcounted).1] at hj'
    · rintro ⟨hcounted, h⟩ j hj
      obtain ⟨hafter, hone⟩ := Segment.after_counted hseg hcounted
      rcases Nat.lt_or_ge j seg.bytes.length with hlt | hge
      · rw [hin j hlt, htake j hlt]
        exact hone j hlt
      · obtain ⟨k, rfl⟩ := Nat.exists_eq_add_of_le hge
        rw [hbehind, htake', Quotes.after_append, hafter]
        exact h k (by omega)

/-! ## The tokens of a directive -/

/-- The offsets and lengths of the tokens of the pieces, from the offset `n` on. -/
def tokensAt : Nat → List Segment → List (Nat × Nat)
  | _, [] => []
  | n, .gap x :: segs => tokensAt (n + x.length) segs
  | n, seg :: segs => (n, seg.bytes.length) :: tokensAt (n + seg.bytes.length) segs

theorem tokensAt_append (n : Nat) (segs segs' : List Segment) :
    tokensAt n (segs ++ segs') = tokensAt n segs ++ tokensAt (n + (joined segs).length) segs' := by
  induction segs generalizing n with
  | nil => simp [tokensAt, joined]
  | cons seg segs ih =>
    rw [joined_cons, List.length_append, ← Nat.add_assoc]
    cases seg with
    | gap x => exact ih _
    | word x => exact congrArg ((n, x.length) :: ·) (ih _)
    | quoted c x => exact congrArg ((n, (c :: x).length) :: ·) (ih _)

/-- The pieces `segs` stand in `s` from `n` to `m`. -/
structure Pieces (s : Bytes) (n m : Nat) (segs : List Segment) : Prop where
  valid : ∀ seg ∈ segs, seg.Valid
  text : s.drop n = joined segs ++ s.drop m
  place : m = n + (joined segs).length

theorem Pieces.append {k : Nat} {segs' : List Segment} (h : Pieces s n m segs)
    (h' : Pieces s m k segs') : Pieces s n k (segs ++ segs') where
  valid := fun seg hseg => (List.mem_append.mp hseg).elim (h.valid seg) (h'.valid seg)
  text := by rw [h.text, h'.text, joined_append, List.append_assoc]
  place := by rw [h'.place, h.place, joined_append, List.length_append, Nat.add_assoc]

theorem Pieces.tokens_append (h : Pieces s n m segs) (segs' : List Segment) :
    tokensAt n (segs ++ segs') = tokensAt n segs ++ tokensAt m segs' := by
  rw [tokensAt_append, ← h.place]

theorem Pieces.nil (s : Bytes) (n : Nat) : Pieces s n n [] := ⟨nofun, rfl, rfl⟩

theorem Pieces.one (hv : seg.Valid) (hpre : seg.bytes <+: s.drop n) : Pieces s n (n + seg.bytes.length) [seg] where
  valid := by simpa using hv
  text := by
    rw [joined_cons, joined_nil, List.append_nil, ← List.drop_drop]
    exact (List.prefix_iff_eq_append.mp hpre).symm
  place := by simp

theorem not_quote_of_alpha (h : lightIsalpha c = true) : ¬ IsQuote c := by
  rintro (rfl | rfl) <;> revert h <;> decide

theorem not_quote_of_space (h : isspace c = true) : ¬ IsQuote c := by
  rintro (rfl | rfl) <;> revert h <;> decide

theorem valueEnd_some (h : valueEnd c s = some n) : ∃ x, x ++ [c] <+: s ∧ n = x.length + 1 := by
  fun_induction valueEnd c s generalizing n with
  | case1 => cases h
  | case2 s =>
    obtain rfl := Option.some.inj h
    exact ⟨[], by simp, rfl⟩
  | case3 => cases h
  | case4 y s hc ih =>
    obtain ⟨m, hm, rfl⟩ := Option.map_eq_some_iff.mp h
    obtain ⟨x, ⟨t, ht⟩, rfl⟩ := ih hm
    exact ⟨backslash :: y :: x, ⟨t, by simp [← ht]⟩, rfl⟩
  | case5 y s hc hb ih =>
    obtain ⟨m, hm, rfl⟩ := Option.map_eq_some_iff.mp h
    obtain ⟨x, ⟨t, ht⟩, rfl⟩ := ih hm
    exact ⟨y :: x, ⟨t, by simp [← ht]⟩, rfl⟩

theorem wordEnd_le (h : wordEnd s = some n) : n ≤ s.length := by
  fun_induction wordEnd s generalizing n with
  | case1 =>
    obtain rfl := Option.some.inj h
    exact le_rfl
  | case2 y s =>
    obtain rfl := Option.some.inj h
    exact Nat.zero_le _
  | case3 => cases h
  | case4 y s hs ih =>
    obtain ⟨m, hm, rfl⟩ := Option.map_eq_some_iff.mp h
    have hle := ih hm
    simp only [List.length_cons]
    omega
  | case5 y s hs hb ih =>
    obtain ⟨m, hm, rfl⟩ := Option.map_eq_some_iff.mp h
    have hle := ih hm
    simp only [List.length_cons]
    omega

theorem stmtValue_spec (h : stmtValue s ≠ 0) :
    ∃ seg : Segment, seg.Valid ∧ seg.bytes <+: s ∧ seg.bytes.length = stmtValue s ∧ ∀ n, tokensAt n [seg] = [(n, stmtValue s)] := by
  cases s with
  | nil => exact absurd rfl h
  | cons c s =>
    rw [stmtValue] at h ⊢
    by_cases hc : IsQuote c
    · rw [if_pos hc] at h ⊢
      cases hn : valueEnd c s with
      | none => simp [hn] at h
      | some n =>
        obtain ⟨x, hpre, rfl⟩ := valueEnd_some hn
        refine ⟨.quoted c (x ++ [c]), ⟨hc, x, rfl⟩, ?_, ?_, fun k => ?_⟩
        · exact List.cons_prefix_cons.mpr ⟨rfl, hpre⟩
        · simp [Segment.bytes]
        · simp [tokensAt, Segment.bytes]
    · rw [if_neg hc] at h ⊢
      cases hn : wordEnd (c :: s) with
      | none => simp [hn] at h
      | some n =>
        simp only [hn, Option.getD_some] at h ⊢
        obtain ⟨m, rfl⟩ := Nat.exists_eq_succ_of_ne_zero h
        have hlen : ((c :: s).take (m + 1)).length = m + 1 := List.length_take_of_le (wordEnd_le hn)
        refine ⟨.word ((c :: s).take (m + 1)), ⟨c, s.take m, rfl, hc⟩, List.take_prefix _ _, hlen, fun k => ?_⟩
        rw [tokensAt, tokensAt]
        · exact congrArg (fun l => [(k, l)]) hlen
        · simp

theorem stmtNext_spec {r : Option Nat} (h : stmtNext s n = some r) :
    ∃ segs, Pieces s n (r.getD (s.length - 3)) segs ∧ tokensAt n segs = [] := by
  have hvalid : (Segment.gap ((s.drop n).takeWhile isspace)).Valid := fun c hc =>
    not_quote_of_space (List.mem_takeWhile_imp hc)
  have hgap : Pieces s n (n + ((s.drop n).takeWhile isspace).length) [.gap ((s.drop n).takeWhile isspace)] :=
    .one hvalid (List.takeWhile_prefix _)
  unfold stmtNext at h
  simp only at h
  split_ifs at h with hend hspace hend'
  · obtain rfl := Option.some.inj h
    have hn : s.length - 3 = n := by omega
    exact ⟨[], by rw [Option.getD_none, hn]; exact .nil s n, rfl⟩
  · obtain rfl := Option.some.inj h
    have hn : s.length - 3 = n + ((s.drop n).takeWhile isspace).length := by omega
    exact ⟨_, by rw [Option.getD_none, hn]; exact hgap, rfl⟩
  · obtain rfl := Option.some.inj h
    exact ⟨_, hgap, rfl⟩

theorem letters_spec (h : ((s.drop n).takeWhile lightIsalpha).length ≠ 0) :
    Pieces s n (n + ((s.drop n).takeWhile lightIsalpha).length) [.word ((s.drop n).takeWhile lightIsalpha)] := by
  have hvalid : (Segment.word ((s.drop n).takeWhile lightIsalpha)).Valid := by
    cases hw : (s.drop n).takeWhile lightIsalpha with
    | nil => simp [hw] at h
    | cons c w =>
      have hc : c ∈ (s.drop n).takeWhile lightIsalpha := by simp [hw]
      exact ⟨c, w, rfl, not_quote_of_alpha (List.mem_takeWhile_imp hc)⟩
  exact .one hvalid (List.takeWhile_prefix _)

theorem stmtParam_spec {p : List (Nat × Nat)} (h : stmtParam s n = some (p, m)) :
    ∃ segs, Pieces s n m segs ∧ tokensAt n segs = p := by
  unfold stmtParam at h
  simp only at h
  split_ifs at h with hattr hvalue
  obtain ⟨hattr, heq⟩ := not_or.mp hattr
  obtain ⟨rfl, rfl⟩ := Prod.mk.inj (Option.some.inj h)
  obtain ⟨seg, hvalid, hpre, hlen, htokens⟩ := stmtValue_spec hvalue
  have hword := letters_spec hattr
  generalize ((s.drop n).takeWhile lightIsalpha) = attr at *
  have hequals : (Segment.gap [chr '=']).Valid := fun c hc => by
    rw [List.mem_singleton.mp hc]
    decide
  have hgap : Pieces s (n + attr.length) (n + attr.length + 1) [.gap [chr '=']] := by
    refine .one hequals ?_
    cases hd : s.drop (n + attr.length) with
    | nil => simp [hd] at heq
    | cons c t =>
      obtain rfl : c = chr '=' := by simpa [hd] using heq
      exact ⟨t, rfl⟩
  have hval : Pieces s (n + attr.length + 1) (n + attr.length + 1 + seg.bytes.length) [seg] :=
    .one hvalid (hpre.trans (List.take_prefix _ _))
  rw [hlen] at hval
  refine ⟨_, hword.append (hgap.append hval), ?_⟩
  rw [tokensAt_append, tokensAt_append, htokens]
  simp [tokensAt, Segment.bytes, Nat.add_assoc]

def TokensUpTo (d : Bytes) (n : Nat) (o : List (Nat × Nat)) : Prop := ∃ segs, Pieces d 5 n segs ∧ tokensAt 5 segs = o

theorem TokensUpTo.next {r : Option Nat} (h : TokensUpTo d n o)
    (hn : stmtNext d n = some r) : TokensUpTo d (r.getD (d.length - 3)) o := by
  obtain ⟨segs, hp, rfl⟩ := h
  obtain ⟨g, hg, ht⟩ := stmtNext_spec hn
  exact ⟨_, hp.append hg, by rw [hp.tokens_append, ht, List.append_nil]⟩

theorem TokensUpTo.param {p : List (Nat × Nat)} (h : TokensUpTo d n o)
    (hp : stmtParam d n = some (p, m)) : TokensUpTo d m (o ++ p) := by
  obtain ⟨segs, hs, rfl⟩ := h
  obtain ⟨q, hq, ht⟩ := stmtParam_spec hp
  exact ⟨_, hs.append hq, by rw [hs.tokens_append, ht]⟩

/-- **The tokens of a directive** are pieces of it, with nothing but white space and `=` between them. -/
theorem stmtOfflen_segments (h : stmtOfflen d = some o) : TokensUpTo d (d.length - 3) o := by
  unfold stmtOfflen at h
  simp only at h
  split_ifs at h with hname
  have hword : TokensUpTo d (5 + ((d.drop 5).takeWhile lightIsalpha).length)
      [(5, ((d.drop 5).takeWhile lightIsalpha).length)] := ⟨_, letters_spec hname, rfl⟩
  generalize ((d.drop 5).takeWhile lightIsalpha).length = len at *
  cases hn₁ : stmtNext d (5 + len) with
  | none => simp [hn₁] at h
  | some r₁ =>
    have h₁ := hword.next hn₁
    simp only [hn₁] at h
    cases r₁ with
    | none =>
      obtain rfl := Option.some.inj h
      exact h₁
    | some n₁ =>
      cases hp : stmtParam d n₁ with
      | none => simp [hp] at h
      | some r =>
        obtain ⟨p, n₂⟩ := r
        have h₂ := h₁.param hp
        simp only [hp] at h
        cases hn₂ : stmtNext d n₂ with
        | none => simp [hn₂] at h
        | some r₂ =>
          have h₃ := h₂.next hn₂
          simp only [hn₂] at h
          cases r₂ with
          | none =>
            obtain rfl := Option.some.inj h
            exact h₃
          | some n₃ =>
            cases hp' : stmtParam d n₃ with
            | none => simp [hp'] at h
            | some r' =>
              obtain ⟨p', n₄⟩ := r'
              have h₄ := h₃.param hp'
              simp only [hp'] at h
              cases hn₃ : stmtNext d n₄ with
              | none => simp [hn₃] at h
              | some r₃ =>
                have h₅ := h₄.next hn₃
                simp only [hn₃] at h
                cases r₃ with
                | none =>
                  obtain rfl := Option.some.inj h
                  exact h₅
                | some n₅ => cases h

theorem Pieces.tail (h : Pieces s n m (seg :: segs)) :
    seg.Valid ∧ s.drop n = seg.bytes ++ s.drop (n + seg.bytes.length) ∧ Pieces s (n + seg.bytes.length) m segs := by
  have hrest : s.drop (n + seg.bytes.length) = joined segs ++ s.drop m := by
    rw [← List.drop_drop, h.text, joined_cons, List.append_assoc, List.drop_left]
  refine ⟨h.valid seg List.mem_cons_self, ?_, fun g hg => h.valid g (List.mem_cons_of_mem _ hg), hrest, ?_⟩
  · rw [hrest, h.text, joined_cons, List.append_assoc]
  · rw [h.place, joined_cons, List.length_append, Nat.add_assoc]

theorem tokensAt_ge {p : Nat × Nat} (hp : p ∈ tokensAt n segs) : n ≤ p.1 := by
  induction segs generalizing n with
  | nil => cases hp
  | cons seg segs ih =>
    cases seg with
    | gap x => exact (Nat.le_add_right _ _).trans (ih hp)
    | word x =>
      rcases List.mem_cons.mp hp with rfl | hp
      · exact le_rfl
      · exact (Nat.le_add_right _ _).trans (ih hp)
    | quoted c x =>
      rcases List.mem_cons.mp hp with rfl | hp
      · exact le_rfl
      · exact (Nat.le_add_right _ _).trans (ih hp)

theorem not_inValue_before {k : Nat} (h : k < n) : ¬ InValue d (tokensAt n segs) k := by
  rintro ⟨p, hp, -, hlt, -⟩
  have hge := tokensAt_ge hp
  omega

theorem quoted_iff {x : Bytes} {p : Nat × Nat} (h : d.drop p.1 = c :: x) : Quoted d p ↔ IsQuote c := by
  simp [Quoted, h]

theorem inValue_cons_iff (h : Pieces d n m (seg :: segs)) (j : Nat) : InValue d (tokensAt n (seg :: segs)) (n + j) ↔
      seg.Inside j ∨ InValue d (tokensAt (n + seg.bytes.length) segs) (n + j) := by
  obtain ⟨hv, htext, -⟩ := h.tail
  cases seg with
  | gap x => exact (or_iff_right not_false).symm
  | word x =>
    obtain ⟨c, s, rfl, hc⟩ := hv
    have hquoted : ¬ Quoted d (n, (c :: s).length) := fun hq => hc ((quoted_iff htext).mp hq)
    rw [InValue, tokensAt, List.exists_mem_cons_iff]
    · exact or_congr ⟨fun hq => absurd hq.1 hquoted, False.elim⟩ Iff.rfl
    · simp
  | quoted c x =>
    have hquoted : Quoted d (n, (c :: x).length) := (quoted_iff htext).mpr hv.1
    rw [InValue, tokensAt, List.exists_mem_cons_iff]
    · refine or_congr ⟨?_, ?_⟩ Iff.rfl
      · rintro ⟨-, hlt, hgt⟩
        simp only [Segment.bytes, List.length_cons] at hlt hgt
        exact ⟨by omega, by omega⟩
      · rintro ⟨h0, hlt⟩
        refine ⟨hquoted, by simp only; omega, ?_⟩
        simp only [Segment.bytes, List.length_cons]
        omega
    · simp

theorem Segment.Inside.lt {j : Nat} (h : seg.Inside j) : j < seg.bytes.length := by
  cases seg with
  | gap x => exact h.elim
  | word x => exact h.elim
  | quoted c x => exact h.2

theorem inValue_iff (h : Pieces d n m segs) (j : Nat) : InValue d (tokensAt n segs) (n + j) ↔ InQuotes segs j := by
  induction segs generalizing n j with
  | nil => simp [InValue, tokensAt, InQuotes]
  | cons seg segs ih =>
    rw [inValue_cons_iff h, InQuotes]
    split_ifs with hj
    · exact or_iff_left (not_inValue_before (by omega))
    · obtain ⟨i, rfl⟩ := Nat.exists_eq_add_of_le (Nat.le_of_not_lt hj)
      rw [or_iff_right fun hin => hj hin.lt, ← Nat.add_assoc, ih h.tail.2.2, Nat.add_sub_cancel_left]

theorem quotesCounted_iff (h : Pieces d n m segs) :
    (∀ p ∈ tokensAt n segs, QuotesCounted ((d.drop p.1).take p.2)) ↔ ∀ seg ∈ segs, seg.Counted := by
  induction segs generalizing n with
  | nil => simp [tokensAt]
  | cons seg segs ih =>
    obtain ⟨hv, htext, hrest⟩ := h.tail
    have htoken : (d.drop n).take seg.bytes.length = seg.bytes := by rw [htext, List.take_left]
    rw [List.forall_mem_cons, ← ih hrest]
    cases seg with
    | gap x => exact ⟨fun hall => ⟨hv, hall⟩, And.right⟩
    | word x =>
      obtain ⟨c, s, rfl, hc⟩ := hv
      rw [tokensAt, List.forall_mem_cons]
      · refine and_congr_left fun _ => ?_
        rw [htoken]
        simp only [Segment.bytes, QuotesCounted, if_neg hc]
        rfl
      · simp
    | quoted c x =>
      rw [tokensAt, List.forall_mem_cons]
      · refine and_congr_left fun _ => ?_
        rw [htoken]
        simp only [Segment.bytes, QuotesCounted, if_pos hv.1]
        rfl
      · simp

/-- **When `mod_ssi_stmt_len` takes the same quotes for closed** as the functions that split the directive. -/
theorem stmtLen_agrees_iff (h : Directive d o) : Agrees d o ↔ ∀ p ∈ o, QuotesCounted ((d.drop p.1).take p.2) := by
  obtain ⟨segs, hp, rfl⟩ := stmtOfflen_segments h.accepted
  rw [quotesCounted_iff hp, ← out_iff hp.valid]
  have hclosing : d.drop (d.length - 3) = closing := by
    have hsuffix := List.suffix_iff_eq_drop.mp h.closing
    rw [length_closing] at hsuffix
    exact hsuffix.symm
  have htext : d.drop 5 = joined segs ++ closing := hp.text.trans (by rw [hclosing])
  have hplace : d.length = (joined segs).length + 8 := by
    have h8 := congrArg List.length htext
    have h3 : 3 ≤ d.length := length_closing ▸ h.closing.length_le
    have hp5 := hp.place
    omega
  have hfirst : ∀ i, i < (joined segs).length → closing <+: (joined segs ++ closing).drop i → InQuotes segs i := by
    intro i hi hpre
    rw [← htext, List.drop_drop] at hpre
    exact (inValue_iff hp i).mp (h.first (5 + i) (by omega) (by omega) hpre)
  rw [← stmtEnd_agrees_iff hfirst]
  have htake : ∀ j ≤ (joined segs).length, (d.drop 5).take j = (joined segs).take j := fun j hj => by
    rw [htext, List.take_append_of_le_length hj]
  constructor
  · intro hagrees j hj
    have hk := hagrees (5 + j) (by omega) (by omega)
    rwa [stmtLen_iff (by omega) (by omega), Nat.add_sub_cancel_left, htake j hj, inValue_iff hp] at hk
  · intro hagrees k h5 hk
    obtain ⟨j, rfl⟩ := Nat.exists_eq_add_of_le h5
    rw [stmtLen_iff h5 (by omega), Nat.add_sub_cancel_left, htake j (by omega), inValue_iff hp]
    exact hagrees j (by omega)

end Lighttpd.Ssi
