import Lighttpd.Request.Host
import Mathlib.Data.List.Basic

/-!
# The grammar of a host (`request.c`)

`isHostport` is the grammar at the start of `request_check_hostname`:

`hostport = host [ ":" port ]`, `host = hostname | IPv4address | "[" IPv6address "]"`

* `scan_labels` says what the scan from the right accepts: labels that begin with a letter or a digit, where a last label of
  digits makes an IPv4 address;
* `checkHostname_iff`: exactly for the hosts that are not `Overlooked` does the check follow the grammar.
-/

namespace Lighttpd

namespace Request

/-! ## The grammar -/

def labelChar (c : Byte) : Bool := c == chr '-' || lightIsalnum c

/-- `domainlabel = alphanum | alphanum *( alphanum | "-" ) alphanum` -/
def isDomainlabel (s : Bytes) : Bool := s.all labelChar && s.head?.any lightIsalnum && s.getLast?.any lightIsalnum

/-- `toplabel = alpha | alpha *( alphanum | "-" ) alphanum` -/
def isToplabel (s : Bytes) : Bool := isDomainlabel s && s.head?.any lightIsalpha

def stripDot (s : Bytes) : Bytes := if s.getLast? = some (chr '.') then s.dropLast else s

/-- `hostname = *( domainlabel "." ) toplabel [ "." ]` -/
def isHostname (s : Bytes) : Bool :=
  let labels := (stripDot s).splitOn (chr '.')
  labels.all isDomainlabel && labels.getLast?.any isToplabel

/-- `1*digit` -/
def isDecimal (s : Bytes) : Bool := !s.isEmpty && s.all lightIsdigit

/-- `IPv4address = 1*digit "." 1*digit "." 1*digit "." 1*digit` -/
def isIPv4address (s : Bytes) : Bool :=
  let parts := s.splitOn (chr '.')
  parts.length == 4 && parts.all isDecimal

/-- A group of an IPv6 address: one to four hexadecimal digits. -/
def isGroup (s : Bytes) : Bool := !s.isEmpty && decide (s.length ≤ 4) && s.all lightIsxdigit

/-- An IPv4 address at the end of an IPv6 address: four numbers up to 255. -/
def isDottedQuad (s : Bytes) : Bool :=
  isIPv4address s && (s.splitOn (chr '.')).all fun d =>
    decide (d.length ≤ 3) && decide (d.foldl (fun n c => 10 * n + (c.toNat - 48)) 0 ≤ 255)

/-- The number of groups in a row; an IPv4 address at the end stands for two of them. -/
def groupCount : List Bytes → Option Nat
  | [] => some 0
  | [s] => if isGroup s then some 1 else if isDottedQuad s then some 2 else none
  | s :: ss => if isGroup s then (groupCount ss).map (· + 1) else none

/-- The number of groups between colons, none in the empty string. -/
def groups (s : Bytes) : Option Nat := if s.isEmpty then some 0 else groupCount (s.splitOn (chr ':'))

/-- **An IPv6 address**: eight groups, or fewer with a `::` in one place. -/
def isIPv6address (s : Bytes) : Bool :=
  (groups s == some 8) || (List.range s.length).any fun k =>
    (s.drop k).take 2 == ascii "::" && !(s.take k).contains (chr '.') &&
      match groups (s.take k), groups (s.drop (k + 2)) with
      | some m, some n => decide (m + n ≤ 7)
      | _, _ => false

/-- `[ ":" port ]` with `port = *digit` -/
def isPort : Bytes → Bool
  | [] => true
  | c :: ds => c == chr ':' && ds.all lightIsdigit

/-- What stands between a `[` at the start and the `]`, and what follows. -/
def bracketed (s : Bytes) : Option (Bytes × Bytes) :=
  match s.tail.dropWhile (· ≠ chr ']') with
  | [] => none
  | _ :: port => some (s.tail.takeWhile (· ≠ chr ']'), port)

/-- **`hostport = host [ ":" port ]`** -/
def isHostport (s : Bytes) : Bool :=
  if s.head? = some (chr '[') then
    (bracketed s).any fun p => isIPv6address p.1 && isPort p.2
  else
    (isHostname (s.takeWhile (· ≠ chr ':')) || isIPv4address (s.takeWhile (· ≠ chr ':'))) &&
      isPort (s.dropWhile (· ≠ chr ':'))

/-! ## What the check accepts -/

/-- A label as the scan takes it: its last character may be a `-`. -/
def looseLabel (s : Bytes) : Bool := s.all labelChar && s.head?.any lightIsalnum

/-- The labels as the scan takes them: behind a dot, a last label of digits makes an IPv4 address. -/
def looseLabels (labels : List Bytes) : Bool :=
  labels.all looseLabel && (labels.length == 1 || !labels.getLast?.any (·.all lightIsdigit) ||
    (labels.length == 4 && labels.all isDecimal))

variable {s w : Bytes} {ws : List Bytes} {n level : Nat} {right c : Byte} {isIp : Option Bool}

theorem labelChar_of_alnum (h : lightIsalnum c = true) : labelChar c = true := by simp [labelChar, h]

theorem alnum_of_digit (h : lightIsdigit c = true) : lightIsalnum c = true := by simp [lightIsalnum, h]

theorem labelChar_eq_false : labelChar c = false ↔ c ≠ chr '-' ∧ lightIsalnum c = false := by simp [labelChar]

theorem splitOn_dot (s : Bytes) : (chr '.' :: s).splitOn (chr '.') = [] :: s.splitOn (chr '.') := by
  simp [List.splitOn_cons_eq_if_modifyHead]

theorem splitOn_char (hc : c ≠ chr '.') (h : s.splitOn (chr '.') = w :: ws) :
    (c :: s).splitOn (chr '.') = (c :: w) :: ws := by
  simp [List.splitOn_cons_eq_if_modifyHead, hc, h]

theorem splitOn_cases (s : Bytes) : ∃ w ws, s.splitOn (chr '.') = w :: ws :=
  List.exists_cons_of_ne_nil (List.splitOn_ne_nil _ _)

/-- A label from the right, as the scan takes it. -/
def looseReverse (s : Bytes) : Bool := s.all labelChar && s.getLast?.any lightIsalnum

theorem looseReverse_iff : looseReverse s = true ↔
    s ≠ [] ∧ s.all labelChar = true ∧ lightIsalnum (s.getLastD (chr '.')) = true := by
  cases s with
  | nil => simp [looseReverse]
  | cons c s => simp [looseReverse, List.getLast?_cons]

/-- **The scan in front of a last label that is no number.** -/
theorem scan_domain (hsplit : s.splitOn (chr '.') = w :: ws)
    (hright : n ≠ 0 → labelChar right = true ∧ (s = [] → lightIsalnum right = true)) :
    (scanHost ⟨.domainlabel, n, some false, level⟩ false right s).any scanOk = true ↔
      (n ≠ 0 ∨ w ≠ []) ∧ w.all labelChar = true ∧ lightIsalnum (w.getLastD right) = true ∧
        ws.all looseReverse = true := by
  induction s generalizing n level right w ws with
  | nil =>
    obtain ⟨rfl, rfl⟩ : [] = w ∧ [] = ws := by simpa using hsplit
    by_cases hn : n = 0
    · simp [scanHost, scanOk, hn]
    · simp [scanHost, scanOk, hn, (hright hn).2 rfl]
  | cons c s ih =>
    obtain ⟨w', ws', hs⟩ := splitOn_cases s
    by_cases hc : c = chr '.'
    · subst hc
      obtain ⟨rfl, rfl⟩ : [] = w ∧ w' :: ws' = ws := by simpa [splitOn_dot, hs] using hsplit
      by_cases hn : n = 0
      · simp [scanHost, domainChar, hn]
      · by_cases hdash : right = chr '-'
        · have halnum : lightIsalnum (chr '-') = false := by decide
          simp [scanHost, domainChar, hn, hdash, halnum]
        · have halnum : lightIsalnum right = true := by simpa [labelChar, hdash] using (hright hn).1
          have hrest := @ih w' ws' 0 (level + 1) (chr '.') hs (by simp)
          simp [scanHost, domainChar, hn, Ne.symm hdash, halnum, hrest, looseReverse_iff, and_assoc]
    · obtain ⟨rfl, rfl⟩ : c :: w' = w ∧ ws' = ws := by simpa [splitOn_char hc hs] using hsplit
      have hrest := @ih w' ws' (n + 1) level c hs
      cases s with
      | nil =>
        obtain ⟨rfl, rfl⟩ : [] = w' ∧ [] = ws' := by simpa using hs
        cases halnum : lightIsalnum c with
        | false => simp [scanHost, domainChar, hc, halnum]
        | true => simp [scanHost, domainChar, scanOk, hc, halnum, labelChar_of_alnum halnum]
      | cons d s =>
        cases hlabel : labelChar c with
        | false =>
          have hbad := Iff.mp labelChar_eq_false hlabel
          simp [scanHost, domainChar, hc, hbad, hlabel]
        | true =>
          have hgood : ¬(c ≠ chr '-' ∧ lightIsalnum c = false) := by
            rw [← labelChar_eq_false, hlabel]
            decide
          have hnext := hrest fun _ => ⟨hlabel, by simp⟩
          rw [scanHost]
          simp only [domainChar, hc, if_false, List.isEmpty_cons, Bool.not_eq_true', hgood, reduceCtorEq]
          simpa [hlabel, List.getLast?_cons] using hnext

/-- **The scan in front of a last label that is a number.** -/
theorem scan_number (hsplit : s.splitOn (chr '.') = w :: ws) :
    (scanHost ⟨.domainlabel, n, some true, level⟩ false right s).any scanOk = true ↔
      (n ≠ 0 ∨ w ≠ []) ∧ w.all lightIsdigit = true ∧ ws.all isDecimal = true ∧ level + ws.length = 3 := by
  induction s generalizing n level right w ws with
  | nil =>
    obtain ⟨rfl, rfl⟩ : [] = w ∧ [] = ws := by simpa using hsplit
    by_cases hn : n = 0 <;> simp [scanHost, scanOk, hn]
  | cons c s ih =>
    obtain ⟨w', ws', hs⟩ := splitOn_cases s
    by_cases hc : c = chr '.'
    · subst hc
      obtain ⟨rfl, rfl⟩ : [] = w ∧ w' :: ws' = ws := by simpa [splitOn_dot, hs] using hsplit
      by_cases hn : n = 0
      · simp [scanHost, domainChar, hn]
      · have hrest := @ih w' ws' 0 (level + 1) (chr '.') hs
        have hlevel : level + 1 + ws'.length = 3 ↔ level + (ws'.length + 1) = 3 := by omega
        simp [scanHost, domainChar, hn, hrest, isDecimal, hlevel, and_assoc]
    · obtain ⟨rfl, rfl⟩ : c :: w' = w ∧ ws' = ws := by simpa [splitOn_char hc hs] using hsplit
      have hrest := @ih w' ws' (n + 1) level c hs
      cases hdigit : lightIsdigit c with
      | false => simp [scanHost, domainChar, hc, hdigit]
      | true => simp [scanHost, domainChar, hc, hdigit, hrest]

/-- **The scan from the last label on.** As long as `isIp` is unset, there are digits only. -/
theorem scan_top (hsplit : s.splitOn (chr '.') = w :: ws) (hip : isIp ≠ some true)
    (hright : n ≠ 0 → labelChar right = true ∧ (s = [] → lightIsalnum right = true) ∧
      (isIp = none → lightIsdigit right = true)) :
    (scanHost ⟨.toplabel, n, isIp, 0⟩ false right s).any scanOk = true ↔
      (n ≠ 0 ∨ w ≠ []) ∧ w.all labelChar = true ∧
        if isIp = none ∧ w.all lightIsdigit = true ∧ ws ≠ [] then ws.all isDecimal = true ∧ ws.length = 3
        else lightIsalnum (w.getLastD right) = true ∧ ws.all looseReverse = true := by
  induction s generalizing n isIp right w ws with
  | nil =>
    obtain ⟨rfl, rfl⟩ : [] = w ∧ [] = ws := by simpa using hsplit
    by_cases hn : n = 0
    · simp [scanHost, scanOk, hn]
    · simp [scanHost, scanOk, hn, hip, (hright hn).2.1 rfl]
  | cons c s ih =>
    obtain ⟨w', ws', hs⟩ := splitOn_cases s
    by_cases hc : c = chr '.'
    · subst hc
      obtain ⟨rfl, rfl⟩ : [] = w ∧ w' :: ws' = ws := by simpa [splitOn_dot, hs] using hsplit
      by_cases hn : n = 0
      · simp [scanHost, topChar, topDot, hn]
      · obtain ⟨-, -, hdigit⟩ := hright hn
        cases isIp with
        | none =>
          have hrest := @scan_number s w' ws' 0 1 (chr '.') hs
          have hdash : chr '-' ≠ right := by
            rintro rfl
            exact absurd (hdigit rfl) (by decide)
          have hlevel : 1 + ws'.length = 3 ↔ ws'.length + 1 = 3 := by omega
          simp [scanHost, topChar, topDot, hn, hdigit rfl, hdash, hrest, isDecimal, hlevel, and_assoc]
        | some ip =>
          obtain rfl : ip = false := by simpa using hip
          have hrest := @scan_domain s w' ws' 0 1 (chr '.') hs (by simp)
          cases halnum : lightIsalnum right with
          | false => simp [scanHost, topChar, topDot, hn, halnum]
          | true => simp [scanHost, topChar, topDot, hn, halnum, hrest, looseReverse_iff, and_assoc]
    · obtain ⟨rfl, rfl⟩ : c :: w' = w ∧ ws' = ws := by simpa [splitOn_char hc hs] using hsplit
      cases s with
      | nil =>
        obtain ⟨rfl, rfl⟩ : [] = w' ∧ [] = ws' := by simpa using hs
        cases halnum : lightIsalnum c with
        | false => simp [scanHost, topChar, hc, halnum]
        | true => simp [scanHost, topChar, scanOk, hc, halnum, labelChar_of_alnum halnum, hip]
      | cons d s =>
        cases hlabel : labelChar c with
        | false =>
          have hbad := labelChar_eq_false.mp hlabel
          simp [scanHost, topChar, hc, hbad, hlabel]
        | true =>
          have hgood : ¬(c ≠ chr '-' ∧ lightIsalnum c = false) := by
            rw [← labelChar_eq_false, hlabel]
            decide
          rw [scanHost]
          simp only [topChar, hc, if_false, List.isEmpty_cons, Bool.not_eq_true', hgood, reduceCtorEq]
          by_cases hflag : isIp = none ∧ lightIsdigit c = false
          · have hnext := @ih w' ws' (n + 1) c (some false) hs (by simp) fun _ => ⟨hlabel, by simp, by simp⟩
            simpa [hflag, hlabel, List.getLast?_cons] using hnext
          · have hdigit : isIp = none → lightIsdigit c = true := fun h => by simpa [h] using hflag
            have hnext := @ih w' ws' (n + 1) c isIp hs hip fun _ => ⟨hlabel, by simp, hdigit⟩
            have hnumber : (isIp = none ∧ (c :: w').all lightIsdigit = true ∧ ws' ≠ []) ↔
                isIp = none ∧ w'.all lightIsdigit = true ∧ ws' ≠ [] := by
              rw [List.all_cons, Bool.and_eq_true]
              exact ⟨fun ⟨h, ⟨_, hw⟩, hne⟩ => ⟨h, hw, hne⟩, fun ⟨h, hw, hne⟩ => ⟨h, ⟨hdigit h, hw⟩, hne⟩⟩
            simp only [hnumber]
            simpa [hflag, hlabel, List.getLast?_cons] using hnext

theorem splitOn_reverse_append {t v : Bytes} {vs : List Bytes} (hs : s.splitOn (chr '.') = w :: ws)
    (ht : t.splitOn (chr '.') = v :: vs) :
    (s.reverse ++ t).splitOn (chr '.') = (ws.map List.reverse).reverse ++ (w.reverse ++ v) :: vs := by
  induction s generalizing w ws t v vs with
  | nil =>
    obtain ⟨rfl, rfl⟩ : [] = w ∧ [] = ws := by simpa using hs
    simpa using ht
  | cons c s ih =>
    obtain ⟨w', ws', hs'⟩ := splitOn_cases s
    rw [List.reverse_cons, List.append_assoc, List.singleton_append]
    by_cases hc : c = chr '.'
    · subst hc
      obtain ⟨rfl, rfl⟩ : [] = w ∧ w' :: ws' = ws := by simpa [splitOn_dot, hs'] using hs
      have hdot : (chr '.' :: t).splitOn (chr '.') = [] :: v :: vs := by rw [splitOn_dot, ht]
      rw [ih hs' hdot]
      simp
    · obtain ⟨rfl, rfl⟩ : c :: w' = w ∧ ws' = ws := by simpa [splitOn_char hc hs'] using hs
      rw [ih hs' (splitOn_char hc ht)]
      simp

theorem splitOn_reverse (hs : s.splitOn (chr '.') = w :: ws) :
    s.reverse.splitOn (chr '.') = ((w :: ws).map List.reverse).reverse := by
  simpa using splitOn_reverse_append hs (show List.splitOn (chr '.') [] = [[]] by simp)

theorem looseLabel_reverse (s : Bytes) : looseLabel s.reverse = looseReverse s := by
  simp [looseLabel, looseReverse, List.all_reverse]

theorem isDecimal_reverse (s : Bytes) : isDecimal s.reverse = isDecimal s := by simp [isDecimal, List.all_reverse]

theorem looseReverse_of_decimal (h : isDecimal s = true) : looseReverse s = true := by
  obtain ⟨hne, hdigits⟩ : s ≠ [] ∧ ∀ c ∈ s, lightIsdigit c = true := by simpa [isDecimal] using h
  have hlast : lightIsalnum (s.getLast hne) = true := alnum_of_digit (hdigits _ (List.getLast_mem hne))
  have hall : ∀ c ∈ s, labelChar c = true := fun c hc => labelChar_of_alnum (alnum_of_digit (hdigits c hc))
  simp [looseReverse, List.getLast?_eq_some_getLast hne, hlast, List.all_eq_true.mpr hall]

/-- **The scan takes the labels.** -/
theorem scan_labels (hsplit : s.splitOn (chr '.') = w :: ws) :
    (scanHost ⟨.toplabel, 0, none, 0⟩ false right s).any scanOk = looseLabels ((w :: ws).map List.reverse).reverse := by
  have hscan := @scan_top s w ws 0 right none hsplit (by simp) (by simp)
  have hloose : looseLabels ((w :: ws).map List.reverse).reverse = true ↔
      (looseReverse w = true ∧ ws.all looseReverse = true) ∧
        (ws = [] ∨ w.all lightIsdigit = false ∨ ws.length = 3 ∧ isDecimal w = true ∧ ws.all isDecimal = true) := by
    simp only [looseLabels, List.all_reverse, List.all_map, Function.comp_def, looseLabel_reverse, isDecimal_reverse,
      List.getLast?_reverse, List.length_reverse, List.length_map, List.map_cons, List.head?_cons,
      List.all_cons, List.length_cons, Option.any_some]
    simp [or_assoc]
  rw [Bool.eq_iff_iff, hscan, hloose]
  by_cases hnumber : w.all lightIsdigit = true ∧ ws ≠ []
  · have hdecimal : w ≠ [] → isDecimal w = true := fun hw => by simp [isDecimal, hw, hnumber.1]
    rw [if_pos ⟨rfl, hnumber⟩]
    constructor
    · rintro ⟨hw, -, hrest, hthree⟩
      have hw' : isDecimal w = true := hdecimal (by simpa using hw)
      refine ⟨⟨looseReverse_of_decimal hw', List.all_eq_true.mpr fun l hl => ?_⟩, .inr (.inr ⟨hthree, hw', hrest⟩)⟩
      exact looseReverse_of_decimal (List.all_eq_true.mp hrest l hl)
    · rintro ⟨⟨hfirst, -⟩, hnil | hfalse | ⟨hthree, -, hrest⟩⟩
      · exact absurd hnil hnumber.2
      · rw [hnumber.1] at hfalse
        cases hfalse
      · obtain ⟨hw, hlabel, -⟩ := looseReverse_iff.mp hfirst
        exact ⟨.inr hw, hlabel, hrest, hthree⟩
  · have hlast : w ≠ [] → w.getLastD right = w.getLastD (chr '.') := fun hw => by
      obtain ⟨c, w, rfl⟩ := List.exists_cons_of_ne_nil hw
      simp [List.getLast?_cons]
    have hword : ws = [] ∨ w.all lightIsdigit = false ∨
        ws.length = 3 ∧ isDecimal w = true ∧ ws.all isDecimal = true := by
      by_cases hnil : ws = []
      · exact .inl hnil
      · exact .inr (.inl (by simpa [hnil] using hnumber))
    rw [if_neg fun h => hnumber h.2, looseReverse_iff]
    constructor
    · rintro ⟨hw, hlabel, halnum, hrest⟩
      have hw' : w ≠ [] := by simpa using hw
      exact ⟨⟨⟨hw', hlabel, hlast hw' ▸ halnum⟩, hrest⟩, hword⟩
    · rintro ⟨⟨⟨hw, hlabel, halnum⟩, hrest⟩, -⟩
      exact ⟨.inr hw, hlabel, (hlast hw).symm ▸ halnum, hrest⟩

/-- **What the scan of a host accepts.** -/
theorem checkLabels_eq (host : Bytes) (hostLen : Nat) :
    checkLabels host hostLen = looseLabels ((stripDot (host.take hostLen)).splitOn (chr '.')) := by
  have hempty : looseLabels [[]] = false := by decide
  have hany : checkLabels host hostLen = (scanHost ⟨.toplabel, 0, none, 0⟩ true (host.getD hostLen 0)
      (host.take hostLen).reverse).any scanOk := by
    unfold checkLabels
    cases scanHost ⟨.toplabel, 0, none, 0⟩ true (host.getD hostLen 0) (host.take hostLen).reverse <;> rfl
  rw [hany]
  generalize host.getD hostLen 0 = right
  obtain ⟨s, hs⟩ : ∃ s : Bytes, host.take hostLen = s.reverse := ⟨_, (List.reverse_reverse _).symm⟩
  rw [hs, List.reverse_reverse]
  have hplain : ∀ (right : Byte) (t : Bytes), (scanHost ⟨.toplabel, 0, none, 0⟩ false right t).any scanOk =
      looseLabels (t.reverse.splitOn (chr '.')) := by
    intro right t
    obtain ⟨w, ws, ht⟩ := splitOn_cases t
    rw [scan_labels ht, splitOn_reverse ht]
  cases s with
  | nil => simp [scanHost, scanOk, stripDot, hempty]
  | cons c t =>
    by_cases hc : c = chr '.'
    · subst hc
      have hstrip : stripDot (chr '.' :: t).reverse = t.reverse := by simp [stripDot]
      rw [hstrip]
      cases t with
      | nil => simp [scanHost, topChar, hempty]
      | cons d t =>
        rw [← hplain (chr '.')]
        simp [scanHost, topChar]
    · have hstrip : stripDot (c :: t).reverse = (c :: t).reverse := by simp [stripDot, hc]
      rw [hstrip, ← hplain right]
      simp [scanHost, topChar, hc]

/-! ## What the whole check accepts -/

/-- A host as the check takes it: up to two dots at its end are left out. -/
def looseHost (h : Bytes) : Bool := looseLabels ((stripDot (stripDot h)).splitOn (chr '.'))

def addressChar (c : Byte) : Bool := lightIsxdigit c || c == chr '.' || c == chr ':'

/-- An address as the check takes it: it has no more than seven colons. -/
def looseAddress (a : Bytes) : Bool := a.all addressChar && decide (a.count (chr ':') ≤ 7)

theorem skipBracket_eq (k : Nat) (hk : k ≤ 7) (t : Bytes) : skipBracket k (cstr t) =
    match t.dropWhile (· ≠ chr ']') with
    | [] => none
    | _ :: port =>
      if (t.takeWhile (· ≠ chr ']')).all addressChar ∧ k + (t.takeWhile (· ≠ chr ']')).count (chr ':') ≤ 7 then
        some (cstr port)
      else none := by
  induction t generalizing k with
  | nil => rfl
  | cons c t ih =>
    by_cases hnul : c = 0
    · have haddr : addressChar 0 = false := by decide
      subst hnul
      have hne : (0 : Byte) ≠ chr ']' := by decide
      simp only [cstr, List.takeWhile_cons, List.dropWhile_cons, hne, ne_eq, not_true_eq_false, not_false_eq_true,
        decide_true, decide_false, if_true, Bool.false_eq_true, if_false, skipBracket, List.all_cons, haddr,
        Bool.false_and, false_and]
      split <;> rfl
    · have hcstr : cstr (c :: t) = c :: cstr t := by simp [cstr, hnul]
      rw [hcstr, skipBracket]
      by_cases hclose : c = chr ']'
      · simp [hclose, hk]
      · have hdrop : (c :: t).dropWhile (· ≠ chr ']') = t.dropWhile (· ≠ chr ']') := by simp [hclose]
        have htake : (c :: t).takeWhile (· ≠ chr ']') = c :: t.takeWhile (· ≠ chr ']') := by simp [hclose]
        rw [if_neg hclose, hdrop, htake, List.all_cons]
        by_cases hcolon : c = chr ':'
        · have haddr : addressChar c = true := by simp [addressChar, hcolon]
          subst hcolon
          rw [if_pos rfl, haddr, Bool.true_and, List.count_cons_self]
          by_cases hseven : k + 1 > 7
          · have hmore : ¬k + ((t.takeWhile (· ≠ chr ']')).count (chr ':') + 1) ≤ 7 := by omega
            rw [if_pos hseven]
            simp only [hmore, and_false, if_false]
            split <;> rfl
          · have hsum : k + ((t.takeWhile (· ≠ chr ']')).count (chr ':') + 1) =
                k + 1 + (t.takeWhile (· ≠ chr ']')).count (chr ':') := by omega
            rw [if_neg hseven, ih (k + 1) (by omega), hsum]
        · rw [if_neg hcolon, List.count_cons_of_ne hcolon]
          by_cases hother : !lightIsxdigit c ∧ chr '.' ≠ c
          · have haddr : addressChar c = false := by
              simp only [addressChar, Bool.or_eq_false_iff, beq_eq_false_iff_ne]
              exact ⟨⟨by simpa using hother.1, Ne.symm hother.2⟩, hcolon⟩
            rw [if_pos hother, haddr]
            simp only [Bool.false_and, Bool.false_eq_true, false_and, if_false]
            split <;> rfl
          · have haddr : addressChar c = true := by
              by_cases hx : lightIsxdigit c = true
              · simp [addressChar, hx]
              · have hdot : chr '.' = c := by simpa [hx] using hother
                simp [addressChar, ← hdot]
            rw [if_neg hother, ih k hk, haddr, Bool.true_and]

/-- A host and a port as the check takes them: the port ends in front of a NUL. -/
def looseHostport (s : Bytes) : Bool :=
  if s.head? = some (chr '[') then
    (bracketed s).any fun p => looseAddress p.1 && isPort (cstr p.2)
  else looseHost (s.takeWhile (· ≠ chr ':')) && isPort (cstr (s.dropWhile (· ≠ chr ':')))

theorem bracketPort_eq (s : Bytes) : bracketPort s = isPort s := by cases s <;> rfl

theorem stripDot_concat (s : Bytes) : stripDot (s ++ [chr '.']) = s := by simp [stripDot]

theorem stripDot_eq_self (h : s.getLast? ≠ some (chr '.')) : stripDot s = s := if_neg h

theorem looseHost_nil : looseHost [] = false := by decide

theorem take_hostLen {h p : Bytes} (hcolon : chr ':' ∉ h) :
    (h ++ chr ':' :: p).idxOf? (chr ':') = some h.length ∧ (h ++ chr ':' :: p).takeWhile (· ≠ chr ':') = h ∧
      (h ++ chr ':' :: p).dropWhile (· ≠ chr ':') = chr ':' :: p := by
  have hname : ∀ c ∈ h, decide (c ≠ chr ':') = true := by
    intro c hc
    rw [decide_eq_true_eq]
    rintro rfl
    exact hcolon hc
  refine ⟨?_, ?_, ?_⟩
  · exact idxOf?_append_cons hcolon p
  · rw [List.takeWhile_append_of_pos hname, List.takeWhile_cons_of_neg (by decide), List.append_nil]
  · rw [List.dropWhile_append_of_pos hname, List.dropWhile_cons_of_neg (by decide)]

theorem checkLabels_strip (h rest : Bytes) :
    (if h.length = 0 then false
    else if (h ++ rest).getD (h.length - 1) 0 = chr '.' then
      if h.length - 1 = 0 then false
      else checkLabels ((h ++ rest).take (h.length - 1) ++ (h ++ rest).drop h.length) (h.length - 1)
    else checkLabels (h ++ rest) h.length) = looseHost h := by
  rcases List.eq_nil_or_concat' h with rfl | ⟨u, c, rfl⟩
  · simp [looseHost_nil]
  · have hlast : (u ++ [c] ++ rest).getD ((u ++ [c]).length - 1) 0 = c := by simp
    have htake : (u ++ [c] ++ rest).take ((u ++ [c]).length - 1) = u := by simp
    rw [if_neg (by simp), hlast, htake]
    by_cases hc : c = chr '.'
    · subst hc
      rw [if_pos rfl]
      by_cases hu : u = []
      · subst hu
        have hdot : looseHost [chr '.'] = false := by decide
        simp [hdot]
      · have hlen : (u ++ [chr '.']).length - 1 = u.length := by simp
        rw [if_neg (by simpa using hu), checkLabels_eq, hlen, List.take_left, looseHost, stripDot_concat]
    · have hstrip : stripDot (u ++ [c]) = u ++ [c] := stripDot_eq_self (by simpa using hc)
      rw [if_neg hc, checkLabels_eq, List.take_left, looseHost, hstrip, hstrip]

/-- **What `request_check_hostname` accepts.** -/
theorem requestCheckHostname_eq (s : Bytes) : (requestCheckHostname s).1 = looseHostport s := by
  unfold requestCheckHostname looseHostport
  by_cases hopen : s.head? = some (chr '[')
  · rw [if_pos hopen, if_pos hopen, skipBracket_eq 0 (by decide), bracketed]
    cases s.tail.dropWhile (· ≠ chr ']') with
    | nil => rfl
    | cons c port =>
      dsimp only
      rw [Option.any_some, looseAddress, Nat.zero_add]
      generalize s.tail.takeWhile (· ≠ chr ']') = a
      by_cases h : a.all addressChar = true ∧ a.count (chr ':') ≤ 7
      · rw [if_pos h, h.1, decide_eq_true h.2]
        exact bracketPort_eq (cstr port)
      · have hloose : (a.all addressChar && decide (a.count (chr ':') ≤ 7)) = false := by
          rw [← Bool.not_eq_true, Bool.and_eq_true, decide_eq_true_eq]
          exact h
        rw [if_neg h, hloose, Bool.false_and]
  · rw [if_neg hopen, if_neg hopen]
    dsimp only
    by_cases hcolon : chr ':' ∈ s
    · obtain ⟨h, p, rfl, hh⟩ := List.eq_append_cons_of_mem hcolon
      obtain ⟨hidx, htake, hdrop⟩ := @take_hostLen h p hh
      have hport : isPort (cstr (chr ':' :: p)) = (cstr p).all lightIsdigit := by
        have hcstr : cstr (chr ':' :: p) = chr ':' :: cstr p := by
          have hne : chr ':' ≠ 0 := by decide
          simp [cstr, hne]
        rw [hcstr]
        simp [isPort]
      have hrest : (h ++ chr ':' :: p).drop (h.length + 1) = p := by
        rw [← List.drop_drop, List.drop_left]
        rfl
      rw [hidx, htake, hdrop, hport, ← checkLabels_strip h (chr ':' :: p)]
      simp only [Option.isSome_some, true_and, Option.getD_some, hrest]
      cases hdigits : (cstr p).all lightIsdigit with
      | false => simp
      | true =>
        rw [if_neg (by decide), Bool.and_true]
        split
        · rfl
        · split
          · split <;> rfl
          · rfl
    · have hall : ∀ c ∈ s, decide (c ≠ chr ':') = true := by
        intro c hc
        rw [decide_eq_true_eq]
        rintro rfl
        exact hcolon hc
      have htake : s.takeWhile (· ≠ chr ':') = s := List.takeWhile_eq_self_iff.mpr hall
      have hdrop : s.dropWhile (· ≠ chr ':') = [] := List.dropWhile_eq_nil_iff.mpr hall
      have hidx : s.idxOf? (chr ':') = none := List.idxOf?_eq_none_iff.mpr hcolon
      have hport : isPort (cstr []) = true := rfl
      have hstrip := checkLabels_strip s []
      rw [List.append_nil] at hstrip
      rw [htake, hdrop, hidx, hport, Bool.and_true, ← hstrip]
      simp only [Option.isSome_none, Bool.false_eq_true, false_and, if_false, Option.getD_none]
      split
      · rfl
      · split
        · split <;> rfl
        · rfl

/-! ## IPv6 addresses -/

theorem mem_splitOn {a : Byte} (h : c ∈ s) : c = a ∨ ∃ w ∈ s.splitOn a, c ∈ w := by
  induction s with
  | nil => cases h
  | cons d s ih =>
    obtain ⟨w, ws, hs⟩ := List.exists_cons_of_ne_nil (List.splitOn_ne_nil a s)
    rw [hs] at ih
    rw [List.splitOn_cons_eq_if_modifyHead, hs]
    by_cases hd : d = a
    · rcases List.mem_cons.mp h with rfl | h
      · exact .inl hd
      · simpa [hd] using ih h
    · rw [if_neg (by simpa using hd), List.modifyHead_cons]
      rcases List.mem_cons.mp h with rfl | h
      · exact .inr ⟨c :: w, List.mem_cons_self, List.mem_cons_self⟩
      · apply (ih h).imp_right
        rintro ⟨u, hu, hc⟩
        rcases List.mem_cons.mp hu with rfl | hu
        · exact ⟨d :: u, List.mem_cons_self, List.mem_cons_of_mem _ hc⟩
        · exact ⟨u, List.mem_cons_of_mem _ hu, hc⟩

theorem addressChar_of_xdigit (h : lightIsxdigit c = true) : addressChar c = true := by simp [addressChar, h]

theorem isGroup_chars (h : isGroup s = true) : s.all addressChar = true := by
  simp only [isGroup, Bool.and_eq_true, List.all_eq_true] at h
  exact List.all_eq_true.mpr fun c hc => addressChar_of_xdigit (h.2 c hc)

theorem isIPv4address_chars (h : isIPv4address s = true) : s.all addressChar = true := by
  simp only [isIPv4address, isDecimal, Bool.and_eq_true, List.all_eq_true] at h
  refine List.all_eq_true.mpr fun c hc => ?_
  rcases mem_splitOn (a := chr '.') hc with rfl | ⟨w, hw, hcw⟩
  · decide
  · exact addressChar_of_xdigit (by simp [lightIsxdigit, (h.2 w hw).2 c hcw])

theorem groupCount_chars {ls : List Bytes} (h : (groupCount ls).isSome) : ∀ l ∈ ls, l.all addressChar = true := by
  fun_induction groupCount ls with
  | case1 => simp
  | case2 s hs => simpa using isGroup_chars hs
  | case3 s hs hquad =>
    rw [isDottedQuad, Bool.and_eq_true] at hquad
    simpa using isIPv4address_chars hquad.1
  | case4 => cases h
  | case5 s ss hne hs ih =>
    intro l hl
    rcases List.mem_cons.mp hl with rfl | hl
    · exact isGroup_chars hs
    · exact ih (by simpa using h) l hl
  | case6 => cases h

theorem groups_chars (h : (groups s).isSome) : s.all addressChar = true := by
  unfold groups at h
  split at h
  · simp_all
  · refine List.all_eq_true.mpr fun c hc => ?_
    rcases mem_splitOn (a := chr ':') hc with rfl | ⟨w, hw, hcw⟩
    · decide
    · exact List.all_eq_true.mp (groupCount_chars h w hw) c hcw

/-- **The characters of an IPv6 address.** -/
theorem isIPv6address_chars (h : isIPv6address s = true) : s.all addressChar = true := by
  simp only [isIPv6address, Bool.or_eq_true, List.any_eq_true, Bool.and_eq_true, beq_iff_eq] at h
  rcases h with h | ⟨k, -, ⟨hcolons, -⟩, hgroups⟩
  · exact groups_chars (by rw [h]; rfl)
  · have hsplit : s = s.take k ++ (ascii "::" ++ s.drop (k + 2)) := by
      rw [← hcolons, ← List.drop_drop, List.take_append_drop, List.take_append_drop]
    have hcolon : (ascii "::").all addressChar = true := by decide
    cases hm : groups (s.take k) with
    | none => simp [hm] at hgroups
    | some m =>
      cases hn : groups (s.drop (k + 2)) with
      | none => simp [hm, hn] at hgroups
      | some n =>
        have hleft := groups_chars (s := s.take k) (by rw [hm]; rfl)
        have hright := groups_chars (s := s.drop (k + 2)) (by rw [hn]; rfl)
        rw [hsplit, List.all_append, List.all_append, hleft, hcolon, hright]
        rfl

/-! ## What the check overlooks -/

def hostLabels (h : Bytes) : List Bytes := (stripDot (stripDot h)).splitOn (chr '.')

/-- **What the check overlooks in a name**: a second dot at its end, a label that ends in a `-`, and a last label that
begins with a digit, unless the name is an IPv4 address. -/
def nameOverlooked (h : Bytes) : Bool :=
  (stripDot h).getLast? == some (chr '.') || (hostLabels h).any (fun l => l.getLast? == some (chr '-')) ||
    ((hostLabels h).getLast?.any (fun l => l.head?.any lightIsdigit) && !isIPv4address h)

theorem getLast?_splitOn (h : s.getLast? = some (chr '.')) : (s.splitOn (chr '.')).getLast? = some [] := by
  obtain ⟨u, rfl⟩ := List.getLast?_eq_some_iff.mp h
  have hsplit : (u ++ [chr '.']).splitOn (chr '.') = u.splitOn (chr '.') ++ [[]] := by
    simpa using List.splitOn_append_cons_self (a := chr '.') u []
  rw [hsplit, List.getLast?_concat]

theorem not_alnum_dash : lightIsalnum (chr '-') = false := by decide

/-- A label that the check takes and that does not end in a `-`. -/
theorem isDomainlabel_iff : isDomainlabel s = true ↔ looseLabel s = true ∧ s.getLast? ≠ some (chr '-') := by
  rcases List.eq_nil_or_concat' s with rfl | ⟨u, c, rfl⟩
  · simp [isDomainlabel, looseLabel]
  · by_cases hc : c = chr '-'
    · simp [isDomainlabel, looseLabel, hc, not_alnum_dash]
    · simp only [isDomainlabel, looseLabel, List.getLast?_concat, Option.any_some, Bool.and_eq_true, ne_eq,
        Option.some.injEq, hc, not_false_eq_true, and_true, and_iff_left_iff_imp]
      intro h
      have hlabel : labelChar c = true := List.all_eq_true.mp h.1 c (by simp)
      simpa [labelChar, hc] using hlabel

theorem looseLabel_of_decimal (h : isDecimal s = true) : looseLabel s = true := by
  rw [← List.reverse_reverse s, looseLabel_reverse]
  exact looseReverse_of_decimal (by rw [isDecimal_reverse, h])

theorem not_digit_of_alpha (h : lightIsalpha c = true) : lightIsdigit c = false := by
  have hdigits : ∀ n < 58, 48 ≤ n → lightIsalpha (UInt8.ofNat n) = false := by decide
  rw [← Bool.not_eq_true]
  intro hdigit
  have hrange : 48 ≤ c.toNat ∧ c.toNat ≤ 57 := by simpa [lightIsdigit, UInt8.le_iff_toNat_le] using hdigit
  have hfalse := hdigits c.toNat (by omega) hrange.1
  rw [UInt8.ofNat_toNat, h] at hfalse
  cases hfalse

theorem hostname_labels {ls : List Bytes} {top : Bytes} (htop : ls.getLast? = some top) :
    ls.all isDomainlabel = true ∧ isToplabel top = true ↔
      looseLabels ls = true ∧ (∀ l ∈ ls, l.getLast? ≠ some (chr '-')) ∧ top.head?.any lightIsdigit = false := by
  have hmem : top ∈ ls := List.mem_of_getLast? htop
  constructor
  · rintro ⟨hall, hlabel⟩
    have hdomain : ∀ l ∈ ls, looseLabel l = true ∧ l.getLast? ≠ some (chr '-') := fun l hl =>
      Iff.mp isDomainlabel_iff (List.all_eq_true.mp hall l hl)
    obtain ⟨c, rest, rfl⟩ : ∃ c rest, top = c :: rest := by
      apply List.exists_cons_of_ne_nil
      rintro rfl
      cases hlabel
    have halpha : lightIsalpha c = true := by simpa [isToplabel] using (Bool.and_eq_true _ _ ▸ hlabel).2
    have hdigit := not_digit_of_alpha halpha
    refine ⟨?_, fun l hl => (hdomain l hl).2, by simpa using hdigit⟩
    have hloose : ls.all looseLabel = true := List.all_eq_true.mpr fun l hl => (hdomain l hl).1
    simp [looseLabels, hloose, htop, hdigit]
  · rintro ⟨hloose, hdash, hdigit⟩
    rw [looseLabels, Bool.and_eq_true] at hloose
    have hdomain : ∀ l ∈ ls, isDomainlabel l = true := fun l hl =>
      Iff.mpr isDomainlabel_iff ⟨List.all_eq_true.mp hloose.1 l hl, hdash l hl⟩
    refine ⟨List.all_eq_true.mpr hdomain, ?_⟩
    have hhead := (Bool.and_eq_true _ _ ▸ List.all_eq_true.mp hloose.1 top hmem).2
    rw [isToplabel, hdomain top hmem]
    cases top with
    | nil => cases hhead
    | cons c rest =>
      have hc : lightIsdigit c = false := by simpa using hdigit
      simpa [lightIsalnum, hc] using hhead

theorem decimal_labels {ls : List Bytes} (hlen : ls.length = 4) (hall : ls.all isDecimal = true) :
    looseLabels ls = true ∧ ∀ l ∈ ls, l.getLast? ≠ some (chr '-') := by
  have hloose : ls.all looseLabel = true :=
    List.all_eq_true.mpr fun l hl => looseLabel_of_decimal (List.all_eq_true.mp hall l hl)
  refine ⟨by simp [looseLabels, hloose, hlen, hall], fun l hl hdash => ?_⟩
  have hdigits := (Bool.and_eq_true _ _ ▸ List.all_eq_true.mp hall l hl).2
  have hdigit := List.all_eq_true.mp hdigits _ (List.mem_of_getLast? hdash)
  revert hdigit
  decide

theorem isIPv4address_last (h : isIPv4address s = true) : s.getLast? ≠ some (chr '.') := by
  intro hdot
  rw [isIPv4address, Bool.and_eq_true] at h
  have hnil := List.all_eq_true.mp h.2 [] (List.mem_of_getLast? (getLast?_splitOn hdot))
  cases hnil

/-- **The names of the grammar are those that the check takes and in which it overlooks nothing.** -/
theorem name_iff (h : Bytes) : (isHostname h || isIPv4address h) = (looseHost h && !nameOverlooked h) := by
  by_cases hdot : (stripDot h).getLast? = some (chr '.')
  · have hlast : h.getLast? = some (chr '.') := by
      by_contra hne
      exact hne (stripDot_eq_self hne ▸ hdot)
    have hip : isIPv4address h = false := by
      rw [← Bool.not_eq_true]
      exact fun hip => isIPv4address_last hip hlast
    have htop : isToplabel [] = false := by decide
    simp [nameOverlooked, hdot, hip, isHostname, getLast?_splitOn hdot, htop]
  · have hlabels : hostLabels h = (stripDot h).splitOn (chr '.') := by rw [hostLabels, stripDot_eq_self hdot]
    have hloose : looseHost h = looseLabels (hostLabels h) := rfl
    obtain ⟨top, htop⟩ : ∃ top, (hostLabels h).getLast? = some top :=
      ⟨_, List.getLast?_eq_some_getLast (List.splitOn_ne_nil _ _)⟩
    have hname := hostname_labels htop
    have hip : isIPv4address h = true → hostLabels h = h.splitOn (chr '.') := fun hip => by
      rw [hlabels, stripDot_eq_self (isIPv4address_last hip)]
    have hhost : isHostname h = true ↔ (hostLabels h).all isDomainlabel = true ∧ isToplabel top = true := by
      rw [isHostname, ← hlabels, htop, Option.any_some, Bool.and_eq_true]
    have hnot : nameOverlooked h = false ↔ (∀ l ∈ hostLabels h, l.getLast? ≠ some (chr '-')) ∧
        (top.head?.any lightIsdigit = true → isIPv4address h = true) := by
      have hdash : (hostLabels h).any (fun l => l.getLast? == some (chr '-')) = false ↔
          ∀ l ∈ hostLabels h, l.getLast? ≠ some (chr '-') := by simp
      rw [nameOverlooked, htop, Option.any_some, Bool.or_eq_false_iff, Bool.or_eq_false_iff, hdash,
        beq_eq_false_iff_ne.mpr hdot]
      cases top.head?.any lightIsdigit <;> simp
    rw [hloose, Bool.eq_iff_iff, Bool.or_eq_true, Bool.and_eq_true, Bool.not_eq_true', hhost, hname, hnot]
    constructor
    · rintro (⟨hl, hdash, hdigit⟩ | hv4)
      · exact ⟨hl, hdash, fun hd => absurd hd (by simp [hdigit])⟩
      · have hparts := hv4
        rw [isIPv4address, Bool.and_eq_true, beq_iff_eq, ← hip hv4] at hparts
        obtain ⟨hl, hdash⟩ := decimal_labels hparts.1 hparts.2
        exact ⟨hl, hdash, fun _ => hv4⟩
    · rintro ⟨hl, hdash, hdigit⟩
      cases hd : top.head?.any lightIsdigit with
      | false => exact .inl ⟨hl, hdash, rfl⟩
      | true => exact .inr (hdigit hd)

theorem isPort_eq (p : Bytes) : isPort p = (isPort (cstr p) && !p.contains 0) := by
  by_cases hnul : (0 : Byte) ∈ p
  · have hcontains : p.contains 0 = true := List.contains_iff_mem.mpr hnul
    rw [hcontains, Bool.not_true, Bool.and_false, ← Bool.not_eq_true]
    intro h
    cases p with
    | nil => cases hnul
    | cons c ds =>
      obtain ⟨rfl, hdigits⟩ : c = chr ':' ∧ ∀ d ∈ ds, lightIsdigit d = true := by simpa [isPort] using h
      rcases List.mem_cons.mp hnul with h0 | h0
      · revert h0
        decide
      · exact absurd (hdigits 0 h0) (by decide)
  · have hcontains : p.contains 0 = false := by simpa using hnul
    rw [hcontains, cstr_eq_self hnul, Bool.not_false, Bool.and_true]

/-- **The hosts with which the check does not follow the grammar**:

* in brackets, a text of hexadecimal digits, dots and up to seven colons that is no IPv6 address, and an IPv6 address
  with eight colons;
* a name in which something is overlooked;
* both with a NUL behind the port. -/
def isOverlooked (s : Bytes) : Bool :=
  if s.head? = some (chr '[') then
    (bracketed s).any fun p =>
      looseAddress p.1 && isPort (cstr p.2) && (!isIPv6address p.1 || p.2.contains 0) ||
        isIPv6address p.1 && isPort p.2 && decide (7 < p.1.count (chr ':'))
  else
    looseHost (s.takeWhile (· ≠ chr ':')) && isPort (cstr (s.dropWhile (· ≠ chr ':'))) &&
      (nameOverlooked (s.takeWhile (· ≠ chr ':')) || (s.dropWhile (· ≠ chr ':')).contains 0)

/-- **The check follows the grammar, exactly for the hosts in which it overlooks nothing.** -/
theorem checkHostname_iff (host : Bytes) :
    ((requestCheckHostname host).1 = true ↔ isHostport host = true) ↔ isOverlooked host = false := by
  rw [requestCheckHostname_eq]
  unfold looseHostport isHostport isOverlooked
  by_cases hopen : host.head? = some (chr '[')
  · rw [if_pos hopen, if_pos hopen, if_pos hopen]
    cases bracketed host with
    | none => simp
    | some p =>
      obtain ⟨a, port⟩ := p
      have hchars : isIPv6address a = true → a.all addressChar = true := isIPv6address_chars
      rw [Option.any_some, Option.any_some, Option.any_some, isPort_eq port, looseAddress]
      by_cases hseven : a.count (chr ':') ≤ 7
      · rw [decide_eq_true hseven, decide_eq_false (Nat.not_lt.mpr hseven)]
        revert hchars
        cases a.all addressChar <;> cases isIPv6address a <;> cases isPort (cstr port) <;>
          cases port.contains 0 <;> simp
      · rw [decide_eq_false hseven, decide_eq_true (Nat.lt_of_not_le hseven)]
        cases isIPv6address a <;> cases isPort (cstr port) <;> cases port.contains 0 <;> simp
  · rw [if_neg hopen, if_neg hopen, if_neg hopen, name_iff, isPort_eq (host.dropWhile (· ≠ chr ':'))]
    cases looseHost (host.takeWhile (· ≠ chr ':')) <;> cases nameOverlooked (host.takeWhile (· ≠ chr ':')) <;>
      cases isPort (cstr (host.dropWhile (· ≠ chr ':'))) <;>
      cases (host.dropWhile (· ≠ chr ':')).contains 0 <;> simp

/-- **A label that ends in a dash is accepted.** -/
theorem dash_accepted :
    ¬((requestCheckHostname (ascii "a-.b")).1 = true ↔ isHostport (ascii "a-.b") = true) := by
  decide

end Request

end Lighttpd
