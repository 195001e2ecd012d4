import Lighttpd.Base.Ascii

/-!
# Escaped text in the access log (`mod_accesslog.c`)

`accesslog_append_escaped` copies runs of printable characters, and puts an escape for every other character. A reader of
the log takes the escapes back with `unescape`.

- `accesslogAppendEscaped_eq`: the escaped text of a string goes behind the buffer;
- `unescape_escape`: it can be read back, in front of any text, so that it belongs to one string only
  (`accesslogAppendEscaped_inj`);
- `unescape_self_iff`: text that has not been escaped reads as itself just when it has nothing to escape.
-/

namespace Lighttpd.Accesslog

/-! ## `accesslog_append_escaped` -/

def isPrintable (c : Byte) : Bool := chr ' ' ≤ c && c ≤ chr '~' && c != chr '"' && c != chr '\\'

def hexDigit (h : Nat) : Byte := if h > 9 then (h - 10 + 65).toUInt8 else (h + 48).toUInt8

/-- What stands for any other character. -/
def escapeByte (c : Byte) : Bytes :=
  if c = chr '"' then ascii "\\\""
  else if c = chr '\\' then ascii "\\\\"
  else if c = 8 then ascii "\\b"
  else if c = 10 then ascii "\\n"
  else if c = 13 then ascii "\\r"
  else if c = 9 then ascii "\\t"
  else if c = 11 then ascii "\\v"
  else ascii "\\x" ++ [hexDigit (c.toNat / 16), hexDigit (c.toNat % 16)]

/-- The loop over the string; `part` is what lies between `start` and `ptr`. -/
def appendEscapedLoop (dest part : Bytes) : Bytes → Bytes
  | [] => if part = [] then dest else dest ++ part
  | c :: s =>
    if isPrintable c then appendEscapedLoop dest (part ++ [c]) s
    else
      -- copy previous part
      let dest := if part = [] then dest else dest ++ part
      appendEscapedLoop (dest ++ escapeByte c) [] s

def accesslogAppendEscaped (dest str : Bytes) : Bytes := if str = [] then dest else appendEscapedLoop dest [] str

def escape (str : Bytes) : Bytes := str.flatMap fun c => if isPrintable c then [c] else escapeByte c

/-! ## Reading it back -/

def isControl (c : Byte) : Bool := c < 32 || c == 127

/-- A character that stands for itself. -/
def isClean (c : Byte) : Bool := !isControl c && c != chr '"' && c != chr '\\'

/-- The character for which a letter behind a backslash stands. -/
def unescapeChar (c : Byte) : Option Byte :=
  if c = chr '"' then some (chr '"')
  else if c = chr '\\' then some (chr '\\')
  else if c = chr 'b' then some 8
  else if c = chr 'n' then some 10
  else if c = chr 'r' then some 13
  else if c = chr 't' then some 9
  else if c = chr 'v' then some 11
  else none

def hexValue (c : Byte) : Option Nat :=
  if 48 ≤ c ∧ c ≤ 57 then some (c.toNat - 48) else if 65 ≤ c ∧ c ≤ 70 then some (c.toNat - 55) else none

def unescape : Bytes → Option Bytes
  | [] => some []
  | 92 :: 120 :: h :: l :: s => do
    let h ← hexValue h
    let l ← hexValue l
    let t ← unescape s
    return (16 * h + l).toUInt8 :: t
  | 92 :: c :: s => do
    let c ← unescapeChar c
    let t ← unescape s
    return c :: t
  | c :: s => if isClean c then (unescape s).map (c :: ·) else none

theorem appendEscapedLoop_eq (dest part str : Bytes) : appendEscapedLoop dest part str = dest ++ part ++ escape str := by
  induction str generalizing dest part with
  | nil =>
    unfold appendEscapedLoop
    split_ifs with h
    · simp [h, escape]
    · simp [escape]
  | cons c str ih =>
    have hflush : (if part = [] then dest else dest ++ part) = dest ++ part := by
      split_ifs with h
      · rw [h, List.append_nil]
      · rfl
    unfold appendEscapedLoop
    dsimp only
    rw [hflush]
    by_cases hc : isPrintable c = true
    · rw [if_pos hc, ih]
      simp [escape, hc]
    · rw [if_neg hc, ih]
      simp [escape, hc]

/-- **The escaped text goes behind the buffer.** -/
theorem accesslogAppendEscaped_eq (dest str : Bytes) : accesslogAppendEscaped dest str = dest ++ escape str := by
  unfold accesslogAppendEscaped
  split_ifs with h
  · rw [h]
    exact (List.append_nil dest).symm
  · rw [appendEscapedLoop_eq, List.append_nil]

/-! ## What can be read back -/

@[simp] theorem unescape_nil : unescape [] = some [] := rfl

variable {c : Byte} {s t : Bytes}

theorem unescape_clean (h : isClean c = true) (s : Bytes) : unescape (c :: s) = (unescape s).map (c :: ·) := by
  have hne : c ≠ 92 := by
    rintro rfl
    cases h
  conv_lhs => unfold unescape
  split
  · rename_i heq
    cases heq
  · rename_i heq
    exact absurd (List.cons.inj heq).1 hne
  · rename_i heq
    exact absurd (List.cons.inj heq).1 hne
  · rename_i heq
    obtain ⟨rfl, rfl⟩ := List.cons.inj heq
    rw [if_pos h]

theorem unescape_letter {d : Byte} (h : unescapeChar c = some d) (s : Bytes) :
    unescape (92 :: c :: s) = (unescape s).map (d :: ·) := by
  have hne : c ≠ 120 := by
    rintro rfl
    cases h
  conv_lhs => unfold unescape
  split
  · rename_i heq
    cases heq
  · rename_i heq
    exact absurd (List.cons.inj (List.cons.inj heq).2).1 hne
  · rename_i heq
    obtain ⟨rfl, rfl⟩ := List.cons.inj (List.cons.inj heq).2
    rw [h]
    cases unescape s <;> rfl
  · rename_i hnot heq
    cases heq
    exact absurd rfl (hnot c s rfl)

theorem unescape_hex {h l : Byte} {a b : Nat} (hh : hexValue h = some a) (hl : hexValue l = some b) (s : Bytes) :
    unescape (92 :: 120 :: h :: l :: s) = (unescape s).map ((16 * a + b).toUInt8 :: ·) := by
  rw [unescape, hh, hl]
  cases unescape s <;> rfl

theorem isClean_of_isPrintable (h : isPrintable c = true) : isClean c = true := by
  have htilde : chr '~' < 127 := by decide
  have hspace : (32 : Byte) ≤ chr ' ' := by decide
  simp only [isPrintable, Bool.and_eq_true, bne_iff_ne, decide_eq_true_eq] at h
  obtain ⟨⟨⟨hlow, hhigh⟩, hquote⟩, hbackslash⟩ := h
  simp only [isClean, isControl, Bool.and_eq_true, Bool.not_eq_true', Bool.or_eq_false_iff, decide_eq_false_iff_not,
    beq_eq_false_iff_ne, bne_iff_ne]
  exact ⟨⟨⟨UInt8.not_lt.mpr (UInt8.le_trans hspace hlow), UInt8.ne_of_lt (UInt8.lt_of_le_of_lt hhigh htilde)⟩, hquote⟩,
    hbackslash⟩

theorem hexValue_hexDigit : ∀ k < 16, hexValue (hexDigit k) = some k := by decide

theorem unescape_escapeByte (c : Byte) (s : Bytes) :
    unescape ((if isPrintable c then [c] else escapeByte c) ++ s) = (unescape s).map (c :: ·) := by
  split_ifs with hc
  · exact unescape_clean (isClean_of_isPrintable hc) s
  · unfold escapeByte
    split_ifs with h1 h2 h3 h4 h5 h6 h7
    · rw [h1]; exact unescape_letter (by decide) s
    · rw [h2]; exact unescape_letter (by decide) s
    · rw [h3]; exact unescape_letter (by decide) s
    · rw [h4]; exact unescape_letter (by decide) s
    · rw [h5]; exact unescape_letter (by decide) s
    · rw [h6]; exact unescape_letter (by decide) s
    · rw [h7]; exact unescape_letter (by decide) s
    · have hhigh := hexValue_hexDigit (c.toNat / 16) (Nat.div_lt_of_lt_mul c.toNat_lt)
      have hlow := hexValue_hexDigit (c.toNat % 16) (Nat.mod_lt _ (by omega))
      have hvalue : (16 * (c.toNat / 16) + c.toNat % 16).toUInt8 = c := by
        rw [Nat.div_add_mod, Nat.toUInt8_eq, UInt8.ofNat_toNat]
      rw [← hvalue]
      conv_lhs => rw [hvalue]
      exact unescape_hex hhigh hlow s

/-- **The escaped text can be read back.** -/
theorem unescape_escape (str s : Bytes) : unescape (escape str ++ s) = (unescape s).map (str ++ ·) := by
  induction str with
  | nil => cases h : unescape s <;> simp [escape, h]
  | cons c str ih =>
    have hcons : escape (c :: str) = (if isPrintable c then [c] else escapeByte c) ++ escape str := rfl
    rw [hcons, List.append_assoc, unescape_escapeByte, ih]
    cases unescape s <;> rfl

theorem unescape_escape_self (str : Bytes) : unescape (escape str) = some str := by
  have h := unescape_escape str []
  rwa [List.append_nil, unescape_nil, Option.map_some, List.append_nil] at h

theorem escape_inj (h : escape s = escape t) : s = t := by
  have hread := unescape_escape_self s
  rw [h, unescape_escape_self] at hread
  exact (Option.some.inj hread).symm

/-- **`accesslog_append_escaped` is injective.** -/
theorem accesslogAppendEscaped_inj {dest : Bytes}
    (h : accesslogAppendEscaped dest s = accesslogAppendEscaped dest t) : s = t := by
  rw [accesslogAppendEscaped_eq, accesslogAppendEscaped_eq] at h
  exact escape_inj (List.append_cancel_left h)

/-! ## What can be read at all -/

theorem hexValue_clean {n : Nat} (h : hexValue c = some n) : isControl c = false := by
  have hbounds : (48 : Byte) ≤ c ∧ c ≤ 70 := by
    unfold hexValue at h
    split_ifs at h with hdigit hletter
    · exact ⟨hdigit.1, UInt8.le_trans hdigit.2 (by decide)⟩
    · exact ⟨UInt8.le_trans (by decide) hletter.1, hletter.2⟩
  have hlow : ¬ c < 32 := UInt8.not_lt.mpr (UInt8.le_trans (by decide) hbounds.1)
  have hhigh : c ≠ 127 := UInt8.ne_of_lt (UInt8.lt_of_le_of_lt hbounds.2 (by decide))
  simp [isControl, hlow, hhigh]

theorem unescapeChar_clean {d : Byte} (h : unescapeChar c = some d) : isControl c = false := by
  unfold unescapeChar at h
  split_ifs at h with h1 h2 h3 h4 h5 h6 h7
  · rw [h1]; rfl
  · rw [h2]; rfl
  · rw [h3]; rfl
  · rw [h4]; rfl
  · rw [h5]; rfl
  · rw [h6]; rfl
  · rw [h7]; rfl

/-- **A text that can be read** has no control characters, and is longer than what it stands for unless all its characters
stand for themselves. -/
theorem unescape_spec (h : unescape s = some t) : (∀ c ∈ s, isControl c = false) ∧
    t.length ≤ s.length ∧ (s.length = t.length → ∀ c ∈ s, isClean c = true) := by
  induction s using unescape.induct generalizing t with
  | case1 =>
    cases h
    exact ⟨nofun, Nat.le_refl _, fun _ => nofun⟩
  | case2 high low s ih =>
    rw [unescape] at h
    obtain ⟨a, ha, h⟩ := Option.bind_eq_some_iff.mp h
    obtain ⟨b, hb, h⟩ := Option.bind_eq_some_iff.mp h
    obtain ⟨t', ht', h⟩ := Option.bind_eq_some_iff.mp h
    cases h
    obtain ⟨hcontrol, hlen, -⟩ := ih ht'
    refine ⟨?_, by simp only [List.length_cons]; omega, fun heq => by simp only [List.length_cons] at heq; omega⟩
    simp only [List.forall_mem_cons]
    exact ⟨rfl, rfl, hexValue_clean ha, hexValue_clean hb, hcontrol⟩
  | case3 c s hnot ih =>
    rw [unescape.eq_3 c s hnot] at h
    obtain ⟨d, hd, h⟩ := Option.bind_eq_some_iff.mp h
    obtain ⟨t', ht', h⟩ := Option.bind_eq_some_iff.mp h
    cases h
    obtain ⟨hcontrol, hlen, -⟩ := ih ht'
    refine ⟨?_, by simp only [List.length_cons]; omega, fun heq => by simp only [List.length_cons] at heq; omega⟩
    simp only [List.forall_mem_cons]
    exact ⟨rfl, unescapeChar_clean hd, hcontrol⟩
  | case4 c s hhex hletter hc ih =>
    rw [unescape_clean hc] at h
    obtain ⟨t', ht', rfl⟩ := Option.map_eq_some_iff.mp h
    obtain ⟨hcontrol, hlen, hclean⟩ := ih ht'
    have hone : isControl c = false := by
      simp only [isClean, Bool.and_eq_true, Bool.not_eq_true'] at hc
      exact hc.1.1
    simp only [List.forall_mem_cons, List.length_cons]
    exact ⟨⟨hone, hcontrol⟩, by omega, fun heq => ⟨hc, hclean (by omega)⟩⟩
  | case5 c s hhex hletter hc =>
    rw [unescape.eq_4 c s hhex hletter, if_neg hc] at h
    cases h

/-- **Text that has not been escaped** reads as itself just when all its characters stand for themselves. -/
theorem unescape_self_iff : unescape s = some s ↔ ∀ c ∈ s, isClean c = true := by
  refine ⟨fun h => (unescape_spec h).2.2 rfl, fun h => ?_⟩
  induction s with
  | nil => rfl
  | cons c s ih =>
    rw [List.forall_mem_cons] at h
    rw [unescape_clean h.1, ih h.2]
    rfl

end Lighttpd.Accesslog
