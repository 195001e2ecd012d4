import Lighttpd.Base.Ascii
import Mathlib.Tactic.Push

/-!
# The tokenizer of the configuration (`configfile.c`)

The input is not terminated, so that a token has to end before the input does. Reading a byte behind the input is `none`
in the functions of the source; the branches of `config_tokenizer` are functions of their own.

- `Unfinished`: the text of an input whose last token has no end;
- `turn_none`, `turn_next`, `turn_done`: what one turn of the loop does, for each first byte;
- `configTokenizer_none`: a call reads behind the input exactly where its text is unfinished.
-/

namespace Lighttpd.Config

/-! ## Reading -/

/-- The loops `for (i = …; input[offset + i] && p(input[offset + i]); i++)`: the bytes that are passed, and the rest. -/
def scanWhile (p : Byte → Bool) : Bytes → Option (Bytes × Bytes)
  | [] => none
  | c :: s => if c ≠ 0 ∧ p c = true then (scanWhile p s).map fun r => (c :: r.1, r.2) else some ([], c :: s)

/-- `tokenizer_t`; `rest` is what is at `t->input + t->offset`, up to `t->size`. -/
structure Tokenizer where
  rest : Bytes
  line : Nat
  linePos : Nat
  inKey : Bool
  inBrace : Int
  inCond : Bool
deriving DecidableEq, Repr

def Tokenizer.init (input : Bytes) : Tokenizer := ⟨input, 1, 1, true, 0, false⟩

inductive TokenId
  | assign
  | arrayAssign
  | eq
  | isMatch
  | ne
  | noMatch
  | eol
  | comma
  | string
  | lparan
  | rparan
  | dollar
  | append
  | plus
  | lcurly
  | rcurly
  | lbracket
  | rbracket
  | srvvarname
  | integer
  | includeFile
  | includeShell
  | globalBlock
  | elseBranch
  | lkey
deriving DecidableEq, Repr

/-- What one turn of the loop in `config_tokenizer` does. -/
inductive Turn
  | next (t : Tokenizer)
  | token (tid : TokenId) (token : Bytes) (t : Tokenizer)
  | error (message : String) (t : Tokenizer)
deriving DecidableEq, Repr

def isNewline (c : Byte) : Bool := c == chr '\n' || c == chr '\r'

/-- The labels of the `switch`; the single characters of the grammar have one label. -/
inductive Label
  | equalSign
  | exclamationMark
  | blank
  | newline
  | comma
  | quotationMark
  | lparan
  | rparan
  | dollar
  | plusSign
  | bracket (tid : TokenId)
  | numberSign
  | other
deriving DecidableEq, Repr

/-- The `case` that a byte goes to. -/
def label (c : Byte) : Label :=
  if c = chr '=' then .equalSign
  else if c = chr '!' then .exclamationMark
  else if c = chr '\t' ∨ c = chr ' ' then .blank
  else if isNewline c then .newline
  else if c = chr ',' then .comma
  else if c = chr '"' then .quotationMark
  else if c = chr '(' then .lparan
  else if c = chr ')' then .rparan
  else if c = chr '$' then .dollar
  else if c = chr '+' then .plusSign
  else if c = chr '\x7b' then .bracket .lcurly
  else if c = chr '\x7d' then .bracket .rcurly
  else if c = chr '[' then .bracket .lbracket
  else if c = chr ']' then .bracket .rbracket
  else if c = chr '#' then .numberSign
  else .other

def skipNewline (c : Byte) (s : Bytes) : Option Bytes :=
  if c = chr '\r' then
    match s with
    | [] => none
    | d :: s' => some (if d = chr '\n' then s' else d :: s')
  else some s

/-- `config_skip_comment`, with the number of bytes that are skipped. -/
def skipComment (s : Bytes) : Option (Nat × Bytes) :=
  (scanWhile (fun c => !isNewline c) s).map fun r => (r.1.length + 1, r.2)

/-- The loop over lines behind an end of line. -/
def skipLines : Nat → Tokenizer → Option Tokenizer
  | 0, t => some t
  | fuel + 1, t =>
    match t.rest with
    | [] => some t
    | c :: s =>
      match label c with
      | .newline =>
        match skipNewline c s with
        | none => none
        | some rest => skipLines fuel { t with rest, linePos := 1, line := t.line + 1 }
      | .numberSign =>
        match skipComment s with
        | none => none
        | some (n, rest) => skipLines fuel { t with rest, linePos := t.linePos + n }
      | .blank => skipLines fuel { t with rest := s, linePos := t.linePos + 1 }
      | _ => some t

/-- The loop that searches for the closing quote: the token and what is behind the quote; the inner `none` stands for a
NUL, where the closing quote is missing. -/
def scanString : Bytes → Option (Option (Bytes × Bytes))
  | [] => none
  | c :: s =>
    if c = 0 then some none
    else if c = chr '\\' then
      match s with
      | [] => none
      | d :: s' =>
        if d = chr '"' then (scanString s').map (Option.map fun r => (chr '"' :: r.1, r.2))
        else (scanString (d :: s')).map (Option.map fun r => (c :: r.1, r.2))
    else if c = chr '"' then some (some ([], s))
    else (scanString s).map (Option.map fun r => (c :: r.1, r.2))

/-! ## The branches -/

namespace Tokenizer

variable (t : Tokenizer)

def equalSign (s : Bytes) : Option Turn :=
  if t.inBrace ≠ 0 then
    match s with
    | [] => none
    | d :: s' =>
      some (if d = chr '>' then .token .arrayAssign (ascii "=>") { t with rest := s' }
        else .error "use => for assignments in arrays" t)
  else if t.inCond then
    match s with
    | [] => none
    | d :: s' =>
      some (if d = chr '=' then .token .eq (ascii "==") { t with rest := s', inKey := true, inCond := false }
        else if d = chr '~' then .token .isMatch (ascii "=~") { t with rest := s', inKey := true, inCond := false }
        else .error "only =~ and == are allowed in the condition" t)
  else if t.inKey then some (.token .assign (ascii "=") { t with rest := s, linePos := t.linePos + 1 })
  else some (.error "unexpected equal-sign: =" t)

def exclamationMark (s : Bytes) : Option Turn :=
  if t.inCond then
    match s with
    | [] => none
    | d :: s' =>
      some (if d = chr '=' then .token .ne (ascii "!=") { t with rest := s', inKey := true, inCond := false }
        else if d = chr '~' then .token .noMatch (ascii "!~") { t with rest := s', inKey := true, inCond := false }
        else .error "only !~ and != are allowed in the condition" t)
  else some (.error "unexpected exclamation-marks: !" t)

/-- `case '\n'` and `case '\r'`. -/
def endOfLine (c : Byte) (s : Bytes) : Option Turn :=
  if t.inBrace = 0 then
    (skipLines (s.length + 1) { t with rest := c :: s }).map fun t => .token .eol (ascii "(EOL)") { t with inKey := true }
  else (skipNewline c s).map fun rest => .next { t with rest, linePos := 1, line := t.line + 1 }

def comma (s : Bytes) : Turn :=
  if t.inBrace > 0 then .token .comma (ascii "(COMMA)") { t with rest := s, linePos := t.linePos + 1 }
  else .next { t with rest := s, linePos := t.linePos + 1 }

def quotationMark (s : Bytes) : Option Turn :=
  (scanString s).map fun
    | none => .error "missing closing quote" t
    | some (token, rest) =>
      .token .string token { t with rest, linePos := t.linePos + (s.length + 1 - rest.length) }

def plusSign (s : Bytes) : Option Turn :=
  match s with
  | [] => none
  | d :: s' =>
    some (if d = chr '=' then .token .append (ascii "+=") { t with rest := s' }
      else .token .plus (ascii "+") { t with rest := d :: s' })

def numberSign (s : Bytes) : Option Turn :=
  (skipComment s).map fun (n, rest) => .next { t with rest, linePos := t.linePos + n }

def keyChar (c : Byte) : Bool := lightIsalnum c || c == chr '.' || c == chr '_' || c == chr '-'

def keyword (key : Bytes) : TokenId :=
  if key = ascii "include" then .includeFile
  else if key = ascii "include_shell" then .includeShell
  else if key = ascii "global" then .globalBlock
  else if key = ascii "else" then .elseBranch
  else .lkey

/-- The end of a word: a word must not be empty, nor be followed by a NUL. -/
def word (tid : Bytes → TokenId) (message : String) (r : Bytes × Bytes) : Turn :=
  if r.1 ≠ [] ∧ r.2.head? ≠ some 0 then
    .token (tid r.1) r.1 { t with rest := r.2, linePos := t.linePos + r.1.length }
  else .error message t

/-- `default`. -/
def other (c : Byte) (s : Bytes) : Option Turn :=
  if t.inCond then
    (scanWhile lightIsalpha (c :: s)).map (t.word (fun _ => .srvvarname) "invalid character in condition")
  else if lightIsdigit c then
    (scanWhile lightIsdigit (c :: s)).map fun r =>
      .token .integer r.1 { t with rest := r.2, linePos := t.linePos + r.1.length }
  else (scanWhile keyChar (c :: s)).map (t.word keyword "invalid character in variable name")

/-- One turn of the loop of `config_tokenizer`, for the byte `c` at `t->input[t->offset]`. -/
def turn (c : Byte) (s : Bytes) : Option Turn :=
  match label c with
  | .equalSign => t.equalSign s
  | .exclamationMark => t.exclamationMark s
  | .blank => some (.next { t with rest := s, linePos := t.linePos + 1 })
  | .newline => t.endOfLine c s
  | .comma => some (t.comma s)
  | .quotationMark => t.quotationMark s
  | .lparan => some (.token .lparan [c] { t with rest := s, inBrace := t.inBrace + 1 })
  | .rparan => some (.token .rparan [c] { t with rest := s, inBrace := t.inBrace - 1 })
  | .dollar => some (.token .dollar [c] { t with rest := s, inCond := true, inKey := false })
  | .plusSign => t.plusSign s
  | .bracket tid => some (.token tid [c] { t with rest := s })
  | .numberSign => t.numberSign s
  | .other => t.other c s

end Tokenizer

/-- What `config_tokenizer` returns. -/
inductive Result
  | token (tid : TokenId) (token : Bytes)
  | none
  | error (message : String)
deriving DecidableEq, Repr

/-- The loop of `config_tokenizer`. Every turn that does not end it takes a byte, so that the fuel lasts. -/
def tokenLoop : Nat → Tokenizer → Option (Result × Tokenizer)
  | 0, t => some (.none, t)
  | fuel + 1, t =>
    match t.rest with
    | [] => some (.none, t)
    | c :: s =>
      if c = 0 then some (.none, t)
      else
        match t.turn c s with
        | Option.none => Option.none
        | some (.next t) => tokenLoop fuel t
        | some (.token tid token t) => some (.token tid token, t)
        | some (.error message t) => some (.error message, t)

def configTokenizer (t : Tokenizer) : Option (Result × Tokenizer) := tokenLoop t.rest.length t

/-! ## Unfinished texts -/

def Passed (p : Byte → Bool) (s : Bytes) : Prop := ∀ c ∈ s, c ≠ 0 ∧ p c = true

def inComment (c : Byte) : Bool := !isNewline c

/-- The comment ends in front of `rest`, at an end of line or a NUL. -/
def CommentUpTo (s rest : Bytes) : Prop :=
  ∃ body d u, s = body ++ rest ∧ rest = d :: u ∧ Passed inComment body ∧ (d = 0 ∨ isNewline d = true)

/-- An end of line: a `\r` needs a byte behind it, and takes a `\n` with it. -/
def NewlineUpTo (c : Byte) (s rest : Bytes) : Prop :=
  if c = chr '\r' then s = chr '\n' :: rest ∨ (s = rest ∧ ∃ d ∈ rest.head?, d ≠ chr '\n') else rest = s

/-- A string without its closing quote. -/
inductive Unclosed : Bytes → Prop
  | nil : Unclosed []
  | char {c : Byte} {s : Bytes} : c ≠ 0 → c ≠ chr '"' → c ≠ chr '\\' → Unclosed s → Unclosed (c :: s)
  | quoted {s : Bytes} : Unclosed s → Unclosed (chr '\\' :: chr '"' :: s)
  | backslash {s : Bytes} : s.head? ≠ some (chr '"') → Unclosed s → Unclosed (chr '\\' :: s)

inductive LineSkips (c : Byte) (s : Bytes) : Bytes → Prop
  | blank : label c = .blank → LineSkips c s s
  | newline {rest : Bytes} : label c = .newline → NewlineUpTo c s rest → LineSkips c s rest
  | comment {rest : Bytes} : label c = .numberSign → CommentUpTo s rest → LineSkips c s rest

inductive LastLine (c : Byte) (s : Bytes) : Prop
  | newline : label c = .newline → c = chr '\r' → s = [] → LastLine c s
  | comment : label c = .numberSign → Passed inComment s → LastLine c s

/-- Lines without text up to the end of the input. -/
inductive OpenLines : Bytes → Prop
  | skip {c : Byte} {s rest : Bytes} : LineSkips c s rest → OpenLines rest → OpenLines (c :: s)
  | last {c : Byte} {s : Bytes} : LastLine c s → OpenLines (c :: s)

/-- What is skipped in front of a token. -/
inductive Skips (inBrace : Int) (c : Byte) (s : Bytes) : Bytes → Prop
  | blank : label c = .blank → Skips inBrace c s s
  | comma : label c = .comma → inBrace ≤ 0 → Skips inBrace c s s
  | newline {rest : Bytes} : label c = .newline → inBrace ≠ 0 → NewlineUpTo c s rest → Skips inBrace c s rest
  | comment {rest : Bytes} : label c = .numberSign → CommentUpTo s rest → Skips inBrace c s rest

/-- **The last token of the input has no end**: an operator of one character that may have two, a string without its
closing quote, a word, a number, a comment, or an end of line that may go on. -/
inductive LastToken (inBrace : Int) (inCond : Bool) (c : Byte) (s : Bytes) : Prop
  | equalSign : label c = .equalSign → inBrace ≠ 0 ∨ inCond = true → s = [] → LastToken inBrace inCond c s
  | exclamationMark : label c = .exclamationMark → inCond = true → s = [] → LastToken inBrace inCond c s
  | plusSign : label c = .plusSign → s = [] → LastToken inBrace inCond c s
  | string : label c = .quotationMark → Unclosed s → LastToken inBrace inCond c s
  | comment : label c = .numberSign → Passed inComment s → LastToken inBrace inCond c s
  | newline : label c = .newline → inBrace ≠ 0 → c = chr '\r' → s = [] → LastToken inBrace inCond c s
  | lines : label c = .newline → inBrace = 0 → OpenLines (c :: s) → LastToken inBrace inCond c s
  | word : label c = .other → inCond = true → Passed lightIsalpha (c :: s) → LastToken inBrace inCond c s
  | integer : label c = .other → inCond = false → Passed lightIsdigit (c :: s) → LastToken inBrace inCond c s
  | key : label c = .other → inCond = false → lightIsdigit c = false → Passed Tokenizer.keyChar (c :: s) →
    LastToken inBrace inCond c s

/-- **The text from which a call reads on to the end of the input**: only its last token, without an end, is in it. -/
inductive Unfinished (inBrace : Int) (inCond : Bool) : Bytes → Prop
  | skip {c : Byte} {s rest : Bytes} : Skips inBrace c s rest → Unfinished inBrace inCond rest →
    Unfinished inBrace inCond (c :: s)
  | last {c : Byte} {s : Bytes} : LastToken inBrace inCond c s → Unfinished inBrace inCond (c :: s)

/-! ## The loops -/

theorem passed_cons {p : Byte → Bool} {c : Byte} {s : Bytes} :
    Passed p (c :: s) ↔ (c ≠ 0 ∧ p c = true) ∧ Passed p s := by
  simp [Passed]

theorem scanWhile_none {p : Byte → Bool} {s : Bytes} : scanWhile p s = none ↔ Passed p s := by
  induction s with
  | nil => simp [scanWhile, Passed]
  | cons c s ih =>
    rw [scanWhile, passed_cons]
    by_cases h : c ≠ 0 ∧ p c = true
    · rw [if_pos h, Option.map_eq_none_iff, ih]
      exact (and_iff_right h).symm
    · rw [if_neg h]
      simp [h]

theorem scanWhile_some {p : Byte → Bool} {s : Bytes} {r : Bytes × Bytes} (h : scanWhile p s = some r) :
    s = r.1 ++ r.2 ∧ Passed p r.1 ∧ ∃ d u, r.2 = d :: u ∧ (d = 0 ∨ p d = false) := by
  induction s generalizing r with
  | nil => simp [scanWhile] at h
  | cons c s ih =>
    rw [scanWhile] at h
    split at h
    · rename_i hc
      obtain ⟨q, hq, rfl⟩ := Option.map_eq_some_iff.mp h
      obtain ⟨hsplit, hpassed, hend⟩ := ih hq
      exact ⟨by rw [hsplit]; rfl, Iff.mpr passed_cons ⟨hc, hpassed⟩, hend⟩
    · rename_i hc
      cases h
      refine ⟨rfl, by simp [Passed], c, s, rfl, ?_⟩
      by_contra hno
      push Not at hno
      exact hc ⟨hno.1, by simpa using hno.2⟩

theorem passed_unique {p : Byte → Bool} {a a' u u' : Bytes} {d d' : Byte} (h : a ++ d :: u = a' ++ d' :: u')
    (ha : Passed p a) (ha' : Passed p a') (hd : d = 0 ∨ p d = false) (hd' : d' = 0 ∨ p d' = false) :
    d :: u = d' :: u' := by
  induction a generalizing a' with
  | nil =>
    cases a' with
    | nil => exact h
    | cons c a' =>
      obtain ⟨rfl, -⟩ := List.cons.inj h
      obtain ⟨hne, hp⟩ := (Iff.mp passed_cons ha').1
      rcases hd with hd | hd
      · exact absurd hd hne
      · rw [hp] at hd; cases hd
  | cons b a ih =>
    obtain ⟨⟨hne, hp⟩, ha⟩ := Iff.mp passed_cons ha
    cases a' with
    | nil =>
      obtain ⟨rfl, -⟩ := List.cons.inj h
      rcases hd' with hd' | hd'
      · exact absurd hd' hne
      · rw [hp] at hd'; cases hd'
    | cons c a' =>
      obtain ⟨-, h⟩ := List.cons.inj h
      exact ih h ha (Iff.mp passed_cons ha').2

theorem skipComment_none {s : Bytes} : skipComment s = none ↔ Passed inComment s := by
  unfold skipComment
  rw [Option.map_eq_none_iff]
  exact scanWhile_none

/-- **A comment that ends**, and where it does. -/
theorem skipComment_some {s rest : Bytes} {n : Nat} (h : skipComment s = some (n, rest)) :
    (∀ u, CommentUpTo s u ↔ u = rest) ∧ ¬ Passed inComment s ∧ rest.length ≤ s.length := by
  have hsome := h
  obtain ⟨r, hr, heq⟩ := Option.map_eq_some_iff.mp h
  cases heq
  obtain ⟨hsplit, hpassed, d, u, hrest, hd⟩ := scanWhile_some hr
  have hd' : d = 0 ∨ inComment d = false := hd
  refine ⟨fun v => ⟨?_, ?_⟩, ?_, ?_⟩
  · rintro ⟨body, e, w, hs, rfl, hbody, he⟩
    have he' : e = 0 ∨ inComment e = false := by simpa [inComment] using he
    rw [hrest]
    refine passed_unique ?_ hbody hpassed he' hd'
    rw [← hs, hsplit, hrest]
  · rintro rfl
    exact ⟨r.1, d, u, hsplit, hrest, hpassed, by simpa using hd⟩
  · rw [← skipComment_none, hsome]
    simp
  · rw [hsplit, List.length_append]
    omega

theorem skipNewline_none {c : Byte} {s : Bytes} : skipNewline c s = none ↔ c = chr '\r' ∧ s = [] := by
  unfold skipNewline
  split
  · cases s <;> simp_all
  · simp_all

theorem skipNewline_some {c : Byte} {s rest : Bytes} (h : skipNewline c s = some rest) :
    (∀ u, NewlineUpTo c s u ↔ u = rest) ∧ ¬ (c = chr '\r' ∧ s = []) ∧ rest.length ≤ s.length := by
  have hno : ¬ (c = chr '\r' ∧ s = []) := by
    rw [← skipNewline_none, h]
    simp
  unfold skipNewline at h
  split at h
  · rename_i hcr
    cases s with
    | nil => cases h
    | cons d s =>
      have hrest := Option.some.inj h
      refine ⟨fun u => ?_, hno, ?_⟩
      · unfold NewlineUpTo
        rw [if_pos hcr]
        by_cases hd : d = chr '\n'
        · rw [if_pos hd] at hrest
          subst hrest hd
          constructor
          · rintro (heq | ⟨rfl, e, he, hne⟩)
            · exact (List.cons.inj heq).2.symm
            · cases he
              exact absurd rfl hne
          · rintro rfl
            exact Or.inl rfl
        · rw [if_neg hd] at hrest
          subst hrest
          constructor
          · rintro (heq | ⟨rfl, -⟩)
            · exact absurd (List.cons.inj heq).1 hd
            · rfl
          · rintro rfl
            exact Or.inr ⟨rfl, d, rfl, hd⟩
      · rw [← hrest]
        split <;> simp
  · rename_i hcr
    have hrest := Option.some.inj h
    refine ⟨fun u => ?_, hno, by rw [hrest]⟩
    unfold NewlineUpTo
    rw [if_neg hcr, hrest]

theorem scanString_none {s : Bytes} : scanString s = none ↔ Unclosed s := by
  have hquote : chr '"' ≠ chr '\\' := by decide
  have hback : chr '\\' ≠ 0 := by decide
  fun_induction scanString s with
  | case1 => simp [Unclosed.nil]
  | case2 s =>
    refine ⟨nofun, fun h => ?_⟩
    cases h with
    | char hne _ _ _ => exact absurd rfl hne
  | case3 hne =>
    refine ⟨fun _ => .backslash (by simp) .nil, fun _ => rfl⟩
  | case4 s hne ih =>
    refine Option.map_eq_none_iff.trans (ih.trans ⟨.quoted, fun h => ?_⟩)
    cases h with
    | char _ _ hne _ => exact absurd rfl hne
    | quoted h => exact h
    | backslash hhead _ => exact absurd rfl hhead
  | case5 d s hd hne ih =>
    refine Option.map_eq_none_iff.trans (ih.trans ⟨fun h => .backslash (by simpa using hd) h, fun h => ?_⟩)
    cases h with
    | char _ _ hne _ => exact absurd rfl hne
    | quoted _ => exact absurd rfl hd
    | backslash _ h => exact h
  | case6 s _ _ =>
    refine ⟨nofun, fun h => ?_⟩
    cases h with
    | char _ hne _ _ => exact absurd rfl hne
  | case7 c s hzero hbackslash hclose ih =>
    refine Option.map_eq_none_iff.trans (ih.trans ⟨.char hzero hclose hbackslash, fun h => ?_⟩)
    cases h with
    | char _ _ _ h => exact h
    | quoted _ => exact absurd rfl hbackslash
    | backslash _ _ => exact absurd rfl hbackslash

/-- **The lines behind an end of line** are read to the end of the input exactly where they are open. -/
theorem skipLines_none {fuel : Nat} {t : Tokenizer} (h : t.rest.length ≤ fuel) :
    skipLines fuel t = none ↔ OpenLines t.rest := by
  induction fuel generalizing t with
  | zero =>
    have hnil : t.rest = [] := List.eq_nil_of_length_eq_zero (Nat.le_zero.mp h)
    rw [hnil]
    exact ⟨nofun, nofun⟩
  | succ fuel ih =>
    rcases hrest : t.rest with _ | ⟨c, s⟩
    · rw [skipLines, hrest]
      exact ⟨nofun, nofun⟩
    · rw [hrest, List.length_cons, Nat.add_le_add_iff_right] at h
      have hcons : OpenLines (c :: s) ↔ (∃ rest, LineSkips c s rest ∧ OpenLines rest) ∨ LastLine c s := by
        constructor
        · rintro (⟨hskip, hopen⟩ | hlast)
          · exact Or.inl ⟨_, hskip, hopen⟩
          · exact Or.inr hlast
        · rintro (⟨_, hskip, hopen⟩ | hlast)
          · exact .skip hskip hopen
          · exact .last hlast
      rw [skipLines, hrest, hcons]
      simp only
      split
      · rename_i hlabel
        have hlast : LastLine c s ↔ c = chr '\r' ∧ s = [] := by
          constructor
          · rintro (⟨-, hcr, hs⟩ | ⟨hother, -⟩)
            · exact ⟨hcr, hs⟩
            · cases hlabel.symm.trans hother
          · exact fun ⟨hcr, hs⟩ => .newline hlabel hcr hs
        rcases hskip : skipNewline c s with _ | rest
        · exact ⟨fun _ => Or.inr (hlast.mpr (skipNewline_none.mp hskip)), fun _ => rfl⟩
        · obtain ⟨hrest', hno, hlen⟩ := skipNewline_some hskip
          have hskips : ∀ u, LineSkips c s u ↔ u = rest := by
            intro u
            rw [← hrest']
            constructor
            · rintro (hother | ⟨-, hu⟩ | ⟨hother, -⟩)
              · cases hlabel.symm.trans hother
              · exact hu
              · cases hlabel.symm.trans hother
            · exact fun hu => .newline hlabel hu
          rw [ih (Nat.le_trans hlen h), hlast]
          simp [hskips, hno]
      · rename_i hlabel
        have hlast : LastLine c s ↔ Passed inComment s := by
          constructor
          · rintro (⟨hother, -, -⟩ | ⟨-, hs⟩)
            · cases hlabel.symm.trans hother
            · exact hs
          · exact fun hs => .comment hlabel hs
        rcases hskip : skipComment s with _ | ⟨n, rest⟩
        · exact ⟨fun _ => Or.inr (hlast.mpr (skipComment_none.mp hskip)), fun _ => rfl⟩
        · obtain ⟨hrest', hno, hlen⟩ := skipComment_some hskip
          have hskips : ∀ u, LineSkips c s u ↔ u = rest := by
            intro u
            rw [← hrest']
            constructor
            · rintro (hother | ⟨hother, -⟩ | ⟨-, hu⟩)
              · cases hlabel.symm.trans hother
              · cases hlabel.symm.trans hother
              · exact hu
            · exact fun hu => .comment hlabel hu
          rw [ih (Nat.le_trans hlen h), hlast]
          simp [hskips, hno]
      · rename_i hlabel
        rw [ih h]
        refine ⟨fun hopen => Or.inl ⟨s, .blank hlabel, hopen⟩, ?_⟩
        rintro (⟨rest, hskip, hopen⟩ | hlast)
        · rcases hskip with hskip | ⟨hother, -⟩ | ⟨hother, -⟩
          · exact hopen
          · cases hlabel.symm.trans hother
          · cases hlabel.symm.trans hother
        · rcases hlast with ⟨hother, -, -⟩ | ⟨hother, -⟩
          · cases hlabel.symm.trans hother
          · cases hlabel.symm.trans hother
      · rename_i hnewline hcomment hblank
        refine ⟨nofun, ?_⟩
        rintro (⟨rest, hskip, -⟩ | hlast)
        · rcases hskip with hother | ⟨hother, -⟩ | ⟨hother, -⟩
          · exact absurd hother hblank
          · exact absurd hother hnewline
          · exact absurd hother hcomment
        · rcases hlast with ⟨hother, -, -⟩ | ⟨hother, -⟩
          · exact absurd hother hnewline
          · exact absurd hother hcomment

/-! ## One turn -/

section

variable {t : Tokenizer} {b : Int} {k : Bool} {c : Byte} {s : Bytes}

theorem skips_iff {u : Bytes} : Skips b c s u ↔
    match label c with
    | .blank => u = s
    | .comma => b ≤ 0 ∧ u = s
    | .newline => b ≠ 0 ∧ NewlineUpTo c s u
    | .numberSign => CommentUpTo s u
    | _ => False := by
  constructor
  · rintro (h | ⟨h, hb⟩ | ⟨h, hb, hu⟩ | ⟨h, hu⟩)
    · simp [h]
    · simp [h, hb]
    · simp [h, hb, hu]
    · simp [h, hu]
  · intro h
    split at h
    · rename_i hlabel
      exact h ▸ .blank hlabel
    · rename_i hlabel
      exact h.2 ▸ .comma hlabel h.1
    · rename_i hlabel
      exact .newline hlabel h.1 h.2
    · rename_i hlabel
      exact .comment hlabel h
    · exact h.elim

theorem lastToken_iff : LastToken b k c s ↔
    match label c with
    | .equalSign => (b ≠ 0 ∨ k = true) ∧ s = []
    | .exclamationMark => k = true ∧ s = []
    | .plusSign => s = []
    | .quotationMark => Unclosed s
    | .numberSign => Passed inComment s
    | .newline => if b = 0 then OpenLines (c :: s) else c = chr '\r' ∧ s = []
    | .other =>
      if k = true then Passed lightIsalpha (c :: s)
      else if lightIsdigit c = true then Passed lightIsdigit (c :: s)
      else Passed Tokenizer.keyChar (c :: s)
    | _ => False := by
  constructor
  · intro h
    cases h with
    | equalSign h hmode hs => simp [h, hmode, hs]
    | exclamationMark h hmode hs => simp [h, hmode, hs]
    | plusSign h hs => simp [h, hs]
    | string h hs => simp [h, hs]
    | comment h hs => simp [h, hs]
    | newline h hb hc hs =>
      simp only [h, hb, if_false]
      exact ⟨hc, hs⟩
    | lines h hb hs => simp [h, hb, hs]
    | word h hk hs => simp [h, hk, hs]
    | integer h hk hs => simp [h, hk, hs, (passed_cons.mp hs).1.2]
    | key h hk hc hs => simp [h, hk, hc, hs]
  · intro h
    split at h
    · rename_i hlabel
      exact .equalSign hlabel h.1 h.2
    · rename_i hlabel
      exact .exclamationMark hlabel h.1 h.2
    · rename_i hlabel
      exact .plusSign hlabel h
    · rename_i hlabel
      exact .string hlabel h
    · rename_i hlabel
      exact .comment hlabel h
    · rename_i hlabel
      split at h
      · rename_i hb
        exact .lines hlabel hb h
      · rename_i hb
        exact .newline hlabel hb h.1 h.2
    · rename_i hlabel
      split at h
      · rename_i hk
        exact .word hlabel hk h
      · rename_i hk
        split at h
        · exact .integer hlabel (by simpa using hk) h
        · rename_i hc
          exact .key hlabel (by simpa using hk) (by simpa using hc) h
    · exact h.elim

/-- What a turn says about the text. -/
def Describes (t : Tokenizer) (c : Byte) (s : Bytes) : Option Turn → Prop
  | none => LastToken t.inBrace t.inCond c s
  | some (.next t') => (∀ u, Skips t.inBrace c s u ↔ u = t'.rest) ∧ ¬ LastToken t.inBrace t.inCond c s ∧
    t'.inBrace = t.inBrace ∧ t'.inCond = t.inCond ∧ t'.rest.length ≤ s.length
  | some _ => (∀ u, ¬ Skips t.inBrace c s u) ∧ ¬ LastToken t.inBrace t.inCond c s

theorem describes_end {r : Option Turn} (hskip : ∀ u, ¬ Skips t.inBrace c s u)
    (hnext : ∀ t', r ≠ some (.next t')) (hnone : r = none ↔ LastToken t.inBrace t.inCond c s) : Describes t c s r := by
  rcases r with _ | t' | ⟨tid, token, t'⟩ | ⟨message, t'⟩
  · exact hnone.mp rfl
  · exact absurd rfl (hnext t')
  · exact ⟨hskip, fun h => by cases hnone.mpr h⟩
  · exact ⟨hskip, fun h => by cases hnone.mpr h⟩

theorem describes_equalSign (h : label c = .equalSign) : Describes t c s (t.equalSign s) := by
  refine describes_end (fun u => by simp [skips_iff, h]) ?_ ?_
  · intro t'
    unfold Tokenizer.equalSign
    repeat' split
    all_goals simp
  · rw [lastToken_iff, h]
    unfold Tokenizer.equalSign
    by_cases hb : t.inBrace = 0
    · rcases hk : t.inCond with _ | _
      · rcases hkey : t.inKey with _ | _ <;> simp [hb]
      · cases s <;> simp [hb]
    · cases s <;> simp [hb]

theorem describes_exclamationMark (h : label c = .exclamationMark) : Describes t c s (t.exclamationMark s) := by
  refine describes_end (fun u => by simp [skips_iff, h]) ?_ ?_
  · intro t'
    unfold Tokenizer.exclamationMark
    repeat' split
    all_goals simp
  · rw [lastToken_iff, h]
    unfold Tokenizer.exclamationMark
    rcases hk : t.inCond with _ | _
    · simp
    · cases s <;> simp

theorem describes_plusSign (h : label c = .plusSign) : Describes t c s (t.plusSign s) := by
  refine describes_end (fun u => by simp [skips_iff, h]) ?_ ?_
  · intro t'
    unfold Tokenizer.plusSign
    repeat' split
    all_goals simp
  · rw [lastToken_iff, h]
    unfold Tokenizer.plusSign
    cases s <;> simp

theorem describes_quotationMark (h : label c = .quotationMark) : Describes t c s (t.quotationMark s) := by
  refine describes_end (fun u => by simp [skips_iff, h]) ?_ ?_
  · intro t' heq
    obtain ⟨r, -, hr⟩ := Option.map_eq_some_iff.mp heq
    rcases r with _ | ⟨token, rest⟩ <;> cases hr
  · rw [lastToken_iff, h, Tokenizer.quotationMark, Option.map_eq_none_iff]
    exact scanString_none

theorem describes_numberSign (h : label c = .numberSign) : Describes t c s (t.numberSign s) := by
  have hlast : LastToken t.inBrace t.inCond c s ↔ Passed inComment s := by rw [lastToken_iff, h]
  have hskips : ∀ u, Skips t.inBrace c s u ↔ CommentUpTo s u := fun u => by rw [skips_iff, h]
  unfold Tokenizer.numberSign
  rcases hskip : skipComment s with _ | ⟨n, rest⟩
  · exact hlast.mpr (skipComment_none.mp hskip)
  · obtain ⟨hrest, hno, hlen⟩ := skipComment_some hskip
    exact ⟨fun u => (hskips u).trans (hrest u), fun h => hno (hlast.mp h), rfl, rfl, hlen⟩

theorem describes_endOfLine (h : label c = .newline) : Describes t c s (t.endOfLine c s) := by
  unfold Tokenizer.endOfLine
  by_cases hb : t.inBrace = 0
  · rw [if_pos hb]
    refine describes_end (fun u => by simp [skips_iff, h, hb]) ?_ ?_
    · intro t' heq
      obtain ⟨r, -, hr⟩ := Option.map_eq_some_iff.mp heq
      cases hr
    · rw [lastToken_iff, h, Option.map_eq_none_iff]
      simp only [hb, if_true]
      exact skipLines_none (Nat.le_refl _)
  · rw [if_neg hb]
    have hlast : LastToken t.inBrace t.inCond c s ↔ c = chr '\r' ∧ s = [] := by
      rw [lastToken_iff, h]
      simp [hb]
    have hskips : ∀ u, Skips t.inBrace c s u ↔ NewlineUpTo c s u := fun u => by
      rw [skips_iff, h]
      simp [hb]
    rcases hskip : skipNewline c s with _ | rest
    · exact hlast.mpr (skipNewline_none.mp hskip)
    · obtain ⟨hrest, hno, hlen⟩ := skipNewline_some hskip
      exact ⟨fun u => (hskips u).trans (hrest u), fun h => hno (hlast.mp h), rfl, rfl, hlen⟩

theorem describes_comma (h : label c = .comma) : Describes t c s (some (t.comma s)) := by
  have hlast : ¬ LastToken t.inBrace t.inCond c s := by
    rw [lastToken_iff, h]
    simp
  unfold Tokenizer.comma
  split
  · rename_i hb
    refine ⟨fun u => ?_, hlast⟩
    rw [skips_iff, h]
    exact fun hu => absurd hb (Int.not_lt.mpr hu.1)
  · rename_i hb
    refine ⟨fun u => ?_, hlast, rfl, rfl, Nat.le_refl _⟩
    rw [skips_iff, h]
    simp [Int.not_lt.mp hb]

theorem word_ne_next {tid : Bytes → TokenId} {message : String} {r : Bytes × Bytes} {t' : Tokenizer} :
    t.word tid message r ≠ .next t' := by
  unfold Tokenizer.word
  split <;> simp

theorem describes_other (h : label c = .other) : Describes t c s (t.other c s) := by
  refine describes_end (fun u => by simp [skips_iff, h]) ?_ ?_
  · intro t' heq
    unfold Tokenizer.other at heq
    split at heq
    · obtain ⟨r, -, hr⟩ := Option.map_eq_some_iff.mp heq
      exact word_ne_next hr
    · split at heq
      · obtain ⟨r, -, hr⟩ := Option.map_eq_some_iff.mp heq
        cases hr
      · obtain ⟨r, -, hr⟩ := Option.map_eq_some_iff.mp heq
        exact word_ne_next hr
  · rw [lastToken_iff, h]
    unfold Tokenizer.other
    split
    · simp [scanWhile_none]
    · split <;> simp [scanWhile_none]

/-- **What one turn of the loop does**, for each first byte. -/
theorem describes_turn : Describes t c s (t.turn c s) := by
  have htoken : ∀ {tid token t'}, (∀ u, ¬ Skips t.inBrace c s u) → ¬ LastToken t.inBrace t.inCond c s →
      Describes t c s (some (.token tid token t')) := fun hskip hlast => ⟨hskip, hlast⟩
  unfold Tokenizer.turn
  split
  · exact describes_equalSign ‹_›
  · exact describes_exclamationMark ‹_›
  · rename_i h
    refine ⟨fun u => ?_, ?_, rfl, rfl, Nat.le_refl _⟩
    · rw [skips_iff, h]
    · rw [lastToken_iff, h]
      simp
  · exact describes_endOfLine ‹_›
  · exact describes_comma ‹_›
  · exact describes_quotationMark ‹_›
  · rename_i h
    exact htoken (by simp [skips_iff, h]) (by simp [lastToken_iff, h])
  · rename_i h
    exact htoken (by simp [skips_iff, h]) (by simp [lastToken_iff, h])
  · rename_i h
    exact htoken (by simp [skips_iff, h]) (by simp [lastToken_iff, h])
  · exact describes_plusSign ‹_›
  · rename_i h
    exact htoken (by simp [skips_iff, h]) (by simp [lastToken_iff, h])
  · exact describes_numberSign ‹_›
  · exact describes_other ‹_›

end

/-! ## A call, and all of them -/

theorem unfinished_cons {b : Int} {k : Bool} {c : Byte} {s : Bytes} : Unfinished b k (c :: s) ↔
    (∃ rest, Skips b c s rest ∧ Unfinished b k rest) ∨ LastToken b k c s := by
  constructor
  · rintro (⟨hskip, hrest⟩ | hlast)
    · exact Or.inl ⟨_, hskip, hrest⟩
    · exact Or.inr hlast
  · rintro (⟨_, hskip, hrest⟩ | hlast)
    · exact .skip hskip hrest
    · exact .last hlast

theorem not_unfinished_nul {b : Int} {k : Bool} {s : Bytes} : ¬ Unfinished b k (0 :: s) := by
  have hlabel : label 0 = .other := by decide
  have hpassed : ∀ p, ¬ Passed p (0 :: s) := fun p h => (passed_cons.mp h).1.1 rfl
  rw [unfinished_cons, lastToken_iff]
  rintro (⟨rest, hskip, -⟩ | hlast)
  · rw [skips_iff, hlabel] at hskip
    exact hskip
  · rw [hlabel] at hlast
    simp only at hlast
    split at hlast
    · exact hpassed _ hlast
    · split at hlast <;> exact hpassed _ hlast

theorem tokenLoop_none {fuel : Nat} {t : Tokenizer} (h : t.rest.length ≤ fuel) :
    tokenLoop fuel t = none ↔ Unfinished t.inBrace t.inCond t.rest := by
  induction fuel generalizing t with
  | zero =>
    have hnil : t.rest = [] := List.eq_nil_of_length_eq_zero (Nat.le_zero.mp h)
    rw [hnil]
    exact ⟨nofun, nofun⟩
  | succ fuel ih =>
    rcases hrest : t.rest with _ | ⟨c, s⟩
    · rw [tokenLoop, hrest]
      exact ⟨nofun, nofun⟩
    · rw [hrest, List.length_cons, Nat.add_le_add_iff_right] at h
      rw [tokenLoop, hrest]
      simp only
      split
      · rename_i hnul
        rw [hnul]
        exact ⟨nofun, fun hun => absurd hun not_unfinished_nul⟩
      · rw [unfinished_cons]
        have hturn := describes_turn (t := t) (c := c) (s := s)
        rcases hr : t.turn c s with _ | t' | ⟨tid, token, t'⟩ | ⟨message, t'⟩
        · rw [hr] at hturn
          exact ⟨fun _ => Or.inr hturn, fun _ => rfl⟩
        · rw [hr] at hturn
          obtain ⟨hskips, hlast, hbrace, hcond, hlen⟩ := hturn
          simp only
          rw [ih (Nat.le_trans hlen h), hbrace, hcond]
          simp [hskips, hlast]
        · rw [hr] at hturn
          obtain ⟨hskips, hlast⟩ := hturn
          refine ⟨nofun, ?_⟩
          rintro (⟨rest, hskip, -⟩ | hlast')
          · exact absurd hskip (hskips rest)
          · exact absurd hlast' hlast
        · rw [hr] at hturn
          obtain ⟨hskips, hlast⟩ := hturn
          refine ⟨nofun, ?_⟩
          rintro (⟨rest, hskip, -⟩ | hlast')
          · exact absurd hskip (hskips rest)
          · exact absurd hlast' hlast

/-- **A call reads behind the input exactly where its text is unfinished.** -/
theorem configTokenizer_none (t : Tokenizer) :
    configTokenizer t = none ↔ Unfinished t.inBrace t.inCond t.rest := tokenLoop_none (Nat.le_refl _)

/-- The calls of `config_parse`: `t` is the tokenizer before a call, and `seen` the tokens before. A call follows a token
as long as `ok` holds of what the parser has got by then. -/
inductive Called (ok : List (TokenId × Bytes) → Bool) (input : Bytes) : Tokenizer → List (TokenId × Bytes) → Prop
  | init : Called ok input (Tokenizer.init input) []
  | next {t t' : Tokenizer} {seen : List (TokenId × Bytes)} {tid : TokenId} {token : Bytes} : Called ok input t seen →
    configTokenizer t = some (.token tid token, t') → ok seen = true → Called ok input t' (seen ++ [(tid, token)])

/-- **The tokenizer stays inside its input exactly if no call starts in front of an unfinished text**, for every parser. -/
theorem tokenizer_inside_iff (ok : List (TokenId × Bytes) → Bool) (input : Bytes) :
    (∀ t seen, Called ok input t seen → configTokenizer t ≠ none) ↔
      ∀ t seen, Called ok input t seen → ¬ Unfinished t.inBrace t.inCond t.rest := by
  simp only [ne_eq, configTokenizer_none]

/-- `server.port = 80` without an end of line: the digits are read to the end of the input, and on. -/
theorem tokenizer_reads_behind :
    ∃ t seen, Called (fun _ => true) (ascii "server.port = 80") t seen ∧ configTokenizer t = none := by
  have hkey : configTokenizer (Tokenizer.init (ascii "server.port = 80")) =
      some (.token .lkey (ascii "server.port"), ⟨ascii " = 80", 1, 12, true, 0, false⟩) := by decide
  have hassign : configTokenizer ⟨ascii " = 80", 1, 12, true, 0, false⟩ =
      some (.token .assign (ascii "="), ⟨ascii " 80", 1, 14, true, 0, false⟩) := by decide
  exact ⟨_, _, .next (.next .init hkey rfl) hassign rfl, by decide⟩

end Lighttpd.Config
