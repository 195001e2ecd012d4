import Lighttpd.Ssi.Statement

/-!
# The expressions of a server-side include (`mod_ssi_expr.c`)

`ssi_expr_tokenizer` splits an expression into tokens for the parser that the build makes from `mod_ssi_exprparser.y`.
What a token is (`Lexeme`) and what an expression is worth (`Lexes`, `ExprParser.eval`) are stated on their own. The
tokenizer gives these tokens, and the evaluation ends, exactly if every token is plain (`ssi_eval_expr_iff`).

- `tokenizer_lexeme`: a plain token is what the tokenizer gives;
- `not_correct`: one that is not plain makes the tokenizer stand still, read a wrong name or read on;
- `call_spec`: one call.
-/

namespace Lighttpd.Ssi

/-! ## The source -/

/-- The tokens of `mod_ssi_exprparser.y`. -/
inductive TokenId
  | and | or | eq | ne | gt | ge | lt | le | not | lparan | rparan | value
deriving DecidableEq

structure ExprToken where
  id : TokenId
  text : Bytes
deriving DecidableEq

/-- `ssi_cgi_env` and `ssi_vars` of the plugin: the values that `array_get_element` finds. -/
structure SsiVars where
  ssiCgiEnv : Bytes → Option Bytes
  ssiVars : Bytes → Option Bytes

def SsiVars.value (v : SsiVars) (name : Bytes) : Bytes := ((v.ssiCgiEnv name).or (v.ssiVars name)).getD []

/-- A call of `ssi_expr_tokenizer`: it returns 1 with `offset` moved by `n`, 0 or -1, or an assertion fails. -/
inductive TokenCall
  | token (t : ExprToken) (n : Nat)
  | done
  | failed
  | abort
deriving DecidableEq

/-- `offset` has been moved by `k` before. -/
def TokenCall.skip (k : Nat) : TokenCall → TokenCall
  | .token t n => .token t (k + n)
  | r => r

def isgraph (c : Byte) : Bool := 33 ≤ c && c ≤ 126

def lbrace : Byte := 123
def rbrace : Byte := 125

/-- How far the characters with `p` go in a text that ends with a NUL; the loop does not read behind it. -/
def scanLen (p : Byte → Bool) : Bytes → Option Nat
  | [] => none
  | c :: s => if p c then (scanLen p s).map (· + 1) else some 0

def isNameChar (c : Byte) : Bool := lightIsalpha c || c == chr '_' || lightIsdigit c

def nameLen : Bytes → Option Nat
  | [] => none
  | c :: s => if lightIsalpha c || c == chr '_' then (scanLen isNameChar s).map (· + 1) else some 0

/-- An operator that has a second character, or another without it; `u` is what stands behind the first. -/
def operatorCall (u : Bytes) (second : Byte) (two one : TokenCall) : Option TokenCall :=
  u.head?.map fun c => if c = second then two else one

/-- `ssi_expr_tokenizer`, for the characters from `offset` on with the NUL behind them; `none` where it would read behind
the NUL. -/
def ssiExprTokenizer (v : SsiVars) : Bytes → Option TokenCall
  | [] => none
  | c :: u =>
    if c = 0 then some .done
    else if c = chr '=' then some (.token ⟨.eq, ascii "(=)"⟩ 1)
    else if c = chr '>' then
      operatorCall u (chr '=') (.token ⟨.ge, ascii "(>=)"⟩ 2) (.token ⟨.gt, ascii "(>)"⟩ 1)
    else if c = chr '<' then
      operatorCall u (chr '=') (.token ⟨.le, ascii "(<=)"⟩ 2) (.token ⟨.lt, ascii "(<)"⟩ 1)
    else if c = chr '!' then
      operatorCall u (chr '=') (.token ⟨.ne, ascii "(!=)"⟩ 2) (.token ⟨.not, ascii "(!)"⟩ 1)
    else if c = chr '&' then operatorCall u (chr '&') (.token ⟨.and, ascii "(&&)"⟩ 2) .failed
    else if c = chr '|' then operatorCall u (chr '|') (.token ⟨.or, ascii "(||)"⟩ 2) .failed
    else if c = 9 ∨ c = 32 then (ssiExprTokenizer v u).map (.skip 1)
    else if c = squote then
      (scanLen (fun d => d ≠ 0 && d ≠ squote) u).bind fun i =>
        u[i]?.map fun d => if d ≠ 0 then .token ⟨.value, u.take i⟩ (i + 2) else .failed
    else if c = chr '(' then some (.token ⟨.lparan, ascii "("⟩ 1)
    else if c = chr ')' then some (.token ⟨.rparan, ascii ")"⟩ 1)
    else if c = chr '$' then
      u.head?.bind fun d =>
        if d = lbrace then
          (scanLen (fun d => d ≠ 0 && d ≠ rbrace) u.tail).bind fun i =>
            u.tail[i]?.map fun d =>
              if d ≠ rbrace then .failed
              -- the name has the length `i - 3` of the source, a `size_t`; `i` there counts from the `$`
              else if i = 0 then .abort
              else .token ⟨.value, v.value (u.tail.take (i - 1))⟩ (i + 2)
        else (nameLen u).map fun i => .token ⟨.value, v.value (u.take i)⟩ (i + 1)
    else (scanLen isgraph (c :: u)).map fun i => .token ⟨.value, (c :: u).take i⟩ i

/-- The parser, with `context`: a token for `ssiexprparser`, the end of the input, `ok` and `val.bo`. -/
structure ExprParser (π : Type) where
  alloc : π
  feed : π → ExprToken → π
  finish : π → π
  ok : π → Bool
  val : π → Int

section

variable {π : Type}

/-- What `ssi_eval_expr` returns behind the loop; the last call of the tokenizer has failed or not. -/
def ExprParser.result (P : ExprParser π) (s : π) (failed : Bool) : Int :=
  let s := P.finish s
  if failed then -1 else if P.ok s then P.val s else -1

inductive Outcome
  | value (bo : Int)
  | outside
  | abort
  | running
deriving DecidableEq

def evalLoop (v : SsiVars) (P : ExprParser π) : Nat → π → Bytes → Outcome
  | 0, _, _ => .running
  | fuel + 1, s, u =>
    match ssiExprTokenizer v u with
    | none => .outside
    | some .abort => .abort
    | some .failed => .value (P.result s true)
    | some .done => .value (P.result s false)
    | some (.token t n) =>
      if P.ok s then evalLoop v P fuel (P.feed s t) (u.drop n) else .value (P.result s false)

def ssiEvalExpr (v : SsiVars) (P : ExprParser π) (fuel : Nat) (expr : Bytes) : Outcome :=
  evalLoop v P fuel P.alloc (expr ++ [0])

/-- What the tokens `ts` are worth. -/
def ExprParser.eval (P : ExprParser π) (s : π) (failed : Bool) : List ExprToken → Int
  | [] => P.result s failed
  | t :: ts => if P.ok s then P.eval (P.feed s t) failed ts else P.result s false

end

/-! ## The tokens of an expression -/

/-- The characters that end a word. -/
def specials : Bytes := ascii "=!<>&|()'"

def isWordChar (c : Byte) : Bool := isgraph c && !specials.contains c

/-- A name, perhaps an empty one. -/
def Name : Bytes → Prop
  | [] => True
  | c :: s => (lightIsalpha c = true ∨ c = chr '_') ∧ ∀ d ∈ s, isNameChar d = true

/-- The operators that no character can follow to make another. -/
def operators : List (Bytes × ExprToken) :=
  [(ascii "=", ⟨.eq, ascii "(=)"⟩), (ascii ">=", ⟨.ge, ascii "(>=)"⟩), (ascii "<=", ⟨.le, ascii "(<=)"⟩),
    (ascii "!=", ⟨.ne, ascii "(!=)"⟩), (ascii "&&", ⟨.and, ascii "(&&)"⟩), (ascii "||", ⟨.or, ascii "(||)"⟩),
    (ascii "(", ⟨.lparan, ascii "("⟩), (ascii ")", ⟨.rparan, ascii ")"⟩)]

/-- The operators that a `=` makes another of. -/
def shortOperators : List (Bytes × ExprToken) :=
  [(ascii ">", ⟨.gt, ascii "(>)"⟩), (ascii "<", ⟨.lt, ascii "(<)"⟩), (ascii "!", ⟨.not, ascii "(!)"⟩)]

/-- **The token `t` is written `w`** at the start of `w ++ rest`. -/
inductive Lexeme (v : SsiVars) : Bytes → Bytes → ExprToken → Prop
  | operator {w rest : Bytes} {t : ExprToken} (h : (w, t) ∈ operators) : Lexeme v w rest t
  | short {w rest : Bytes} {t : ExprToken} (h : (w, t) ∈ shortOperators) (hrest : rest.head? ≠ some (chr '=')) :
      Lexeme v w rest t
  | quoted {x rest : Bytes} (h : ∀ c ∈ x, c ≠ 0 ∧ c ≠ squote) : Lexeme v (squote :: (x ++ [squote])) rest ⟨.value, x⟩
  | named {x rest : Bytes} (h : Name x) (hend : ∀ c r, rest = c :: r → ¬ Name (x ++ [c]))
      (hbrace : (x ++ rest).head? ≠ some lbrace) : Lexeme v (chr '$' :: x) rest ⟨.value, v.value x⟩
  | braced {x rest : Bytes} (h : ∀ c ∈ x, c ≠ 0 ∧ c ≠ rbrace) :
      Lexeme v (chr '$' :: lbrace :: (x ++ [rbrace])) rest ⟨.value, v.value x⟩
  | word {x rest : Bytes} (hne : x ≠ []) (h : ∀ c ∈ x, isWordChar c = true) (hvar : x.head? ≠ some (chr '$'))
      (hend : ∀ c r, rest = c :: r → isWordChar c = false) : Lexeme v x rest ⟨.value, x⟩

def isBlank (c : Byte) : Bool := c == 9 || c == 32

def skipBlanks (u : Bytes) : Bytes := u.dropWhile isBlank

/-- No token begins `u`. -/
def NoLexeme (v : SsiVars) (u : Bytes) : Prop := ∀ w rest t, u = w ++ rest → ¬ Lexeme v w rest t

/-- **The tokens of a text** with the NUL behind it, and whether something stands behind them that is no token. -/
inductive Lexes (v : SsiVars) : Bytes → List ExprToken → Bool → Prop
  | done {u : Bytes} (h : skipBlanks u = [0]) : Lexes v u [] false
  | failed {u : Bytes} (h : skipBlanks u ≠ [0]) (hno : NoLexeme v (skipBlanks u)) : Lexes v u [] true
  | token {u w rest : Bytes} {t : ExprToken} {ts : List ExprToken} {failed : Bool} (h : skipBlanks u = w ++ rest)
      (hw : Lexeme v w rest t) (hrest : Lexes v rest ts failed) : Lexes v u (t :: ts) failed

/-- A call gives the token at the start of `u`, and moves `offset` behind it. -/
def Correct (v : SsiVars) (u : Bytes) : TokenCall → Prop
  | .token t n => 0 < n ∧ ∃ w rest, skipBlanks u = w ++ rest ∧ Lexeme v w rest t ∧ u.drop n = rest
  | .done => skipBlanks u = [0]
  | .failed => skipBlanks u ≠ [0] ∧ NoLexeme v (skipBlanks u)
  | .abort => False

/-- The calls reach `u'` from `u`. -/
inductive Calls (v : SsiVars) : Bytes → Bytes → Prop
  | refl (u : Bytes) : Calls v u u
  | next {u u' : Bytes} {t : ExprToken} {n : Nat} (h : ssiExprTokenizer v u = some (.token t n))
      (hrest : Calls v (u.drop n) u') : Calls v u u'

/-- **The expression is evaluated** as its tokens say: every call reads within the text, gives the token that stands there
and moves on, and the evaluation ends. -/
structure Evaluated (v : SsiVars) (expr : Bytes) : Prop where
  calls : ∀ u, Calls v (expr ++ [0]) u → ∃ r, ssiExprTokenizer v u = some r ∧ Correct v u r
  value : ∃ ts failed, (∀ ts' failed', Lexes v (expr ++ [0]) ts' failed' ↔ ts' = ts ∧ failed' = failed) ∧
    ∀ (π : Type) (P : ExprParser π), ∃ fuel, ssiEvalExpr v P fuel expr = .value (P.eval P.alloc failed ts)

/-- What stands at the start of `u` is plain: a printable character, no name in braces, and no word with an operator
directly behind it. -/
def Plain : Bytes → Prop
  | [] => True
  | c :: u =>
    c = 0 ∨ isgraph c = true ∧ (c = chr '$' → u.head? = some lbrace → rbrace ∉ u) ∧
      (c ≠ chr '$' → isWordChar c = true → ∀ d ∈ (u.dropWhile isWordChar).head?, d ∉ specials)

/-- A token begins at `u'`, or the tokens of `u` end there. -/
inductive Begins (v : SsiVars) : Bytes → Bytes → Prop
  | first (u : Bytes) : Begins v u (skipBlanks u)
  | next {u u' w rest : Bytes} {t : ExprToken} (h : skipBlanks u = w ++ rest) (hw : Lexeme v w rest t)
      (hrest : Begins v rest u') : Begins v u u'

/-- Every token of the text is plain. -/
def PlainFrom (v : SsiVars) (u : Bytes) : Prop := ∀ u', Begins v u u' → Plain u'

instance : (u : Bytes) → Decidable (Plain u)
  | [] => inferInstanceAs (Decidable True)
  | c :: u => inferInstanceAs (Decidable (c = 0 ∨ isgraph c = true ∧ (c = chr '$' → u.head? = some lbrace → rbrace ∉ u) ∧
      (c ≠ chr '$' → isWordChar c = true → ∀ d ∈ (u.dropWhile isWordChar).head?, d ∉ specials)))

/-- **Every token of the expression is plain.** -/
def PlainTokens (v : SsiVars) (expr : Bytes) : Prop := PlainFrom v (expr ++ [0])

/-! ## One call -/

def caseChars : Bytes := 0 :: 9 :: 32 :: chr '$' :: specials

theorem isgraph_of_special {c : Byte} (h : c ∈ specials) : isgraph c = true :=
  have hall : specials.all isgraph = true := rfl
  List.all_eq_true.mp hall c h

theorem scanLen_append {p : Byte → Bool} {x r : Bytes} {c : Byte} (h : ∀ d ∈ x, p d = true) (hc : p c = false) :
    scanLen p (x ++ c :: r) = some x.length := by
  induction x with
  | nil => simp [scanLen, hc]
  | cons d x ih =>
    rw [List.cons_append, scanLen, if_pos (h d (by simp)), ih fun e he => h e (by simp [he])]
    rfl

theorem scanLen_takeWhile {p : Byte → Bool} {u : Bytes} (h : ∃ c ∈ u, p c = false) :
    scanLen p u = some (u.takeWhile p).length := by
  induction u with
  | nil => simp at h
  | cons d u ih =>
    cases hd : p d with
    | false => simp [scanLen, hd]
    | true =>
      obtain ⟨c, hc, hp⟩ := h
      have hne : c ≠ d := fun hcd => by simp [hcd, hd] at hp
      rw [scanLen, if_pos hd, ih ⟨c, (List.mem_cons.mp hc).resolve_left hne, hp⟩, List.takeWhile_cons_of_pos hd]
      rfl

section

variable {v : SsiVars} {u w x r : Bytes} {c : Byte} {t : ExprToken}

/-- The `default` of the `switch`. -/
theorem tokenizer_default (h : c ∉ caseChars) (u : Bytes) :
    ssiExprTokenizer v (c :: u) = (scanLen isgraph (c :: u)).map fun i => .token ⟨.value, (c :: u).take i⟩ i := by
  simp [caseChars, specials, ascii, chr] at h
  simp [ssiExprTokenizer, chr, squote, h]

theorem tokenizer_blank (h : isBlank c = true) (u : Bytes) :
    ssiExprTokenizer v (c :: u) = (ssiExprTokenizer v u).map (.skip 1) := by
  have hc : c = 9 ∨ c = 32 := by simpa [isBlank] using h
  rw [ssiExprTokenizer]
  rcases hc with rfl | rfl <;> simp [chr]

theorem TokenCall.skip_skip (r : TokenCall) (j k : Nat) : (r.skip j).skip k = r.skip (k + j) := by
  cases r <;> simp [TokenCall.skip, Nat.add_assoc]

theorem tokenizer_skipBlanks (u : Bytes) : ssiExprTokenizer v u =
    (ssiExprTokenizer v (skipBlanks u)).map (.skip (u.length - (skipBlanks u).length)) := by
  induction u with
  | nil => rfl
  | cons c u ih =>
    have hle : (skipBlanks u).length ≤ u.length := (List.dropWhile_sublist isBlank).length_le
    cases hc : isBlank c with
    | true =>
      have hskip : skipBlanks (c :: u) = skipBlanks u := by simp [skipBlanks, hc]
      rw [tokenizer_blank hc, ih, hskip, Option.map_map, List.length_cons]
      congr 1
      funext r
      rw [Function.comp_apply, TokenCall.skip_skip]
      congr 1
      omega
    | false =>
      have hskip : skipBlanks (c :: u) = c :: u := by simp [skipBlanks, hc]
      have hid : TokenCall.skip 0 = id := by
        funext r
        cases r <;> simp [TokenCall.skip]
      rw [hskip, Nat.sub_self, hid, Option.map_id, id]

/-! ## Plain tokens -/

theorem tokenizer_operator {rest : Bytes} (h : (w, t) ∈ operators) :
    ssiExprTokenizer v (w ++ rest) = some (.token t w.length) := by
  simp only [operators, List.mem_cons, Prod.mk.injEq, List.not_mem_nil, or_false] at h
  rcases h with ⟨rfl, rfl⟩ | ⟨rfl, rfl⟩ | ⟨rfl, rfl⟩ | ⟨rfl, rfl⟩ | ⟨rfl, rfl⟩ | ⟨rfl, rfl⟩ | ⟨rfl, rfl⟩ | ⟨rfl, rfl⟩ <;>
    simp [ascii, ssiExprTokenizer, operatorCall, chr, squote]

theorem tokenizer_short {rest : Bytes} (h : (w, t) ∈ shortOperators) (hc : c ≠ chr '=') :
    ssiExprTokenizer v (w ++ c :: rest) = some (.token t w.length) := by
  simp [chr] at hc
  simp only [shortOperators, List.mem_cons, Prod.mk.injEq, List.not_mem_nil, or_false] at h
  rcases h with ⟨rfl, rfl⟩ | ⟨rfl, rfl⟩ | ⟨rfl, rfl⟩ <;> simp [ascii, ssiExprTokenizer, operatorCall, chr, hc]

theorem tokenizer_quote (u : Bytes) : ssiExprTokenizer v (squote :: u) =
    (scanLen (fun d => d ≠ 0 && d ≠ squote) u).bind fun i =>
      u[i]?.map fun d => if d ≠ 0 then .token ⟨.value, u.take i⟩ (i + 2) else .failed := by
  simp [ssiExprTokenizer, chr, squote]

theorem tokenizer_dollar (u : Bytes) : ssiExprTokenizer v (chr '$' :: u) =
    u.head?.bind fun d =>
      if d = lbrace then
        (scanLen (fun d => d ≠ 0 && d ≠ rbrace) u.tail).bind fun i =>
          u.tail[i]?.map fun d =>
            if d ≠ rbrace then .failed
            else if i = 0 then .abort
            else .token ⟨.value, v.value (u.tail.take (i - 1))⟩ (i + 2)
      else (nameLen u).map fun i => .token ⟨.value, v.value (u.take i)⟩ (i + 1) := by
  simp [ssiExprTokenizer, chr, squote]

theorem tokenizer_quoted (h : ∀ c ∈ x, c ≠ 0 ∧ c ≠ squote) (rest : Bytes) :
    ssiExprTokenizer v (squote :: (x ++ squote :: rest)) = some (.token ⟨.value, x⟩ (x.length + 2)) := by
  have hscan : scanLen (fun d => d ≠ 0 && d ≠ squote) (x ++ squote :: rest) = some x.length :=
    scanLen_append (fun d hd => by simpa using h d hd) (by simp)
  rw [tokenizer_quote, hscan]
  simp [squote]

theorem nameLen_append (h : Name x) (hend : ¬ Name (x ++ [c])) : nameLen (x ++ c :: r) = some x.length := by
  cases x with
  | nil =>
    have hc : ¬ (lightIsalpha c = true ∨ c = chr '_') := fun hc => hend ⟨hc, by simp⟩
    simp only [not_or] at hc
    simp [nameLen, hc]
  | cons d x =>
    obtain ⟨hd, hx⟩ := h
    have hc : isNameChar c = false := by
      by_contra hc
      refine hend ⟨hd, fun e he => ?_⟩
      rcases List.mem_append.mp he with he | he
      · exact hx e he
      · rw [List.mem_singleton.mp he]
        simpa using hc
    rw [List.cons_append, nameLen, if_pos (by simpa using hd), scanLen_append hx hc]
    rfl

theorem tokenizer_variable (h : Name x) (hend : ¬ Name (x ++ [c])) (hbrace : (x ++ c :: r).head? ≠ some lbrace) :
    ssiExprTokenizer v (chr '$' :: (x ++ c :: r)) = some (.token ⟨.value, v.value x⟩ (x.length + 1)) := by
  rw [tokenizer_dollar]
  cases hu : (x ++ c :: r).head? with
  | none => simp at hu
  | some d =>
    rw [hu] at hbrace
    rw [Option.bind_some, if_neg fun hd => hbrace (congrArg some hd), nameLen_append h hend]
    simp

theorem not_mem_caseChars (h : isWordChar c = true) (hc : c ≠ chr '$') : c ∉ caseChars := by
  simp only [isWordChar, isgraph, Bool.and_eq_true, decide_eq_true_eq, Bool.not_eq_true', List.contains_eq_mem,
    decide_eq_false_iff_not] at h
  obtain ⟨⟨hlow, -⟩, hspecial⟩ := h
  simp only [caseChars, List.mem_cons, not_or]
  exact ⟨by grind, by grind, by grind, hc, hspecial⟩

/-- `isgraph` and `isWordChar` end at the same place where no operator follows. -/
theorem tokenizer_word (hne : x ≠ []) (h : ∀ d ∈ x, isWordChar d = true)
    (hvar : x.head? ≠ some (chr '$')) (hend : isgraph c = false) :
    ssiExprTokenizer v (x ++ c :: r) = some (.token ⟨.value, x⟩ x.length) := by
  obtain ⟨d, x, rfl⟩ := List.exists_cons_of_ne_nil hne
  have hgraph : ∀ e ∈ d :: x, isgraph e = true := fun e he => by
    have he := h e he
    simp only [isWordChar, Bool.and_eq_true] at he
    exact he.1
  have hd : d ∉ caseChars := not_mem_caseChars (h d (by simp)) fun hd => hvar (by simp [hd])
  rw [List.cons_append, tokenizer_default hd, ← List.cons_append, scanLen_append hgraph hend]
  simp

theorem Lexeme.shape {rest : Bytes} (h : Lexeme v w rest t) : ∃ c x, w = c :: x ∧
    (c ∈ specials ∨ c = chr '$' ∧ (Name x ∨ ∃ y, x = lbrace :: (y ++ [rbrace])) ∨
      c ≠ chr '$' ∧ ∀ d ∈ c :: x, isWordChar d = true) := by
  cases h with
  | operator h =>
    have hall : ∀ p ∈ operators, p.1.head?.any specials.contains = true := by decide
    obtain ⟨c, hc, hs⟩ := (Option.any_eq_true _ _).mp (hall _ h)
    obtain ⟨x, hx⟩ := List.head?_eq_some_iff.mp hc
    exact ⟨c, x, hx, .inl (List.contains_iff_mem.mp hs)⟩
  | short h =>
    have hall : ∀ p ∈ shortOperators, p.1.head?.any specials.contains = true := by decide
    obtain ⟨c, hc, hs⟩ := (Option.any_eq_true _ _).mp (hall _ h)
    obtain ⟨x, hx⟩ := List.head?_eq_some_iff.mp hc
    exact ⟨c, x, hx, .inl (List.contains_iff_mem.mp hs)⟩
  | @quoted x => exact ⟨squote, _, rfl, .inl (by decide)⟩
  | named h => exact ⟨chr '$', _, rfl, .inr (.inl ⟨rfl, .inl h⟩)⟩
  | @braced x => exact ⟨chr '$', _, rfl, .inr (.inl ⟨rfl, .inr ⟨x, rfl⟩⟩)⟩
  | word hne h hvar =>
    obtain ⟨c, x, rfl⟩ := List.exists_cons_of_ne_nil hne
    exact ⟨c, x, rfl, .inr (.inr ⟨fun hc => hvar (by simp [hc]), h⟩)⟩

theorem dropWhile_word (hx : ∀ d ∈ x, isWordChar d = true) (hc : isWordChar c = false) :
    (x ++ c :: r).dropWhile isWordChar = c :: r := by
  rw [List.dropWhile_append_of_pos hx, List.dropWhile_cons_of_neg (by simp [hc])]

/-- **A plain token is what the tokenizer gives.** -/
theorem tokenizer_lexeme {rest : Bytes} (h : Lexeme v w rest t) (hp : Plain (w ++ rest))
    (hnul : 0 ∈ rest) : ssiExprTokenizer v (w ++ rest) = some (.token t w.length) := by
  obtain ⟨c, r, rfl⟩ := List.exists_cons_of_ne_nil (List.ne_nil_of_mem hnul)
  cases h with
  | operator h => exact tokenizer_operator h
  | short h hrest => exact tokenizer_short h fun hc => hrest (by simp [hc])
  | quoted h =>
    have hquoted := tokenizer_quoted (v := v) h (c :: r)
    simpa using hquoted
  | named h hend hbrace => exact tokenizer_variable h (hend c r rfl) hbrace
  | braced h =>
    obtain h0 | ⟨-, hname, -⟩ := hp
    · cases h0
    · exact absurd (by simp) (hname rfl rfl)
  | word hne h hvar hend =>
    have hc := hend c r rfl
    obtain ⟨d, x, rfl⟩ := List.exists_cons_of_ne_nil hne
    have hd : d ≠ chr '$' := fun hd => hvar (by simp [hd])
    apply tokenizer_word hne h hvar
    rw [List.cons_append] at hp
    obtain rfl | ⟨-, -, hword⟩ := hp
    · exact absurd (h 0 (by simp)) (by decide)
    · have hspec := hword hd (h d (by simp)) c
        (by rw [dropWhile_word (fun e he => h e (by simp [he])) hc]; rfl)
      simpa [isWordChar, hspec] using hc

/-! ## What stands at a place of an expression -/

/-- A text with a NUL behind it, and no other. -/
def Terminated (u : Bytes) : Prop := ∃ s, (0 : Byte) ∉ s ∧ u = s ++ [0]

theorem Terminated.tail (h : Terminated (c :: u)) (hc : c ≠ 0) : Terminated u := by
  obtain ⟨s, hs, hu⟩ := h
  cases s with
  | nil => exact absurd (List.cons.inj hu).1 hc
  | cons d s => exact ⟨s, fun hm => hs (by simp [hm]), (List.cons.inj hu).2⟩

theorem Terminated.rest {rest : Bytes} (h : Terminated (w ++ rest)) (hw : (0 : Byte) ∉ w) : Terminated rest := by
  induction w with
  | nil => exact h
  | cons c w ih =>
    have hc : c ≠ 0 := fun hc => hw (by simp [hc])
    exact ih (Terminated.tail h hc) fun hm => hw (by simp [hm])

theorem Terminated.nul (h : Terminated u) : (0 : Byte) ∈ u := by
  obtain ⟨s, -, rfl⟩ := h
  simp

theorem Terminated.not_mem (h : Terminated (x ++ r)) (hr : r ≠ []) : (0 : Byte) ∉ x := by
  obtain ⟨s, hs, heq⟩ := h
  have hlast := congrArg List.dropLast heq
  rw [List.dropLast_append_of_ne_nil hr, List.dropLast_concat] at hlast
  exact fun hm => hs (by simp [← hlast, hm])

theorem Terminated.cons (h : Terminated u) : ∃ c r, u = c :: r :=
  List.exists_cons_of_ne_nil (List.ne_nil_of_mem h.nul)

theorem exists_name (u : Bytes) : ∃ x rest, u = x ++ rest ∧ Name x ∧ ∀ c r, rest = c :: r → ¬ Name (x ++ [c]) := by
  cases u with
  | nil => exact ⟨[], [], rfl, trivial, nofun⟩
  | cons c u =>
    by_cases hc : lightIsalpha c = true ∨ c = chr '_'
    · refine ⟨c :: u.takeWhile isNameChar, u.dropWhile isNameChar, ?_, ⟨hc, fun d hd => List.mem_takeWhile_imp hd⟩, ?_⟩
      · rw [List.cons_append, List.takeWhile_append_dropWhile]
      · intro d r hr hname
        have hd := hname.2 d (by simp)
        have hnot := List.head?_dropWhile_not isNameChar u
        rw [hr] at hnot
        simp [hd] at hnot
    · refine ⟨[], c :: u, rfl, trivial, fun d r hr hname => hc ?_⟩
      rw [(List.cons.inj hr).1]
      exact hname.1

/-- An operator that a `=` makes another of. -/
theorem lexeme_short {d : Byte} {a b : ExprToken} (h : ([c, chr '='], a) ∈ operators)
    (h' : ([c], b) ∈ shortOperators) : ∃ w rest t, c :: d :: r = w ++ rest ∧ Lexeme v w rest t := by
  by_cases hd : d = chr '='
  · exact ⟨[c, chr '='], r, a, by simp [hd], .operator h⟩
  · exact ⟨[c], d :: r, b, rfl, .short h' (by simpa using hd)⟩

theorem lexeme_double {d : Byte} (hc : c = chr '&' ∨ c = chr '|') (h : ([c, c], t) ∈ operators) :
    (∃ w rest t, c :: d :: r = w ++ rest ∧ Lexeme v w rest t) ∨ ssiExprTokenizer v (c :: d :: r) = some .failed := by
  by_cases hd : d = c
  · exact .inl ⟨[c, c], r, t, by simp [hd], .operator h⟩
  · refine .inr ?_
    rcases hc with rfl | rfl <;>
    · simp [chr] at hd
      simp [ssiExprTokenizer, operatorCall, chr, hd]

theorem lexeme_quote (hu : Terminated u) :
    (∃ w rest t, squote :: u = w ++ rest ∧ Lexeme v w rest t) ∨ ssiExprTokenizer v (squote :: u) = some .failed := by
  obtain ⟨s, hs, rfl⟩ := hu
  by_cases hq : squote ∈ s
  · obtain ⟨x, y, rfl, hx⟩ := List.eq_append_cons_of_mem hq
    refine .inl ⟨squote :: (x ++ [squote]), y ++ [0], _, by simp, .quoted fun c hc => ⟨?_, ?_⟩⟩
    · exact fun h0 => hs (by simp [h0 ▸ hc])
    · exact fun h0 => hx (h0 ▸ hc)
  · have hscan : scanLen (fun d => d ≠ 0 && d ≠ squote) (s ++ [0]) = some s.length := by
      refine scanLen_append (fun d hd => ?_) (by decide)
      have h0 : d ≠ 0 := fun h0 => hs (h0 ▸ hd)
      have hsq : d ≠ squote := fun h0 => hq (h0 ▸ hd)
      simp [h0, hsq]
    rw [tokenizer_quote, hscan]
    simp

theorem lexeme_dollar (hu : Terminated u) (hname : u.head? = some lbrace → rbrace ∉ u) :
    (∃ w rest t, chr '$' :: u = w ++ rest ∧ Lexeme v w rest t) ∨ ssiExprTokenizer v (chr '$' :: u) = some .failed := by
  by_cases hb : u.head? = some lbrace
  · obtain ⟨r, rfl⟩ := List.head?_eq_some_iff.mp hb
    have hr : rbrace ∉ r := fun h => hname hb (by simp [h])
    obtain ⟨s, hs, rfl⟩ := hu.tail (by decide)
    have hscan : scanLen (fun d => d ≠ 0 && d ≠ rbrace) (s ++ [0]) = some s.length := by
      refine scanLen_append (fun d hd => ?_) (by decide)
      have h0 : d ≠ 0 := fun h0 => hs (h0 ▸ hd)
      have hrb : d ≠ rbrace := fun h0 => hr (by simp [h0 ▸ hd])
      simp [h0, hrb]
    refine .inr ?_
    rw [tokenizer_dollar]
    simp only [List.head?_cons, Option.bind_some, if_true, List.tail_cons, hscan]
    simp [rbrace]
  · obtain ⟨x, rest, rfl, hx, hend⟩ := exists_name u
    exact .inl ⟨chr '$' :: x, rest, _, rfl, .named hx hend hb⟩

theorem plain_cases (hu : Terminated (c :: u)) (h0 : c ≠ 0) (hblank : isBlank c = false) (hp : Plain (c :: u)) :
    (∃ w rest t, c :: u = w ++ rest ∧ Lexeme v w rest t) ∨ ssiExprTokenizer v (c :: u) = some .failed := by
  obtain h | ⟨hgraph, hname, -⟩ := hp
  · exact absurd h h0
  have htail := hu.tail h0
  by_cases hs : c ∈ specials
  · have hcases : c = chr '=' ∨ c = chr '!' ∨ c = chr '<' ∨ c = chr '>' ∨ c = chr '&' ∨ c = chr '|' ∨ c = chr '(' ∨
        c = chr ')' ∨ c = squote := by
      simpa [specials, ascii, chr, squote] using hs
    obtain ⟨d, r, rfl⟩ := htail.cons
    rcases hcases with rfl | rfl | rfl | rfl | rfl | rfl | rfl | rfl | rfl
    · exact .inl ⟨ascii "=", d :: r, ⟨.eq, ascii "(=)"⟩, rfl, .operator (by decide)⟩
    · exact .inl (lexeme_short (a := ⟨.ne, ascii "(!=)"⟩) (b := ⟨.not, ascii "(!)"⟩) (by decide)
        (by decide))
    · exact .inl (lexeme_short (a := ⟨.le, ascii "(<=)"⟩) (b := ⟨.lt, ascii "(<)"⟩) (by decide)
        (by decide))
    · exact .inl (lexeme_short (a := ⟨.ge, ascii "(>=)"⟩) (b := ⟨.gt, ascii "(>)"⟩) (by decide)
        (by decide))
    · exact lexeme_double (t := ⟨.and, ascii "(&&)"⟩) (.inl rfl) (by decide)
    · exact lexeme_double (t := ⟨.or, ascii "(||)"⟩) (.inr rfl) (by decide)
    · exact .inl ⟨ascii "(", d :: r, ⟨.lparan, ascii "("⟩, rfl, .operator (by decide)⟩
    · exact .inl ⟨ascii ")", d :: r, ⟨.rparan, ascii ")"⟩, rfl, .operator (by decide)⟩
    · exact lexeme_quote htail
  · by_cases hdollar : c = chr '$'
    · subst hdollar
      exact lexeme_dollar htail (hname rfl)
    · -- a word
      have hword : isWordChar c = true := by simp [isWordChar, hgraph, hs]
      refine .inl ⟨c :: u.takeWhile isWordChar, u.dropWhile isWordChar, _, ?_, .word (by simp) ?_ ?_ ?_⟩
      · rw [List.cons_append, List.takeWhile_append_dropWhile]
      · intro d hd
        rcases List.mem_cons.mp hd with rfl | hd
        · exact hword
        · exact List.mem_takeWhile_imp hd
      · simpa using hdollar
      · intro d r hr
        have hnot := List.head?_dropWhile_not isWordChar u
        rw [hr] at hnot
        simpa using hnot

theorem skipBlanks_cons (h : isBlank c = false) (u : Bytes) : skipBlanks (c :: u) = c :: u := by
  simp [skipBlanks, h]

theorem Correct.lexeme {a b : Bytes} (h : Correct v u (.token t a.length)) (hu : u = a ++ b)
    (hskip : skipBlanks u = u) : Lexeme v a b t := by
  obtain ⟨-, w, rest, hw, hlex, hdrop⟩ := h
  rw [hu, List.drop_left] at hdrop
  subst hdrop
  rw [hskip, hu] at hw
  obtain rfl := List.append_cancel_right hw
  exact hlex

theorem tokenizer_unprintable (hblank : isBlank c = false) (h0 : c ≠ 0) (h : isgraph c = false) (u : Bytes) :
    ssiExprTokenizer v (c :: u) = some (.token ⟨.value, []⟩ 0) := by
  have hc : c ∉ caseChars := by
    obtain ⟨htab, hspace⟩ : c ≠ 9 ∧ c ≠ 32 := by simpa [isBlank] using hblank
    simp only [caseChars, List.mem_cons, not_or]
    refine ⟨h0, htab, hspace, ?_, fun hspecial => ?_⟩
    · rintro rfl
      cases h
    · rw [isgraph_of_special hspecial] at h
      cases h
  rw [tokenizer_default hc, scanLen, if_neg (by simp [h])]
  rfl

/-- A name in braces: the last character is left out, and the `}` is left. -/
theorem tokenizer_braced (h : ∀ c ∈ x, c ≠ 0 ∧ c ≠ rbrace) (rest : Bytes) :
    ssiExprTokenizer v (chr '$' :: lbrace :: (x ++ rbrace :: rest)) =
      some (if x = [] then .abort else .token ⟨.value, v.value x.dropLast⟩ (x.length + 2)) := by
  have hscan : scanLen (fun d => d ≠ 0 && d ≠ rbrace) (x ++ rbrace :: rest) = some x.length :=
    scanLen_append (fun d hd => by simpa using h d hd) (by simp)
  rw [tokenizer_dollar]
  simp only [List.head?_cons, Option.bind_some, if_true, List.tail_cons, hscan]
  have htake : (x ++ rbrace :: rest).take (x.length - 1) = x.dropLast := by
    rw [List.take_append_of_le_length (Nat.sub_le _ _), List.dropLast_eq_take]
  simp [htake]

theorem not_lexeme_braced {rest : Bytes} (h : rbrace ∉ x) : ¬ Lexeme v (chr '$' :: lbrace :: x) rest t := by
  intro hlex
  obtain ⟨c, y, hw, hshape⟩ := hlex.shape
  obtain ⟨rfl, rfl⟩ := List.cons.inj hw
  rcases hshape with hs | ⟨-, hname | ⟨y, hy⟩⟩ | ⟨hne, -⟩
  · exact absurd hs (by decide)
  · exact absurd hname.1 (by decide)
  · apply h
    rw [(List.cons.inj hy).2]
    simp
  · exact hne rfl

/-- A word with an operator behind it: the call goes over the operator, too. -/
theorem not_lexeme_word {d : Byte} {rest : Bytes} (hc : isWordChar c = true) (hdollar : c ≠ chr '$')
    (hd : d ∈ specials) (hmem : d ∈ c :: x) : ¬ Lexeme v (c :: x) rest t := by
  intro hlex
  obtain ⟨e, y, hw, hshape⟩ := hlex.shape
  obtain ⟨rfl, rfl⟩ := List.cons.inj hw
  rcases hshape with hs | ⟨he, -⟩ | ⟨-, hall⟩
  · simp [isWordChar, hs] at hc
  · exact hdollar he
  · have hword := hall d hmem
    simp [isWordChar, hd] at hword

/-- **What is not plain is not read as it should be.** -/
theorem not_correct (hu : Terminated (c :: u)) (hblank : isBlank c = false) (hp : ¬ Plain (c :: u))
    {r : TokenCall} (hr : ssiExprTokenizer v (c :: u) = some r) : ¬ Correct v (c :: u) r := by
  have hskip := skipBlanks_cons hblank u
  obtain ⟨h0, hp⟩ := not_or.mp hp
  have htail := hu.tail h0
  by_cases hgraph : isgraph c = true
  · simp only [hgraph, true_and, not_and_or] at hp
    rcases hp with hname | hword
    · -- a name in braces
      obtain ⟨rfl, hhead, hmem⟩ : c = chr '$' ∧ u.head? = some lbrace ∧ rbrace ∈ u := by
        simpa only [Classical.not_imp, not_not] using hname
      obtain ⟨s, rfl⟩ := List.head?_eq_some_iff.mp hhead
      have hs : rbrace ∈ s := (List.mem_cons.mp hmem).resolve_left (by decide)
      obtain ⟨x, y, rfl, hx⟩ := List.eq_append_cons_of_mem hs
      have hnul := (htail.tail (by decide)).not_mem (by simp)
      have hx0 : ∀ c ∈ x, c ≠ 0 ∧ c ≠ rbrace := fun c hc => ⟨fun h0 => hnul (h0 ▸ hc), fun hr => hx (hr ▸ hc)⟩
      rw [tokenizer_braced hx0, Option.some.injEq] at hr
      subst hr
      split_ifs
      · exact id
      · intro hc
        exact not_lexeme_braced hx (Correct.lexeme (a := chr '$' :: lbrace :: x) hc rfl hskip)
    · -- a word
      obtain ⟨hdollar, hc, d, hd, hspec⟩ : c ≠ chr '$' ∧ isWordChar c = true ∧
          ∃ d ∈ (u.dropWhile isWordChar).head?, d ∈ specials := by
        simpa only [Classical.not_imp, not_forall, not_not, exists_prop] using hword
      obtain ⟨z, hz⟩ := List.head?_eq_some_iff.mp hd
      have hrun : ∃ x, (c :: u).takeWhile isgraph = c :: x ∧ d ∈ c :: x := by
        have hsplit : c :: u = (c :: u.takeWhile isWordChar) ++ d :: z := by
          rw [List.cons_append, ← hz, List.takeWhile_append_dropWhile]
        have hall : ∀ e ∈ c :: u.takeWhile isWordChar, isgraph e = true := by
          intro e he
          rcases List.mem_cons.mp he with rfl | he
          · exact hgraph
          · have hword := List.mem_takeWhile_imp he
            simp only [isWordChar, Bool.and_eq_true] at hword
            exact hword.1
        have hdgraph : isgraph d = true := isgraph_of_special hspec
        refine ⟨u.takeWhile isWordChar ++ (d :: z).takeWhile isgraph, ?_, ?_⟩
        · rw [hsplit, List.takeWhile_append_of_pos hall, List.cons_append]
        · simp [List.takeWhile_cons_of_pos hdgraph]
      obtain ⟨x, hx, hmem⟩ := hrun
      have hscan : scanLen isgraph (c :: u) = some ((c :: u).takeWhile isgraph).length :=
        scanLen_takeWhile ⟨0, hu.nul, by decide⟩
      rw [tokenizer_default (not_mem_caseChars hc hdollar), hscan, Option.map_some, Option.some.injEq] at hr
      subst hr
      intro hcorrect
      have hlex := Correct.lexeme hcorrect List.takeWhile_append_dropWhile.symm hskip
      rw [hx] at hlex
      exact not_lexeme_word hc hdollar hspec hmem hlex
  · rw [tokenizer_unprintable hblank h0 (by simpa using hgraph), Option.some.injEq] at hr
    subst hr
    exact fun hc => absurd hc.1 (Nat.lt_irrefl 0)

/-! ## Blanks -/

theorem drop_blanks (u : Bytes) : u.drop (u.length - (skipBlanks u).length) = skipBlanks u :=
  (List.suffix_iff_eq_drop.mp (List.dropWhile_suffix isBlank)).symm

theorem Terminated.skipBlanks (h : Terminated u) :
    Terminated (skipBlanks u) ∧ ∃ c r, Ssi.skipBlanks u = c :: r ∧ isBlank c = false := by
  induction u with
  | nil => exact absurd h.nul (by simp)
  | cons c u ih =>
    cases hc : isBlank c with
    | true =>
      have hskip : Ssi.skipBlanks (c :: u) = Ssi.skipBlanks u := by simp [Ssi.skipBlanks, hc]
      rw [hskip]
      exact ih (h.tail fun h0 => by simp [h0, isBlank] at hc)
    | false =>
      rw [skipBlanks_cons hc]
      exact ⟨h, c, u, rfl, hc⟩

theorem skipBlanks_idem (h : Terminated u) : skipBlanks (skipBlanks u) = skipBlanks u := by
  obtain ⟨-, c, r, hu, hc⟩ := h.skipBlanks
  rw [hu, skipBlanks_cons hc]

theorem correct_skipBlanks (hu : Terminated u) {r : TokenCall}
    (h : Correct v u (r.skip (u.length - (skipBlanks u).length))) : Correct v (skipBlanks u) r := by
  have hidem := skipBlanks_idem hu
  cases r with
  | token t n =>
    obtain ⟨-, w, rest, hw, hlex, hdrop⟩ := h
    rw [← List.drop_drop, drop_blanks] at hdrop
    refine ⟨?_, w, rest, hidem.trans hw, hlex, hdrop⟩
    by_contra hn
    obtain rfl : n = 0 := by omega
    obtain ⟨c, x, rfl, -⟩ := hlex.shape
    have hlen := congrArg List.length hw
    rw [← hdrop, List.drop_zero, List.length_append, List.length_cons] at hlen
    omega
  | done => exact hidem.trans h
  | failed => simpa only [Correct, TokenCall.skip, hidem] using h
  | abort => exact h

theorem plain_of_correct (hu : Terminated u) {r : TokenCall} (hr : ssiExprTokenizer v u = some r)
    (h : Correct v u r) : Plain (skipBlanks u) := by
  obtain ⟨hterm, c, s, hs, hc⟩ := hu.skipBlanks
  rw [tokenizer_skipBlanks] at hr
  obtain ⟨r₀, hr₀, rfl⟩ := Option.map_eq_some_iff.mp hr
  have hcorrect := correct_skipBlanks hu h
  rw [hs] at hterm hr₀ hcorrect ⊢
  by_contra hp
  exact not_correct hterm hc hp hr₀ hcorrect

theorem Lexeme.nonzero {rest : Bytes} (h : Lexeme v w rest t) : (0 : Byte) ∉ w := by
  cases h with
  | operator h =>
    have hall : ∀ p ∈ operators, (0 : Byte) ∉ p.1 := by decide
    exact hall _ h
  | short h =>
    have hall : ∀ p ∈ shortOperators, (0 : Byte) ∉ p.1 := by decide
    exact hall _ h
  | quoted h =>
    intro h0
    simp only [List.mem_cons, List.mem_append, List.not_mem_nil, or_false] at h0
    rcases h0 with h0 | h0 | h0
    · exact absurd h0 (by decide)
    · exact (h 0 h0).1 rfl
    · exact absurd h0 (by decide)
  | @named x _ h =>
    intro h0
    rcases List.mem_cons.mp h0 with h0 | h0
    · exact absurd h0 (by decide)
    · cases x with
      | nil => simp at h0
      | cons c x =>
        rcases List.mem_cons.mp h0 with rfl | h0
        · exact absurd h.1 (by decide)
        · exact absurd (h.2 0 h0) (by decide)
  | braced h =>
    intro h0
    simp only [List.mem_cons, List.mem_append, List.not_mem_nil, or_false] at h0
    rcases h0 with h0 | h0 | h0 | h0
    · exact absurd h0 (by decide)
    · exact absurd h0 (by decide)
    · exact (h 0 h0).1 rfl
    · exact absurd h0 (by decide)
  | word hne h => exact fun h0 => absurd (h 0 h0) (by decide)

theorem Lexeme.ne_end {rest : Bytes} (h : Lexeme v w rest t) : w ++ rest ≠ [0] := by
  intro hend
  obtain ⟨c, x, rfl, -⟩ := h.shape
  exact h.nonzero (by simp [(List.cons.inj hend).1])

/-- What one call does where a plain token stands. -/
inductive CallSpec (v : SsiVars) (u : Bytes) : Prop
  | done (h : skipBlanks u = [0]) (hcall : ssiExprTokenizer v u = some .done)
  | failed (h : skipBlanks u ≠ [0]) (hno : NoLexeme v (skipBlanks u)) (hcall : ssiExprTokenizer v u = some .failed)
  | token (w rest : Bytes) (t : ExprToken) (n : Nat) (h : skipBlanks u = w ++ rest) (hw : Lexeme v w rest t)
      (hrest : Terminated rest) (hcall : ssiExprTokenizer v u = some (.token t n)) (hn : 0 < n) (hdrop : u.drop n = rest)

theorem call_spec (hu : Terminated u) (hp : Plain (skipBlanks u)) : CallSpec v u := by
  obtain ⟨hterm, c, s, hs, hc⟩ := hu.skipBlanks
  have hcall := tokenizer_skipBlanks (v := v) u
  have hlexeme : ∀ w rest t, skipBlanks u = w ++ rest → Lexeme v w rest t → CallSpec v u := by
    intro w rest t hw hlex
    have hrest : Terminated rest := (hw ▸ hterm).rest hlex.nonzero
    refine .token w rest t (u.length - (skipBlanks u).length + w.length) hw hlex hrest ?_ ?_ ?_
    · rw [hcall, hw, tokenizer_lexeme hlex (hw ▸ hp) hrest.nul]
      rfl
    · obtain ⟨c, x, rfl, -⟩ := hlex.shape
      rw [List.length_cons]
      omega
    · rw [← List.drop_drop, drop_blanks, hw, List.drop_left]
  by_cases h0 : c = 0
  · obtain ⟨t, ht, heq⟩ := hterm
    have hnil : t = [] := by
      cases t with
      | nil => rfl
      | cons d t => exact absurd (by simp [← (List.cons.inj (hs.symm.trans heq)).1, h0]) ht
    have hend : skipBlanks u = [0] := by rw [heq, hnil, List.nil_append]
    refine .done hend ?_
    rw [hcall, hend]
    rfl
  · have hne : skipBlanks u ≠ [0] := fun hend => h0 (List.cons.inj (hs.symm.trans hend)).1
    by_cases hno : NoLexeme v (skipBlanks u)
    · refine .failed hne hno ?_
      rw [hs] at hterm hp hno
      rcases plain_cases (v := v) hterm h0 hc hp with ⟨w, rest, t, hw, hlex⟩ | hfailed
      · exact absurd hlex (hno w rest t hw)
      · rw [hcall, hs, hfailed]
        rfl
    · simp only [NoLexeme, not_forall, not_not] at hno
      obtain ⟨w, rest, t, hw, hlex⟩ := hno
      exact hlexeme w rest t hw hlex

theorem Lexeme.unique {w' rest rest' : Bytes} {t' : ExprToken} (hu : Terminated u) (hp : Plain u)
    (h : Lexeme v w rest t) (h' : Lexeme v w' rest' t') (hw : u = w ++ rest) (hw' : u = w' ++ rest') :
    rest = rest' ∧ t = t' := by
  have hcall := tokenizer_lexeme h (hw ▸ hp) (Terminated.rest (hw ▸ hu) h.nonzero).nul
  have hcall' := tokenizer_lexeme h' (hw' ▸ hp) (Terminated.rest (hw' ▸ hu) h'.nonzero).nul
  rw [← hw] at hcall
  rw [← hw', hcall, Option.some.injEq, TokenCall.token.injEq] at hcall'
  exact ⟨(List.append_inj (hw.symm.trans hw') hcall'.2).2, hcall'.1⟩

/-! ## An evaluation -/

theorem correct_of_plain {u' : Bytes} (h : Calls v u u') (hu : Terminated u) (hp : PlainFrom v u) :
    ∃ r, ssiExprTokenizer v u' = some r ∧ Correct v u' r := by
  induction h with
  | refl u =>
    cases call_spec (v := v) hu (hp _ (.first u)) with
    | done h hcall => exact ⟨_, hcall, h⟩
    | failed h hno hcall => exact ⟨_, hcall, h, hno⟩
    | token w rest t n h hw hrest hcall hn hdrop => exact ⟨_, hcall, hn, w, rest, h, hw, hdrop⟩
  | @next u u' t n h hrest ih =>
    cases call_spec (v := v) hu (hp _ (.first u)) with
    | done _ hcall => simp [hcall] at h
    | failed _ _ hcall => simp [hcall] at h
    | token w rest t' n' hskip hw hterm hcall _ hdrop =>
      rw [hcall, Option.some.injEq, TokenCall.token.injEq] at h
      obtain ⟨rfl, rfl⟩ := h
      rw [hdrop] at ih
      exact ih hterm fun x hx => hp x (.next hskip hw hx)

theorem plain_of_calls {u' : Bytes} (h : Begins v u u') (hu : Terminated u)
    (hcalls : ∀ x, Calls v u x → ∃ r, ssiExprTokenizer v x = some r ∧ Correct v x r) : Plain u' := by
  induction h with
  | first u =>
    obtain ⟨r, hr, hcorrect⟩ := hcalls u (.refl u)
    exact plain_of_correct hu hr hcorrect
  | @next u u' w rest t hskip hw hrest ih =>
    obtain ⟨r, hr, hcorrect⟩ := hcalls u (.refl u)
    have hp := plain_of_correct hu hr hcorrect
    cases call_spec (v := v) hu hp with
    | done hend => exact absurd (hskip.symm.trans hend) hw.ne_end
    | failed _ hno => exact absurd hw (hno w rest t hskip)
    | token w' rest' t' n hskip' hw' hterm hcall _ hdrop =>
      obtain ⟨rfl, rfl⟩ := Lexeme.unique hu.skipBlanks.1 hp hw hw' hskip hskip'
      exact ih hterm fun x hx => hcalls x (.next hcall (hdrop ▸ hx))

theorem lexes_done (h : skipBlanks u = [0]) (ts : List ExprToken) (failed : Bool) :
    Lexes v u ts failed ↔ ts = [] ∧ failed = false := by
  constructor
  · intro hlex
    cases hlex with
    | done => exact ⟨rfl, rfl⟩
    | failed hne => exact absurd h hne
    | token hskip hw => exact absurd (hskip.symm.trans h) hw.ne_end
  · rintro ⟨rfl, rfl⟩
    exact .done h

theorem lexes_failed (h : skipBlanks u ≠ [0]) (hno : NoLexeme v (skipBlanks u)) (ts : List ExprToken)
    (failed : Bool) : Lexes v u ts failed ↔ ts = [] ∧ failed = true := by
  constructor
  · intro hlex
    cases hlex with
    | done hend => exact absurd hend h
    | failed => exact ⟨rfl, rfl⟩
    | token hskip hw => exact absurd hw (hno _ _ _ hskip)
  · rintro ⟨rfl, rfl⟩
    exact .failed h hno

theorem lexes_token {rest : Bytes} {ts : List ExprToken} {failed : Bool} (hu : Terminated u)
    (hp : Plain (skipBlanks u)) (hskip : skipBlanks u = w ++ rest) (hw : Lexeme v w rest t)
    (hrest : ∀ ts' failed', Lexes v rest ts' failed' ↔ ts' = ts ∧ failed' = failed) (ts' : List ExprToken)
    (failed' : Bool) : Lexes v u ts' failed' ↔ ts' = t :: ts ∧ failed' = failed := by
  constructor
  · intro hlex
    cases hlex with
    | done hend => exact absurd (hskip.symm.trans hend) hw.ne_end
    | failed _ hno => exact absurd hw (hno w rest t hskip)
    | token hskip' hw' hlex =>
      obtain ⟨rfl, rfl⟩ := Lexeme.unique hu.skipBlanks.1 hp hw hw' hskip hskip'
      obtain ⟨rfl, rfl⟩ := (hrest _ _).mp hlex
      exact ⟨rfl, rfl⟩
  · rintro ⟨rfl, rfl⟩
    exact .token hskip hw ((hrest _ _).mpr ⟨rfl, rfl⟩)

/-- **An expression with plain tokens is worth what they are worth**, for every parser. -/
theorem eval_spec (hu : Terminated u) (hp : PlainFrom v u) : ∃ ts failed,
    (∀ ts' failed', Lexes v u ts' failed' ↔ ts' = ts ∧ failed' = failed) ∧
      ∀ (π : Type) (P : ExprParser π) (s : π), ∃ fuel, evalLoop v P fuel s u = .value (P.eval s failed ts) := by
  induction hlen : u.length using Nat.strong_induction_on generalizing u with
  | _ m ih =>
    have hplain := hp _ (.first u)
    cases call_spec (v := v) hu hplain with
    | done h hcall =>
      refine ⟨[], false, lexes_done h, fun π P s => ⟨1, ?_⟩⟩
      rw [evalLoop, hcall]
      rfl
    | failed h hno hcall =>
      refine ⟨[], true, lexes_failed h hno, fun π P s => ⟨1, ?_⟩⟩
      rw [evalLoop, hcall]
      rfl
    | token w rest t n hskip hw hterm hcall hn hdrop =>
      have hshort : rest.length < m := by
        have hpos : 0 < u.length := List.length_pos_of_mem hu.nul
        rw [← hdrop, List.length_drop]
        omega
      obtain ⟨ts, failed, hts, heval⟩ := ih _ hshort hterm (fun x hx => hp x (.next hskip hw hx)) rfl
      refine ⟨t :: ts, failed, lexes_token hu hplain hskip hw hts, fun π P s => ?_⟩
      by_cases hok : P.ok s = true
      · obtain ⟨fuel, hfuel⟩ := heval π P (P.feed s t)
        refine ⟨fuel + 1, ?_⟩
        rw [evalLoop, hcall, ExprParser.eval, if_pos hok]
        simp only
        rw [if_pos hok, hdrop, hfuel]
      · refine ⟨1, ?_⟩
        rw [evalLoop, hcall, ExprParser.eval, if_neg hok]
        simp only
        rw [if_neg hok]

theorem evaluated_of_plain {expr : Bytes} (hexpr : (0 : Byte) ∉ expr) (hp : PlainTokens v expr) : Evaluated v expr := by
  have hu : Terminated (expr ++ [0]) := ⟨expr, hexpr, rfl⟩
  obtain ⟨ts, failed, hts, heval⟩ := eval_spec hu hp
  exact ⟨fun u h => correct_of_plain h hu hp, ts, failed, hts, fun π P => heval π P P.alloc⟩

/-- Two expressions with the same tokens, such as `a=b` and `a = b`, evaluate alike where both are evaluated. -/
theorem Evaluated.alike {e e' : Bytes} (h : Evaluated v e) (h' : Evaluated v e') {ts : List ExprToken} {failed : Bool}
    (ht : Lexes v (e ++ [0]) ts failed) (ht' : Lexes v (e' ++ [0]) ts failed) {π : Type} (P : ExprParser π) :
    ∃ bo fuel fuel', ssiEvalExpr v P fuel e = .value bo ∧ ssiEvalExpr v P fuel' e' = .value bo := by
  obtain ⟨ts₁, failed₁, hts, heval⟩ := h.value
  obtain ⟨ts₂, failed₂, hts', heval'⟩ := h'.value
  obtain ⟨rfl, rfl⟩ := (hts _ _).mp ht
  obtain ⟨rfl, rfl⟩ := (hts' _ _).mp ht'
  obtain ⟨fuel, hfuel⟩ := heval π P
  obtain ⟨fuel', hfuel'⟩ := heval' π P
  exact ⟨_, fuel, fuel', hfuel, hfuel'⟩

/-- A call that does not move on is made again and again, as long as the parser takes the token. -/
theorem evalLoop_stuck {π : Type} {P : ExprParser π} (hok : ∀ s, P.ok s = true)
    (h : ssiExprTokenizer v u = some (.token t 0)) (fuel : Nat) (s : π) : evalLoop v P fuel s u = .running := by
  induction fuel generalizing s with
  | zero => rfl
  | succ fuel ih =>
    rw [evalLoop, h]
    simp only
    rw [if_pos (hok s), List.drop_zero, ih]

/-- Whether the tokens are plain, as far as the calls go. -/
def plainCheck (v : SsiVars) : Nat → Bytes → Bool
  | 0, _ => false
  | fuel + 1, u => decide (Plain (skipBlanks u)) &&
    match ssiExprTokenizer v u with
    | some (.token _ n) => plainCheck v fuel (u.drop n)
    | _ => true

theorem plainFrom_of_check {fuel : Nat} (hu : Terminated u) (h : plainCheck v fuel u = true) : PlainFrom v u := by
  induction fuel generalizing u with
  | zero => cases h
  | succ fuel ih =>
    simp only [plainCheck, Bool.and_eq_true, decide_eq_true_eq] at h
    obtain ⟨hp, hrest⟩ := h
    intro u' hbegins
    cases hbegins with
    | first => exact hp
    | next hskip hw hbegins =>
      cases call_spec (v := v) hu hp with
      | done hend => exact absurd (hskip.symm.trans hend) hw.ne_end
      | failed _ hno => exact absurd hw (hno _ _ _ hskip)
      | token w rest t n hskip' hw' hterm hcall _ hdrop =>
        obtain ⟨rfl, rfl⟩ := Lexeme.unique hu.skipBlanks.1 hp hw hw' hskip hskip'
        simp only [hcall, hdrop] at hrest
        exact ih hterm hrest _ hbegins

end

/-- Two variables, and a parser that takes every token. -/
def sampleVars : SsiVars where
  ssiCgiEnv _ := none
  ssiVars name := if name = ascii "A" then some (ascii "x") else if name = ascii "AB" then some (ascii "y") else none

def anyTokens : ExprParser Unit := ⟨(), fun s _ => s, id, fun _ => true, fun _ => 0⟩

def plainExpr : Bytes := ascii "$AB = 'y' && !(a >= b )"

def bracedExpr : Bytes := ascii "$\x7bAB\x7d"

def wordExpr : Bytes := ascii "a=b"

/-- **An expression is evaluated as its tokens say** exactly if they are all plain. -/
theorem ssi_eval_expr_iff (v : SsiVars) {expr : Bytes} (hexpr : (0 : Byte) ∉ expr) :
    Evaluated v expr ↔ PlainTokens v expr :=
  ⟨fun h _ hbegins => plain_of_calls hbegins ⟨expr, hexpr, rfl⟩ h.calls, evaluated_of_plain hexpr⟩

theorem plainExpr_evaluated : Evaluated sampleVars plainExpr :=
  have hexpr : (0 : Byte) ∉ plainExpr := by decide
  have hcheck : plainCheck sampleVars 12 (plainExpr ++ [0]) = true := by decide +kernel
  (ssi_eval_expr_iff sampleVars hexpr).mpr (plainFrom_of_check ⟨plainExpr, hexpr, rfl⟩ hcheck)

/-- A character that is not printed makes the evaluation run forever; the name in braces is read without its last
character; and the word goes over the operator. -/
theorem expressions_wrong :
    (¬ Evaluated sampleVars [1] ∧ ∀ fuel, ssiEvalExpr sampleVars anyTokens fuel [1] = .running) ∧
    (¬ Evaluated sampleVars bracedExpr ∧
      ssiExprTokenizer sampleVars (bracedExpr ++ [0]) = some (.token ⟨.value, ascii "x"⟩ 4)) ∧
    ¬ Evaluated sampleVars wordExpr ∧
      ssiExprTokenizer sampleVars (wordExpr ++ [0]) = some (.token ⟨.value, wordExpr⟩ 3) := by
  have hwrong : ∀ expr : Bytes, (0 : Byte) ∉ expr → ¬ Plain (skipBlanks (expr ++ [0])) → ¬ Evaluated sampleVars expr :=
    fun expr hexpr hp h => hp (plain_of_calls (.first _) ⟨expr, hexpr, rfl⟩ h.calls)
  refine ⟨⟨hwrong _ (by decide) (by decide), fun fuel => ?_⟩,
    ⟨hwrong _ (by decide) (by decide), by decide⟩,
    hwrong _ (by decide) (by decide), by decide⟩
  exact evalLoop_stuck (fun _ => rfl) (t := ⟨.value, []⟩) (by decide) fuel ()

end Lighttpd.Ssi
