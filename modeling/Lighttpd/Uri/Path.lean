import Lighttpd.Base.Ascii
import Lighttpd.Lib.PathName

/-!
# Decoding and simplifying a path (`buffer.c`)

`buffer_urldecode_internal` and `buffer_path_simplify`. Both write behind the place where they read, so what is read is
what was there before.

- `mem_urldecode`: what the decoder puts out;
- `pathSimplify_eq`: the loop of the simplifier writes the path that its segments come to.
-/

namespace Lighttpd.Uri

open PathName

/-! ## `buffer_urldecode_internal` -/

/-- `hex2int`. The arithmetic is that of an `unsigned char`. -/
def hex2int (hex : Byte) : Byte :=
  let value := hex - chr '0'
  let value :=
    if 9 < value then
      let value := (hex ||| 0x20) - chr 'a' + 10
      if value < 10 then 0xff else value
    else value
  if 15 < value then 0xff else value

/-- The byte that two hexadecimal digits stand for. Control characters are mapped out. -/
def hexByte (high low : Byte) : Byte :=
  let high := high <<< 4 ||| low
  if high < 32 ∨ high = 127 then chr '_' else high

/-- `buffer_urldecode_internal`, from `src` on. An invalid escape stays as it is. -/
def urldecode (isQuery : Bool) : Bytes → Bytes
  | [] => []
  | c :: s =>
    if c = 0 then []
    else if isQuery && c == chr '+' then chr ' ' :: urldecode isQuery s
    else if c = chr '%' then
      match s with
      | h :: l :: s' =>
        if hex2int h ≠ 0xff ∧ hex2int l ≠ 0xff then hexByte (hex2int h) (hex2int l) :: urldecode isQuery s'
        else chr '%' :: urldecode isQuery (h :: l :: s')
      | s => chr '%' :: urldecode isQuery s
    else c :: urldecode isQuery s

def urldecodePath (url : Bytes) : Bytes := urldecode false url

def IsControl (c : Byte) : Prop := c < 32 ∨ c = 127

instance (c : Byte) : Decidable (IsControl c) := inferInstanceAs (Decidable (_ ∨ _))

theorem hexByte_not_control (h l : Byte) : ¬ IsControl (hexByte h l) := by
  unfold hexByte
  dsimp only
  split
  · decide
  · assumption

/-- **What is decoded is a byte of the source, but not a NUL, or it is no control character.** -/
theorem mem_urldecode {isQuery : Bool} {s : Bytes} {c : Byte} (h : c ∈ urldecode isQuery s) :
    c ∈ s ∧ c ≠ 0 ∨ ¬ IsControl c := by
  fun_induction urldecode isQuery s with
  | case1 => cases h
  | case2 => cases h
  | case3 c' s _ _ ih =>
    rcases List.mem_cons.mp h with rfl | h
    · exact .inr (by decide)
    · exact (ih h).imp_left fun h => ⟨List.mem_cons_of_mem _ h.1, h.2⟩
  | case4 h' l s' _ _ _ ih =>
    rcases List.mem_cons.mp h with rfl | h
    · exact .inr (hexByte_not_control _ _)
    · exact (ih h).imp_left fun h => ⟨by simp [h.1], h.2⟩
  | case5 h' l s' _ _ _ ih =>
    rcases List.mem_cons.mp h with rfl | h
    · exact .inr (by decide)
    · exact (ih h).imp_left fun h => ⟨List.mem_cons_of_mem _ h.1, h.2⟩
  | case6 s _ _ _ ih =>
    rcases List.mem_cons.mp h with rfl | h
    · exact .inr (by decide)
    · exact (ih h).imp_left fun h => ⟨List.mem_cons_of_mem _ h.1, h.2⟩
  | case7 c' s hc _ _ ih =>
    rcases List.mem_cons.mp h with rfl | h
    · exact .inl ⟨List.mem_cons_self, hc⟩
    · exact (ih h).imp_left fun h => ⟨List.mem_cons_of_mem _ h.1, h.2⟩

theorem urldecode_eq_nil {isQuery : Bool} {s : Bytes} (h : 0 ∉ s) : urldecode isQuery s = [] ↔ s = [] := by
  constructor
  · intro hnil
    cases s with
    | nil => rfl
    | cons c s =>
      have hc : c ≠ 0 := fun hc => h (by rw [hc]; exact List.mem_cons_self)
      unfold urldecode at hnil
      rw [if_neg hc] at hnil
      split at hnil
      · cases hnil
      · split at hnil
        · split at hnil
          · split at hnil <;> cases hnil
          · cases hnil
        · cases hnil
  · rintro rfl
    rfl

/-! ## `buffer_path_simplify` -/

def backToSlash (out : Bytes) : Nat → Nat
  | 0 => 0
  | n + 1 => if out.getD (n + 1) 0 = chr '/' then n + 1 else backToSlash out n

def endToken (out : Bytes) (slash : Nat) (pre2 pre1 c : Byte) : Bytes :=
  let toklen := out.length - slash
  -- a trailing slash is kept at the end of the path
  let cut := fun n => out.take (if c = 0 then n + 1 else n)
  if toklen = 3 ∧ pre2 = chr '.' ∧ pre1 = chr '.' then cut (if 0 < slash then backToSlash out (slash - 1) else slash)
  else if toklen = 1 ∨ (pre2 = chr '/' ∧ pre1 = chr '.') then cut slash
  else out

/-- One turn of the loop, behind the reading of `c`: `out` and `slash`. -/
def simplifyStep (out : Bytes) (slash : Nat) (pre2 pre1 c : Byte) : Bytes × Nat :=
  let out := out ++ [pre1]
  if c = chr '/' ∨ c = 0 then
    let out := endToken out slash pre2 pre1 c
    (out, out.length)
  else (out, slash)

def simplifyLoop (out : Bytes) (slash : Nat) (pre1 c : Byte) : Bytes → Bytes
  | [] => if c = 0 then out else (simplifyStep out slash pre1 c 0).1
  | d :: walk =>
    if c = 0 then out
    else
      let (out, slash) := simplifyStep out slash pre1 c d
      simplifyLoop out slash c d walk

/-- `buffer_path_simplify`, into another buffer. -/
def pathSimplify (src : Bytes) : Bytes :=
  if src.isEmpty then []
  else
    let walk := src.dropWhile (· = chr ' ')
    let c := walk.headD 0
    if c ≠ chr '/' then simplifyLoop [chr '/'] 0 (chr '/') c walk.tail else simplifyLoop [] 0 0 c walk.tail

/-! ## What the simplifier writes -/

theorem backToSlash_eq {a name : Bytes} (hname : chr '/' ∉ name) (rest : Bytes) {k : Nat} (hk : k ≤ name.length) :
    backToSlash (a ++ chr '/' :: (name ++ rest)) (a.length + k) = a.length := by
  induction k with
  | zero =>
    cases ha : a.length with
    | zero => rfl
    | succ n =>
      rw [Nat.add_zero, backToSlash, if_pos]
      simp [List.getD_eq_getElem?_getD, ← ha]
  | succ k ih =>
    have hlt : k < name.length := hk
    have hget : (a ++ chr '/' :: (name ++ rest)).getD (a.length + k + 1) 0 = name[k] := by
      simp [List.getD_eq_getElem?_getD, List.getElem?_append_right, Nat.add_assoc, List.getElem?_append_left, hlt]
    rw [← Nat.add_assoc, backToSlash, hget, if_neg]
    · exact ih (Nat.le_of_lt hlt)
    · intro h
      exact hname (h ▸ List.getElem_mem hlt)

theorem take_cut (a b : Bytes) (c : Byte) :
    (a ++ chr '/' :: b).take (if c = 0 then a.length + 1 else a.length) = a ++ if c = 0 then [chr '/'] else [] := by
  have hall : a.take (a.length + 1) = a := List.take_of_length_le (Nat.le_succ _)
  by_cases hc : c = 0 <;> simp [hc, List.take_append, hall]

/-- What `pre1` and `pre2` are at the end of a token. -/
structure EndsWith (tok : Bytes) (pre2 pre1 : Byte) : Prop where
  pre1 : tok.getLast? = some pre1
  pre2 : tok.dropLast = [] ∨ tok.dropLast.getLast? = some pre2

variable {names : List Bytes} {seg : Bytes} {pre2 pre1 c : Byte}

theorem endToken_up (names : List Bytes) (hnames : ∀ n ∈ names, chr '/' ∉ n) (c : Byte) :
    endToken (render (chr '/') names ++ chr '/' :: [chr '.', chr '.']) (render (chr '/') names).length (chr '.') (chr '.')
        c = render (chr '/') names.dropLast ++ if c = 0 then [chr '/'] else [] := by
  unfold endToken
  dsimp only
  rw [if_pos (by simp)]
  rcases List.eq_nil_or_concat names with rfl | ⟨init, n, rfl⟩
  · by_cases hc : c = 0 <;> simp [hc]
  · rw [List.concat_eq_append] at hnames ⊢
    have hn : chr '/' ∉ n := hnames n (by simp)
    have hlength : (render (chr '/') (init ++ [n])).length - 1 = (render (chr '/') init).length + n.length := by
      simp
    have hout : render (chr '/') (init ++ [n]) ++ [chr '/', chr '.', chr '.'] =
        render (chr '/') init ++ chr '/' :: (n ++ [chr '/', chr '.', chr '.']) := by
      simp
    have hpos : 0 < (render (chr '/') (init ++ [n])).length := by
      rw [render_append, List.length_append, render_singleton, List.length_cons]
      omega
    rw [if_pos hpos, hlength, hout, backToSlash_eq hn _ (Nat.le_refl _), List.dropLast_concat]
    exact take_cut _ _ c

/-- **The end of a token.** -/
theorem endToken_eq (hnames : ∀ n ∈ names, chr '/' ∉ n) (hseg : chr '/' ∉ seg)
    (hends : EndsWith (chr '/' :: seg) pre2 pre1) :
    endToken (render (chr '/') names ++ chr '/' :: seg) (render (chr '/') names).length pre2 pre1 c =
      if c = 0 then normal (chr '/') (chr '.') names [seg] else render (chr '/') (push (chr '.') names seg) := by
  obtain ⟨h1, h2⟩ := hends
  have hlen : (render (chr '/') names ++ chr '/' :: seg).length - (render (chr '/') names).length = seg.length + 1 := by
    simp
  rw [normal_singleton]
  match seg, hseg, h1, h2, hlen with
  | [], _, _, _, hlen =>
    unfold endToken
    dsimp only
    rw [hlen, if_neg (by simp), if_pos (by simp), take_cut]
    by_cases hc : c = 0 <;> simp [hc, push]
  | [x], hseg, h1, h2, hlen =>
    obtain rfl : x = pre1 := by simpa using h1
    obtain rfl : chr '/' = pre2 := by simpa using h2
    unfold endToken
    dsimp only
    rw [hlen, if_neg (by simp)]
    by_cases hx : x = chr '.'
    · rw [if_pos (by simp [hx]), take_cut]
      by_cases hc : c = 0 <;> simp [hc, hx, push, IsDots]
    · rw [if_neg (by simp [hx])]
      by_cases hc : c = 0 <;> simp [hc, hx, push, IsDots]
  | [x, y], hseg, h1, h2, hlen =>
    obtain rfl : y = pre1 := by simpa using h1
    obtain rfl : x = pre2 := by simpa using h2
    by_cases hxy : x = chr '.' ∧ y = chr '.'
    · obtain ⟨rfl, rfl⟩ := hxy
      rw [endToken_up names hnames]
      by_cases hc : c = 0 <;> simp [hc, push, IsDots]
    · have hx : x ≠ chr '/' := fun h => hseg (by simp [h])
      unfold endToken
      dsimp only
      rw [hlen, if_neg (fun h => hxy h.2), if_neg (by simp [hx])]
      have hpush : push (chr '.') names [x, y] = names ++ [[x, y]] := by simp [push, hxy]
      have hdots : ¬ IsDots (chr '.') [x, y] := by simpa [IsDots] using hxy
      by_cases hc : c = 0 <;> simp [hc, hpush, hdots]
  | x :: y :: z :: seg, hseg, h1, h2, hlen =>
    have hpre2 : pre2 ≠ chr '/' := by
      rintro rfl
      have hmem : (chr '/') ∈ (x :: y :: z :: seg).dropLast :=
        List.mem_of_getLast? (by simpa [List.dropLast, List.getLast?_cons_cons] using h2)
      exact hseg (List.dropLast_subset _ hmem)
    unfold endToken
    dsimp only
    rw [hlen, if_neg (by simp), if_neg (by simp [hpre2])]
    by_cases hc : c = 0 <;> simp [hc, push, IsDots]

/-- Between two turns of the loop, `cur` is what stands behind `slash`, and `c` has been read. -/
theorem simplifyLoop_eq (walk : Bytes) (names : List Bytes) (cur seg : Bytes) (pre1 c : Byte)
    (hnames : ∀ n ∈ names, chr '/' ∉ n) (hcur : cur ++ [c] = chr '/' :: seg) (hseg : chr '/' ∉ seg)
    (hends : EndsWith (chr '/' :: seg) pre1 c) (hc : c ≠ 0) :
    simplifyLoop (render (chr '/') names ++ cur) (render (chr '/') names).length pre1 c walk =
      normal (chr '/') (chr '.') names ((seg ++ cstr walk).splitOn (chr '/')) := by
  induction walk generalizing names cur seg pre1 c with
  | nil =>
    rw [simplifyLoop, if_neg hc, simplifyStep, List.append_assoc, hcur]
    simp only [or_true, if_true]
    rw [endToken_eq hnames hseg hends, if_pos rfl]
    simp [cstr, List.splitOn_eq_singleton hseg]
  | cons d walk ih =>
    rw [simplifyLoop, if_neg hc, simplifyStep, List.append_assoc, hcur]
    by_cases hd : d = 0
    · subst hd
      simp only [or_true, if_true]
      rw [endToken_eq hnames hseg hends, if_pos rfl]
      cases walk <;> simp [cstr, List.splitOn_eq_singleton hseg, simplifyLoop]
    · have hcstr : cstr (d :: walk) = d :: cstr walk := by simp [cstr, hd]
      by_cases hslash : d = chr '/'
      · -- a new token
        subst hslash
        simp only [true_or, if_true]
        rw [endToken_eq hnames hseg hends, if_neg (by decide)]
        have hnames' : ∀ n ∈ push (chr '.') names seg, chr '/' ∉ n := by
          intro n hn
          rcases mem_push hn with hn | rfl
          · exact hnames n hn
          · exact hseg
        have ih := ih _ [] [] c (chr '/') hnames' rfl (by simp) ⟨rfl, .inl rfl⟩ (by decide)
        rw [List.append_nil] at ih
        rw [ih, hcstr, List.splitOn_append_cons_self_of_not_mem hseg, List.nil_append,
          normal_cons _ _ (List.splitOn_ne_nil _ _)]
      · simp only [hslash, hd, or_self, if_false]
        have hcur' : (chr '/' :: seg) ++ [d] = chr '/' :: (seg ++ [d]) := rfl
        have hlast : (chr '/' :: seg).getLast? = some c := hends.pre1
        have hseg' : chr '/' ∉ seg ++ [d] := by simp [hseg, Ne.symm hslash]
        have hends' : EndsWith (chr '/' :: (seg ++ [d])) c d := by
          rw [← hcur']
          exact ⟨List.getLast?_concat, .inr (by rwa [List.dropLast_concat])⟩
        rw [ih names _ _ c d hnames hcur' hseg' hends' hd, hcstr, List.append_assoc]
        rfl

/-- The segments of a path, behind its first slash. -/
def rootSegments (s : Bytes) : List Bytes := (if s.head? = some (chr '/') then s.tail else s).splitOn (chr '/')

/-- **`buffer_path_simplify` writes the path that the segments come to.** -/
theorem pathSimplify_eq {src : Bytes} (h : src ≠ []) :
    pathSimplify src = normal (chr '/') (chr '.') [] (rootSegments (cstr (src.dropWhile (· = chr ' ')))) := by
  unfold pathSimplify
  rw [if_neg (by simpa using h)]
  dsimp only
  generalize src.dropWhile (· = chr ' ') = walk
  have hempty : ∀ walk, simplifyLoop [chr '/'] 0 (chr '/') 0 walk = [chr '/'] := fun walk => by
    cases walk <;> simp [simplifyLoop]
  cases walk with
  | nil => exact hempty []
  | cons c walk =>
    rw [List.headD_cons, List.tail_cons]
    by_cases hc : c = chr '/'
    · rw [if_neg (by simp [hc]), hc]
      have hloop := simplifyLoop_eq walk [] [] [] 0 (chr '/') (by simp) rfl (by simp) ⟨rfl, .inl rfl⟩ (by decide)
      rw [List.append_nil] at hloop
      have hseg : rootSegments (cstr (chr '/' :: walk)) = (cstr walk).splitOn (chr '/') := by
        simp [rootSegments, cstr, show chr '/' ≠ 0 by decide]
      rw [hseg]
      exact hloop
    · rw [if_pos hc]
      by_cases hzero : c = 0
      · subst hzero
        rw [hempty]
        rfl
      · have hloop := simplifyLoop_eq walk [] [chr '/'] [c] (chr '/') c (by simp) rfl (by simpa using Ne.symm hc)
          ⟨rfl, .inr rfl⟩ hzero
        have hseg : rootSegments (cstr (c :: walk)) = ([c] ++ cstr walk).splitOn (chr '/') := by
          simp [rootSegments, cstr, hzero, hc]
        rw [hseg]
        exact hloop

end Lighttpd.Uri
