import Lighttpd.Base.Buffer
import Lighttpd.Uri.Path
import Mathlib.Logic.Relation

/-!
# Simplifying a path in place (`buffer.c`)

`buffer_path_simplify` reads at `walk` and writes at `out`; when `dest == src`, both are places of one block. `Blocks` is
the memory, `turn` one turn of the loop.

* `Follows` relates a state to the loop that writes into another buffer, `turn_follows` and `run_follows` keep it;
* `referencePath` is the path that the segments come to;
* `simplify_reference`: the result is the reference path, with one buffer or with two, `out` never overtakes `walk`, and a
  second call changes nothing.
-/

namespace Lighttpd.Uri

open PathName

/-! ## The memory -/

/-- The blocks of `src` and of `dest`; `dest` is `none` when `dest == src`. -/
structure Blocks where
  src : Bytes
  dest : Option Bytes
deriving DecidableEq, Repr

namespace Blocks

def out (m : Blocks) : Bytes := m.dest.getD m.src

def write (m : Blocks) (n : Nat) (c : Byte) : Option Blocks :=
  if n < m.out.length then
    some (match m.dest with
      | none => { m with src := m.src.set n c }
      | some d => { m with dest := some (d.set n c) })
  else none

end Blocks

/-- The block of a buffer: the string, its NUL, and what happens to stand behind it. -/
def blockOf (b : Buffer) (junk : Nat → Byte) : Bytes :=
  b.str ++ 0 :: (List.range (b.size - b.str.length - 1)).map junk

/-! ## The loop -/

/-- The variables of the loop between two turns: `pre1` is the character before `c`. -/
structure Simplify where
  mem : Blocks
  walk : Nat
  out : Nat
  slash : Nat
  pre1 : Byte
  c : Byte
deriving DecidableEq, Repr

def tokenEnd (block : Bytes) (out slash : Nat) (pre2 pre1 c : Byte) : Nat :=
  let keep := fun n => if c = 0 then n + 1 else n
  if out - slash = 3 ∧ pre2 = chr '.' ∧ pre1 = chr '.' then
    keep (if 0 < slash then backToSlash block (slash - 1) else slash)
  else if out - slash = 1 ∨ (pre2 = chr '/' ∧ pre1 = chr '.') then keep slash
  else out

/-- One turn of the loop, which reads before it writes. `none` is an access outside of a block. -/
def turn (s : Simplify) : Option Simplify := do
  let c ← s.mem.src[s.walk]?
  let mem ← s.mem.write s.out s.c
  let out := s.out + 1
  if c = chr '/' ∨ c = 0 then
    let out := tokenEnd mem.out out s.slash s.pre1 s.c c
    some ⟨mem, s.walk + 1, out, out, s.c, c⟩
  else some ⟨mem, s.walk + 1, out, s.slash, s.c, c⟩

def run : Nat → Simplify → Option Simplify
  | 0, s => if s.c = 0 then some s else none
  | n + 1, s => if s.c = 0 then some s else (turn s).bind (run n)

/-- What precedes the loop: the leading spaces, and the `/` in front. -/
def start (m : Blocks) : Option Simplify := do
  let walk := (m.src.takeWhile (· = chr ' ')).length
  let c ← m.src[walk]?
  if c ≠ chr '/' then
    let mem ← m.write 0 (chr '/')
    some ⟨mem, walk + 1, 1, 0, chr '/', c⟩
  else some ⟨m, walk + 1, 0, 0, 0, c⟩

def blocks (dest : Option Buffer) (src : Buffer) (junk junk' : Nat → Byte) : Blocks :=
  match dest with
  | none => ⟨blockOf (src.stringPrepareAppend 1) junk, none⟩
  | some d => ⟨blockOf src junk, some (blockOf (d.stringPrepareCopy (src.stringLength + 1)) junk')⟩

def setLength (b : Buffer) (block : Bytes) (len : Nat) : Buffer :=
  ⟨block.take len, (block.take len).length + 1, b.grow ((block.take len).length + 1), .inr rfl, b.le_grow _⟩

/-- `buffer_path_simplify`; `dest` is `none` when `dest == src`. The result is what is in `dest` then. -/
def bufferPathSimplify (dest : Option Buffer) (src : Buffer) (junk junk' : Nat → Byte) : Option Buffer :=
  let d := dest.getD src
  if src.stringIsEmpty then some (d.stringPrepareCopy 0)
  else do
    let s ← start (blocks dest src junk junk')
    let s ← run s.mem.src.length s
    some (setLength d s.mem.out s.out)

/-! ## One turn -/

variable {s s' : Simplify} {m : Blocks} {o rest : Bytes} {d : Byte} {n slash : Nat}

/-- A write inside of the block changes one byte of it, and nothing that is read behind it. -/
theorem write_eq (h : n < m.out.length) (c : Byte) : ∃ m', m.write n c = some m' ∧ m'.out = m.out.set n c ∧
    m'.src.length = m.src.length ∧ ∀ k, n < k → m'.src.drop k = m.src.drop k := by
  unfold Blocks.write
  rw [if_pos h]
  refine ⟨_, rfl, ?_⟩
  obtain ⟨src, dest⟩ := m
  cases dest with
  | none => exact ⟨rfl, by simp, fun k hk => List.drop_set_of_lt hk⟩
  | some d => exact ⟨rfl, rfl, fun k _ => rfl⟩

theorem take_set_succ {l : Bytes} (h : n < l.length) (c : Byte) : (l.set n c).take (n + 1) = l.take n ++ [c] := by
  rw [List.take_add_one, List.take_set_of_le (Nat.le_refl n), List.getElem?_set_self h]
  rfl

theorem backToSlash_le (block : Bytes) (n : Nat) : backToSlash block n ≤ n := by
  induction n with
  | zero => exact Nat.le_refl 0
  | succ n ih =>
    rw [backToSlash]
    split
    · exact Nat.le_refl _
    · omega

theorem backToSlash_take (block : Bytes) {n k : Nat} (h : n < k) : backToSlash (block.take k) n = backToSlash block n := by
  induction n with
  | zero => rfl
  | succ n ih =>
    have hget : (block.take k).getD (n + 1) 0 = block.getD (n + 1) 0 := by
      simp [List.getD_eq_getElem?_getD, h]
    rw [backToSlash, backToSlash, hget, ih (by omega)]

/-- **The end of a token**, in the block and in the output. -/
theorem tokenEnd_eq (block : Bytes) {out : Nat} (hout : out ≤ block.length) (hslash : slash < out) (pre2 pre1 c : Byte) :
    tokenEnd block out slash pre2 pre1 c ≤ out ∧
      endToken (block.take out) slash pre2 pre1 c = block.take (tokenEnd block out slash pre2 pre1 c) := by
  have hlen : (block.take out).length = out := List.length_take_of_le hout
  have hback := backToSlash_le block (slash - 1)
  have hcut : ∀ k, (block.take out).take (if c = 0 then k + 1 else k) =
      block.take (min (if c = 0 then k + 1 else k) out) := fun k => by rw [List.take_take]
  unfold tokenEnd endToken
  dsimp only
  rw [hlen]
  split
  · rw [hcut]
    by_cases hpos : 0 < slash
    · rw [if_pos hpos, if_pos hpos, backToSlash_take block (by omega)]
      have hle : (if c = 0 then backToSlash block (slash - 1) + 1 else backToSlash block (slash - 1)) ≤ out := by
        split <;> omega
      exact ⟨hle, by rw [Nat.min_eq_left hle]⟩
    · rw [if_neg hpos, if_neg hpos]
      have hle : (if c = 0 then slash + 1 else slash) ≤ out := by split <;> omega
      exact ⟨hle, by rw [Nat.min_eq_left hle]⟩
  · split
    · have hle : (if c = 0 then slash + 1 else slash) ≤ out := by split <;> omega
      exact ⟨hle, by rw [hcut, Nat.min_eq_left hle]⟩
    · exact ⟨Nat.le_refl _, rfl⟩

/-- **A state of the loop follows the loop that writes `o`** and has `rest` to read: what has been written is `o`, `out` is
not behind `walk`, and as long as the loop goes on there is a NUL to read and room to write. -/
structure Follows (s : Simplify) (o rest : Bytes) : Prop where
  written : s.mem.out.take s.out = o
  length : o.length = s.out
  unread : s.mem.src.drop s.walk = rest
  slash_le : s.slash ≤ s.out
  out_le : s.out ≤ s.walk
  nul : s.c ≠ 0 → 0 ∈ rest
  room : s.c ≠ 0 → s.walk + (cstr rest).length + 1 ≤ s.mem.out.length

/-- **One turn.** -/
theorem turn_follows (h : Follows s o (d :: rest)) (hc : s.c ≠ 0) :
    ∃ s', turn s = some s' ∧ s'.pre1 = s.c ∧ s'.c = d ∧ s'.slash = (simplifyStep o s.slash s.pre1 s.c d).2 ∧
      Follows s' (simplifyStep o s.slash s.pre1 s.c d).1 rest := by
  have hread : s.mem.src[s.walk]? = some d := by
    rw [← List.head?_drop, h.unread]
    rfl
  have hroom := h.room hc
  have hout : s.out < s.mem.out.length := by
    have := h.out_le
    omega
  obtain ⟨mem, hwrite, hmem, -, hsrc⟩ := write_eq hout s.c
  have hwritten : mem.out.take (s.out + 1) = o ++ [s.c] := by rw [hmem, take_set_succ hout, h.written]
  have hunread : mem.src.drop (s.walk + 1) = rest := by
    have hle := h.out_le
    rw [hsrc _ (by omega), ← List.drop_drop, h.unread]
    rfl
  have hnul : d ≠ 0 → 0 ∈ rest := fun hd => by simpa [Ne.symm hd] using h.nul hc
  have hroom' : d ≠ 0 → s.walk + 1 + (cstr rest).length + 1 ≤ mem.out.length := fun hd => by
    have hcstr : cstr (d :: rest) = d :: cstr rest := by simp [cstr, hd]
    rw [hcstr, List.length_cons] at hroom
    rw [hmem, List.length_set]
    omega
  have hlength : s.out + 1 ≤ mem.out.length := by
    rw [hmem, List.length_set]
    omega
  have hslash := h.slash_le
  have hle := h.out_le
  simp only [turn, hread, hwrite, Option.bind_eq_bind, Option.bind_some, simplifyStep]
  by_cases hend : d = chr '/' ∨ d = 0
  · rw [if_pos hend, if_pos hend, ← hwritten]
    obtain ⟨hbound, htoken⟩ := tokenEnd_eq mem.out hlength (Nat.lt_succ_of_le hslash) s.pre1 s.c d
    rw [htoken]
    have hlen : (mem.out.take (tokenEnd mem.out (s.out + 1) s.slash s.pre1 s.c d)).length =
        tokenEnd mem.out (s.out + 1) s.slash s.pre1 s.c d := by
      rw [List.length_take]
      omega
    exact ⟨_, rfl, rfl, rfl, hlen.symm, rfl, hlen, hunread, Nat.le_refl _, by dsimp only; omega, hnul, hroom'⟩
  · rw [if_neg hend, if_neg hend]
    refine ⟨_, rfl, rfl, rfl, rfl, hwritten, ?_, hunread, ?_, ?_, hnul, hroom'⟩
    · simp [h.length]
    · dsimp only
      omega
    · dsimp only
      omega

/-! ## The whole run -/

theorem simplifyLoop_zero (o : Bytes) (slash : Nat) (pre1 : Byte) (rest : Bytes) :
    simplifyLoop o slash pre1 0 rest = o := by
  cases rest <;> simp [simplifyLoop]

theorem run_done (n : Nat) (hc : s.c = 0) : run n s = some s := by
  cases n <;> simp [run, hc]

/-- **The loop ends, and what it has written is the output.** -/
theorem run_follows (h : Follows s o rest) (hn : rest.length ≤ n) :
    ∃ s' rest', run n s = some s' ∧ Follows s' (simplifyLoop o s.slash s.pre1 s.c rest) rest' := by
  induction rest generalizing s o n with
  | nil =>
    by_cases hc : s.c = 0
    · refine ⟨s, [], run_done n hc, ?_⟩
      rwa [hc, simplifyLoop_zero]
    · cases h.nul hc
  | cons d rest ih =>
    by_cases hc : s.c = 0
    · refine ⟨s, d :: rest, run_done n hc, ?_⟩
      rwa [hc, simplifyLoop_zero]
    · obtain ⟨n, rfl⟩ : ∃ k, n = k + 1 := ⟨n - 1, by rw [List.length_cons] at hn; omega⟩
      obtain ⟨s₁, hturn, hpre1, hchar, hslash, hfollows⟩ := turn_follows h hc
      obtain ⟨s', rest', hrun, hend⟩ := ih hfollows (by simpa using hn)
      refine ⟨s', rest', ?_, ?_⟩
      · simp [run, hc, hturn, hrun]
      · rw [simplifyLoop, if_neg hc]
        rwa [hpre1, hchar, hslash] at hend

/-- The states between the turns. -/
def Turns : Simplify → Simplify → Prop := Relation.ReflTransGen fun s s' => s.c ≠ 0 ∧ turn s = some s'

/-- **Every state follows an output.** -/
theorem turns_follows (h : Follows s o rest) (hturns : Turns s s') : ∃ o' rest', Follows s' o' rest' := by
  induction hturns with
  | refl => exact ⟨o, rest, h⟩
  | tail _ hturn ih =>
    obtain ⟨o₁, rest₁, h₁⟩ := ih
    obtain ⟨hc, hturn⟩ := hturn
    cases rest₁ with
    | nil => cases h₁.nul hc
    | cons d rest₁ =>
      obtain ⟨s₂, hturn', -, -, -, h₂⟩ := turn_follows h₁ hc
      obtain rfl := Option.some.inj (hturn'.symm.trans hturn)
      exact ⟨_, _, h₂⟩

theorem simplifyLoop_nul (w junk : Bytes) (o : Bytes) (slash : Nat) (pre1 c : Byte) :
    simplifyLoop o slash pre1 c (w ++ 0 :: junk) = simplifyLoop o slash pre1 c w := by
  induction w generalizing o slash pre1 c with
  | nil =>
    by_cases hc : c = 0
    · rw [hc, simplifyLoop_zero, simplifyLoop_zero]
    · simp [simplifyLoop, hc, simplifyLoop_zero]
  | cons d w ih =>
    rw [List.cons_append, simplifyLoop, simplifyLoop]
    split
    · rfl
    · exact ih _ _ _ _

/-- The blocks with which the loop starts. -/
structure Ready (m : Blocks) (str : Bytes) : Prop where
  src : ∃ junk, m.src = str ++ 0 :: junk
  room : str.length + 2 ≤ m.out.length

theorem length_blockOf {b : Buffer} (h : b.used ≠ 0) (junk : Nat → Byte) : (blockOf b junk).length = b.size := by
  have hle := b.used_le
  rcases b.used_eq with ⟨hu, -⟩ | hu
  · exact absurd hu h
  · simp [blockOf]
    omega

theorem blocks_ready {src : Buffer} (h : src.str ≠ []) (dest : Option Buffer) (junk junk' : Nat → Byte) :
    Ready (blocks dest src junk junk') src.str := by
  have hused : src.used = src.str.length + 1 := src.used_eq.resolve_left fun hu => h hu.2
  have hempty : src.stringIsEmpty = false := by
    rw [← Bool.not_eq_true, Buffer.stringIsEmpty_iff]
    exact h
  cases dest with
  | none =>
    refine ⟨⟨_, by rw [blocks, blockOf, Buffer.stringPrepareAppend_str]⟩, ?_⟩
    have hsize := src.le_grow (src.used + 1)
    have hgrown : (src.stringPrepareAppend 1).used = src.used ∧
        (src.stringPrepareAppend 1).size = src.grow (src.used + 1) := by
      simp [Buffer.stringPrepareAppend, hempty]
    have hlen : (blockOf (src.stringPrepareAppend 1) junk).length = src.grow (src.used + 1) := by
      rw [length_blockOf (by omega), hgrown.2]
    show src.str.length + 2 ≤ (blockOf (src.stringPrepareAppend 1) junk).length
    omega
  | some d =>
    refine ⟨⟨_, rfl⟩, ?_⟩
    have hsize := d.le_grow (src.stringLength + 1 + 1)
    have hlen : (blockOf (d.stringPrepareCopy (src.stringLength + 1)) junk').length =
        d.grow (src.stringLength + 1 + 1) := length_blockOf (Nat.one_ne_zero) junk'
    show src.str.length + 2 ≤ (blockOf (d.stringPrepareCopy (src.stringLength + 1)) junk').length
    have hlength : src.stringLength = src.str.length := src.stringLength_eq
    rw [hlen]
    omega

theorem length_cstr_nul (w junk : Bytes) : (cstr (w ++ 0 :: junk)).length ≤ w.length := by
  unfold cstr
  rw [List.takeWhile_append]
  split
  · simp
  · exact (List.takeWhile_prefix _).length_le

theorem start_read {str : Bytes} (hm : Ready m str) :
    ∃ c rest, m.src = str.takeWhile (· = chr ' ') ++ c :: rest ∧ c ≠ chr ' ' ∧
      c = (str.dropWhile (· = chr ' ')).headD 0 ∧
      (c ≠ 0 → 0 ∈ rest ∧ (str.takeWhile (· = chr ' ')).length + 1 + (cstr rest).length ≤ str.length) ∧
      ∀ o slash pre1, simplifyLoop o slash pre1 c rest =
        simplifyLoop o slash pre1 c (str.dropWhile (· = chr ' ')).tail := by
  obtain ⟨junk, hsrc⟩ := hm.src
  have hparts : str.takeWhile (· = chr ' ') ++ str.dropWhile (· = chr ' ') = str := List.takeWhile_append_dropWhile
  have hlength := congrArg List.length hparts
  rw [List.length_append] at hlength
  cases hw : str.dropWhile (· = chr ' ') with
  | nil =>
    rw [hw, List.append_nil] at hparts
    exact ⟨0, junk, by rw [hparts, hsrc], by decide, rfl, fun h => absurd rfl h, fun _ _ _ => by
      rw [simplifyLoop_zero, simplifyLoop_zero]⟩
  | cons c w =>
    have hspace : c ≠ chr ' ' := by
      have hhead := List.head_dropWhile_not (· = chr ' ') (l := str) (by rw [hw]; simp)
      simpa [hw] using hhead
    have hcstr : (cstr (w ++ 0 :: junk)).length ≤ w.length := length_cstr_nul w junk
    refine ⟨c, w ++ 0 :: junk, ?_, hspace, rfl, fun _ => ⟨by simp, ?_⟩, fun _ _ _ => simplifyLoop_nul _ _ _ _ _ _⟩
    · rw [hsrc, ← List.cons_append, ← List.append_assoc, ← hw, hparts]
    · rw [hw, List.length_cons] at hlength
      omega

/-- **The start of the loop.** -/
theorem start_follows {str : Bytes} (hm : Ready m str) (hstr : str ≠ []) : ∃ s o rest, start m = some s ∧
    Follows s o rest ∧ simplifyLoop o s.slash s.pre1 s.c rest = pathSimplify str ∧
      rest.length ≤ s.mem.src.length := by
  obtain ⟨c, rest, hsrc, hspace, hhead, hnul, hloop⟩ := start_read hm
  have hroom := hm.room
  generalize hwalk : (str.takeWhile (· = chr ' ')) = a at *
  have htake : m.src.takeWhile (· = chr ' ') = a := by
    have ha : ∀ d ∈ a, decide (d = chr ' ') = true := by
      intro d hd
      rw [← hwalk] at hd
      simpa using List.mem_takeWhile_imp hd
    rw [hsrc, List.takeWhile_append_of_pos ha, List.takeWhile_cons_of_neg (by simpa using hspace), List.append_nil]
  have hread : m.src[a.length]? = some c := by simp [hsrc]
  have hdrop : m.src.drop (a.length + 1) = rest := by
    rw [hsrc, ← List.drop_drop, List.drop_left]
    rfl
  have hpath : pathSimplify str = if c ≠ chr '/' then simplifyLoop [chr '/'] 0 (chr '/') c rest
      else simplifyLoop [] 0 0 c rest := by
    have hne : str.isEmpty = false := List.isEmpty_eq_false_iff.mpr hstr
    rw [pathSimplify, hne, hloop, hloop, hhead]
    simp
  have hlen : rest.length ≤ m.src.length := by
    rw [← hdrop, List.length_drop]
    omega
  rw [hpath]
  by_cases hc : c ≠ chr '/'
  · obtain ⟨mem, hwrite, hmem, hsame, hunread⟩ := write_eq (m := m) (n := 0) (by omega) (chr '/')
    refine ⟨⟨mem, a.length + 1, 1, 0, chr '/', c⟩, [chr '/'], rest, ?_, ?_, ?_, ?_⟩
    · simp [start, htake, hread, hc, hwrite]
    · refine ⟨?_, rfl, ?_, Nat.zero_le _, Nat.le_add_left _ _, fun h => (hnul h).1, fun h => ?_⟩
      · rw [hmem, take_set_succ (by omega)]
        rfl
      · rw [hunread _ (Nat.succ_pos _), hdrop]
      · have hle := (hnul h).2
        rw [hmem, List.length_set]
        dsimp only
        omega
    · rw [if_pos hc]
    · rwa [hsame]
  · refine ⟨⟨m, a.length + 1, 0, 0, 0, c⟩, [], rest, ?_, ?_, ?_, hlen⟩
    · simp [start, htake, hread, hc]
    · refine ⟨rfl, rfl, hdrop, Nat.le_refl _, Nat.zero_le _, fun h => (hnul h).1, fun h => ?_⟩
      have hle := (hnul h).2
      dsimp only
      omega
    · rw [if_neg hc]

/-- **`buffer_path_simplify`, with one buffer or with two.** -/
theorem bufferPathSimplify_eq (dest : Option Buffer) (src : Buffer) (junk junk' : Nat → Byte) :
    ∃ b, bufferPathSimplify dest src junk junk' = some b ∧ b.str = pathSimplify src.str := by
  unfold bufferPathSimplify
  by_cases hstr : src.str = []
  · have hempty : src.stringIsEmpty = true := (Buffer.stringIsEmpty_iff src).mpr hstr
    rw [hempty, hstr]
    exact ⟨_, rfl, rfl⟩
  · have hempty : src.stringIsEmpty = false := by
      rw [← Bool.not_eq_true, Buffer.stringIsEmpty_iff]
      exact hstr
    obtain ⟨s, o, rest, hstart, hfollows, hpath, hlen⟩ := start_follows (blocks_ready hstr dest junk junk') hstr
    obtain ⟨s', rest', hrun, hend⟩ := run_follows hfollows hlen
    rw [hempty, ← hpath]
    refine ⟨setLength (dest.getD src) s'.mem.out s'.out, ?_, ?_⟩
    · simp [hstart, hrun]
    · exact hend.written

/-! ## The reference -/

/-- **The reference**: a `/` in front, the segments come to names, and a slash at the end is kept if the path ends in `/`,
`/.` or `/..`. -/
def referencePath (s : Bytes) : Bytes :=
  let p := chr '/' :: s
  render (chr '/') (resolve (chr '.') [] (p.splitOn (chr '/'))) ++
    if ["/", "/.", "/.."].any fun e => (ascii e).isSuffixOf p then [chr '/'] else []

theorem referencePath_eq (s : Bytes) : referencePath s = normal (chr '/') (chr '.') [] ((chr '/' :: s).splitOn (chr '/')) := by
  have hslash : chr '/' ∈ chr '/' :: s := List.mem_cons_self
  have hsuffix : ∀ seg : Bytes, chr '/' ∉ seg →
      ((chr '/' :: seg).isSuffixOf (chr '/' :: s) = true ↔ ((chr '/' :: s).splitOn (chr '/')).getLastD [] = seg) := by
    intro seg hseg
    rw [List.isSuffixOf_iff_suffix, suffix_iff hslash hseg, List.getLastD_eq_getLast?,
      List.getLast?_eq_some_getLast (List.splitOn_ne_nil _ _)]
    simp
  have hempty := hsuffix [] (by simp)
  have hdot := hsuffix [chr '.'] (by decide)
  have hdots := hsuffix [chr '.', chr '.'] (by decide)
  have hany : (["/", "/.", "/.."].any fun e => (ascii e).isSuffixOf (chr '/' :: s)) = true ↔
      ((chr '/' :: s).splitOn (chr '/')).getLastD [] = [] ∨
        IsDots (chr '.') (((chr '/' :: s).splitOn (chr '/')).getLastD []) := by
    rw [IsDots, ← hempty, ← hdot, ← hdots]
    simp [ascii, chr]
  rw [referencePath, normal]
  congr 1
  exact if_congr hany rfl rfl

theorem normal_rootSegments (s : Bytes) :
    normal (chr '/') (chr '.') [] (rootSegments s) = normal (chr '/') (chr '.') [] ((chr '/' :: s).splitOn (chr '/')) := by
  have hsplit : ∀ t : Bytes, (chr '/' :: t).splitOn (chr '/') = [] :: t.splitOn (chr '/') := fun t => by
    simp [List.splitOn_cons_eq_if_modifyHead]
  rw [hsplit, normal_nil_cons (List.splitOn_ne_nil _ _), rootSegments]
  split
  · rename_i hhead
    obtain ⟨t, rfl⟩ : ∃ t, s = chr '/' :: t := List.head?_eq_some_iff.mp hhead
    rw [hsplit, normal_nil_cons (List.splitOn_ne_nil _ _), List.tail_cons]
  · rfl

/-- **The simplifier writes the reference path**, behind the leading spaces and up to the first NUL. -/
theorem pathSimplify_reference {s : Bytes} (h : s ≠ []) :
    pathSimplify s = referencePath (cstr (s.dropWhile (· = chr ' '))) := by
  rw [pathSimplify_eq h, normal_rootSegments, referencePath_eq]

/-- **A second time, nothing changes.** -/
theorem pathSimplify_idem (s : Bytes) : pathSimplify (pathSimplify s) = pathSimplify s := by
  by_cases h : s = []
  · rw [h]
    rfl
  · have hpath := pathSimplify_eq h
    rw [normal_rootSegments] at hpath
    generalize ht : cstr (s.dropWhile (· = chr ' ')) = t at hpath
    have hsegments : ∀ seg ∈ (chr '/' :: t).splitOn (chr '/'), chr '/' ∉ seg ∧ seg ⊆ chr '/' :: t :=
      fun seg hseg => mem_splitOn hseg
    have hclean : Clean (chr '/') (chr '.') (pathSimplify s) :=
      hpath ▸ clean_normal (by simp) fun seg hseg => (hsegments seg hseg).1
    obtain ⟨rest, hrest⟩ : ∃ rest, pathSimplify s = chr '/' :: rest := List.head?_eq_some_iff.mp hclean.rooted
    have hnul : (0 : Byte) ∉ pathSimplify s := by
      rw [hpath]
      intro h0
      rcases mem_normal h0 with h0 | ⟨n, hn, -⟩ | ⟨seg, hseg, h0⟩
      · revert h0
        decide
      · cases hn
      · rcases List.mem_cons.mp ((hsegments seg hseg).2 h0) with h0 | h0
        · revert h0
          decide
        · rw [← ht] at h0
          have hne := List.mem_takeWhile_imp h0
          simp at hne
    have hdrop : (pathSimplify s).dropWhile (· = chr ' ') = pathSimplify s := by
      rw [hrest]
      exact List.dropWhile_cons_of_neg (by decide)
    have hnormal : normal (chr '/') (chr '.') [] ((pathSimplify s).splitOn (chr '/')) = pathSimplify s := by
      rw [hpath]
      exact normal_normal fun seg hseg => (hsegments seg hseg).1
    have hsplit : (chr '/' :: pathSimplify s).splitOn (chr '/') = [] :: (pathSimplify s).splitOn (chr '/') := by
      simp [List.splitOn_cons_eq_if_modifyHead]
    rw [pathSimplify_eq (by rw [hrest]; simp), hdrop, cstr_eq_self hnul, normal_rootSegments, hsplit,
      normal_nil_cons (List.splitOn_ne_nil _ _), hnormal]

/-- **The whole of `buffer_path_simplify`.** -/
theorem simplify_reference (dest : Option Buffer) (src : Buffer) (junk junk' : Nat → Byte) :
    (src.str = [] → ∃ b, bufferPathSimplify dest src junk junk' = some b ∧ b.str = []) ∧
      (src.str ≠ [] → ∃ b, bufferPathSimplify dest src junk junk' = some b ∧
        b.str = referencePath (cstr (src.str.dropWhile (· = chr ' ')))) ∧
      (∀ d, (bufferPathSimplify (some d) src junk junk').map Buffer.str =
        (bufferPathSimplify none src junk junk').map Buffer.str) ∧
      (src.str ≠ [] → ∀ s₀ s, start (blocks dest src junk junk') = some s₀ → Turns s₀ s →
        s.slash ≤ s.out ∧ s.out ≤ s.walk) ∧
      ∀ b, bufferPathSimplify dest src junk junk' = some b → ∀ dest' j j',
        ∃ b', bufferPathSimplify dest' b j j' = some b' ∧ b'.str = b.str := by
  obtain ⟨b, hb, hstr⟩ := bufferPathSimplify_eq dest src junk junk'
  refine ⟨fun h => ⟨b, hb, ?_⟩, fun h => ⟨b, hb, ?_⟩, fun d => ?_, fun h s₀ s hstart hturns => ?_, fun b₁ hb₁ => ?_⟩
  · rw [hstr, h]
    rfl
  · rw [hstr, pathSimplify_reference h]
  · obtain ⟨b₁, hb₁, hstr₁⟩ := bufferPathSimplify_eq (some d) src junk junk'
    obtain ⟨b₂, hb₂, hstr₂⟩ := bufferPathSimplify_eq none src junk junk'
    simp [hb₁, hb₂, hstr₁, hstr₂]
  · obtain ⟨s₁, o, rest, hstart', hfollows, -, -⟩ := start_follows (blocks_ready h dest junk junk') h
    obtain rfl := Option.some.inj (hstart'.symm.trans hstart)
    obtain ⟨o', rest', hend⟩ := turns_follows hfollows hturns
    exact ⟨hend.slash_le, hend.out_le⟩
  · obtain rfl := Option.some.inj (hb.symm.trans hb₁)
    intro dest' j j'
    obtain ⟨b', hb', hstr'⟩ := bufferPathSimplify_eq dest' b j j'
    exact ⟨b', hb', by rw [hstr', hstr, pathSimplify_idem]⟩

/-- A space in front is no part of the path, and nothing comes of no path. -/
theorem space_skipped :
    (bufferPathSimplify none (Buffer.ofString (ascii " a")) (fun _ => 0) (fun _ => 0)).map Buffer.str =
        some (ascii "/a") ∧
      referencePath (ascii " a") = ascii "/ a" ∧
      (bufferPathSimplify none (Buffer.ofString []) (fun _ => 0) (fun _ => 0)).map Buffer.str = some [] ∧
      referencePath [] = ascii "/" := by
  decide

end Lighttpd.Uri
