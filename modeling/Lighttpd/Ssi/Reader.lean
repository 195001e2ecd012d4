import Lighttpd.Ssi.Statement
import Mathlib.Data.List.Induction

/-!
# How a server-side include is read (`mod_ssi.c`)

`mod_ssi_read_fd` reads a file into a buffer of 8 KiB, copies the text and executes the directives that are complete,
and keeps an incomplete one for the next round. `render` is what it should make of a file as a whole. It is what comes of a
sequence of reads exactly if no read follows a round that leaves text behind a directive in the buffer (`faithful_iff`).

- `scan_spec`: what one round has copied and executed, and what it leaves;
- `scan_again`: a round that begins with such text finds the directive again.
-/

namespace Lighttpd.Ssi

/-! ## The source -/

/-- What the directives do: `if_is_false` of the plugin, and `process_ssi_stmt` with its output. -/
structure Directives (σ : Type) where
  isFalse : σ → Bool
  process : σ → List Bytes → σ × Bytes

/-- Where `mod_ssi_parse_ssi_stmt` puts the NUL behind the token `p`. -/
def stmtNul (s : Bytes) (p : Nat × Nat) : Nat :=
  if (s.drop p.1).head?.any (fun c => decide (IsQuote c)) then p.1 + 1 + (p.2 - 2) else p.1 + p.2

/-- The directive with the tokens split. -/
def stmtSplit (s : Bytes) (o : List (Nat × Nat)) : Bytes := o.foldl (fun s p => s.set (stmtNul s p) 0) s

/-- The token `p` as a C string. -/
def stmtArg (s : Bytes) (p : Nat × Nat) : Bytes :=
  cstr (s.drop (if (s.drop p.1).head?.any (fun c => decide (IsQuote c)) then p.1 + 1 else p.1))

/-- `mod_ssi_parse_ssi_stmt`, and the directive as it leaves it in the buffer. -/
def parseStmt {σ : Type} (env : Directives σ) (st : σ × Bytes) (s : Bytes) : (σ × Bytes) × Bytes :=
  match stmtOfflen s with
  | none => ((st.1, st.2 ++ s), s)
  | some o =>
    let (p, b) := env.process st.1 (o.map (stmtArg (stmtSplit s o)))
    ((p, st.2 ++ b), stmtSplit s o)

def bufSize : Nat := 8192

/-- The message for a directive that does not fit into the buffer, and the part of it that may belong to `-->`. -/
def tooLong (s : Bytes) : Bytes :=
  ascii "<!-- [an error occurred: directive too long] " ++
    if s.drop (s.length - 2) = ascii "--" then ascii "--"
    else if s.drop (s.length - 1) = ascii "-" then ascii "-"
    else []

/-- The state of `mod_ssi_read_fd`: the buffer up to `offset`, `pretag`, the data of the plugin and the output. -/
structure Reader (σ : Type) where
  buf : Bytes
  pretag : Nat
  st : σ × Bytes

/-- The text up to `prelen` is copied; the length is a `size_t`, and with one below 0 the copy fails. -/
def Reader.copyText {σ : Type} (env : Directives σ) (r : Reader σ) (prelen : Nat) : Option (Reader σ) :=
  if prelen = r.pretag ∨ env.isFalse r.st.1 = true then some r
  else if r.pretag ≤ prelen then some { r with st := (r.st.1, r.st.2 ++ (r.buf.take prelen).drop r.pretag) }
  else none

/-- The loop of a round, for the next `<` from `prelen` on. -/
def scan {σ : Type} (env : Directives σ) : Nat → Nat → Reader σ → Option (Reader σ)
  | 0, _, _ => none
  | fuel + 1, prelen, r =>
    match (r.buf.drop prelen).idxOf? (chr '<') with
    | none => some r
    | some k =>
      let prelen := prelen + k
      let s := r.buf.drop prelen
      if 5 ≤ s.length then
        if s.take 5 ≠ opening then scan env fuel (prelen + 1) r
        else
          match r.copyText env prelen with
          | none => none
          | some r =>
            let len := stmtLen s
            if len ≠ 0 then
              let (st, stmt) := parseStmt env r.st (s.take len)
              let buf := r.buf.take prelen ++ (stmt ++ s.drop len)
              -- `offset` may be reached, and the text behind the directive begins at `pretag`
              if prelen + len = r.buf.length then some ⟨[], 0, st⟩
              else scan env fuel (prelen + len) ⟨buf, prelen + len, st⟩
            else if prelen = 0 ∧ r.buf.length = bufSize then some ⟨[], 0, (r.st.1, r.st.2 ++ tooLong r.buf)⟩
            else some { r with buf := s, pretag := 0 }
      else if s.tail <+: ascii "!--" then
        -- the start of a tag, perhaps
        (r.copyText env prelen).map fun r => { r with buf := s, pretag := 0 }
      else scan env fuel (prelen + 1) r

def Reader.round {σ : Type} (env : Directives σ) (r : Reader σ) (rd : Bytes) : Option (Reader σ) :=
  let r := { r with buf := r.buf ++ rd }
  (scan env (r.buf.length + 1) 0 r).map fun r =>
    if r.buf.length = bufSize then
      ⟨[], 0, if env.isFalse r.st.1 then r.st else (r.st.1, r.st.2 ++ r.buf.drop r.pretag)⟩
    else r

def readAll {σ : Type} (env : Directives σ) (p : σ) (reads : List Bytes) : Option (Reader σ) :=
  reads.foldlM (Reader.round env) ⟨[], 0, (p, [])⟩

/-- `mod_ssi_read_fd`, for what the calls of `read` give: the data of the plugin and the output. -/
def readFd {σ : Type} (env : Directives σ) (p : σ) (reads : List Bytes) : Option (σ × Bytes) :=
  (readAll env p reads).map fun r =>
    if r.buf.drop r.pretag ≠ [] ∧ env.isFalse r.st.1 = false then (r.st.1, r.st.2 ++ r.buf.drop r.pretag) else r.st

/-! ## What a file is made into -/

/-- Text is copied, unless `if_is_false` is set. -/
def copy {σ : Type} (env : Directives σ) (st : σ × Bytes) (x : Bytes) : σ × Bytes :=
  if env.isFalse st.1 then st else (st.1, st.2 ++ x)

/-- **What a file is made into**: text is copied byte for byte, a directive is executed where it ends within the size of
the buffer, and one that has no end is text. -/
def render {σ : Type} (env : Directives σ) (st : σ × Bytes) (s : Bytes) : σ × Bytes :=
  match s with
  | [] => st
  | b :: s =>
    if (b :: s).take 5 = opening then
      if _hlen : stmtLen ((b :: s).take bufSize) ≠ 0 then
        render env (parseStmt env st ((b :: s).take (stmtLen ((b :: s).take bufSize)))).1
          ((b :: s).drop (stmtLen ((b :: s).take bufSize)))
      else if bufSize ≤ (b :: s).length then
        render env (st.1, st.2 ++ tooLong ((b :: s).take bufSize)) ((b :: s).drop bufSize)
      else copy env st (b :: s)
    else render env (copy env st [b]) s
termination_by s.length
decreasing_by
  · rw [List.length_drop, List.length_cons]
    omega
  · rw [List.length_drop, List.length_cons, bufSize]
    omega
  · rw [List.length_cons]
    omega

/-! ## Directives in a longer text -/

theorem stmtEnd_append {q : Quotes} {u : Bytes} {n : Nat} (h : stmtEnd q u = some n) (t : Bytes) :
    stmtEnd q (u ++ t) = some n ∧ 3 ≤ n ∧ n ≤ u.length := by
  induction u generalizing q n with
  | nil => cases h
  | cons c u ih =>
    rw [List.cons_append, stmtEnd]
    rw [stmtEnd] at h
    split_ifs at h with hhit
    · obtain rfl := Option.some.inj h
      obtain ⟨hc, hout, htake⟩ := hhit
      have h2 : (ascii "->").length = 2 := rfl
      have hlen : 2 ≤ u.length := by
        have hl := congrArg List.length htake
        rw [List.length_take, h2] at hl
        omega
      rw [List.take_append_of_le_length hlen, if_pos ⟨hc, hout, htake⟩, List.length_cons]
      exact ⟨rfl, le_rfl, by omega⟩
    · obtain ⟨m, hm, rfl⟩ := Option.map_eq_some_iff.mp h
      obtain ⟨hm', h3, hle⟩ := ih hm
      rw [List.take_append_of_le_length (by omega), if_neg hhit, hm', List.length_cons]
      exact ⟨rfl, by omega, by omega⟩

theorem stmtLen_append {s : Bytes} (h : stmtLen s ≠ 0) (t : Bytes) :
    stmtLen (s ++ t) = stmtLen s ∧ 5 ≤ stmtLen s ∧ stmtLen s ≤ s.length := by
  rw [stmtLen] at h
  cases hn : stmtEnd .init (s.drop 5) with
  | none => simp [hn] at h
  | some n =>
    obtain ⟨happ, h3, hle⟩ := stmtEnd_append hn t
    rw [List.length_drop] at hle
    have hlen : stmtLen s = 5 + n := by rw [stmtLen, hn]
    have hlen' : stmtLen (s ++ t) = 5 + n := by
      rw [stmtLen, List.drop_append_of_le_length (by omega), happ]
    exact ⟨by rw [hlen, hlen'], by omega, by omega⟩

section

variable {σ : Type} {env : Directives σ} {st : σ × Bytes}

@[simp] theorem copy_nil : copy env st [] = st := by
  simp [copy]

theorem copy_copy (a b : Bytes) : copy env (copy env st a) b = copy env st (a ++ b) := by
  cases hf : env.isFalse st.1 <;> simp [copy, hf]

theorem render_text {x z : Bytes} (h : ∀ i < x.length, ((x ++ z).drop i).take 5 ≠ opening) :
    render env st (x ++ z) = render env (copy env st x) z := by
  induction x generalizing st with
  | nil => rw [List.nil_append, copy_nil]
  | cons b x ih =>
    have hb : (b :: (x ++ z)).take 5 ≠ opening := h 0 (by simp)
    rw [List.cons_append, render, if_neg hb, ih fun i hi => h (i + 1) (by simpa using hi), copy_copy,
      List.singleton_append]

theorem render_nil : render env st [] = st := by rw [render]

theorem render_copy {x : Bytes} (h : ∀ i < x.length, (x.drop i).take 5 ≠ opening) : render env st x = copy env st x := by
  have happ : render env st (x ++ []) = render env (copy env st x) [] := render_text (by simpa using h)
  rwa [List.append_nil, render_nil] at happ

variable {r : Reader σ} {s buf : Bytes}

theorem render_stmt (hs : s.take 5 = opening) (hlen : stmtLen s ≠ 0) (hsize : s.length ≤ bufSize) (z : Bytes) :
    render env st (s ++ z) = render env (parseStmt env st (s.take (stmtLen s))).1 (s.drop (stmtLen s) ++ z) := by
  obtain ⟨-, h5, hle⟩ := stmtLen_append hlen []
  have htake : (s ++ z).take bufSize = s ++ z.take (bufSize - s.length) := by
    rw [List.take_append, List.take_of_length_le hsize]
  have hopen : (s ++ z).take 5 = opening := by rw [List.take_append_of_le_length (by omega), hs]
  have hstmt : stmtLen ((s ++ z).take bufSize) = stmtLen s := by
    rw [htake]
    exact (stmtLen_append hlen _).1
  cases hsz : s ++ z with
  | nil => simp [hsz, opening, ascii] at hopen
  | cons b t =>
    rw [hsz] at hopen hstmt
    rw [render, if_pos hopen, hstmt, dif_pos hlen, ← hsz, List.take_append_of_le_length hle,
      List.drop_append_of_le_length hle]

theorem render_tooLong (hs : s.take 5 = opening) (hlen : stmtLen s = 0) (hsize : s.length = bufSize)
    (z : Bytes) : render env st (s ++ z) = render env (st.1, st.2 ++ tooLong s) z := by
  have htake : (s ++ z).take bufSize = s := by rw [← hsize, List.take_left]
  have hdrop : (s ++ z).drop bufSize = z := by rw [← hsize, List.drop_left]
  have hopen : (s ++ z).take 5 = opening := by
    rw [List.take_append_of_le_length (by rw [hsize, bufSize]; omega), hs]
  cases hsz : s ++ z with
  | nil => simp [hsz, opening, ascii] at hopen
  | cons b t =>
    have hlong : bufSize ≤ (b :: t).length := by
      rw [← hsz, List.length_append]
      omega
    rw [hsz] at htake hdrop hopen
    rw [render, if_pos hopen, htake, dif_neg (by simp [hlen]), if_pos hlong, hdrop]

theorem render_incomplete (hs : s.take 5 = opening) (hlen : stmtLen s = 0) (hsize : s.length < bufSize) :
    render env st s = copy env st s := by
  have htake : s.take bufSize = s := List.take_of_length_le hsize.le
  cases s with
  | nil => simp [opening, ascii] at hs
  | cons b t => rw [render, if_pos hs, htake, dif_neg (by simp [hlen]), if_neg (by omega)]

/-! ## One round -/

/-- No directive begins at the place `i`, whatever is read later. -/
def Dead (buf : Bytes) (i : Nat) : Prop := ∀ z, (buf.drop i ++ z).take 5 ≠ opening

/-- What the loop has done: `r'` is left of `r`. -/
structure Scanned (env : Directives σ) (r r' : Reader σ) : Prop where
  progress : ∀ z, render env r.st (r.buf.drop r.pretag ++ z) = render env r'.st (r'.buf.drop r'.pretag ++ z)
  left : render env r'.st (r'.buf.drop r'.pretag) = copy env r'.st (r'.buf.drop r'.pretag)
  size : r'.buf.length ≤ bufSize
  full : r'.buf.length = bufSize → ∀ z,
    render env r'.st (r'.buf.drop r'.pretag ++ z) = render env (copy env r'.st (r'.buf.drop r'.pretag)) z

theorem Scanned.of_progress {r₁ r' : Reader σ} (h : Scanned env r₁ r')
    (hp : ∀ z, render env r.st (r.buf.drop r.pretag ++ z) = render env r₁.st (r₁.buf.drop r₁.pretag ++ z)) :
    Scanned env r r' :=
  ⟨fun z => (hp z).trans (h.progress z), h.left, h.size, h.full⟩

theorem Scanned.empty (hp : ∀ z, render env r.st (r.buf.drop r.pretag ++ z) = render env st z) :
    Scanned env r ⟨[], 0, st⟩ :=
  ⟨hp, render_nil.trans copy_nil.symm, Nat.zero_le _, fun h => by simp [bufSize] at h⟩

/-- The rest is kept from a `<` on, in a buffer that is not full. -/
theorem Scanned.kept (hp : ∀ z, render env r.st (r.buf.drop r.pretag ++ z) = render env st (s ++ z))
    (hleft : render env st s = copy env st s) (hshort : s.length < bufSize) : Scanned env r ⟨s, 0, st⟩ :=
  ⟨hp, hleft, hshort.le, fun hfull => absurd hfull hshort.ne⟩

theorem dead_of_ne {i : Nat} {c : Byte} {t : Bytes} (h : buf.drop i = c :: t) (hc : c ≠ chr '<') : Dead buf i := by
  intro z hz
  rw [h, List.cons_append, List.take_succ_cons] at hz
  have hopen : opening = chr '<' :: ascii "!--#" := rfl
  rw [hopen] at hz
  exact hc (List.cons.inj hz).1

/-- Between two `<` no directive begins. -/
theorem dead_of_not_mem {n k i : Nat} (h : chr '<' ∉ (buf.drop n).take k) (hn : n ≤ i) (hk : i < n + k)
    (hi : i < buf.length) : Dead buf i := by
  have hdrop := List.drop_eq_getElem_cons hi
  refine dead_of_ne hdrop fun hc => h ?_
  rw [← hc, List.mem_iff_getElem]
  refine ⟨i - n, by rw [List.length_take, List.length_drop]; omega, ?_⟩
  rw [List.getElem_take, List.getElem_drop]
  congr 1
  omega

theorem Scanned.of_dead (hsize : r.buf.length ≤ bufSize)
    (hdead : ∀ i, r.pretag ≤ i → i < r.buf.length → Dead r.buf i) : Scanned env r r := by
  have hleft : ∀ z, render env r.st (r.buf.drop r.pretag ++ z) =
      render env (copy env r.st (r.buf.drop r.pretag)) z := by
    intro z
    refine render_text fun i hi => ?_
    rw [List.length_drop] at hi
    rw [List.drop_append_of_le_length (by rw [List.length_drop]; omega), List.drop_drop]
    exact hdead (r.pretag + i) (by omega) (by omega) z
  refine ⟨fun z => rfl, ?_, hsize, fun _ => hleft⟩
  have hnil := hleft []
  rwa [List.append_nil, render_nil] at hnil

theorem copyText_spec (env : Directives σ) {prelen : Nat} (hle : r.pretag ≤ prelen) (hlen : prelen ≤ r.buf.length)
    (hdead : ∀ i, r.pretag ≤ i → i < prelen → Dead r.buf i) :
    ∃ r₁, r.copyText env prelen = some r₁ ∧ r₁.buf = r.buf ∧
      ∀ z, render env r.st (r.buf.drop r.pretag ++ z) = render env r₁.st (r.buf.drop prelen ++ z) := by
  have hsplit : r.buf.drop r.pretag = (r.buf.take prelen).drop r.pretag ++ r.buf.drop prelen := by
    rw [← List.drop_append_of_le_length (by rw [List.length_take]; omega), List.take_append_drop]
  have hrender : ∀ z, render env r.st (r.buf.drop r.pretag ++ z) =
      render env (copy env r.st ((r.buf.take prelen).drop r.pretag)) (r.buf.drop prelen ++ z) := by
    intro z
    rw [hsplit, List.append_assoc]
    refine render_text fun i hi => ?_
    rw [← List.append_assoc, ← hsplit, List.drop_append_of_le_length ?_, List.drop_drop]
    · rw [List.length_drop, List.length_take] at hi
      exact hdead (r.pretag + i) (by omega) (by omega) z
    · rw [List.length_drop, List.length_take] at hi
      rw [List.length_drop]
      omega
  unfold Reader.copyText
  by_cases heq : prelen = r.pretag
  · refine ⟨r, by rw [if_pos (.inl heq)], rfl, fun z => ?_⟩
    rw [heq]
  · cases hf : env.isFalse r.st.1 with
    | true =>
      refine ⟨r, by simp, rfl, fun z => ?_⟩
      rw [hrender z, copy, if_pos hf]
    | false =>
      refine ⟨{ r with st := copy env r.st ((r.buf.take prelen).drop r.pretag) }, ?_, rfl, hrender⟩
      rw [if_neg (by simp [heq]), if_pos hle, copy, hf]
      rfl

theorem stmtSplit_length (s : Bytes) (o : List (Nat × Nat)) : (stmtSplit s o).length = s.length := by
  induction o generalizing s with
  | nil => rfl
  | cons p o ih => exact (ih _).trans List.length_set

theorem parseStmt_length (env : Directives σ) (st : σ × Bytes) (s : Bytes) : (parseStmt env st s).2.length = s.length := by
  unfold parseStmt
  split
  · rfl
  · exact stmtSplit_length s _

theorem dead_of_cut {w : Bytes} {i : Nat} (h : buf.drop i = chr '<' :: w) (hlen : w.length ≤ 3)
    (hpre : ¬ w <+: ascii "!--") : Dead buf i := by
  intro z hz
  have hopen : opening = chr '<' :: ascii "!--#" := rfl
  have h3 : (ascii "!--").length = 3 := rfl
  have hlong : ascii "!--" <+: ascii "!--#" := ⟨ascii "#", rfl⟩
  rw [h, hopen, List.cons_append, List.take_succ_cons] at hz
  have htail : ascii "!--#" <+: w ++ z := (List.cons.inj hz).2 ▸ List.take_prefix 4 (w ++ z)
  refine hpre (List.prefix_of_prefix_length_le (List.prefix_append w z) (hlong.trans htail) ?_)
  omega

/-- A directive of the length `len` that is written into the buffer at `n`: the text behind it stays where it was. -/
theorem stmt_in_place {stmt : Bytes} {n len : Nat} (hlen : len ≤ buf.length - n) (hn : n ≤ buf.length)
    (hstmt : stmt.length = len) : (buf.take n ++ (stmt ++ (buf.drop n).drop len)).length = buf.length ∧
      (buf.take n ++ (stmt ++ (buf.drop n).drop len)).drop (n + len) = (buf.drop n).drop len := by
  have hbefore : (buf.take n ++ stmt).length = n + len := by
    rw [List.length_append, List.length_take_of_le hn, hstmt]
  rw [← List.append_assoc]
  constructor
  · rw [List.length_append, hbefore, List.length_drop, List.length_drop]
    omega
  · rw [← hbefore, List.drop_left]

/-- **The loop of a round** copies and executes what is complete, and leaves the rest. -/
theorem scan_spec (env : Directives σ) : ∀ (fuel prelen : Nat) (r : Reader σ), r.pretag ≤ prelen → prelen ≤ r.buf.length →
    r.buf.length ≤ bufSize → r.buf.length < fuel + prelen → (∀ i, r.pretag ≤ i → i < prelen → Dead r.buf i) →
    ∃ r', scan env fuel prelen r = some r' ∧ Scanned env r r'
  | 0, prelen, r, _, hle, _, hfuel, _ => by omega
  | fuel + 1, prelen, r, hpre, hle, hsize, hfuel, hdead => by
    rw [scan]
    cases hk : (r.buf.drop prelen).idxOf? (chr '<') with
    | none =>
      -- there is no further `<`
      have hnone := List.idxOf?_eq_none_iff.mp hk
      have hall : ∀ i, r.pretag ≤ i → i < r.buf.length → Dead r.buf i := by
        intro i hi hlt
        rcases Nat.lt_or_ge i prelen with h | h
        · exact hdead i hi h
        · exact dead_of_not_mem (k := r.buf.length) (fun hm => hnone (List.mem_of_mem_take hm)) h (by omega) hlt
      exact ⟨r, rfl, Scanned.of_dead hsize hall⟩
    | some k =>
      -- the next `<` stands at `prelen + k`
      obtain ⟨-, hnot⟩ := idxOf?_split hk
      obtain ⟨hklt, hget, -⟩ := List.idxOf?_eq_some_iff.mp hk
      rw [List.length_drop] at hklt
      have hlt : prelen + k < r.buf.length := by omega
      have hs : r.buf.drop (prelen + k) = chr '<' :: r.buf.drop (prelen + k + 1) := by
        rw [List.drop_eq_getElem_cons hlt]
        rw [List.getElem_drop] at hget
        rw [hget]
      have hlen : (r.buf.drop (prelen + k)).length = r.buf.length - (prelen + k) := List.length_drop
      have hdead' : ∀ i, r.pretag ≤ i → i < prelen + k → Dead r.buf i := by
        intro i hi hik
        rcases Nat.lt_or_ge i prelen with h | h
        · exact hdead i hi h
        · exact dead_of_not_mem hnot h hik (by omega)
      have hskip : Dead r.buf (prelen + k) → ∃ r', scan env fuel (prelen + k + 1) r = some r' ∧ Scanned env r r' := by
        intro hd
        refine scan_spec env fuel (prelen + k + 1) r (by omega) (by omega) hsize (by omega) fun i hi hik => ?_
        rcases Nat.lt_succ_iff_lt_or_eq.mp hik with h | rfl
        · exact hdead' i hi h
        · exact hd
      obtain ⟨r₁, hcopy, hbuf, hprog⟩ := copyText_spec env (by omega : r.pretag ≤ prelen + k) hlt.le hdead'
      simp only
      by_cases h5 : 5 ≤ (r.buf.drop (prelen + k)).length
      · rw [if_pos h5]
        by_cases hopen : (r.buf.drop (prelen + k)).take 5 = opening
        · rw [if_neg (not_not_intro hopen)]
          simp only [hcopy]
          by_cases hstmt : stmtLen (r.buf.drop (prelen + k)) = 0
          · rw [if_neg (not_not_intro hstmt)]
            by_cases hlong : prelen + k = 0 ∧ r₁.buf.length = bufSize
            · rw [if_pos hlong]
              obtain ⟨h0, hfull⟩ := hlong
              rw [hbuf] at hfull ⊢
              rw [h0, List.drop_zero] at hopen hstmt hprog
              refine ⟨_, rfl, Scanned.empty fun z => ?_⟩
              rw [hprog z, render_tooLong hopen hstmt hfull]
            · rw [if_neg hlong]
              refine ⟨_, rfl, Scanned.kept hprog (render_incomplete hopen hstmt ?_) ?_⟩ <;>
              · rw [hlen]
                rw [hbuf] at hlong
                omega
          · rw [if_pos hstmt]
            obtain ⟨-, hge, hle'⟩ := stmtLen_append hstmt []
            have hparse := parseStmt_length env r₁.st
              ((r.buf.drop (prelen + k)).take (stmtLen (r.buf.drop (prelen + k))))
            have hexec : ∀ z, render env r.st (r.buf.drop r.pretag ++ z) =
                render env (parseStmt env r₁.st ((r.buf.drop (prelen + k)).take (stmtLen (r.buf.drop (prelen + k))))).1
                  ((r.buf.drop (prelen + k)).drop (stmtLen (r.buf.drop (prelen + k))) ++ z) := fun z => by
              rw [hprog z, render_stmt hopen hstmt (by omega)]
            generalize parseStmt env r₁.st ((r.buf.drop (prelen + k)).take (stmtLen (r.buf.drop (prelen + k)))) = res at *
            obtain ⟨st', stmt⟩ := res
            rw [List.length_take, min_eq_left hle'] at hparse
            simp only [hbuf] at hparse hexec ⊢
            by_cases hend : prelen + k + stmtLen (r.buf.drop (prelen + k)) = r.buf.length
            · rw [if_pos hend]
              refine ⟨_, rfl, Scanned.empty fun z => ?_⟩
              rw [hexec z, List.drop_drop, hend, List.drop_length, List.nil_append]
            · rw [if_neg hend]
              -- the text behind the directive stays where it was
              generalize stmtLen (r.buf.drop (prelen + k)) = len at *
              obtain ⟨hlen₂, hrest⟩ := stmt_in_place (hlen ▸ hle') hlt.le hparse
              obtain ⟨r', hr', hscan⟩ := scan_spec env fuel (prelen + k + len)
                ⟨r.buf.take (prelen + k) ++ (stmt ++ (r.buf.drop (prelen + k)).drop len), prelen + k + len, st'⟩ le_rfl
                (by rw [hlen₂]; omega) (by rw [hlen₂]; exact hsize) (by rw [hlen₂]; omega)
                (fun i hi hlt => absurd hi (Nat.not_le.mpr hlt))
              refine ⟨r', hr', hscan.of_progress fun z => ?_⟩
              rw [hrest]
              exact hexec z
        · rw [if_pos hopen]
          refine hskip fun z hz => hopen ?_
          rwa [List.take_append_of_le_length h5] at hz
      · rw [if_neg h5]
        by_cases htail : (r.buf.drop (prelen + k)).tail <+: ascii "!--"
        · rw [if_pos htail, hcopy]
          refine ⟨_, rfl, Scanned.kept hprog (render_copy fun i hi h => ?_) (by rw [bufSize]; omega)⟩
          have hl := congrArg List.length h
          rw [List.length_take, List.length_drop, length_opening] at hl
          omega
        · rw [if_neg htail]
          refine hskip (dead_of_cut hs ?_ (by rwa [hs] at htail))
          rw [hs, List.length_cons] at h5
          omega

/-! ## All rounds -/

/-- The bytes `s` have been read: what is left in the buffer is text, or belongs to what comes next. -/
structure ReadSoFar (env : Directives σ) (st : σ × Bytes) (s : Bytes) (r : Reader σ) : Prop where
  progress : ∀ z, render env st (s ++ z) = render env r.st (r.buf.drop r.pretag ++ z)
  left : render env r.st (r.buf.drop r.pretag) = copy env r.st (r.buf.drop r.pretag)

theorem ReadSoFar.round {rd : Bytes} (h : ReadSoFar env st s r) (hpre : r.pretag = 0)
    (hsize : r.buf.length + rd.length ≤ bufSize) :
    ∃ r', r.round env rd = some r' ∧ ReadSoFar env st (s ++ rd) r' := by
  obtain ⟨buf, pretag, st₁⟩ := r
  obtain rfl : pretag = 0 := hpre
  obtain ⟨r', hscan, hp, hleft, -, hfull⟩ := scan_spec env ((buf ++ rd).length + 1) 0 ⟨buf ++ rd, 0, st₁⟩
    le_rfl (Nat.zero_le _) (by simpa using hsize) (by simp) (fun i _ hi => absurd hi (Nat.not_lt_zero i))
  have hprog : ∀ z, render env st (s ++ rd ++ z) = render env r'.st (r'.buf.drop r'.pretag ++ z) := by
    intro z
    rw [List.append_assoc, h.progress, ← hp z]
    simp
  unfold Reader.round
  simp only [hscan, Option.map_some]
  by_cases hf : r'.buf.length = bufSize
  · rw [if_pos hf]
    refine ⟨_, rfl, fun z => ?_, ?_⟩
    · rw [hprog z, hfull hf z]
      rfl
    · exact render_nil.trans copy_nil.symm
  · rw [if_neg hf]
    exact ⟨r', rfl, hprog, hleft⟩

theorem readAll_append (p : σ) (reads : List Bytes) (rd : Bytes) :
    readAll env p (reads ++ [rd]) = (readAll env p reads).bind fun r => r.round env rd := by
  simp [readAll, List.foldlM_append]

/-- The buffer is the same, whatever the directives do. -/
structure SameBuf {τ : Type} (r : Reader σ) (r' : Reader τ) : Prop where
  buf : r.buf = r'.buf
  pretag : r.pretag = r'.pretag

end

/-- Directives that do nothing, below an `if` that is not taken: no text is copied. -/
def silent : Directives Unit := ⟨fun _ => true, fun _ _ => ((), [])⟩

section

variable {σ : Type} {env : Directives σ} {r r₁ : Reader σ}

theorem copyText_buf {prelen : Nat} (h : r.copyText env prelen = some r₁) :
    r₁.buf = r.buf ∧ r₁.pretag = r.pretag := by
  unfold Reader.copyText at h
  split_ifs at h <;>
  · obtain rfl := Option.some.inj h
    exact ⟨rfl, rfl⟩

theorem copyText_silent (r : Reader Unit) (prelen : Nat) : r.copyText silent prelen = some r := by
  simp [Reader.copyText, silent]

/-- How the directive stands in the buffer afterwards does not depend on what it does. -/
theorem parseStmt_stmt {τ : Type} (env' : Directives τ) (st : σ × Bytes) (st' : τ × Bytes) (s : Bytes) :
    (parseStmt env st s).2 = (parseStmt env' st' s).2 := by
  unfold parseStmt
  cases stmtOfflen s <;> rfl

theorem scan_silent : ∀ (fuel prelen : Nat) (r r₁ : Reader σ) (r' : Reader Unit), SameBuf r r' →
    scan env fuel prelen r = some r₁ → ∃ r₁', scan silent fuel prelen r' = some r₁' ∧ SameBuf r₁ r₁'
  | 0, _, _, _, _, _, h => by cases h
  | fuel + 1, prelen, ⟨buf, pretag, st⟩, r₁, ⟨buf', pretag', st'⟩, ⟨hb, hp⟩, h => by
    obtain rfl : buf = buf' := hb
    obtain rfl : pretag = pretag' := hp
    rw [scan] at h ⊢
    cases hk : (buf.drop prelen).idxOf? (chr '<') with
    | none =>
      simp only [hk, Option.some.injEq] at h ⊢
      subst h
      exact ⟨_, rfl, rfl, rfl⟩
    | some k =>
      simp only [hk, copyText_silent, Option.map_some] at h ⊢
      by_cases h5 : 5 ≤ (buf.drop (prelen + k)).length
      · rw [if_pos h5] at h ⊢
        by_cases hopen : (buf.drop (prelen + k)).take 5 = opening
        · rw [if_neg (not_not_intro hopen)] at h ⊢
          cases hc : Reader.copyText env ⟨buf, pretag, st⟩ (prelen + k) with
          | none => simp [hc] at h
          | some r₂ =>
            obtain ⟨hbuf, -⟩ := copyText_buf hc
            simp only [hc, hbuf] at h
            split_ifs at h ⊢ with hlen hend hfull
            · obtain rfl := Option.some.inj h
              exact ⟨_, rfl, rfl, rfl⟩
            · refine scan_silent fuel _ _ _ _ ⟨?_, rfl⟩ h
              simp [parseStmt_stmt silent r₂.st st']
            all_goals
              obtain rfl := Option.some.inj h
              exact ⟨_, rfl, rfl, rfl⟩
        · rw [if_pos hopen] at h ⊢
          exact scan_silent fuel _ _ _ _ ⟨rfl, rfl⟩ h
      · rw [if_neg h5] at h ⊢
        split_ifs at h ⊢ with htail
        · obtain ⟨r₂, -, rfl⟩ := Option.map_eq_some_iff.mp h
          exact ⟨_, rfl, rfl, rfl⟩
        · exact scan_silent fuel _ _ _ _ ⟨rfl, rfl⟩ h

theorem round_silent {r' : Reader Unit} {rd : Bytes} (hr : SameBuf r r')
    (h : r.round env rd = some r₁) : ∃ r₁', r'.round silent rd = some r₁' ∧ SameBuf r₁ r₁' := by
  obtain ⟨r₂, hscan, rfl⟩ := Option.map_eq_some_iff.mp h
  obtain ⟨buf, pretag, st⟩ := r
  obtain ⟨buf', pretag', st'⟩ := r'
  obtain ⟨rfl, rfl⟩ : buf = buf' ∧ pretag = pretag' := ⟨hr.buf, hr.pretag⟩
  obtain ⟨r₂', hscan', hr₂⟩ := scan_silent _ 0 ⟨buf ++ rd, pretag, st⟩ _ ⟨buf ++ rd, pretag, st'⟩ ⟨rfl, rfl⟩ hscan
  refine ⟨_, Option.map_eq_some_iff.mpr ⟨r₂', hscan', rfl⟩, ?_⟩
  rw [← hr₂.buf]
  by_cases hf : r₂.buf.length = bufSize
  · rw [if_pos hf, if_pos hf]
    exact ⟨rfl, rfl⟩
  · rw [if_neg hf, if_neg hf]
    exact hr₂

/-- **The buffer does not depend on the directives.** -/
theorem readAll_silent {p : σ} {reads : List Bytes} : ∀ {r : Reader σ}, readAll env p reads = some r →
    ∃ r', readAll silent () reads = some r' ∧ SameBuf r r' := by
  induction reads using List.reverseRecOn with
  | nil =>
    intro r h
    obtain rfl := Option.some.inj h
    exact ⟨⟨[], 0, ((), [])⟩, rfl, rfl, rfl⟩
  | append_singleton reads rd ih =>
    intro r h
    rw [readAll_append] at h
    obtain ⟨r₀, h₀, hround⟩ := Option.bind_eq_some_iff.mp h
    obtain ⟨r₀', h₀', hsame⟩ := ih h₀
    obtain ⟨r', h', hr⟩ := round_silent hsame hround
    exact ⟨r', by rw [readAll_append, h₀', Option.bind_some, h'], hr⟩

/-! ## Text behind a directive -/

/-- Text that is left behind a directive has the directive before it, in the buffer. -/
def BehindTag (r : Reader σ) : Prop :=
  r.pretag ≠ 0 → r.pretag ≤ r.buf.length ∧ ∃ j, j + 5 ≤ r.pretag ∧ (r.buf.drop j).take 5 = opening

theorem stmtSplit_opening {s : Bytes} {o : List (Nat × Nat)} (h : ∀ p ∈ o, 5 ≤ p.1) :
    (stmtSplit s o).take 5 = s.take 5 := by
  induction o generalizing s with
  | nil => rfl
  | cons p o ih =>
    have hp := h p (by simp)
    have hnul : 5 ≤ stmtNul s p := by
      unfold stmtNul
      split_ifs <;> omega
    exact (ih fun q hq => h q (by simp [hq])).trans (List.take_set_of_le hnul)

/-- The NULs stand behind the `<!--#` of a directive. -/
theorem parseStmt_opening (env : Directives σ) (st : σ × Bytes) (s : Bytes) : (parseStmt env st s).2.take 5 = s.take 5 := by
  unfold parseStmt
  split
  · rfl
  · next o ho =>
    obtain ⟨segs, -, htokens⟩ := stmtOfflen_segments ho
    exact stmtSplit_opening fun p hp => tokensAt_ge (htokens ▸ hp)

theorem behindTag_stmt (a rest : Bytes) {stmt : Bytes} (h5 : 5 ≤ stmt.length) (h : stmt.take 5 = opening) (st : σ × Bytes) :
    BehindTag ⟨a ++ (stmt ++ rest), a.length + stmt.length, st⟩ := by
  refine fun _ => ⟨?_, a.length, Nat.add_le_add_left h5 _, ?_⟩
  · simp [List.length_append]
  · rw [List.drop_left, List.take_append_of_le_length h5, h]

theorem scan_behindTag : ∀ (fuel prelen : Nat) (r r₁ : Reader σ), BehindTag r → scan env fuel prelen r = some r₁ →
    BehindTag r₁
  | 0, _, _, _, _, h => by cases h
  | fuel + 1, prelen, ⟨buf, pretag, st⟩, r₁, hr, h => by
    rw [scan] at h
    cases hk : (buf.drop prelen).idxOf? (chr '<') with
    | none =>
      simp only [hk, Option.some.injEq] at h
      exact h ▸ hr
    | some k =>
      simp only [hk] at h
      by_cases h5 : 5 ≤ (buf.drop (prelen + k)).length
      · rw [if_pos h5] at h
        by_cases hopen : (buf.drop (prelen + k)).take 5 = opening
        · rw [if_neg (not_not_intro hopen)] at h
          cases hc : Reader.copyText env ⟨buf, pretag, st⟩ (prelen + k) with
          | none => simp [hc] at h
          | some r₂ =>
            obtain ⟨hbuf, -⟩ := copyText_buf hc
            simp only [hc, hbuf] at h
            split_ifs at h with hlen hend hfull
            · obtain rfl := Option.some.inj h
              exact fun h0 => absurd rfl h0
            · -- the directive stands in front of the text that is left
              refine scan_behindTag fuel _ _ _ ?_ h
              obtain ⟨-, hge, hle⟩ := stmtLen_append hlen []
              have hstmt := parseStmt_opening env r₂.st
                ((buf.drop (prelen + k)).take (stmtLen (buf.drop (prelen + k))))
              have hslen := parseStmt_length env r₂.st
                ((buf.drop (prelen + k)).take (stmtLen (buf.drop (prelen + k))))
              have htake : (buf.take (prelen + k)).length = prelen + k := by
                rw [List.length_drop] at h5
                rw [List.length_take]
                omega
              rw [List.take_take, min_eq_left hge, hopen] at hstmt
              rw [List.length_take, min_eq_left hle] at hslen
              have hbehind := behindTag_stmt (buf.take (prelen + k))
                ((buf.drop (prelen + k)).drop (stmtLen (buf.drop (prelen + k)))) (by rw [hslen]; exact hge) hstmt
                (parseStmt env r₂.st ((buf.drop (prelen + k)).take (stmtLen (buf.drop (prelen + k))))).1
              rwa [htake, hslen] at hbehind
            all_goals
              obtain rfl := Option.some.inj h
              exact fun h0 => absurd rfl h0
        · rw [if_pos hopen] at h
          exact scan_behindTag fuel _ _ _ hr h
      · rw [if_neg h5] at h
        split_ifs at h with htail
        · obtain ⟨r₂, -, rfl⟩ := Option.map_eq_some_iff.mp h
          exact fun h0 => absurd rfl h0
        · exact scan_behindTag fuel _ _ _ hr h

theorem BehindTag.append (h : BehindTag r) (rd : Bytes) : BehindTag { r with buf := r.buf ++ rd } := by
  intro h0
  obtain ⟨hle, j, hj, hopen⟩ := h h0
  refine ⟨?_, j, hj, ?_⟩
  · simp only [List.length_append]
    omega
  · have h5 := congrArg List.length hopen
    rw [List.length_take, length_opening] at h5
    rw [List.drop_append_of_le_length (by omega), List.take_append_of_le_length (by omega), hopen]

theorem round_behindTag {rd : Bytes} (hr : BehindTag r) (h : r.round env rd = some r₁) : BehindTag r₁ := by
  obtain ⟨r₂, hscan, rfl⟩ := Option.map_eq_some_iff.mp h
  by_cases hf : r₂.buf.length = bufSize
  · rw [if_pos hf]
    exact fun h0 => absurd rfl h0
  · rw [if_neg hf]
    exact scan_behindTag _ _ _ _ (hr.append rd) hscan

theorem readAll_behindTag {p : σ} {reads : List Bytes} : ∀ {r : Reader σ}, readAll env p reads = some r → BehindTag r := by
  induction reads using List.reverseRecOn with
  | nil =>
    intro r h
    obtain rfl := Option.some.inj h
    exact fun h0 => absurd rfl h0
  | append_singleton reads rd ih =>
    intro r h
    rw [readAll_append] at h
    obtain ⟨r₀, h₀, hround⟩ := Option.bind_eq_some_iff.mp h
    exact round_behindTag (ih h₀) hround

/-- **A round that begins with text behind a directive** finds the directive again, and the length of the text in front
of it is below 0. -/
theorem scan_again (henv : ∀ st, env.isFalse st = false) : ∀ (fuel prelen j : Nat) (r : Reader σ), prelen ≤ j →
    j < r.pretag → (r.buf.drop j).take 5 = opening → scan env fuel prelen r = none
  | 0, _, _, _, _, _, _ => rfl
  | fuel + 1, prelen, j, r, hle, hlt, hopen => by
    have h5 : 5 ≤ (r.buf.drop j).length := by
      have hl := congrArg List.length hopen
      rw [List.length_take, length_opening] at hl
      omega
    have hhead : (r.buf.drop j).head? = some (chr '<') := by
      have h0 := congrArg List.head? hopen
      rwa [List.head?_take, if_neg (by decide), show opening.head? = some (chr '<') from rfl] at h0
    have hjlen : j < r.buf.length := by
      rw [List.length_drop] at h5
      omega
    rw [scan]
    cases hk : (r.buf.drop prelen).idxOf? (chr '<') with
    | none =>
      refine absurd ?_ (List.idxOf?_eq_none_iff.mp hk)
      have hdrop : r.buf.drop j = (r.buf.drop prelen).drop (j - prelen) := by
        rw [List.drop_drop]
        congr 1
        omega
      rw [hdrop] at hhead
      exact List.mem_of_mem_drop (List.mem_of_mem_head? hhead)
    | some k =>
      have hkj : prelen + k ≤ j := by
        by_contra hcon
        obtain ⟨hklt, hget, hfirst⟩ := List.idxOf?_eq_some_iff.mp hk
        apply hfirst (j - prelen) (by omega)
        rw [List.head?_drop, List.getElem?_eq_getElem hjlen, Option.some.injEq] at hhead
        rw [List.getElem_drop, ← hhead]
        congr 1
        omega
      have h5' : 5 ≤ (r.buf.drop (prelen + k)).length := by
        rw [List.length_drop] at h5 ⊢
        omega
      simp only
      rw [if_pos h5']
      by_cases ho : (r.buf.drop (prelen + k)).take 5 = opening
      · have hcopy : r.copyText env (prelen + k) = none := by
          unfold Reader.copyText
          rw [if_neg (by simp only [henv]; simp; omega), if_neg (by omega)]
        rw [if_neg (not_not_intro ho), hcopy]
      · rw [if_pos ho]
        refine scan_again henv fuel _ j r ?_ hlt hopen
        rcases Nat.lt_or_eq_of_le hkj with hlt' | heq
        · exact hlt'
        · exact absurd (heq ▸ hopen) ho

theorem round_again (henv : ∀ st, env.isFalse st = false) (hr : BehindTag r) (h : r.pretag ≠ 0)
    (rd : Bytes) : r.round env rd = none := by
  obtain ⟨-, j, hj, hopen⟩ := hr.append rd h
  unfold Reader.round
  simp only [Option.map_eq_none_iff]
  exact scan_again henv _ 0 j _ (Nat.zero_le j) (lt_of_lt_of_le (by omega) hj) hopen

end

/-! ## How a file is read -/

/-- What the calls of `read` may give: each fills the rest of the buffer at most. -/
def Fits (reads : List Bytes) : Prop :=
  ∀ pre rd post, reads = pre ++ rd :: post →
    rd ≠ [] ∧ ∀ r, readAll silent () pre = some r → r.buf.length + rd.length ≤ bufSize

/-- No read follows a round that leaves text behind a directive in the buffer. -/
def Unsplit (reads : List Bytes) : Prop :=
  ∀ pre rd post, reads = pre ++ rd :: post → ∀ r, readAll silent () pre = some r → r.pretag = 0

/-- Whatever the directives do, the output is that of the file as a whole. -/
def Faithful (reads : List Bytes) : Prop :=
  ∀ (σ : Type) (env : Directives σ) (p : σ), readFd env p reads = some (render env (p, []) reads.flatten)

def SameOutput (a b : List Bytes) : Prop :=
  ∀ (σ : Type) (env : Directives σ) (p : σ), readFd env p a = readFd env p b

variable {reads : List Bytes}

theorem splits_iff {P : List Bytes → Bytes → Prop} :
    (∀ n, ∀ h : n < reads.length, P (reads.take n) reads[n]) ↔ ∀ pre rd post, reads = pre ++ rd :: post → P pre rd := by
  constructor
  · rintro h pre rd post rfl
    have hn := h pre.length (by simp)
    simpa using hn
  · intro h n hn
    apply h _ _ (reads.drop (n + 1))
    rw [← List.drop_eq_getElem_cons hn, List.take_append_drop]

instance (reads : List Bytes) : Decidable (Fits reads) :=
  decidable_of_iff (∀ n, ∀ h : n < reads.length, reads[n] ≠ [] ∧
    ∀ r, readAll silent () (reads.take n) = some r → r.buf.length + reads[n].length ≤ bufSize)
    (splits_iff (P := fun pre rd => rd ≠ [] ∧ ∀ r, readAll silent () pre = some r → r.buf.length + rd.length ≤ bufSize))

instance (reads : List Bytes) : Decidable (Unsplit reads) :=
  decidable_of_iff (∀ n, n < reads.length → ∀ r, readAll silent () (reads.take n) = some r → r.pretag = 0)
    (splits_iff (P := fun pre _ => ∀ r, readAll silent () pre = some r → r.pretag = 0))

theorem Fits.init {rd : Bytes} (h : Fits (reads ++ [rd])) : Fits reads := by
  intro pre x post hsplit
  exact h pre x (post ++ [rd]) (by simp [hsplit])

theorem Unsplit.init {rd : Bytes} (h : Unsplit (reads ++ [rd])) : Unsplit reads := by
  intro pre x post hsplit
  exact h pre x (post ++ [rd]) (by simp [hsplit])

theorem readAll_spec {σ : Type} (env : Directives σ) (p : σ) (hfit : Fits reads)
    (h : Unsplit reads) : ∃ r, readAll env p reads = some r ∧ ReadSoFar env (p, []) reads.flatten r := by
  induction reads using List.reverseRecOn with
  | nil => exact ⟨_, rfl, fun z => rfl, render_nil.trans copy_nil.symm⟩
  | append_singleton reads rd ih =>
    obtain ⟨r, hr, hso⟩ := ih hfit.init h.init
    obtain ⟨r₀, hr₀, hbuf, hpretag⟩ := readAll_silent hr
    have hpre : r.pretag = 0 := hpretag.trans (h reads rd [] rfl r₀ hr₀)
    have hsize : r.buf.length + rd.length ≤ bufSize := hbuf ▸ (hfit reads rd [] rfl).2 r₀ hr₀
    obtain ⟨r', hround, hso'⟩ := hso.round hpre hsize
    refine ⟨r', by rw [readAll_append, hr, Option.bind_some, hround], ?_⟩
    rwa [List.flatten_append, List.flatten_singleton]

theorem faithful_of_unsplit (hfit : Fits reads) (h : Unsplit reads) : Faithful reads := by
  intro σ env p
  obtain ⟨r, hr, hprog, hleft⟩ := readAll_spec env p hfit h
  have hrender : render env (p, []) reads.flatten = copy env r.st (r.buf.drop r.pretag) := by
    have hnil := hprog []
    rw [List.append_nil, List.append_nil] at hnil
    exact hnil.trans hleft
  rw [readFd, hr, hrender, Option.map_some, copy]
  congr 1
  by_cases hrest : r.buf.drop r.pretag = []
  · rw [if_neg fun hand => hand.1 hrest, hrest, List.append_nil]
    split_ifs <;> rfl
  · cases hf : env.isFalse r.st.1 with
    | true => rw [if_neg (by simp), if_pos rfl]
    | false => rw [if_pos ⟨hrest, rfl⟩, if_neg (by simp)]

/-- Directives that do nothing, with all text copied. -/
def shown : Directives Unit := ⟨fun _ => false, fun _ _ => ((), [])⟩

/-- Text that is left behind a directive when the next bytes are read ends it. -/
theorem unsplit_of_read (h : readFd shown () reads ≠ none) : Unsplit reads := by
  rintro pre rd post rfl r hr
  by_contra hpre
  apply h
  have hsplit : readAll shown () (pre ++ rd :: post) =
      ((readAll shown () pre).bind fun r => r.round shown rd).bind fun r => post.foldlM (Reader.round shown) r := by
    simp [readAll, List.foldlM_append, Option.bind_assoc]
  have hround : (readAll shown () pre).bind (fun r => r.round shown rd) = none := by
    cases hs : readAll shown () pre with
    | none => rfl
    | some r₁ =>
      obtain ⟨r', hr', hsame⟩ := readAll_silent hs
      obtain rfl := Option.some.inj (hr.symm.trans hr')
      exact round_again (fun _ => rfl) (readAll_behindTag hs) (hsame.pretag ▸ hpre) rd
  rw [readFd, hsplit, hround]
  rfl

/-- **The output is that of the file as a whole** exactly if no read splits the text behind a directive. -/
theorem faithful_iff (hfit : Fits reads) : Faithful reads ↔ Unsplit reads :=
  ⟨fun h => unsplit_of_read (by rw [h Unit shown ()]; simp), faithful_of_unsplit hfit⟩

/-- A file that is read at once, or so that the reads cut its directive off. -/
def wholeRead : List Bytes := [ascii "ab<!--#echo var=\"A\"-->cd"]
def cutReads : List Bytes := [ascii "ab<!--#ec", ascii "ho var=\"A\"-->", ascii "cd"]

def echoStmt : Bytes := ascii "<!--#echo var=\"A\"-->"
def echoTokens : List (Nat × Nat) := [(5, 4), (10, 3), (14, 3)]

theorem echoStmt_directive : Directive echoStmt echoTokens where
  opening := by decide +kernel
  closing := by decide +kernel
  accepted := by decide +kernel
  first := by
    have hno : ∀ k < 17, 5 ≤ k → ¬ closing <+: echoStmt.drop k := by decide +kernel
    have hlen : echoStmt.length = 20 := by decide
    exact fun k h5 hk hpre => absurd hpre (hno k (by omega) h5)

/-- A file in which the text behind a directive is read in two parts. -/
def shortReads : List Bytes := [ascii "<!--#echo var=\"A\"-->c", ascii "d"]
def longRead : List Bytes := [ascii "<!--#echo var=\"A\"-->cd"]

/-- A value with a backslash that is not paired. -/
def setStmt : Bytes := ascii "<!--#set var=\"a\" value=\"b\\c\"-->"
def setTokens : List (Nat × Nat) := [(5, 3), (9, 3), (13, 3), (17, 5), (23, 5)]

theorem setStmt_directive : Directive setStmt setTokens where
  opening := by decide
  closing := by decide
  accepted := by decide +kernel
  first := by
    have hno : ∀ k < 28, 5 ≤ k → ¬ closing <+: setStmt.drop k := by decide
    have hlen : setStmt.length = 31 := by decide
    exact fun k h5 hk hpre => absurd hpre (hno k (by omega) h5)

/-- **How a file is read does not show** exactly if no read splits the text behind a directive; and a directive is taken
to end where its values are closed exactly if its quotes are those that `mod_ssi_stmt_len` counts. -/
theorem read_fd_iff {a b : List Bytes} (ha : Fits a) (hb : Fits b) (hab : a.flatten = b.flatten) {d : Bytes}
    {o : List (Nat × Nat)} (hd : Directive d o) :
    (SameOutput a b ∧ Faithful a ↔ Unsplit a ∧ Unsplit b) ∧
      (Agrees d o ↔ ∀ p ∈ o, QuotesCounted ((d.drop p.1).take p.2)) := by
  refine ⟨⟨fun ⟨hsame, hfa⟩ => ⟨(faithful_iff ha).mp hfa, (faithful_iff hb).mp ?_⟩, fun ⟨hua, hub⟩ => ?_⟩,
    stmtLen_agrees_iff hd⟩
  · intro σ env p
    rw [← hsame, hfa, hab]
  · have hfa := (faithful_iff ha).mpr hua
    have hfb := (faithful_iff hb).mpr hub
    refine ⟨fun σ env p => ?_, hfa⟩
    rw [hfa, hfb, hab]

theorem read_fd_iff_cut : (SameOutput wholeRead cutReads ∧ Faithful wholeRead ↔ Unsplit wholeRead ∧ Unsplit cutReads) ∧
    (Agrees echoStmt echoTokens ↔ ∀ p ∈ echoTokens, QuotesCounted ((echoStmt.drop p.1).take p.2)) :=
  read_fd_iff (by decide) (by decide +kernel) (by decide) echoStmt_directive

/-- The text behind the directive is in the buffer when the second read comes, and the directive is found again; and the
backslash hides the quote that closes the value. -/
theorem shortReads_wrong : (Fits longRead ∧ Fits shortReads ∧ longRead.flatten = shortReads.flatten ∧
      ¬ SameOutput longRead shortReads) ∧ Directive setStmt setTokens ∧ ¬ Agrees setStmt setTokens := by
  refine ⟨⟨by decide, by decide +kernel, by decide +kernel, fun hsame => ?_⟩, setStmt_directive, fun hagrees => ?_⟩
  · have hlong : readFd shown () longRead = some ((), ascii "cd") := by decide +kernel
    have hshort : readFd shown () shortReads = none := by decide +kernel
    have heq := hsame Unit shown ()
    rw [hlong, hshort] at heq
    cases heq
  · have hlen : stmtLen (setStmt.take 28 ++ closing) = 0 := by decide +kernel
    have hend : ¬ InValue setStmt setTokens 28 := by
      rintro ⟨p, hp, -, hlt, hgt⟩
      have hbefore : ∀ p ∈ setTokens, p.1 + p.2 ≤ 28 := by decide +kernel
      exact absurd hgt (Nat.not_lt.mpr (hbefore p hp))
    have hfound := (hagrees 28 (by decide) (by decide +kernel)).mpr hend
    rw [hlen] at hfound
    cases hfound

end Lighttpd.Ssi
