import Mathlib.Data.List.TakeWhile

/-!
# Tokens of a string in a block of memory

A tokenizer that skips delimiters, cuts off a token at the next delimiter, and goes on behind it; it ends at a terminator.
It works on a block of memory, and is `none` where it would read behind the block.

- `Cut`: a string as delimiters and tokens, with `cut_tokens` for the cases of a proof;
- `all_terminated`: with a terminator behind the string, the tokenizer gives the tokens of the string;
- `all_unterminated`: without one, it reads behind the block for every string.
-/

namespace StrTok

variable {α : Type} {d nul : α} {s : List α}

/-! ## Where tokens begin -/

/-- `r` is the rest of the string from the beginning of a token on. -/
def Begins (d : α) (s r : List α) : Prop := r ≠ [] ∧ r.head? ≠ some d ∧ (r = s ∨ d :: r <:+ s)

variable {r t ds : List α}

theorem begins_delims (hds : ∀ c ∈ ds, c = d) : Begins d (ds ++ s) r ↔ Begins d s r := by
  induction ds with
  | nil => rfl
  | cons c ds ih =>
    rw [List.forall_mem_cons] at hds
    rw [List.cons_append, hds.1, ← ih hds.2]
    unfold Begins
    rw [List.suffix_cons_iff, List.cons_inj_right]
    constructor
    · rintro ⟨hne, hhead, rfl | h⟩
      · exact absurd rfl hhead
      · exact ⟨hne, hhead, h⟩
    · rintro ⟨hne, hhead, h⟩
      exact ⟨hne, hhead, .inr h⟩

theorem not_begins_nil (r : List α) : ¬ Begins d [] r := by
  rintro ⟨hne, -, h | h⟩
  · exact hne h
  · exact absurd (List.suffix_nil.mp h) (List.cons_ne_nil d r)

theorem begins_last (hne : t ≠ []) (ht : d ∉ t) : Begins d t r ↔ r = t := by
  constructor
  · rintro ⟨-, -, h | h⟩
    · exact h
    · exact absurd (h.subset List.mem_cons_self) ht
  · rintro rfl
    exact ⟨hne, fun h => ht (List.mem_of_mem_head? h), .inl rfl⟩

theorem suffix_token (ht : d ∉ t) : d :: r <:+ t ++ d :: s ↔ r = s ∨ d :: r <:+ s := by
  induction t with
  | nil => rw [List.nil_append, List.suffix_cons_iff, List.cons_inj_right]
  | cons c t ih =>
    rw [List.mem_cons, not_or] at ht
    rw [List.cons_append, List.suffix_cons_iff, ih ht.2]
    refine or_iff_right fun h => ?_
    exact ht.1 (List.cons.inj h).1

theorem begins_cons (hne : t ≠ []) (ht : d ∉ t) : Begins d (t ++ d :: s) r ↔ r = t ++ d :: s ∨ Begins d s r := by
  have hhead : (t ++ d :: s).head? ≠ some d := by
    obtain ⟨c, t, rfl⟩ := List.exists_cons_of_ne_nil hne
    rw [List.mem_cons, not_or] at ht
    exact fun h => ht.1 (Option.some.inj h).symm
  unfold Begins
  rw [suffix_token ht]
  constructor
  · rintro ⟨hr, hrhead, h | h⟩
    · exact .inl h
    · exact .inr ⟨hr, hrhead, h⟩
  · rintro (rfl | ⟨hr, hrhead, h⟩)
    · exact ⟨by simp [hne], hhead, .inl rfl⟩
    · exact ⟨hr, hrhead, .inr h⟩

/-! ## Tokens -/

/-- **A string and its tokens**: delimiters, or a token behind delimiters, with nothing or a delimiter and another string
behind it. -/
inductive Cut (d : α) : List α → List (List α) → Prop
  | delims {ds : List α} (hds : ∀ c ∈ ds, c = d) : Cut d ds []
  | last {ds t : List α} (hds : ∀ c ∈ ds, c = d) (hne : t ≠ []) (ht : d ∉ t) : Cut d (ds ++ t) [t]
  | cons {ds t s : List α} {ts : List (List α)} (hds : ∀ c ∈ ds, c = d) (hne : t ≠ []) (ht : d ∉ t) (h : Cut d s ts) :
    Cut d (ds ++ (t ++ d :: s)) (t :: ts)

theorem Cut.length_le {ts : List (List α)} (h : Cut d s ts) : ∀ t ∈ ts, t.length ≤ s.length := by
  induction h with
  | delims => nofun
  | last => simp
  | @cons ds t s ts _ _ _ _ ih =>
    rw [List.forall_mem_cons]
    simp only [List.length_append, List.length_cons]
    refine ⟨by omega, fun t' ht' => ?_⟩
    have := ih t' ht'
    omega

variable [DecidableEq α]

/-- The parts of a string between delimiters that are not empty. -/
def tokens (d : α) (s : List α) : List (List α) := (s.splitOn d).filter (· ≠ [])

theorem tokens_delim (d : α) (s : List α) : tokens d (d :: s) = tokens d s := by
  unfold tokens
  rw [List.splitOn_cons_eq_if_modifyHead, if_pos (by simp)]
  simp

theorem tokens_delims (hds : ∀ c ∈ ds, c = d) (s : List α) : tokens d (ds ++ s) = tokens d s := by
  induction ds with
  | nil => rfl
  | cons c ds ih =>
    rw [List.forall_mem_cons] at hds
    rw [List.cons_append, hds.1, tokens_delim, ih hds.2]

/-- **The tokens are the ones of the string.** -/
theorem Cut.tokens {ts : List (List α)} (h : Cut d s ts) : tokens d s = ts := by
  induction h with
  | @delims ds hds =>
    rw [← List.append_nil ds, tokens_delims hds]
    rfl
  | last hds hne ht =>
    rw [tokens_delims hds, StrTok.tokens, List.splitOn_eq_singleton ht]
    simp [hne]
  | cons hds hne ht _ ih =>
    rw [tokens_delims hds, StrTok.tokens, List.splitOn_append_cons_self, List.splitOn_eq_singleton ht]
    simp only [List.singleton_append, List.filter_cons, hne, ne_eq, not_false_eq_true, decide_true, if_true]
    rw [← ih]
    rfl

theorem exists_cut (d : α) (s : List α) : ∃ ts, Cut d s ts := by
  induction hlen : s.length using Nat.strongRecOn generalizing s with
  | ind n ih =>
    have hds : ∀ c ∈ s.takeWhile (· = d), c = d := fun c hc => by simpa using List.mem_takeWhile_imp hc
    have hs : s.takeWhile (· = d) ++ s.dropWhile (· = d) = s := List.takeWhile_append_dropWhile
    cases hr : s.dropWhile (· = d) with
    | nil =>
      rw [hr, List.append_nil] at hs
      exact ⟨[], .delims (hs ▸ hds)⟩
    | cons c r =>
      have hc : c ≠ d := by
        have := List.head?_dropWhile_not (· = d) s
        rw [hr] at this
        simpa using this
      have hne : (c :: r).takeWhile (· ≠ d) ≠ [] := by
        rw [List.takeWhile_cons_of_pos (by simpa using hc)]
        exact List.cons_ne_nil _ _
      have ht : d ∉ (c :: r).takeWhile (· ≠ d) := fun h => by simpa using List.mem_takeWhile_imp h
      have hcr : (c :: r).takeWhile (· ≠ d) ++ (c :: r).dropWhile (· ≠ d) = c :: r := List.takeWhile_append_dropWhile
      rw [hr] at hs
      cases hrest : (c :: r).dropWhile (· ≠ d) with
      | nil =>
        rw [hrest, List.append_nil] at hcr
        rw [hcr] at hne ht
        exact ⟨[c :: r], hs ▸ .last hds hne ht⟩
      | cons e rest =>
        have he : e = d := by
          have := List.head?_dropWhile_not (· ≠ d) (c :: r)
          rw [hrest] at this
          simpa using this
        rw [hrest, he] at hcr
        have hlt : rest.length < n := by
          have h1 := congrArg List.length hs
          have h2 := congrArg List.length hcr
          simp only [List.length_append, List.length_cons] at h1 h2
          omega
        obtain ⟨ts, hcut⟩ := ih rest.length hlt rest rfl
        have := Cut.cons hds hne ht hcut
        rw [hcr, hs] at this
        exact ⟨_, this⟩

/-- **Every string is cut into its tokens.** -/
theorem cut_tokens (d : α) (s : List α) : Cut d s (tokens d s) := by
  obtain ⟨ts, h⟩ := exists_cut d s
  rw [h.tokens]
  exact h

/-! ## The tokenizer -/

/-- The next token with what is left of the block where it begins, and the place behind it. -/
def next (nul d : α) (block : List α) : Option (Option (List α × List α) × List α) :=
  match block.dropWhile (· = d) with
  | [] => none
  | c :: s =>
    if c = nul then some (none, c :: s)
    else
      let t := (c :: s).takeWhile fun c => c ≠ d ∧ c ≠ nul
      match (c :: s).dropWhile fun c => c ≠ d ∧ c ≠ nul with
      | [] => none
      | e :: rest => some (some (t, c :: s), if e = nul then e :: rest else rest)

/-- All tokens. The first argument bounds their number. -/
def all (nul d : α) : Nat → List α → Option (List (List α))
  | 0, _ => none
  | fuel + 1, block =>
    match next nul d block with
    | none => none
    | some (none, _) => some []
    | some (some (t, _), rest) => (all nul d fuel rest).map (t :: ·)

theorem next_delims (hds : ∀ c ∈ ds, c = d) (block : List α) : next nul d (ds ++ block) = next nul d block := by
  unfold next
  rw [List.dropWhile_append_of_pos fun c hc => by simpa using hds c hc]

theorem next_nul (hnul : nul ≠ d) (block : List α) : next nul d (nul :: block) = some (none, nul :: block) := by
  unfold next
  rw [List.dropWhile_cons_of_neg (by simpa using hnul)]
  simp

theorem next_token (hne : t ≠ []) (ht : d ∉ t) (hnul : nul ∉ t) {block : List α}
    (hblock : ∀ c ∈ block.head?, c = d ∨ c = nul) :
    next nul d (t ++ block) = match block with
      | [] => none
      | e :: rest => some (some (t, t ++ block), if e = nul then e :: rest else rest) := by
  have hplain : ∀ c ∈ t, decide (c ≠ d ∧ c ≠ nul) = true := fun c hc =>
    decide_eq_true ⟨ne_of_mem_of_not_mem hc ht, ne_of_mem_of_not_mem hc hnul⟩
  have htake : (t ++ block).takeWhile (fun c => c ≠ d ∧ c ≠ nul) = t := by
    rw [List.takeWhile_append_of_pos hplain]
    cases block with
    | nil => simp
    | cons e rest =>
      rw [List.takeWhile_cons_of_neg, List.append_nil]
      simpa [or_iff_not_imp_left] using hblock e rfl
  have hdrop : (t ++ block).dropWhile (fun c => c ≠ d ∧ c ≠ nul) = block := by
    rw [List.dropWhile_append_of_pos hplain]
    cases block with
    | nil => rfl
    | cons e rest =>
      rw [List.dropWhile_cons_of_neg]
      simpa [or_iff_not_imp_left] using hblock e rfl
  obtain ⟨c, t, rfl⟩ := List.exists_cons_of_ne_nil hne
  rw [List.mem_cons, not_or] at ht hnul
  unfold next
  rw [List.cons_append, List.dropWhile_cons_of_neg (by simpa using Ne.symm ht.1)]
  rw [List.cons_append] at htake hdrop
  dsimp only
  rw [if_neg (Ne.symm hnul.1), htake, hdrop]
  cases block <;> rfl

/-- **With a terminator behind the string**, the tokenizer gives the tokens of the string. -/
theorem all_terminated (hnul : nul ≠ d) {fuel : Nat} (hs : nul ∉ s) (hfuel : s.length < fuel) :
    all nul d fuel (s ++ [nul]) = some (tokens d s) := by
  have hcut := cut_tokens d s
  generalize tokens d s = ts at hcut
  induction hcut generalizing fuel with
  | delims hds =>
    obtain ⟨fuel, rfl⟩ : ∃ n, fuel = n + 1 := ⟨fuel - 1, by omega⟩
    rw [all, next_delims hds, next_nul hnul]
  | @last ds t hds hne ht =>
    rw [List.length_append] at hfuel
    have hpos := List.length_pos_iff.mpr hne
    obtain ⟨fuel, rfl⟩ : ∃ n, fuel = n + 1 + 1 := ⟨fuel - 2, by omega⟩
    rw [List.mem_append, not_or] at hs
    rw [all, List.append_assoc, next_delims hds, next_token hne ht hs.2 (by simp)]
    simp only [if_true]
    rw [all, next_nul hnul]
    rfl
  | @cons ds t s ts hds hne ht _ ih =>
    simp only [List.length_append, List.length_cons] at hfuel
    obtain ⟨fuel, rfl⟩ : ∃ n, fuel = n + 1 := ⟨fuel - 1, by omega⟩
    simp only [List.mem_append, List.mem_cons, not_or] at hs
    rw [all, List.append_assoc, next_delims hds, List.append_assoc, next_token hne ht hs.2.1 (by simp)]
    simp only [List.cons_append, if_neg (Ne.symm hnul)]
    rw [ih hs.2.2.2 (by omega)]
    rfl

/-- **Without a terminator**, the tokenizer reads behind the block, whatever the string is. -/
theorem all_unterminated (hnul : nul ≠ d) (fuel : Nat) (hs : nul ∉ s) : all nul d fuel s = none := by
  have hcut := cut_tokens d s
  generalize tokens d s = ts at hcut
  induction hcut generalizing fuel with
  | @delims ds hds =>
    cases fuel with
    | zero => rfl
    | succ fuel =>
      rw [all, ← List.append_nil ds, next_delims hds]
      rfl
  | @last ds t hds hne ht =>
    cases fuel with
    | zero => rfl
    | succ fuel =>
      rw [List.mem_append, not_or] at hs
      have := @next_token _ _ _ _ _ hne ht hs.2 [] (by simp)
      rw [List.append_nil] at this
      rw [all, next_delims hds, this]
  | @cons ds t s ts hds hne ht _ ih =>
    cases fuel with
    | zero => rfl
    | succ fuel =>
      simp only [List.mem_append, List.mem_cons, not_or] at hs
      rw [all, next_delims hds, next_token hne ht hs.2.1 (by simp)]
      simp only [if_neg (Ne.symm hnul)]
      rw [ih fuel hs.2.2.2]
      rfl

end StrTok
