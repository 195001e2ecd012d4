import Lighttpd.Config.Condition
import Lighttpd.Lib.Run
import Mathlib.Logic.Relation

/-!
# The cache of the conditions

* `evaluate`: a condition from scratch, on the fields of the connection;
* `Agrees`: the invariant, what is in the cache is what the conditions are from scratch;
* `cached_agrees`, `resetItem_agrees`: the evaluation and the partial reset keep it;
* `conditions_agree`: every run, whose steps meet `Kept`.
-/

namespace Lighttpd.Config

/-! ## From scratch -/

/-- The result of a condition, from those of its parent and its predecessor. -/
def combine (parent prev : CondResult) (valid : Bool) (result : CondResult) : CondResult :=
  match parent with
  | .unset => .unset
  | .skip => .skip
  | .false => .skip
  | .true =>
    match prev with
    | .unset => .unset
    | .skip => .skip
    | .true => .skip
    | .false => if valid then result else .unset

/-- The comparison alone. -/
def localResult (env : Env) (f : Fields) (dc : DataConfig) : CondResult := (checkLocal env f dc {}).1

/-- **A condition from scratch**, at most `n` links up. -/
def evaluateUp (env : Env) (t : Tree) (f : Fields) (valid : Comp → Bool) : Nat → Nat → CondResult
  | 0, _ => .unset
  | n + 1, i =>
    combine (((t.dc i).block.map (evaluateUp env t f valid n)).getD .true)
      (((t.dc i).prev.map (evaluateUp env t f valid n)).getD .false) (valid (t.dc i).comp)
      (localResult env f (t.dc i))

def evaluate (env : Env) (t : Tree) (f : Fields) (valid : Comp → Bool) (i : Nat) : CondResult :=
  evaluateUp env t f valid (i + 1) i

def submatch (count : Int) (offsets : List Int) (subject : Bytes) (n : Nat) : Option Bytes :=
  if (n : Int) ≥ count then none
  else some ((subject.drop (offsets.getD (2 * n) 0).toNat).take
    (offsets.getD (2 * n + 1) 0 - offsets.getD (2 * n) 0).toNat)

/-- What a condition captures from scratch. -/
def captured (env : Env) (f : Fields) (dc : DataConfig) (n : Nat) : Option Bytes :=
  submatch (checkLocal env f dc {}).2.patterncount (checkLocal env f dc {}).2.matchOffsets
    (((compareBuf f dc).map fun b => b.2.str).getD []) n

variable {env : Env} {t : Tree} {f f' : Fields} {valid valid' : Comp → Bool} {con con' : Con} {i j k n p : Nat}
variable {dc : DataConfig} {cache : CondCache}

/-! ## The links -/

theorem dc_of_le (h : t.used ≤ i) : t.dc i = {} := by
  have hget : t.dcs[i]? = none := List.getElem?_eq_none h
  simp [Tree.dc, dcOf, hget]

theorem parent_spec (h : (t.dc i).parent = some p) : p < i ∧ i ∈ (t.dc p).children := by
  by_cases hi : i < t.used
  · exact t.linked.parent i hi p h
  · rw [dc_of_le (Nat.le_of_not_lt hi)] at h
    cases h

theorem prev_spec (h : (t.dc i).prev = some p) :
    p < i ∧ (t.dc p).next = some i ∧ (t.dc p).parent = (t.dc i).parent := by
  by_cases hi : i < t.used
  · exact t.linked.prev i hi p h
  · rw [dc_of_le (Nat.le_of_not_lt hi)] at h
    cases h

theorem parent_of_child (h : j ∈ (t.dc i).children) : (t.dc j).parent = some i := by
  by_cases hi : i < t.used
  · exact t.linked.children i hi j h
  · rw [dc_of_le (Nat.le_of_not_lt hi)] at h
    cases h

theorem prev_of_next (h : (t.dc i).next = some j) : (t.dc j).prev = some i := by
  by_cases hi : i < t.used
  · exact t.linked.next i hi j h
  · rw [dc_of_le (Nat.le_of_not_lt hi)] at h
    cases h

theorem lt_used_of_parent (h : (t.dc i).parent = some p) : i < t.used := by
  by_contra hi
  rw [dc_of_le (Nat.le_of_not_lt hi)] at h
  cases h

theorem lt_used_of_prev (h : (t.dc i).prev = some p) : i < t.used := by
  by_contra hi
  rw [dc_of_le (Nat.le_of_not_lt hi)] at h
  cases h

theorem block_eq_some (h : (t.dc i).block = some p) : (t.dc i).parent = some p :=
  (Option.filter_eq_some_iff.mp h).1

/-- A condition depends on its parent and on its predecessor. -/
def Link (t : Tree) (i p : Nat) : Prop := (t.dc i).parent = some p ∨ (t.dc i).prev = some p

/-- What a condition depends on, itself included. -/
def DependsOn (t : Tree) : Nat → Nat → Prop := Relation.ReflTransGen (Link t)

theorem map_congr_of_lt {α : Type} {g h : Nat → α} {o : Option Nat} (heq : ∀ p, o = some p → g p = h p) (d : α) :
    (o.map g).getD d = (o.map h).getD d := by
  cases o with
  | none => rfl
  | some p => exact heq p rfl

theorem evaluateUp_congr {m : Nat} (hm : i < m) (hn : i < n) :
    evaluateUp env t f valid m i = evaluateUp env t f valid n i := by
  induction i using Nat.strong_induction_on generalizing m n with
  | h i ih =>
    obtain ⟨m, rfl⟩ : ∃ k, m = k + 1 := ⟨m - 1, by omega⟩
    obtain ⟨n, rfl⟩ : ∃ k, n = k + 1 := ⟨n - 1, by omega⟩
    rw [evaluateUp, evaluateUp]
    congr 1
    · apply map_congr_of_lt
      intro p hp
      have hlt := (parent_spec (block_eq_some hp)).1
      exact ih p hlt (by omega) (by omega)
    · apply map_congr_of_lt
      intro p hp
      have hlt := (prev_spec hp).1
      exact ih p hlt (by omega) (by omega)

/-- **A condition from scratch, from its parent and its predecessor.** -/
theorem evaluate_eq (env : Env) (t : Tree) (f : Fields) (valid : Comp → Bool) (i : Nat) : evaluate env t f valid i =
    combine (((t.dc i).block.map (evaluate env t f valid)).getD .true)
      (((t.dc i).prev.map (evaluate env t f valid)).getD .false) (valid (t.dc i).comp) (localResult env f (t.dc i)) := by
  rw [evaluate, evaluateUp]
  congr 1
  · apply map_congr_of_lt
    intro p hp
    exact evaluateUp_congr (parent_spec (block_eq_some hp)).1 (Nat.lt_succ_self p)
  · apply map_congr_of_lt
    intro p hp
    exact evaluateUp_congr (prev_spec hp).1 (Nat.lt_succ_self p)

/-- A set of conditions with everything that is looked at for them. -/
structure Closed (t : Tree) (P : Nat → Prop) : Prop where
  block : ∀ i p, (t.dc i).block = some p → P i → P p
  prev : ∀ i p, (t.dc i).prev = some p → P i → P p

/-- **Conditions are the same if those that they depend on are.** -/
theorem evaluate_congr {P : Nat → Prop} (hclosed : Closed t P)
    (hsame : ∀ i, P i → valid' (t.dc i).comp = valid (t.dc i).comp ∧ localResult env f' (t.dc i) = localResult env f (t.dc i))
    (h : P i) : evaluate env t f' valid' i = evaluate env t f valid i := by
  induction i using Nat.strong_induction_on with
  | h i ih =>
    obtain ⟨hvalid, hlocal⟩ := hsame i h
    rw [evaluate_eq, evaluate_eq, hvalid, hlocal]
    congr 1
    · apply map_congr_of_lt
      intro p hp
      exact ih p (parent_spec (block_eq_some hp)).1 (hclosed.block i p hp h)
    · apply map_congr_of_lt
      intro p hp
      exact ih p (prev_spec hp).1 (hclosed.prev i p hp h)

/-- **More that is known does not change what has been decided.** -/
theorem evaluate_mono (hvalid : ∀ c, valid c = true → valid' c = true) (h : evaluate env t f valid i ≠ .unset) :
    evaluate env t f valid' i = evaluate env t f valid i := by
  induction i using Nat.strong_induction_on with
  | h i ih =>
    have hopt : ∀ (o : Option Nat) (d : CondResult), (∀ p, o = some p → p < i) →
        (o.map (evaluate env t f valid)).getD d ≠ .unset →
        (o.map (evaluate env t f valid')).getD d = (o.map (evaluate env t f valid)).getD d := by
      intro o d hlt hne
      cases o with
      | none => rfl
      | some p => exact ih p (hlt p rfl) hne
    have hblock := hopt (t.dc i).block .true fun p hp => (parent_spec (block_eq_some hp)).1
    have hprev := hopt (t.dc i).prev .false fun p hp => (prev_spec hp).1
    rw [evaluate_eq] at h ⊢
    rw [evaluate_eq]
    generalize ((t.dc i).block.map (evaluate env t f valid)).getD .true = x at *
    generalize ((t.dc i).prev.map (evaluate env t f valid)).getD .false = y at *
    cases x with
    | unset => exact absurd rfl h
    | skip => rw [hblock (by simp)]; rfl
    | false => rw [hblock (by simp)]; rfl
    | true =>
      rw [hblock (by simp)]
      cases y with
      | unset => exact absurd rfl h
      | skip => rw [hprev (by simp)]; rfl
      | true => rw [hprev (by simp)]; rfl
      | false =>
        rw [hprev (by simp)]
        cases hv : valid (t.dc i).comp with
        | false => rw [hv] at h; exact absurd rfl h
        | true => rw [hvalid _ hv]

/-! ## The comparison -/

theorem checkLocal_fst (cache : CondCache) : (checkLocal env f dc cache).1 = localResult env f dc := by
  unfold localResult checkLocal
  split
  · rfl
  · split
    · rfl
    · cases dc.cond <;> dsimp only <;> split <;> rfl

theorem remoteIpMask_regex {pton : Pton} {cond : ConfigCond} (h : cond = .isMatch ∨ cond = .noMatch) (string : Bytes)
    (a : SockAddr) : remoteIpMask pton cond string a = none := by
  rcases h with rfl | rfl <;> simp [remoteIpMask]

theorem localResult_decided (env : Env) (f : Fields) (dc : DataConfig) :
    localResult env f dc = .true ∨ localResult env f dc = .false := by
  unfold localResult checkLocal
  split
  · rename_i r hr
    split at hr
    · unfold remoteIpMask at hr
      split at hr
      · split at hr
        · cases hr
        · split at hr
          · obtain rfl := Option.some.inj hr
            split <;> simp
          · obtain rfl := Option.some.inj hr
            split <;> simp
          · obtain rfl := Option.some.inj hr
            simp
      · cases hr
    · cases hr
  · split
    · simp
    · cases dc.cond <;> dsimp only <;> first | (split <;> simp) | simp

/-- `==` and `!=` capture nothing. -/
theorem checkLocal_plain (h : dc.cond ≠ .isMatch) (h' : dc.cond ≠ .noMatch) (cache : CondCache) :
    (checkLocal env f dc cache).2 = cache := by
  unfold checkLocal
  split
  · rfl
  · split
    · rfl
    · cases hcond : dc.cond with
      | isMatch => exact absurd hcond h
      | noMatch => exact absurd hcond h'
      | _ => rfl

theorem checkLocal_match (h : dc.cond = .isMatch) (htrue : localResult env f dc = .true) :
    ∃ l b n o, compareBuf f dc = some (l, b) ∧ 0 < n ∧
      ∀ cache, (checkLocal env f dc cache).2 =
        { cache with patterncount := n, matchOffsets := o, compValue := some l } := by
  have hmask : (if dc.comp = .httpRemoteIp then remoteIpMask env.pton dc.cond dc.string.str f.dstAddr else none) = none := by
    rw [remoteIpMask_regex (Or.inl h)]
    split <;> rfl
  unfold localResult checkLocal at htrue
  rw [hmask] at htrue
  unfold checkLocal
  rw [hmask]
  cases hbuf : compareBuf f dc with
  | none => simp [hbuf] at htrue
  | some lb =>
    obtain ⟨l, b⟩ := lb
    simp only [hbuf, h] at htrue
    split at htrue
    · rename_i hpos
      refine ⟨l, b, _, (env.pcreExec dc.string.str b.str).2, rfl, hpos, fun cache => ?_⟩
      simp only [h, if_pos hpos]
    · simp at htrue

theorem checkLocal_noMatch (h : dc.cond = .noMatch) (htrue : localResult env f dc = .true) (cache : CondCache) :
    (checkLocal env f dc cache).2.patterncount ≤ 0 := by
  have hmask : (if dc.comp = .httpRemoteIp then remoteIpMask env.pton dc.cond dc.string.str f.dstAddr else none) = none := by
    rw [remoteIpMask_regex (Or.inr h)]
    split <;> rfl
  unfold localResult checkLocal at htrue
  rw [hmask] at htrue
  unfold checkLocal
  rw [hmask]
  cases hbuf : compareBuf f dc with
  | none => simp [hbuf] at htrue
  | some lb =>
    obtain ⟨l, b⟩ := lb
    simp only [hbuf, h] at htrue
    split at htrue
    · simp at htrue
    · rename_i hneg
      simp only [h, if_neg hneg]
      omega

theorem checkLocal_keeps (env : Env) (f : Fields) (dc : DataConfig) (cache : CondCache) : (checkLocal env f dc cache).2.result = cache.result ∧
    (checkLocal env f dc cache).2.localResult = cache.localResult := by
  unfold checkLocal
  split
  · exact ⟨rfl, rfl⟩
  · split
    · exact ⟨rfl, rfl⟩
    · cases dc.cond <;> dsimp only <;> first | exact ⟨rfl, rfl⟩ | (split <;> exact ⟨rfl, rfl⟩)

/-! ## The invariant -/

def Cached (caches : Nat → CondCache) (i : Nat) : Prop := (caches i).result ≠ .unset

def Captures (env : Env) (f : Fields) (dc : DataConfig) (c : CondCache) : Prop :=
  c.patterncount = (checkLocal env f dc {}).2.patterncount ∧ c.matchOffsets = (checkLocal env f dc {}).2.matchOffsets ∧
    c.compValue = (compareBuf f dc).map Prod.fst

/-- What is in the cache of a condition that holds by itself. -/
structure Settled (env : Env) (f : Fields) (tmpBuf : Bytes) (dc : DataConfig) (c : CondCache) : Prop where
  captures : dc.cond = .isMatch → Captures env f dc c ∧ (dc.comp = .httpRequestMethod → tmpBuf = f.method)
  negated : dc.cond = .noMatch → c.patterncount ≤ 0

/-- **What is in the cache is what the conditions are from scratch.** -/
structure Agrees (env : Env) (t : Tree) (con : Con) : Prop where
  result : ∀ i, Cached con.caches i → (con.caches i).result = evaluate env t con.fields con.valid i
  closed : Closed t (Cached con.caches)
  held : ∀ i, (con.caches i).result = .true → (con.caches i).localResult = .true
  localResult : ∀ i, (con.caches i).localResult ≠ .unset →
    (con.caches i).localResult = Config.localResult env con.fields (t.dc i)
  plain : ∀ i, (t.dc i).cond ≠ .isMatch → (t.dc i).cond ≠ .noMatch → (con.caches i).patterncount ≤ 0
  settled : ∀ i, (con.caches i).localResult = .true → Settled env con.fields con.tmpBuf (t.dc i) (con.caches i)

/-- The evaluation changes neither the fields nor a result. -/
structure Frame (con con' : Con) : Prop where
  fields : con'.fields = con.fields
  valid : con'.valid = con.valid
  kept : ∀ k, Cached con.caches k → con'.caches k = con.caches k

theorem Frame.refl (con : Con) : Frame con con := ⟨rfl, rfl, fun _ _ => rfl⟩

theorem Frame.cached (h : Frame con con') (hk : Cached con.caches k) : Cached con'.caches k := by
  rw [Cached, h.kept k hk]
  exact hk

theorem Frame.trans {con'' : Con} (h : Frame con con') (h' : Frame con' con'') : Frame con con'' :=
  ⟨h'.fields.trans h.fields, h'.valid.trans h.valid, fun k hk => (h'.kept k (h.cached hk)).trans (h.kept k hk)⟩

@[simp] theorem setCache_caches (con : Con) (i : Nat) (c : CondCache) :
    (con.setCache i c).caches = Function.update con.caches i c := rfl

@[simp] theorem setCache_fields (con : Con) (i : Nat) (c : CondCache) : (con.setCache i c).fields = con.fields := rfl

@[simp] theorem setCache_valid (con : Con) (i : Nat) (c : CondCache) : (con.setCache i c).valid = con.valid := rfl

@[simp] theorem setCache_tmpBuf (con : Con) (i : Nat) (c : CondCache) : (con.setCache i c).tmpBuf = con.tmpBuf := rfl

theorem scratch_spec (con : Con) (dc : DataConfig) : (con.scratch dc).fields = con.fields ∧
    (con.scratch dc).valid = con.valid ∧ (con.scratch dc).caches = con.caches := by
  unfold Con.scratch
  split <;> exact ⟨rfl, rfl, rfl⟩

theorem headerBuf_ptr {p : BufPtr} (hp : p ≠ .tmpBuf) (value : Option Buffer) : (headerBuf p value).1 ≠ .tmpBuf := by
  cases value with
  | none => simp [headerBuf]
  | some b => exact hp

theorem httpHostBuf_ptr (f : Fields) (dc : DataConfig) : (httpHostBuf f dc).1 ≠ .tmpBuf := by
  unfold httpHostBuf
  split
  · split
    · dsimp only
      split <;> simp
    · simp
  · split <;> simp

/-- The pointer to `srv->tmp_buf` is the one to the name of the method. -/
theorem compareBuf_tmpBuf {lb : BufPtr × Buffer} (h : compareBuf f dc = some lb) :
    lb.1 = .tmpBuf ↔ dc.comp = .httpRequestMethod := by
  unfold compareBuf at h
  cases hcomp : dc.comp <;> simp only [hcomp, Option.some.injEq, reduceCtorEq] at h <;> rw [← h] <;>
    simp [httpHostBuf_ptr, headerBuf_ptr]

theorem scratch_tmpBuf (con : Con) (dc : DataConfig) :
    (con.scratch dc).tmpBuf = if dc.comp = .httpRequestMethod then con.fields.method else con.tmpBuf := by
  have hstr : (Buffer.ofString con.fields.method).str = con.fields.method := Buffer.copyStringLen_str _ _
  unfold Con.scratch
  split
  · rename_i b hb
    have hcomp := (compareBuf_tmpBuf hb).mp rfl
    rw [if_pos hcomp]
    simp only [compareBuf, hcomp, Option.some.injEq, Prod.mk.injEq, true_and] at hb
    rw [← hb, hstr]
  · rename_i b hb
    have hcomp := mt (compareBuf_tmpBuf hb).mpr (by simp)
    rw [if_neg hcomp]
  · rename_i hb _
    rw [if_neg]
    intro hcomp
    exact hb (Buffer.ofString con.fields.method) (by simp [compareBuf, hcomp])

/-! ## One evaluation -/

/-- **One entry of the cache is written.** -/
theorem Agrees.update (h : Agrees env t con) (hf : con'.fields = con.fields) (hv : con'.valid = con.valid)
    (hc : con'.caches = Function.update con.caches i cache)
    (htmp : con'.tmpBuf = con.tmpBuf ∨ con'.tmpBuf = con.fields.method)
    (hkeep : Cached con.caches i → cache.result ≠ .unset)
    (hresult : cache.result ≠ .unset → cache.result = evaluate env t con.fields con.valid i ∧
      (∀ p, (t.dc i).block = some p → Cached con.caches p) ∧ ∀ p, (t.dc i).prev = some p → Cached con.caches p)
    (hheld : cache.result = .true → cache.localResult = .true)
    (hlocal : cache.localResult ≠ .unset → cache.localResult = Config.localResult env con.fields (t.dc i))
    (hplain : (t.dc i).cond ≠ .isMatch → (t.dc i).cond ≠ .noMatch → cache.patterncount ≤ 0)
    (hsettled : cache.localResult = .true → Settled env con.fields con'.tmpBuf (t.dc i) cache) : Agrees env t con' := by
  have hself : con'.caches i = cache := by rw [hc, Function.update_self]
  have hother : ∀ k, k ≠ i → con'.caches k = con.caches k := fun k hk => by rw [hc, Function.update_of_ne hk]
  have hstays : ∀ p, Cached con.caches p → Cached con'.caches p := by
    intro p hp
    by_cases hpi : p = i
    · subst hpi
      rw [Cached, hself]
      exact hkeep hp
    · rw [Cached, hother p hpi]
      exact hp
  refine ⟨fun k hk => ?_, ⟨fun k p hp hk => ?_, fun k p hp hk => ?_⟩, fun k hk => ?_, fun k hk => ?_,
    fun k hk hk' => ?_, fun k hk => ?_⟩
  all_goals by_cases hki : k = i
  all_goals first | subst hki | skip
  · rw [Cached, hself] at hk
    rw [hself, hf, hv]
    exact (hresult hk).1
  · rw [Cached, hother k hki] at hk
    rw [hother k hki, hf, hv]
    exact h.result k hk
  · rw [Cached, hself] at hk
    exact hstays p ((hresult hk).2.1 p hp)
  · rw [Cached, hother k hki] at hk
    exact hstays p (h.closed.block k p hp hk)
  · rw [Cached, hself] at hk
    exact hstays p ((hresult hk).2.2 p hp)
  · rw [Cached, hother k hki] at hk
    exact hstays p (h.closed.prev k p hp hk)
  · rw [hself] at hk ⊢
    exact hheld hk
  · rw [hother k hki] at hk ⊢
    exact h.held k hk
  · rw [hself] at hk ⊢
    rw [hf]
    exact hlocal hk
  · rw [hother k hki] at hk ⊢
    rw [hf]
    exact h.localResult k hk
  · rw [hself]
    exact hplain hk hk'
  · rw [hother k hki]
    exact h.plain k hk hk'
  · rw [hself] at hk ⊢
    rw [hf]
    exact hsettled hk
  · rw [hother k hki] at hk ⊢
    rw [hf]
    have hold := h.settled k hk
    refine ⟨fun hcond => ⟨(hold.captures hcond).1, fun hcomp => ?_⟩, hold.negated⟩
    rcases htmp with htmp | htmp
    · rw [htmp]
      exact (hold.captures hcond).2 hcomp
    · exact htmp

/-- **A branch has been looked at in its turn**: when its block does not hold, the result of its predecessor is known. -/
def InOrder (env : Env) (t : Tree) (con : Con) (i : Nat) : Prop :=
  ∀ k p q, DependsOn t i k → (t.dc k).prev = some p → (t.dc k).block = some q →
    evaluate env t con.fields con.valid q = .skip ∨ evaluate env t con.fields con.valid q = .false →
    Cached con.caches p ∨ Cached con.caches k

theorem InOrder.link (h : InOrder env t con i) (hp : Link t i p) : InOrder env t con p :=
  fun k p' q hk => h k p' q (Relation.ReflTransGen.head hp hk)

theorem InOrder.frame (h : InOrder env t con i) (hframe : Frame con con') : InOrder env t con' i := by
  intro k p q hk hp hq hfails
  rw [hframe.fields, hframe.valid] at hfails
  exact (h k p q hk hp hq hfails).imp hframe.cached hframe.cached

/-- What the evaluation of a condition gives. -/
structure Checked (env : Env) (t : Tree) (con : Con) (i : Nat) (o : CondResult × Con) : Prop where
  result : o.1 = evaluate env t con.fields con.valid i
  agrees : Agrees env t o.2
  frame : Frame con o.2
  above : ∀ k, i < k → o.2.caches k = con.caches k
  cached : o.1 ≠ .unset → (o.2.caches i).result = o.1

theorem checked_link {check : Con → Nat → CondResult × Con}
    (hcheck : ∀ con p, p < i → Agrees env t con → InOrder env t con p → Checked env t con p (check con p))
    (h : Agrees env t con) (horder : InOrder env t con i) {o : Option Nat} (ho : ∀ p, o = some p → p < i ∧ Link t i p)
    (d : CondResult) {r : CondResult × Con} (hr : checkLink check con o d = r) :
    r.1 = (o.map (evaluate env t con.fields con.valid)).getD d ∧ Agrees env t r.2 ∧ Frame con r.2 ∧
      (∀ k, i ≤ k → r.2.caches k = con.caches k) ∧ (r.1 ≠ .unset → ∀ p, o = some p → Cached r.2.caches p) := by
  cases o with
  | none =>
    subst hr
    exact ⟨rfl, h, .refl con, fun _ _ => rfl, fun _ _ hp => by cases hp⟩
  | some p =>
    obtain ⟨hlt, hlink⟩ := ho p rfl
    have hspec := hcheck con p hlt h (horder.link hlink)
    subst hr
    refine ⟨hspec.result, hspec.agrees, hspec.frame, fun k hk => hspec.above k (by omega), fun hne p' hp' => ?_⟩
    obtain rfl := Option.some.inj hp'
    have hcached : ((check con p).2.caches p).result = (check con p).1 := hspec.cached hne
    show ((check con p).2.caches p).result ≠ .unset
    rw [hcached]
    exact hne

/-- What is known before the result is written to the cache. -/
structure Decided (env : Env) (t : Tree) (con : Con) (i : Nat) (o : CondResult × Con) : Prop where
  result : o.1 = evaluate env t con.fields con.valid i
  agrees : Agrees env t o.2
  frame : Frame con o.2
  above : ∀ k, i < k → o.2.caches k = con.caches k
  uncached : ¬Cached o.2.caches i
  links : o.1 ≠ .unset → (∀ p, (t.dc i).block = some p → Cached o.2.caches p) ∧
    ∀ p, (t.dc i).prev = some p → Cached o.2.caches p
  settled : o.1 = .true ∨ o.1 = .false → o.1 = Config.localResult env con.fields (t.dc i) ∧
    (o.1 = .true → Settled env con.fields o.2.tmpBuf (t.dc i) (o.2.caches i))

theorem fresh_agrees (h : Agrees env t con) (hi : ¬Cached con.caches i) (hlocal : (con.caches i).localResult = .unset) :
    Agrees env t ((con.scratch (t.dc i)).setCache i (checkLocal env con.fields (t.dc i) (con.caches i)).2) ∧
      (Config.localResult env con.fields (t.dc i) = .true →
        Settled env con.fields (con.scratch (t.dc i)).tmpBuf (t.dc i)
          (checkLocal env con.fields (t.dc i) (con.caches i)).2) := by
  obtain ⟨hfields, hvalid, hcaches⟩ := scratch_spec con (t.dc i)
  have htmp := scratch_tmpBuf con (t.dc i)
  obtain ⟨hresult, hkept⟩ := checkLocal_keeps env con.fields (t.dc i) (con.caches i)
  have hunset : (con.caches i).result = .unset := not_not.mp hi
  constructor
  · refine h.update (by simpa using hfields) (by simpa using hvalid) (by simp [hcaches]) ?_ (fun hk => absurd hk hi)
      (fun hne => absurd (hresult.trans hunset) hne) (fun htrue => ?_) (fun hne => absurd (hkept.trans hlocal) hne)
      (fun hcond hcond' => ?_) (fun htrue => ?_)
    · rw [setCache_tmpBuf, htmp]
      split
      · exact Or.inr rfl
      · exact Or.inl rfl
    · rw [hresult, hunset] at htrue
      cases htrue
    · rw [checkLocal_plain hcond hcond']
      exact h.plain i hcond hcond'
    · rw [hkept, hlocal] at htrue
      cases htrue
  · intro htrue
    refine ⟨fun hcond => ⟨?_, fun hcomp => by rw [htmp, if_pos hcomp]⟩, fun hcond => checkLocal_noMatch hcond htrue _⟩
    obtain ⟨l, b, n, o, hbuf, -, hcache⟩ := checkLocal_match hcond htrue
    rw [hcache, Captures, hcache, hbuf]
    exact ⟨rfl, rfl, rfl⟩

/-- **`config_check_cond_nocache`.** -/
theorem nocache_decided (check : Con → Nat → CondResult × Con)
    (hcheck : ∀ con p, p < i → Agrees env t con → InOrder env t con p → Checked env t con p (check con p))
    (h : Agrees env t con) (horder : InOrder env t con i) (hi : ¬Cached con.caches i) :
    Decided env t con i (configCheckCondNocache env t check con i) := by
  unfold configCheckCondNocache
  dsimp only
  generalize hr₁ : checkLink check con (t.dc i).block .true = r₁
  obtain ⟨hres₁, hagrees₁, hframe₁, habove₁, hcached₁⟩ := checked_link hcheck h horder
    (fun p hp => ⟨(parent_spec (block_eq_some hp)).1, Or.inl (block_eq_some hp)⟩) .true hr₁
  obtain ⟨parent, con₁⟩ := r₁
  dsimp only at hres₁ hagrees₁ hframe₁ habove₁ hcached₁
  have huncached₁ : ¬Cached con₁.caches i := by rwa [Cached, habove₁ i (Nat.le_refl i)]
  have heval := evaluate_eq env t con.fields con.valid i
  rw [← hres₁] at heval
  -- the block does not hold
  have hskip : ∀ r, r = .skip ∨ r = .false → parent = r → Decided env t con i (.skip, con₁) := by
    rintro r hr rfl
    have hblock : ∃ q, (t.dc i).block = some q := by
      cases hb : (t.dc i).block with
      | none =>
        rw [hb] at hres₁
        rcases hr with hr | hr <;> rw [hr] at hres₁ <;> cases hres₁
      | some q => exact ⟨q, rfl⟩
    obtain ⟨q, hq⟩ := hblock
    have hne : parent ≠ .unset := by rcases hr with hr | hr <;> rw [hr] <;> simp
    refine ⟨?_, hagrees₁, hframe₁, fun k hk => habove₁ k (Nat.le_of_lt hk), huncached₁, fun _ => ⟨hcached₁ hne, ?_⟩, ?_⟩
    · rcases hr with hr | hr <;> rw [heval, hr] <;> rfl
    · intro p hp
      rw [hq] at hres₁
      have hfails := horder i p q .refl hp hq (by rwa [← show parent = evaluate env t con.fields con.valid q from hres₁])
      exact hframe₁.cached (hfails.resolve_right hi)
    · rintro (hr | hr) <;> cases hr
  cases parent with
  | unset =>
    exact ⟨heval.symm, hagrees₁, hframe₁, fun k hk => habove₁ k (Nat.le_of_lt hk), huncached₁,
      fun hne => absurd rfl hne, by rintro (hr | hr) <;> cases hr⟩
  | skip => exact hskip .skip (Or.inl rfl) rfl
  | false => exact hskip .false (Or.inr rfl) rfl
  | true =>
    dsimp only
    generalize hr₂ : checkLink check con₁ (t.dc i).prev .false = r₂
    obtain ⟨hres₂, hagrees₂, hframe₂, habove₂, hcached₂⟩ := checked_link hcheck hagrees₁ (horder.frame hframe₁)
      (fun p hp => ⟨(prev_spec hp).1, Or.inr hp⟩) .false hr₂
    obtain ⟨prev, con₂⟩ := r₂
    dsimp only at hres₂ hagrees₂ hframe₂ habove₂ hcached₂
    rw [hframe₁.fields, hframe₁.valid] at hres₂
    rw [← hres₂] at heval
    have hframe := hframe₁.trans hframe₂
    have habove : ∀ k, i ≤ k → con₂.caches k = con.caches k := fun k hk => (habove₂ k hk).trans (habove₁ k hk)
    have huncached : ¬Cached con₂.caches i := by rwa [Cached, habove i (Nat.le_refl i)]
    have hblocks : ∀ p, (t.dc i).block = some p → Cached con₂.caches p := fun p hp =>
      hframe₂.cached (hcached₁ (by simp) p hp)
    -- the predecessor holds, or has been skipped
    have hskip : ∀ r, r = .skip ∨ r = .true → prev = r → Decided env t con i (.skip, con₂) := by
      rintro r hr rfl
      have hne : prev ≠ .unset := by rcases hr with hr | hr <;> rw [hr] <;> simp
      refine ⟨?_, hagrees₂, hframe, fun k hk => habove k (Nat.le_of_lt hk), huncached,
        fun _ => ⟨hblocks, hcached₂ hne⟩, ?_⟩
      · rcases hr with hr | hr <;> rw [heval, hr] <;> rfl
      · rintro (hr | hr) <;> cases hr
    cases prev with
    | unset =>
      exact ⟨heval.symm, hagrees₂, hframe, fun k hk => habove k (Nat.le_of_lt hk), huncached,
        fun hne => absurd rfl hne, by rintro (hr | hr) <;> cases hr⟩
    | skip => exact hskip .skip (Or.inl rfl) rfl
    | true => exact hskip .true (Or.inr rfl) rfl
    | false =>
      dsimp only
      rw [hframe.valid]
      cases hv : con.valid (t.dc i).comp with
      | false =>
        rw [hv] at heval
        exact ⟨heval.symm, hagrees₂, hframe, fun k hk => habove k (Nat.le_of_lt hk), huncached,
          fun hne => absurd rfl hne, by rintro (hr | hr) <;> cases hr⟩
      | true =>
        rw [hv] at heval
        have heval : evaluate env t con.fields con.valid i = Config.localResult env con.fields (t.dc i) := heval
        have hlinks : (∀ p, (t.dc i).block = some p → Cached con₂.caches p) ∧
            ∀ p, (t.dc i).prev = some p → Cached con₂.caches p := ⟨hblocks, hcached₂ (by simp)⟩
        have hlocal := hagrees₂.localResult i
        have hsettled := hagrees₂.settled i
        rw [hframe.fields] at hlocal hsettled
        rw [if_neg (by simp)]
        cases hcase : (con₂.caches i).localResult with
        | true =>
          rw [hcase] at hlocal
          have hr := hlocal (by simp)
          exact ⟨hr.trans heval.symm, hagrees₂, hframe, fun k hk => habove k (Nat.le_of_lt hk), huncached,
            fun _ => hlinks, fun _ => ⟨hr, fun _ => hsettled hcase⟩⟩
        | false =>
          rw [hcase] at hlocal
          have hr := hlocal (by simp)
          exact ⟨hr.trans heval.symm, hagrees₂, hframe, fun k hk => habove k (Nat.le_of_lt hk), huncached,
            fun _ => hlinks, fun _ => ⟨hr, fun htrue => by cases htrue⟩⟩
        | skip =>
          rw [hcase] at hlocal
          rcases localResult_decided env con.fields (t.dc i) with hd | hd <;> rw [hd] at hlocal <;> cases hlocal (by simp)
        | unset =>
          obtain ⟨hfresh, hnew⟩ := fresh_agrees hagrees₂ huncached hcase
          obtain ⟨hfields, hvalid, hcaches⟩ := scratch_spec con₂ (t.dc i)
          obtain ⟨hkept, -⟩ := checkLocal_keeps env con₂.fields (t.dc i) (con₂.caches i)
          rw [hframe.fields] at hnew
          have hself : ∀ c, Function.update (con₂.scratch (t.dc i)).caches i c i = c := fun c => Function.update_self _ _ _
          have hothers : ∀ k, k ≠ i → ∀ c, Function.update (con₂.scratch (t.dc i)).caches i c k = con₂.caches k :=
            fun k hk c => by rw [Function.update_of_ne hk, hcaches]
          have hold : ∀ p c, p < i → Cached con₂.caches p →
              Cached (Function.update (con₂.scratch (t.dc i)).caches i c) p := fun p c hp hcached => by
            rw [Cached, hothers p (by omega)]
            exact hcached
          dsimp only
          refine ⟨?_, hfresh, ⟨hfields.trans hframe.fields, hvalid.trans hframe.valid, fun k hk => ?_⟩, fun k hk => ?_, ?_,
            fun _ => ⟨fun p hp => ?_, fun p hp => ?_⟩, fun _ => ⟨?_, fun htrue => ?_⟩⟩
          · rw [checkLocal_fst, hframe.fields, heval]
          · have hki : k ≠ i := by
              rintro rfl
              exact hi hk
            exact (hothers k hki _).trans (hframe.kept k hk)
          · exact (hothers k (by omega) _).trans (habove k (Nat.le_of_lt hk))
          · intro hcached
            rw [setCache_caches, Cached, hself, hkept] at hcached
            exact huncached hcached
          · exact hold p _ (parent_spec (block_eq_some hp)).1 (hlinks.1 p hp)
          · exact hold p _ (prev_spec hp).1 (hlinks.2 p hp)
          · rw [checkLocal_fst, hframe.fields]
          · rw [checkLocal_fst, hframe.fields] at htrue
            rw [setCache_caches, hself, setCache_tmpBuf]
            have hdone := hnew htrue
            rwa [← hframe.fields] at hdone ⊢

def CondCache.remember (c : CondCache) (r : CondResult) : CondCache :=
  if r = .false ∨ r = .true then { c with result := r, localResult := r } else { c with result := r }

theorem remember_result (c : CondCache) (r : CondResult) : (c.remember r).result = r := by
  unfold CondCache.remember
  split <;> rfl

theorem remember_patterncount (c : CondCache) (r : CondResult) : (c.remember r).patterncount = c.patterncount := by
  unfold CondCache.remember
  split <;> rfl

theorem Settled.remember {tmpBuf : Bytes} {r : CondResult} (h : Settled env f tmpBuf dc cache) :
    Settled env f tmpBuf dc (cache.remember r) := by
  unfold CondCache.remember
  split <;> exact ⟨h.captures, h.negated⟩

/-- **`config_check_cond_cached`.** -/
theorem cached_agrees (hi : i < n) (h : Agrees env t con) (horder : InOrder env t con i) :
    Checked env t con i (configCheckCondCached env t n con i) := by
  induction n generalizing con i with
  | zero => omega
  | succ n ih =>
    unfold configCheckCondCached
    by_cases hunset : (con.caches i).result = .unset
    · have hdecided := nocache_decided (configCheckCondCached env t n)
        (fun con p hp hagrees hin => ih (by omega) hagrees hin) h horder (not_not_intro hunset)
      rw [if_pos hunset]
      generalize configCheckCondNocache env t (configCheckCondCached env t n) con i = o at hdecided ⊢
      obtain ⟨r, con'⟩ := o
      obtain ⟨hresult, hagrees, hframe, habove, huncached, hlinks, hsettled⟩ := hdecided
      dsimp only at hresult hagrees hframe habove huncached hlinks hsettled ⊢
      have hremember : (if r = .false ∨ r = .true then
          { con'.caches i with result := r, localResult := r } else { con'.caches i with result := r }) =
          (con'.caches i).remember r := rfl
      rw [hremember]
      refine ⟨hresult, ?_, ⟨hframe.fields, hframe.valid, fun k hk => ?_⟩, fun k hk => ?_, fun _ => ?_⟩
      · refine hagrees.update rfl rfl rfl (Or.inl rfl) (fun hk => absurd hk huncached) (fun hne => ?_) (fun htrue => ?_)
          (fun hne => ?_) (fun hcond hcond' => ?_) (fun htrue => ?_)
        · rw [remember_result] at hne ⊢
          rw [hframe.fields, hframe.valid]
          exact ⟨hresult, hlinks hne⟩
        · rw [remember_result] at htrue
          simp [CondCache.remember, htrue]
        · unfold CondCache.remember at hne ⊢
          rw [hframe.fields]
          split
          · rename_i hr
            exact (hsettled hr.symm).1
          · rename_i hr
            rw [if_neg hr] at hne
            have hlocal := hagrees.localResult i hne
            rwa [hframe.fields] at hlocal
        · rw [remember_patterncount]
          exact hagrees.plain i hcond hcond'
        · apply Settled.remember
          rw [hframe.fields]
          by_cases hr : r = .false ∨ r = .true
          · have hrtrue : r = .true := by simpa [CondCache.remember, hr] using htrue
            exact (hsettled (Or.inl hrtrue)).2 hrtrue
          · have hold := hagrees.settled i (by simpa [CondCache.remember, hr] using htrue)
            rwa [hframe.fields] at hold
      · have hki : k ≠ i := by
          rintro rfl
          exact hk hunset
        rw [setCache_caches, Function.update_of_ne hki]
        exact hframe.kept k hk
      · rw [setCache_caches, Function.update_of_ne (by omega)]
        exact habove k hk
      · rw [setCache_caches, Function.update_self, remember_result]
    · rw [if_neg hunset]
      exact ⟨h.result i hunset, h, .refl con, fun _ _ => rfl, fun _ => rfl⟩

/-! ## The partial reset -/

/-- The else branch of a condition, and the first branches of its block. -/
def Onward (t : Tree) (k j : Nat) : Prop := (t.dc k).next = some j ∨ j ∈ (t.dc k).children ∧ (t.dc j).prev = none

/-- **What `config_cond_clear_node` does**: it clears what depends on a node, and goes on from what it clears. -/
structure Clears (t : Tree) (root : Nat) (caches caches' : Nat → CondCache) : Prop where
  each : ∀ k, caches' k = caches k ∨ Cached caches k ∧ DependsOn t k root ∧ caches' k = (caches k).wipe
  onward : ∀ k j, Cached caches k → ¬Cached caches' k → Onward t k j → ¬Cached caches' j

variable {caches caches' caches'' : Nat → CondCache} {root : Nat}

theorem Clears.refl (caches : Nat → CondCache) : Clears t root caches caches :=
  ⟨fun _ => Or.inl rfl, fun _ _ hk hk' => absurd hk hk'⟩

theorem Clears.uncached (h : Clears t root caches caches') (hk : ¬Cached caches k) : ¬Cached caches' k := by
  rcases h.each k with heq | ⟨hcached, -, -⟩
  · rwa [Cached, heq]
  · exact absurd hcached hk

theorem Clears.trans (h : Clears t root caches caches') (h' : Clears t root caches' caches'') :
    Clears t root caches caches'' := by
  refine ⟨fun k => ?_, fun k j hk hk'' hj => ?_⟩
  · rcases h.each k with heq | ⟨hcached, hroot, heq⟩
    · rcases h'.each k with heq' | ⟨hcached', hroot', heq'⟩
      · exact Or.inl (heq'.trans heq)
      · rw [Cached, heq] at hcached'
        rw [heq] at heq'
        exact Or.inr ⟨hcached', hroot', heq'⟩
    · rcases h'.each k with heq' | ⟨hcached', -, -⟩
      · exact Or.inr ⟨hcached, hroot, heq'.trans heq⟩
      · rw [Cached, heq] at hcached'
        exact absurd rfl hcached'
  · by_cases hk' : Cached caches' k
    · exact h'.onward k j hk' hk'' hj
    · exact h'.uncached (h.onward k j hk hk' hj)

theorem Clears.below {root' : Nat} (h : Clears t root' caches caches') (hroot : DependsOn t root' root) :
    Clears t root caches caches' :=
  ⟨fun k => (h.each k).imp_right fun ⟨hcached, hk, heq⟩ => ⟨hcached, hk.trans hroot, heq⟩, h.onward⟩

theorem foldl_clears {clear : (Nat → CondCache) → Nat → Nat → CondCache} {l : List Nat}
    (hclear : ∀ caches c, c ∈ l → Clears t root caches (clear caches c) ∧ ¬Cached (clear caches c) c)
    (caches : Nat → CondCache) :
    Clears t root caches (l.foldl clear caches) ∧ ∀ c ∈ l, ¬Cached (l.foldl clear caches) c := by
  induction l generalizing caches with
  | nil => exact ⟨.refl caches, by simp⟩
  | cons c l ih =>
    obtain ⟨hfirst, hc⟩ := hclear caches c List.mem_cons_self
    obtain ⟨hrest, hl⟩ := ih (fun caches d hd => hclear caches d (List.mem_cons_of_mem c hd)) (clear caches c)
    rw [List.foldl_cons]
    refine ⟨hfirst.trans hrest, fun d hd => ?_⟩
    rcases List.mem_cons.mp hd with rfl | hd
    · exact hrest.uncached hc
    · exact hl d hd

/-- **`config_cond_clear_node`.** -/
theorem clearNode_clears (hi : i < t.used) (hn : t.used ≤ n + i) (caches : Nat → CondCache) :
    Clears t i caches (configCondClearNode t n caches i) ∧ ¬Cached (configCondClearNode t n caches i) i := by
  induction n generalizing caches i with
  | zero => omega
  | succ n ih =>
    unfold configCondClearNode
    by_cases hcached : (caches i).result ≠ .unset
    · rw [if_pos hcached]
      dsimp only
      have hchild : ∀ caches c, c ∈ (t.dc i).children.filter (fun c => (t.dc c).prev = none) →
          Clears t i caches (configCondClearNode t n caches c) ∧ ¬Cached (configCondClearNode t n caches c) c := by
        intro caches c hc
        have hparent := parent_of_child (List.mem_filter.mp hc).1
        have hlt := (parent_spec hparent).1
        obtain ⟨hclears, hout⟩ := ih (lt_used_of_parent hparent) (by omega) caches
        exact ⟨hclears.below (.single (Or.inl hparent)), hout⟩
      obtain ⟨hfold, hchildren⟩ := foldl_clears hchild (Function.update caches i (caches i).wipe)
      generalize ((t.dc i).children.filter fun c => (t.dc c).prev = none).foldl (configCondClearNode t n)
        (Function.update caches i (caches i).wipe) = caches₁ at hfold hchildren ⊢
      -- the else branch
      have hlast : Clears t i caches₁ (clearNext (configCondClearNode t n) caches₁ (t.dc i).next) ∧
          ∀ j, (t.dc i).next = some j → ¬Cached (clearNext (configCondClearNode t n) caches₁ (t.dc i).next) j := by
        cases hnext : (t.dc i).next with
        | none => exact ⟨.refl caches₁, by simp⟩
        | some next =>
          have hprev := prev_of_next hnext
          have hlt := (prev_spec hprev).1
          obtain ⟨hclears, hout⟩ := ih (lt_used_of_prev hprev) (by omega) caches₁
          refine ⟨hclears.below (.single (Or.inr hprev)), fun j hj => ?_⟩
          obtain rfl := Option.some.inj hj
          exact hout
      obtain ⟨hlast, hnext⟩ := hlast
      have hall := hfold.trans hlast
      have hself : Function.update caches i (caches i).wipe i = (caches i).wipe := Function.update_self _ _ _
      have hother : ∀ k, k ≠ i → Function.update caches i (caches i).wipe k = caches k := fun k hk =>
        Function.update_of_ne hk _ _
      have hwiped : ¬Cached (Function.update caches i (caches i).wipe) i := by
        rw [Cached, hself]
        exact fun h => h rfl
      refine ⟨⟨fun k => ?_, fun k j hk hk' hj => ?_⟩, hall.uncached hwiped⟩
      · by_cases hki : k = i
        · subst hki
          refine Or.inr ⟨hcached, .refl, ?_⟩
          rcases hall.each k with heach | ⟨hc, -, -⟩
          · rw [heach, hself]
          · exact absurd hc hwiped
        · have heach := hall.each k
          rwa [Cached, hother k hki] at heach
      · by_cases hki : k = i
        · subst hki
          rcases hj with hj | ⟨hj, hfirst⟩
          · exact hnext j hj
          · exact hlast.uncached (hchildren j (List.mem_filter.mpr ⟨hj, by simpa using hfirst⟩))
        · exact hall.onward k j (by rwa [Cached, hother k hki]) hk' hj
    · rw [if_neg hcached]
      exact ⟨.refl caches, hcached⟩

/-- **What is left has everything that is looked at for it.** -/
theorem Clears.closed (h : Clears t root caches caches') (hclosed : Closed t (Cached caches)) :
    Closed t (Cached caches') := by
  have hold : ∀ k, Cached caches' k → Cached caches k := fun k hk => by
    by_contra hc
    exact h.uncached hc hk
  have hprev : ∀ k p, (t.dc k).prev = some p → Cached caches' k → Cached caches' p := by
    intro k p hp hk
    by_contra hc
    exact h.onward p k (hclosed.prev k p hp (hold k hk)) hc (Or.inl (prev_spec hp).2.1) hk
  refine ⟨fun k => ?_, hprev⟩
  -- along the chain, to the first branch of the block
  induction k using Nat.strong_induction_on with
  | h k ih =>
    intro q hq hk
    have hparent := block_eq_some hq
    cases hp : (t.dc k).prev with
    | none =>
      by_contra hc
      exact h.onward q k (hclosed.block k q hq (hold k hk)) hc (Or.inr ⟨(parent_spec hparent).2, hp⟩) hk
    | some p =>
      obtain ⟨hlt, -, hsame⟩ := prev_spec hp
      have hblock : (t.dc p).block = some q := by
        rw [DataConfig.block, hsame]
        exact hq
      exact ih p hlt q hblock (hprev k p hp hk)

/-- **What the first `m` turns of `config_cond_cache_reset_item` do.** -/
structure Resets (t : Tree) (item : Comp) (m : Nat) (caches caches' : Nat → CondCache) : Prop where
  local_eq : ∀ k, (caches' k).localResult =
    if k < m ∧ (t.dc k).comp = item then .unset else (caches k).localResult
  each : ∀ k, (caches' k).result = (caches k).result ∧ (caches' k).patterncount = (caches k).patterncount ∧
      (caches' k).matchOffsets = (caches k).matchOffsets ∧ (caches' k).compValue = (caches k).compValue ∨
    Cached caches k ∧ (∃ r, DependsOn t k r ∧ (t.dc r).comp = item) ∧ (caches' k).result = .unset ∧
      (caches' k).patterncount = 0
  closed : Closed t (Cached caches) → Closed t (Cached caches')
  uncached : ∀ k, k < m → (t.dc k).comp = item → ¬Cached caches' k

variable {item : Comp}

theorem resets_range (item : Comp) {m : Nat} (hm : m ≤ t.used) (caches : Nat → CondCache) :
    Resets t item m caches ((List.range m).foldl (resetNode t item) caches) := by
  induction m with
  | zero => exact ⟨fun k => by simp, fun k => Or.inl ⟨rfl, rfl, rfl, rfl⟩, fun h => h, fun k hk => by omega⟩
  | succ m ih =>
    obtain ⟨hlocal, heach, hclosed, huncached⟩ := ih (by omega)
    rw [List.range_succ, List.foldl_append, List.foldl_cons, List.foldl_nil]
    generalize (List.range m).foldl (resetNode t item) caches = caches₁ at *
    unfold resetNode
    by_cases hcomp : item = (t.dc m).comp
    · rw [if_pos hcomp]
      have hself : Function.update caches₁ m { caches₁ m with localResult := .unset } m =
          { caches₁ m with localResult := .unset } := Function.update_self _ _ _
      have hother : ∀ k, k ≠ m → Function.update caches₁ m { caches₁ m with localResult := .unset } k = caches₁ k :=
        fun k hk => Function.update_of_ne hk _ _
      have hsame : ∀ k, Cached (Function.update caches₁ m { caches₁ m with localResult := .unset }) k ↔
          Cached caches₁ k := by
        intro k
        by_cases hkm : k = m
        · subst hkm
          rw [Cached, hself, Cached]
        · rw [Cached, hother k hkm, Cached]
      obtain ⟨hclears, hout⟩ := clearNode_clears (show m < t.used by omega) (show t.used ≤ t.used + m by omega)
        (Function.update caches₁ m { caches₁ m with localResult := .unset })
      generalize configCondClearNode t t.used _ m = caches₂ at hclears hout ⊢
      generalize Function.update caches₁ m { caches₁ m with localResult := .unset } = caches₁' at *
      refine ⟨fun k => ?_, fun k => ?_, fun h => hclears.closed ?_, fun k hk hk' => ?_⟩
      · have hkept : (caches₂ k).localResult = (caches₁' k).localResult := by
          rcases hclears.each k with heq | ⟨-, -, heq⟩
          · rw [heq]
          · rw [heq]
            rfl
        rw [hkept]
        by_cases hkm : k = m
        · subst hkm
          rw [hself, if_pos ⟨by omega, hcomp.symm⟩]
        · have hiff : (k < m + 1 ∧ (t.dc k).comp = item) ↔ (k < m ∧ (t.dc k).comp = item) := by
            constructor <;> rintro ⟨hlt, hc⟩ <;> exact ⟨by omega, hc⟩
          rw [hother k hkm, hlocal k, if_congr hiff rfl rfl]
      · have hbefore : (caches₁' k).result = (caches₁ k).result ∧ (caches₁' k).patterncount = (caches₁ k).patterncount ∧
            (caches₁' k).matchOffsets = (caches₁ k).matchOffsets ∧ (caches₁' k).compValue = (caches₁ k).compValue := by
          by_cases hkm : k = m
          · subst hkm
            rw [hself]
            exact ⟨rfl, rfl, rfl, rfl⟩
          · rw [hother k hkm]
            exact ⟨rfl, rfl, rfl, rfl⟩
        rcases hclears.each k with heq | ⟨hcached, hdep, heq⟩
        · rw [heq, hbefore.1, hbefore.2.1, hbefore.2.2.1, hbefore.2.2.2]
          exact heach k
        · right
          have hold : Cached caches k := by
            have hc := (hsame k).mp hcached
            rcases heach k with hk | hk
            · rwa [Cached, hk.1] at hc
            · exact hk.1
          rw [heq]
          exact ⟨hold, ⟨m, hdep, hcomp.symm⟩, rfl, rfl⟩
      · have hcongr : Cached caches₁' = Cached caches₁ := funext fun k => propext (hsame k)
        rw [hcongr]
        exact hclosed h
      · by_cases hkm : k = m
        · subst hkm
          exact hout
        · exact hclears.uncached (mt (hsame k).mp (huncached k (by omega) hk'))
    · rw [if_neg hcomp]
      have hne : ∀ k, (t.dc k).comp = item → k ≠ m := by
        rintro k hk rfl
        exact hcomp hk.symm
      refine ⟨fun k => ?_, heach, hclosed, fun k hk hk' => huncached k ?_ hk'⟩
      · have hiff : (k < m + 1 ∧ (t.dc k).comp = item) ↔ (k < m ∧ (t.dc k).comp = item) := by
          constructor <;> rintro ⟨hlt, hc⟩
          · have := hne k hc
            exact ⟨by omega, hc⟩
          · exact ⟨by omega, hc⟩
        rw [hlocal k, if_congr hiff rfl rfl]
      · have := hne k hk'
        omega

/-- The fields agree for all but one kind of condition. -/
structure SameBut (item : Comp) (f f' : Fields) : Prop where
  checkLocal : ∀ env dc cache, dc.comp ≠ item → Config.checkLocal env f' dc cache = Config.checkLocal env f dc cache
  compareBuf : ∀ dc, dc.comp ≠ item → Config.compareBuf f' dc = Config.compareBuf f dc
  method : item ≠ .httpRequestMethod → f'.method = f.method

theorem SameBut.refl (item : Comp) (f : Fields) : SameBut item f f := ⟨fun _ _ _ _ => rfl, fun _ _ => rfl, fun _ => rfl⟩

theorem sameBut_change (ch : Change) (f : Fields) : SameBut ch.item f (ch.apply f) := by
  have hbuf : ∀ dc : DataConfig, dc.comp ≠ ch.item → compareBuf (ch.apply f) dc = compareBuf f dc := by
    intro dc hne
    unfold compareBuf
    cases ch <;> cases hcomp : dc.comp <;> first | rfl | exact absurd hcomp hne
  have haddr : ch.item ≠ .httpRemoteIp → (ch.apply f).dstAddr = f.dstAddr := by
    intro hne
    cases ch <;> first | rfl | exact absurd rfl hne
  refine ⟨fun env dc cache hne => ?_, hbuf, fun hne => ?_⟩
  · unfold checkLocal
    rw [hbuf dc hne]
    by_cases hcomp : dc.comp = .httpRemoteIp
    · rw [haddr fun h => hne (hcomp.trans h.symm)]
    · simp only [if_neg hcomp]
  · cases ch <;> first | rfl | exact absurd rfl hne

/-- The captures of other conditions are not cleared: an expression that has matched on something else does not depend
on the item. -/
def ResetKeeps (t : Tree) (item : Comp) (caches : Nat → CondCache) : Prop :=
  ∀ j r, (t.dc j).cond = .isMatch → (t.dc j).comp ≠ item → Cached caches j → (caches j).localResult = .true →
    DependsOn t j r → (t.dc r).comp ≠ item

/-- **`config_cond_cache_reset_item`**, behind a change of that item. -/
theorem resetItem_agrees (h : Agrees env t con) (hsame : SameBut item con.fields f)
    (hkeeps : ResetKeeps t item con.caches) :
    Agrees env t (configCondCacheResetItem t { con with fields := f } item) := by
  obtain ⟨hlocal, heach, hclosed, huncached⟩ := resets_range item (Nat.le_refl t.used) con.caches
  unfold configCondCacheResetItem
  dsimp only
  generalize (List.range t.used).foldl (resetNode t item) con.caches = caches' at *
  -- the condition is not of that kind, or is no condition at all
  have hother : ∀ k, ¬(k < t.used ∧ (t.dc k).comp = item) → (t.dc k).comp ≠ item ∨ t.dc k = {} := by
    intro k hk
    by_cases hlt : k < t.used
    · exact Or.inl fun hc => hk ⟨hlt, hc⟩
    · exact Or.inr (dc_of_le (Nat.le_of_not_lt hlt))
  have hlocal_same : ∀ k, ¬(k < t.used ∧ (t.dc k).comp = item) →
      Config.localResult env f (t.dc k) = Config.localResult env con.fields (t.dc k) := by
    intro k hk
    rcases hother k hk with hc | hc
    · rw [Config.localResult, hsame.checkLocal env _ _ hc]
      rfl
    · rw [hc]
      rfl
  have hcached : ∀ k, Cached caches' k → ¬(k < t.used ∧ (t.dc k).comp = item) ∧ Cached con.caches k ∧
      (caches' k).result = (con.caches k).result := by
    intro k hk
    refine ⟨fun ⟨hlt, hc⟩ => huncached k hlt hc hk, ?_⟩
    rcases heach k with heq | ⟨-, -, heq, -⟩
    · rw [Cached, heq.1] at hk
      exact ⟨hk, heq.1⟩
    · exact absurd heq hk
  have hheld : ∀ k, (caches' k).localResult ≠ .unset → ¬(k < t.used ∧ (t.dc k).comp = item) ∧
      (caches' k).localResult = (con.caches k).localResult := by
    intro k hk
    rw [hlocal k] at hk ⊢
    by_cases hc : k < t.used ∧ (t.dc k).comp = item
    · rw [if_pos hc] at hk
      exact absurd rfl hk
    · rw [if_neg hc]
      exact ⟨hc, rfl⟩
  have hcount : ∀ k, (con.caches k).patterncount ≤ 0 → (caches' k).patterncount ≤ 0 := by
    intro k hk
    rcases heach k with ⟨-, heq, -⟩ | ⟨-, -, -, heq⟩ <;> omega
  refine ⟨fun k hk => ?_, hclosed h.closed, fun k hk => ?_, fun k hk => ?_, fun k hk hk' => hcount k (h.plain k hk hk'),
    fun k hk => ⟨fun hcond => ?_, fun hcond => ?_⟩⟩
  · obtain ⟨-, hold, hresult⟩ := hcached k hk
    rw [hresult, h.result k hold]
    refine (evaluate_congr (hclosed h.closed) (fun j hj => ⟨rfl, ?_⟩) hk).symm
    exact hlocal_same j (hcached j hj).1
  · have hc : Cached caches' k := by
      rw [Cached, hk]
      simp
    obtain ⟨hout, hold, hresult⟩ := hcached k hc
    rw [hlocal k, if_neg hout]
    exact h.held k (hresult.symm.trans hk)
  · obtain ⟨hout, heq⟩ := hheld k hk
    rw [heq, hlocal_same k hout]
    exact h.localResult k (by rwa [← heq])
  · have hlocal_true : (caches' k).localResult = .true := hk
    obtain ⟨hout, heq⟩ := hheld k (by rw [hlocal_true]; simp)
    have htrue : (con.caches k).localResult = .true := heq.symm.trans hk
    have hcomp : (t.dc k).comp ≠ item := by
      rcases hother k hout with hc | hc
      · exact hc
      · rw [hc] at hcond
        cases hcond
    obtain ⟨⟨hcount, hoffsets, hvalue⟩, hmethod⟩ := (h.settled k htrue).captures hcond
    constructor
    · rcases heach k with ⟨-, heq1, heq2, heq3⟩ | ⟨hold, ⟨r, hdep, hr⟩, -, -⟩
      · rw [Captures, hsame.checkLocal env _ _ hcomp, hsame.compareBuf _ hcomp, heq1, heq2, heq3]
        exact ⟨hcount, hoffsets, hvalue⟩
      · exact absurd hr (hkeeps k r hcond hcomp hold htrue hdep)
    · intro hm
      rw [hsame.method fun hitem => hcomp (hm.trans hitem.symm)]
      exact hmethod hm
  · obtain ⟨hout, heq⟩ := hheld k (by rw [hk]; simp)
    exact hcount k ((h.settled k (heq.symm.trans hk)).negated hcond)

/-! ## Runs -/

/-- **What a step has to meet.** -/
def Kept (env : Env) (t : Tree) (con : Con) : Op → Prop
  | .checkCond i => InOrder env t con i
  | .setValid c v => v = true ∨ ∀ k, (t.dc k).comp = c → ¬Cached con.caches k
  | .change ch => ResetKeeps t ch.item con.caches
  | .resetItem item => ResetKeeps t item con.caches
  | .reset => True
  | .writeTmpBuf s => s = con.tmpBuf ∨
      ∀ k, (t.dc k).comp = .httpRequestMethod → (t.dc k).cond = .isMatch → (con.caches k).localResult ≠ .true

theorem agrees_init (f : Fields) : Agrees env t (Con.init f) where
  result _ h := absurd rfl h
  closed := ⟨fun _ _ _ h => absurd rfl h, fun _ _ _ h => absurd rfl h⟩
  held _ h := by cases h
  localResult _ h := absurd rfl h
  plain _ _ _ := Int.le_refl 0
  settled _ h := by cases h

theorem reset_agrees (con : Con) : Agrees env t (configCondCacheReset con) where
  result _ h := absurd rfl h
  closed := ⟨fun _ _ _ h => absurd rfl h, fun _ _ _ h => absurd rfl h⟩
  held _ h := by cases h
  localResult _ h := absurd rfl h
  plain _ _ _ := Int.le_refl 0
  settled _ h := by cases h

theorem setValid_agrees (h : Agrees env t con) {c : Comp} {v : Bool}
    (hv : v = true ∨ ∀ k, (t.dc k).comp = c → ¬Cached con.caches k) :
    Agrees env t { con with valid := Function.update con.valid c v } := by
  refine ⟨fun i hi => ?_, h.closed, h.held, h.localResult, h.plain, h.settled⟩
  have hold := h.result i hi
  rcases hv with rfl | hv
  · refine hold.trans (evaluate_mono (fun c' hc' => ?_) ?_).symm
    · show Function.update con.valid c true c' = true
      by_cases hcc : c' = c
      · rw [hcc, Function.update_self]
      · rwa [Function.update_of_ne hcc]
    · rw [← hold]
      exact hi
  · refine hold.trans (evaluate_congr h.closed (fun k hk => ⟨?_, rfl⟩) hi).symm
    exact Function.update_of_ne (fun hc => hv k hc hk) _ _

/-- **Every step that meets its condition keeps the invariant.** -/
theorem condStep_agrees {op : Op} (h : Agrees env t con) (hkept : Kept env t con op)
    (hstep : condStep env t con op = some con') : Agrees env t con' := by
  cases op with
  | checkCond i =>
    obtain ⟨-, hcon⟩ := Option.ite_none_right_eq_some.mp hstep
    obtain rfl := Option.some.inj hcon
    exact (cached_agrees (Nat.lt_succ_self i) h hkept).agrees
  | setValid c v =>
    obtain rfl := Option.some.inj hstep
    exact setValid_agrees h hkept
  | change ch =>
    obtain rfl := Option.some.inj hstep
    exact resetItem_agrees h (sameBut_change ch con.fields) hkept
  | resetItem item =>
    obtain rfl := Option.some.inj hstep
    exact resetItem_agrees h (.refl item con.fields) hkept
  | reset =>
    obtain rfl := Option.some.inj hstep
    exact reset_agrees con
  | writeTmpBuf s =>
    obtain rfl := Option.some.inj hstep
    refine ⟨h.result, h.closed, h.held, h.localResult, h.plain, fun i hi => ?_⟩
    have hold := h.settled i hi
    refine ⟨fun hcond => ⟨(hold.captures hcond).1, fun hcomp => ?_⟩, hold.negated⟩
    rcases hkept with rfl | hkept
    · exact (hold.captures hcond).2 hcomp
    · exact absurd hi (hkept i hcomp hcond)

theorem deref_compareBuf {l : BufPtr} {b : Buffer} (h : compareBuf con.fields dc = some (l, b)) (hcond : dc.cond = .isMatch)
    (hmethod : dc.comp = .httpRequestMethod → con.tmpBuf = con.fields.method) : con.deref l = b.str := by
  have hheader : ∀ (p : BufPtr) (value : Option Buffer), con.deref p = (value.map Buffer.str).getD [] →
      headerBuf p value = (l, b) → con.deref l = b.str := by
    intro p value hp hbuf
    cases value with
    | none =>
      obtain ⟨rfl, rfl⟩ := Prod.mk.inj hbuf
      rfl
    | some v =>
      obtain ⟨rfl, rfl⟩ := Prod.mk.inj hbuf
      exact hp
  unfold compareBuf at h
  cases hcomp : dc.comp <;> simp only [hcomp, Option.some.injEq, reduceCtorEq] at h
  case httpHost =>
    have hne : ¬(dc.cond = .ne ∨ dc.cond = .eq) := by rw [hcond]; simp
    unfold httpHostBuf at h
    rw [if_neg hne] at h
    split at h
    · obtain ⟨rfl, rfl⟩ := Prod.mk.inj h
      rfl
    · split at h
      · obtain ⟨rfl, rfl⟩ := Prod.mk.inj h
        rfl
      · obtain ⟨rfl, rfl⟩ := Prod.mk.inj h
        rfl
  case httpReferer => exact hheader .referer _ rfl h
  case httpCookie => exact hheader .cookie _ rfl h
  case httpUserAgent => exact hheader .userAgent _ rfl h
  case httpLanguage => exact hheader .acceptLanguage _ rfl h
  case httpRequestMethod =>
    obtain ⟨rfl, rfl⟩ := Prod.mk.inj h
    exact (hmethod hcomp).trans (Buffer.copyStringLen_str _ _).symm
  all_goals
    obtain ⟨rfl, rfl⟩ := Prod.mk.inj h
    rfl

theorem submatch_of_le {count : Int} (h : count ≤ 0) (offsets : List Int) (subject : Bytes) (n : Nat) :
    submatch count offsets subject n = none := if_pos (by omega)

/-- **What is substituted for `%n` is what has been captured.** -/
theorem append_captured (h : Agrees env t con) (hi : (con.caches i).localResult = .true) (n : Nat) :
    configAppendCondMatchBuffer con i n = captured env con.fields (t.dc i) n := by
  have hsettled := h.settled i hi
  have hlocal : Config.localResult env con.fields (t.dc i) = .true := by
    rw [← h.localResult i (by rw [hi]; simp), hi]
  show submatch (con.caches i).patterncount (con.caches i).matchOffsets
    (((con.caches i).compValue.map con.deref).getD []) n = _
  unfold captured
  by_cases hmatch : (t.dc i).cond = .isMatch
  · obtain ⟨⟨hcount, hoffsets, hvalue⟩, hmethod⟩ := hsettled.captures hmatch
    obtain ⟨l, b, -, -, hbuf, -, -⟩ := checkLocal_match hmatch hlocal
    have hderef := deref_compareBuf hbuf hmatch hmethod
    rw [hcount, hoffsets, hvalue, hbuf]
    simp [hderef]
  · by_cases hnegated : (t.dc i).cond = .noMatch
    · rw [submatch_of_le (hsettled.negated hnegated), submatch_of_le (checkLocal_noMatch hnegated hlocal _)]
    · rw [submatch_of_le (h.plain i hmatch hnegated), checkLocal_plain hmatch hnegated, submatch_of_le (Int.le_refl 0)]

/-- Every run whose steps meet their conditions keeps the invariant. -/
theorem run_agrees {ops : List Op} (hok : Run.Meets (condStep env t) (Kept env t) (Con.init f) ops)
    (hrun : Run.run (condStep env t) (Con.init f) ops = some con) : Agrees env t con :=
  Run.run_keeps (fun _ _ _ hs hop hstep => condStep_agrees hs hop hstep) (agrees_init f) hok hrun

/-- **The cache agrees with the conditions from scratch, in every run whose steps meet their conditions.** -/
theorem conditions_agree {ops : List Op} (hok : Run.Meets (condStep env t) (Kept env t) (Con.init f) ops)
    (hrun : Run.run (condStep env t) (Con.init f) ops = some con) :
    (∀ i, (con.caches i).result ≠ .unset → (con.caches i).result = evaluate env t con.fields con.valid i) ∧
      (∀ i n, (con.caches i).result = .true →
        configAppendCondMatchBuffer con i n = captured env con.fields (t.dc i) n) ∧
      ∀ i < t.used, Kept env t con (.checkCond i) →
        (configCheckCond env t con i).1 = (evaluate env t con.fields con.valid i == .true) ∧
        ((configCheckCond env t con i).1 = true → ∀ n,
          configAppendCondMatchBuffer (configCheckCond env t con i).2 i n = captured env con.fields (t.dc i) n) := by
  have h : Agrees env t con := run_agrees hok hrun
  refine ⟨h.result, fun i n hi => append_captured h (h.held i hi) n, fun i _ horder => ?_⟩
  obtain ⟨hresult, hagrees, hframe, -, hcached⟩ := cached_agrees (Nat.lt_succ_self i) h horder
  refine ⟨?_, fun htrue n => ?_⟩
  · show ((configCheckCondCached env t (i + 1) con i).1 == .true) = _
    rw [hresult]
  · have hr : (configCheckCondCached env t (i + 1) con i).1 = .true := beq_iff_eq.mp htrue
    rw [hr] at hcached
    have happend := append_captured hagrees (hagrees.held i (hcached (by simp))) n
    rwa [hframe.fields] at happend

/-! ## What is lost otherwise -/

/-- Expressions that match everything and capture it. -/
def sampleEnv : Env := ⟨samplePton, fun _ subject => (2, [0, subject.length, 0, subject.length])⟩

/-- `$HTTP["remoteip"] == "10.0.0.1" { $HTTP["host"] =~ "(.*)" {} }`, and
`$HTTP["url"] == "/a" { $HTTP["host"] == "x" {} else $HTTP["host"] == "y" {} }`. -/
def sampleTree : Tree where
  dcs :=
    [{ children := [1, 3] },
      { comp := .httpRemoteIp, cond := .eq, string := Buffer.ofString (ascii "10.0.0.1"), parent := some 0,
        children := [2] },
      { comp := .httpHost, cond := .isMatch, string := Buffer.ofString (ascii "(.*)"), parent := some 1 },
      { comp := .httpUrl, cond := .eq, string := Buffer.ofString (ascii "/a"), parent := some 0, children := [4, 5] },
      { comp := .httpHost, cond := .eq, string := Buffer.ofString (ascii "x"), parent := some 3, next := some 5 },
      { comp := .httpHost, cond := .eq, string := Buffer.ofString (ascii "y"), parent := some 3, prev := some 4 }]
  linked := ⟨by decide, by decide, by decide, by decide⟩

/-- `GET /b` for the host `y`, from `10.0.0.1`. -/
def sampleFields : Fields where
  authority := Buffer.ofString (ascii "y")
  tlsextServerName := Buffer.init
  port := 80
  dstAddr := .inet ⟨[10, 0, 0, 1], rfl⟩
  dstAddrBuf := Buffer.ofString (ascii "10.0.0.1")
  scheme := Buffer.ofString (ascii "http")
  path := Buffer.ofString (ascii "/b")
  query := Buffer.init
  srvToken := Buffer.init
  referer := none
  cookie := none
  userAgent := none
  acceptLanguage := none
  method := ascii "GET"

def sampleOps : List Op := [.setValid .httpRemoteIp true, .setValid .httpHost true, .setValid .httpUrl true]

theorem sample_inOrder (con : Con) : InOrder sampleEnv sampleTree con 2 := by
  have hprev : ∀ k, DependsOn sampleTree 2 k → k ≤ 2 := by
    intro k hk
    induction hk with
    | refl => exact Nat.le_refl 2
    | tail _ hlink ih =>
      rcases hlink with hlink | hlink
      · exact Nat.le_of_lt (Nat.lt_of_lt_of_le (parent_spec hlink).1 ih)
      · exact Nat.le_of_lt (Nat.lt_of_lt_of_le (prev_spec hlink).1 ih)
  intro k p _ hk hp _ _
  have hle := hprev k hk
  obtain rfl | rfl | rfl : k = 0 ∨ k = 1 ∨ k = 2 := by omega
  all_goals cases hp

/-- The only expression is one on the host. -/
theorem sample_keeps (caches : Nat → CondCache) : ResetKeeps sampleTree .httpHost caches := by
  intro j r hcond hcomp _ _ _
  have hlt : j < sampleTree.used := by
    by_contra hle
    rw [dc_of_le (Nat.le_of_not_lt hle)] at hcond
    cases hcond
  have hone : ∀ j < sampleTree.used, (sampleTree.dc j).cond = .isMatch → (sampleTree.dc j).comp = .httpHost := by decide
  exact absurd (hone j hlt hcond) hcomp

def checkedOps : List Op := sampleOps ++ [.checkCond 2]

def changedOps : List Op := checkedOps ++ [.change (.host (Buffer.ofString (ascii "z")) Buffer.init)]

theorem checkedOps_meets : Run.Meets (condStep sampleEnv sampleTree) (Kept sampleEnv sampleTree) (Con.init sampleFields)
    checkedOps :=
  ⟨Or.inl rfl, fun _ _ => ⟨Or.inl rfl, fun _ _ => ⟨Or.inl rfl, fun con _ => ⟨sample_inOrder con, fun _ _ => trivial⟩⟩⟩⟩

theorem changedOps_meets : Run.Meets (condStep sampleEnv sampleTree) (Kept sampleEnv sampleTree) (Con.init sampleFields)
    changedOps :=
  ⟨Or.inl rfl, fun _ _ => ⟨Or.inl rfl, fun _ _ => ⟨Or.inl rfl, fun con _ => ⟨sample_inOrder con, fun con _ =>
    ⟨sample_keeps con.caches, fun _ _ => trivial⟩⟩⟩⟩⟩

/-- A check, a change of the host with its reset, and the check again: `y` and then `z` is captured. -/
theorem conditions_agree_sample :
    (∃ con, Run.run (condStep sampleEnv sampleTree) (Con.init sampleFields) checkedOps = some con ∧
      (con.caches 2).result = .true ∧ configAppendCondMatchBuffer con 2 1 = some (ascii "y")) ∧
    ∃ con, Run.run (condStep sampleEnv sampleTree) (Con.init sampleFields) changedOps = some con ∧
      (con.caches 1).result = .true ∧ (con.caches 2).result = .unset ∧
      (configCheckCond sampleEnv sampleTree con 2).1 =
        (evaluate sampleEnv sampleTree con.fields con.valid 2 == .true) ∧
      (configCheckCond sampleEnv sampleTree con 2).1 = true ∧
      configAppendCondMatchBuffer (configCheckCond sampleEnv sampleTree con 2).2 2 1 = some (ascii "z") := by
  refine ⟨⟨_, rfl, by decide, ?_⟩, ⟨_, rfl, by decide, by decide, ?_⟩⟩
  · rw [(conditions_agree checkedOps_meets rfl).2.1 2 1 (by decide)]
    decide
  · obtain ⟨hcheck, hcaptured⟩ := (conditions_agree changedOps_meets rfl).2.2 2 (by decide) (sample_inOrder _)
    have htrue : (configCheckCond sampleEnv sampleTree _ 2).1 = true := hcheck.trans (by decide)
    refine ⟨hcheck, htrue, ?_⟩
    rw [hcaptured htrue]
    decide

/-- A partial reset takes the captures away but not the result, and it leaves the result of an else branch behind. -/
theorem captures_lost :
    (∃ con, Run.run (condStep sampleEnv sampleTree) (Con.init sampleFields)
        (sampleOps ++ [.checkCond 2, .resetItem .httpRemoteIp]) = some con ∧
      (configCheckCond sampleEnv sampleTree con 2).1 = true ∧
      configAppendCondMatchBuffer (configCheckCond sampleEnv sampleTree con 2).2 2 1 = none ∧
      captured sampleEnv con.fields (sampleTree.dc 2) 1 = some (ascii "y")) ∧
    ∃ con, Run.run (condStep sampleEnv sampleTree) (Con.init sampleFields)
        (sampleOps ++ [.checkCond 5, .change (.url (Buffer.ofString (ascii "/a")))]) = some con ∧
      (configCheckCond sampleEnv sampleTree con 5).1 = false ∧
      evaluate sampleEnv sampleTree con.fields con.valid 5 = .true := by
  refine ⟨⟨_, rfl, ?_⟩, ⟨_, rfl, ?_⟩⟩
  · decide
  · decide

end Lighttpd.Config
