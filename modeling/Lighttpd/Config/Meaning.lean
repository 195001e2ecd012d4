import Lighttpd.Config.CondCache
import Lighttpd.Config.Program
import Lighttpd.Lib.OptionRel

/-!
# What a configuration means (`configparser.y`, `configfile-glue.c`)

Read as nested blocks, a configuration gives a request the variables of the blocks that apply to it, one after another:
of a chain of branches the first one whose comparison holds, and none behind a comparison that is not known yet. The
server has a flat list of contexts instead, and `mod_*_patch_connection` asks the cache of the connection about each of
them. `patchConnection_meaning` says that it comes to the same.
-/

namespace Lighttpd.Config
open ConfigT

variable {V : Type}

/-! ## The language -/

/-- The variables that can be seen in a block: those of the blocks that it stands in, the innermost first, and the global
ones. -/
structure Scope (V : Type) where
  blocks : List (Table V)
  global : Table V
deriving DecidableEq

namespace Scope

def lookup (s : Scope V) (key : Bytes) : Option V := (s.blocks ++ [s.global]).findSome? fun vars => vars.get key

def own (s : Scope V) : Table V := s.blocks.headD s.global

def setOwn (s : Scope V) (vars : Table V) : Scope V :=
  match s.blocks with
  | [] => { s with global := vars }
  | _ :: blocks => { s with blocks := vars :: blocks }

def varline (a : Actions V) (s : Scope V) (v : Varline V) : Option (Scope V) :=
  (v.put a s.lookup s.own).map s.setOwn

end Scope

/-- A comparison by itself, if what it looks at is known. -/
def verdict (env : Env) (f : Fields) (valid : Comp → Bool) (dc : DataConfig) : CondResult :=
  if valid dc.comp then localResult env f dc else .unset

def elseResult (prev result : CondResult) : CondResult :=
  match prev with
  | .unset => .unset
  | .false => result
  | _ => .skip

/-- A branch with its block, and the variables of the blocks that apply. -/
def meanBranch (a : Actions V) (holds : DataConfig → CondResult) (block : Scope V → Option (Scope V × List (Table V)))
    (prev : CondResult) (c : Cond) (s : Scope V) : Option (CondResult × Scope V × List (Table V)) :=
  (a.prepare c).bind fun r => (block { s with blocks := [] :: s.blocks }).map fun (s', ts) =>
    let result := elseResult prev (holds (dataConfig c r))
    (result, { s' with blocks := s'.blocks.tail }, if result = .true then s'.own :: ts else [])

mutual

/-- **The meaning of the lines of a block**: the variables at its end, and those of the blocks in it that apply. -/
def Metalines.mean (a : Actions V) (holds : DataConfig → CondResult) :
    Metalines V → Scope V → Option (Scope V × List (Table V))
  | .nil, s => some (s, [])
  | .snoc ls l, s => (ls.mean a holds s).bind fun (s, ts) => (l.mean a holds s).map fun (s', ts') => (s', ts ++ ts')

def Metaline.mean (a : Actions V) (holds : DataConfig → CondResult) :
    Metaline V → Scope V → Option (Scope V × List (Table V))
  | .varline v, s => (s.varline a v).map fun s => (s, [])
  | .global vs, s =>
    (vs.foldlM (Scope.varline a) ⟨[], s.global⟩).map fun g => ({ s with global := g.global }, [])
  | .condlines cs, s => (cs.mean a holds s).map Prod.snd

def Condlines.mean (a : Actions V) (holds : DataConfig → CondResult) :
    Condlines V → Scope V → Option (CondResult × Scope V × List (Table V))
  | .condline c ls, s => meanBranch a holds (ls.mean a holds) .false c s
  | .elseline cs c ls, s =>
    (cs.mean a holds s).bind fun (prev, s, ts) =>
      (meanBranch a holds (ls.mean a holds) prev c s).map fun (r, s', ts') => (r, s', ts ++ ts')

end

/-! ## The server -/

/-- `PATCH` for every variable of a context, from its storage. -/
def patch (storage : Bytes → V) (vars : Table V) (conf : Bytes → V) : Bytes → V :=
  vars.foldl (fun conf e => Function.update conf e.1 (storage e.1)) conf

/-- `config_storage[i]`: the defaults, but for what `config_insert_values` finds. -/
def storage (defaults : Bytes → V) (vars : Table V) (key : Bytes) : V := (vars.get key).getD (defaults key)

/-- The loop of `mod_*_patch_connection` over `n` contexts from `i` on. -/
def patchLoop (env : Env) (t : Tree) (values : Nat → Table V) (defaults : Bytes → V) :
    Nat → Nat → Con → (Bytes → V) → (Bytes → V) × Con
  | 0, _, con, conf => (conf, con)
  | n + 1, i, con, conf =>
    let (holds, con) := configCheckCond env t con i
    patchLoop env t values defaults n (i + 1) con
      (if holds then patch (storage defaults (values i)) (values i) conf else conf)

/-- `mod_*_patch_connection`, which skips the global context. -/
def patchConnection (env : Env) (t : Tree) (values : Nat → Table V) (defaults : Bytes → V) (con : Con) :
    (Bytes → V) × Con :=
  patchLoop env t values defaults (t.used - 1) 1 con (storage defaults (values 0))

/-- What a block does to an option: it counts when the name is written as the option is. -/
def Table.patches (vars : Table V) (key : Bytes) : Option V :=
  if vars.any fun e => e.1 == key then vars.get key else none

/-! ## The scope of a block -/

/-- The variables of the contexts from `i` up to the global one. -/
inductive Within (dcs : List DataConfig) (values : Nat → Table V) : Nat → Scope V → Prop
  | global : Within dcs values 0 ⟨[], values 0⟩
  | block {i p : Nat} {s : Scope V} (hi : i ≠ 0) (hp : (dcOf dcs i).parent = some p) (h : Within dcs values p s) :
      Within dcs values i ⟨values i :: s.blocks, s.global⟩

variable {dcs dcs' : List DataConfig} {values values' : Nat → Table V} {i : Nat} {s : Scope V} {a : Actions V}

theorem Within.own (h : Within dcs values i s) : s.own = values i := by
  cases h <;> rfl

theorem Within.global_eq (h : Within dcs values i s) : s.global = values 0 := by
  induction h with
  | global => rfl
  | block _ _ _ ih => exact ih

theorem Within.inv (h : Within dcs values i s) (hi : i ≠ 0) : ∃ p s₀, (dcOf dcs i).parent = some p ∧
    s = ⟨values i :: s₀.blocks, s₀.global⟩ ∧ Within dcs values p s₀ := by
  cases h with
  | global => exact absurd rfl hi
  | block _ hp h => exact ⟨_, _, hp, rfl, h⟩

theorem parent_lt (hlinked : WellLinked dcs) {p : Nat} (hp : (dcOf dcs i).parent = some p) : p < i := by
  have hi : i < dcs.length := by
    by_contra hge
    rw [dcOf_of_le (by omega)] at hp
    cases hp
  exact (hlinked.parent i hi p hp).1

theorem Within.congr (h : Within dcs values i s) (hlinked : WellLinked dcs)
    (hparent : ∀ j ≤ i, (dcOf dcs' j).parent = (dcOf dcs j).parent) (hvalues : ∀ j ≤ i, j ≠ 0 → values' j = values j) :
    Within dcs' values' i ⟨s.blocks, values' 0⟩ := by
  induction h with
  | global => exact .global
  | @block i p s hi hp _ ih =>
    have hlt := parent_lt hlinked hp
    have hrest := ih (fun j hj => hparent j (by omega)) fun j hj => hvalues j (by omega)
    have hblock := Within.block hi ((hparent i (Nat.le_refl i)).trans hp) hrest
    rwa [hvalues i (Nat.le_refl i) hi] at hblock

theorem Within.setOwn (h : Within dcs values i s) (hlinked : WellLinked dcs) (vars : Table V) :
    Within dcs (Function.update values i vars) i (s.setOwn vars) := by
  cases h with
  | global =>
    have hglobal := @Within.global V dcs (Function.update values 0 vars)
    rwa [Function.update_self] at hglobal
  | @block _ p s hi hp h =>
    have hlt := parent_lt hlinked hp
    have hrest : Within dcs (Function.update values i vars) p ⟨s.blocks, Function.update values i vars 0⟩ :=
      h.congr hlinked (fun _ _ => rfl) fun j hj _ => Function.update_of_ne (by omega) _ _
    have hblock := Within.block hi hp hrest
    rw [Function.update_self, Function.update_of_ne (Ne.symm hi), ← h.global_eq] at hblock
    exact hblock

theorem getVariable_within {st : ConfigT V} {n : Nat} (h : Within st.dcs st.values i s) (hlinked : WellLinked st.dcs)
    (hn : i < n) (key : Bytes) : st.getVariable n i key = s.lookup key := by
  induction h generalizing n with
  | global =>
    obtain ⟨n, rfl⟩ : ∃ m, n = m + 1 := ⟨n - 1, by omega⟩
    have hnone : (dcOf st.dcs 0).parent = none := by
      cases hp : (dcOf st.dcs 0).parent with
      | none => rfl
      | some p => exact absurd (parent_lt hlinked hp) (Nat.not_lt_zero p)
    rw [getVariable, hnone]
    cases hget : (st.values 0).get key <;> simp [Scope.lookup, hget]
  | @block i p s hi hp _ ih =>
    obtain ⟨n, rfl⟩ : ∃ m, n = m + 1 := ⟨n - 1, by omega⟩
    have hlt := parent_lt hlinked hp
    have hup := @ih n (by omega)
    rw [getVariable, hp]
    dsimp only
    rw [hup]
    cases hget : (st.values i).get key <;> simp [Scope.lookup, hget]

theorem varline_within {st : ConfigT V} (h : Within st.dcs st.values st.current s) (hlinked : WellLinked st.dcs)
    (v : Varline V) : Option.Rel (fun st' s' => Within st'.dcs st'.values st.current s') (st.varline a v) (s.varline a v) := by
  have hlookup : st.getVariable (st.current + 1) st.current = s.lookup :=
    funext fun key => getVariable_within h hlinked (Nat.lt_succ_self _) key
  rw [ConfigT.varline, Scope.varline, hlookup, h.own]
  cases hput : v.put a s.lookup (st.values st.current) with
  | none => exact .none
  | some vars => exact .some (h.setOwn hlinked vars)

/-! ## The contexts that apply -/

/-- What a condition is made of is the same. -/
structure SameTest (dc dc' : DataConfig) : Prop where
  comp : dc'.comp = dc.comp
  cond : dc'.cond = dc.cond
  string : dc'.string = dc.string
  parent : dc'.parent = dc.parent
  prev : dc'.prev = dc.prev

theorem SameContext.test {dc dc' : DataConfig} (h : SameContext dc dc') : SameTest dc dc' :=
  ⟨h.comp, h.cond, h.string, h.parent, h.prev⟩

theorem SameTest.trans {dc₁ dc₂ dc₃ : DataConfig} (h : SameTest dc₁ dc₂) (h' : SameTest dc₂ dc₃) : SameTest dc₁ dc₃ :=
  ⟨h'.comp.trans h.comp, h'.cond.trans h.cond, h'.string.trans h.string, h'.parent.trans h.parent,
    h'.prev.trans h.prev⟩

theorem linkElse_test {b c j : Nat} (hb : b < dcs.length) (hc : c < dcs.length) (hj : j ≠ c) :
    SameTest (dcOf dcs j) (dcOf (linkElse dcs b c) j) := by
  rw [dcOf_linkElse hb hc, if_neg hj]
  split_ifs with hjb
  · subst hjb
    exact ⟨rfl, rfl, rfl, rfl, rfl⟩
  · exact ⟨rfl, rfl, rfl, rfl, rfl⟩

variable {env : Env} {f : Fields} {valid : Comp → Bool} {t : Tree}

theorem verdict_congr {dc dc' : DataConfig} (hcomp : dc'.comp = dc.comp) (hcond : dc'.cond = dc.cond)
    (hstring : dc'.string = dc.string) : verdict env f valid dc' = verdict env f valid dc := by
  unfold verdict localResult checkLocal compareBuf httpHostBuf
  simp only [hcomp, hcond, hstring]

def BlockHolds (env : Env) (t : Tree) (f : Fields) (valid : Comp → Bool) (i : Nat) : Prop :=
  i = 0 ∨ evaluate env t f valid i = .true

instance (i : Nat) : Decidable (BlockHolds env t f valid i) := inferInstanceAs (Decidable (_ ∨ _))

/-- The variables of the contexts from `n` to `m` that apply. -/
def applied (env : Env) (t : Tree) (f : Fields) (valid : Comp → Bool) (values : Nat → Table V) (n m : Nat) :
    List (Table V) :=
  ((List.range' n (m - n)).filter fun j => evaluate env t f valid j == .true).map values

theorem applied_self (n : Nat) : applied env t f valid values n n = [] := by simp [applied]

theorem applied_append {n m k : Nat} (h : n ≤ m) (h' : m ≤ k) :
    applied env t f valid values n k = applied env t f valid values n m ++ applied env t f valid values m k := by
  have hrange : List.range' n (k - n) = List.range' n (m - n) ++ List.range' m (k - m) := by
    rw [show k - n = (m - n) + (k - m) by omega, ← List.range'_append_1, show n + (m - n) = m by omega]
  rw [applied, hrange, List.filter_append, List.map_append]
  rfl

theorem applied_cons {n m : Nat} (h : n < m) : applied env t f valid values n m =
    (if evaluate env t f valid n = .true then [values n] else []) ++ applied env t f valid values (n + 1) m := by
  rw [applied_append (Nat.le_succ n) (by omega)]
  congr 1
  unfold applied
  rw [show n + 1 - n = 1 by omega, List.range'_one]
  by_cases htrue : evaluate env t f valid n = .true <;> simp [htrue]

theorem applied_congr {n m : Nat} (h : ∀ j, n ≤ j → j < m → values' j = values j) :
    applied env t f valid values' n m = applied env t f valid values n m := by
  apply List.map_congr_left
  intro j hj
  have hmem := List.mem_range'_1.mp (List.mem_of_mem_filter hj)
  exact h j hmem.1 (by omega)

/-- **A branch holds when its block does, no branch before it has been taken, and its comparison holds.** -/
theorem evaluate_branch {n cur : Nat} {prev : CondResult} (hparent : (t.dc n).parent = some cur)
    (hprev : BlockHolds env t f valid cur → ((t.dc n).prev.map (evaluate env t f valid)).getD .false = prev) :
    (BlockHolds env t f valid cur → evaluate env t f valid n = elseResult prev (verdict env f valid (t.dc n))) ∧
      (¬ BlockHolds env t f valid cur → evaluate env t f valid n ≠ .true) := by
  rw [evaluate_eq]
  constructor
  · intro hcur
    have hblock : ((t.dc n).block.map (evaluate env t f valid)).getD .true = .true := by
      rw [DataConfig.block, hparent]
      rcases hcur with rfl | hcur
      · rfl
      · by_cases hz : cur = 0
        · subst hz
          rfl
        · simp [Option.filter, hz, hcur]
    rw [hblock, hprev hcur]
    cases prev <;> rfl
  · intro hcur
    obtain ⟨hz, hne⟩ := not_or.mp hcur
    have hblock : ((t.dc n).block.map (evaluate env t f valid)).getD .true = evaluate env t f valid cur := by
      rw [DataConfig.block, hparent]
      simp [Option.filter, hz]
    rw [hblock]
    cases hres : evaluate env t f valid cur with
    | unset => simp [combine]
    | skip => simp [combine]
    | false => simp [combine]
    | true => exact absurd hres hne

/-! ## The parser keeps the meaning -/

/-- The server has the contexts of a part of the configuration. -/
def Inherits (st st' : ConfigT V) (t : Tree) : Prop :=
  ∀ j, st.dcs.length ≤ j → j < st'.dcs.length → SameTest (dcOf st'.dcs j) (t.dc j)

/-- A part of the configuration has been parsed, with this meaning. -/
structure Means (env : Env) (f : Fields) (valid : Comp → Bool) (st st' : ConfigT V) (r : Scope V × List (Table V)) :
    Prop where
  scope : Within st'.dcs st'.values st.current r.1
  applied : ∀ t, Inherits st st' t → Config.applied env t f valid st'.values st.dcs.length st'.dcs.length =
    if BlockHolds env t f valid st.current then r.2 else []

/-- A chain has been parsed; what its last branch comes to is known when the block is looked at. -/
structure ChainMeans (env : Env) (f : Fields) (valid : Comp → Bool) (st : ConfigT V) (p : Nat × ConfigT V)
    (r : CondResult × Scope V × List (Table V)) : Prop where
  scope : Within p.2.dcs p.2.values st.current r.2.1
  applied : ∀ t, Inherits st p.2 t → Config.applied env t f valid p.2.values st.dcs.length p.2.dcs.length =
    if BlockHolds env t f valid st.current then r.2.2 else []
  result : ∀ t, Inherits st p.2 t → BlockHolds env t f valid st.current → evaluate env t f valid p.1 = r.1

/-- A branch has been parsed behind one with the result `prev`. -/
structure BranchMeans (env : Env) (f : Fields) (valid : Comp → Bool) (st : ConfigT V) (prev : CondResult)
    (p : Nat × ConfigT V) (r : CondResult × Scope V × List (Table V)) : Prop where
  first : p.1 = st.dcs.length
  scope : Within p.2.dcs p.2.values st.current r.2.1
  meaning : ∀ t, (∀ j, st.dcs.length < j → j < p.2.dcs.length → SameTest (dcOf p.2.dcs j) (t.dc j)) →
    SameTest { dcOf p.2.dcs p.1 with prev := (t.dc p.1).prev } (t.dc p.1) →
    (BlockHolds env t f valid st.current → ((t.dc p.1).prev.map (evaluate env t f valid)).getD .false = prev) →
    Config.applied env t f valid p.2.values st.dcs.length p.2.dcs.length =
      (if BlockHolds env t f valid st.current then r.2.2 else []) ∧
      (BlockHolds env t f valid st.current → evaluate env t f valid p.1 = r.1)

variable {st st' : ConfigT V} {ks : List Bytes}

/-- A block starts without variables. -/
theorem opened_within {key : Bytes} {dc : DataConfig} (hok : Ok st) (hs : Within st.dcs st.values st.current s) :
    Within (st.opened key dc).dcs (st.opened key dc).values st.dcs.length ⟨[] :: s.blocks, s.global⟩ := by
  have hcurrent := hok.current
  have houter : Within (st.opened key dc).dcs (st.opened key dc).values st.current
      ⟨s.blocks, (st.opened key dc).values 0⟩ :=
    hs.congr hok.linked (fun j hj => (opened_same hok (by omega)).parent) fun j hj _ =>
      Function.update_of_ne (by omega) _ _
  have hin := Within.block (i := st.dcs.length) (by omega) (by rw [opened_dc hok]) houter
  have hown : (st.opened key dc).values st.dcs.length = [] := Function.update_self _ _ _
  have hzero : (st.opened key dc).values 0 = st.values 0 := Function.update_of_ne (by omega) _ _
  rwa [hown, hzero, ← hs.global_eq] at hin

theorem branch_means {block : ConfigT V → Option (ConfigT V)} {mean : Scope V → Option (Scope V × List (Table V))}
    {c : Cond} (hok : Ok st) (hfresh : st.Fresh (contextKey st.key c :: ks)) (hs : Within st.dcs st.values st.current s)
    (hblock : ∀ st₁ st₂, Ok st₁ → st₁.key = contextKey st.key c → st₁.Fresh ks → block st₁ = some st₂ → Grown st₁ st₂ ks)
    (hmean : ∀ st₁ s₁, Ok st₁ → st₁.key = contextKey st.key c → st₁.Fresh ks →
      Within st₁.dcs st₁.values st₁.current s₁ → Option.Rel (Means env f valid st₁) (block st₁) (mean s₁))
    (prev : CondResult) : Option.Rel (BranchMeans env f valid st prev) (st.condline a block c)
      (meanBranch a (verdict env f valid) mean prev c s) := by
  have hcurrent := hok.current
  rw [meanBranch, condline, context_fresh hok hfresh]
  cases hprep : a.prepare c with
  | none => exact .none
  | some r =>
    rw [Option.map_some, Option.bind_some, Option.bind_some]
    have hopened : Ok (st.opened (contextKey st.key c) (dataConfig c r)) := opened_ok hok ⟨rfl, rfl, rfl⟩
    have hdc := @opened_dc V (dataConfig c r) st (contextKey st.key c) hok
    have hlen : (st.opened (contextKey st.key c) (dataConfig c r)).dcs.length = st.dcs.length + 1 := length_addContext
    have hfresh' : (st.opened (contextKey st.key c) (dataConfig c r)).Fresh ks := by
      unfold Fresh at hfresh ⊢
      rw [opened, List.append_assoc]
      exact hfresh
    have hcur : (st.opened (contextKey st.key c) (dataConfig c r)).current = st.dcs.length := rfl
    have hrel := hmean _ _ hopened (opened_key hok) hfresh' (opened_within hok hs)
    have hgrown := fun inner => hblock _ inner hopened (opened_key hok) hfresh'
    generalize hst₁ : st.opened (contextKey st.key c) (dataConfig c r) = st₁ at *
    have hstack : st₁.configsStack = st.current :: st.configsStack := by rw [← hst₁]; rfl
    cases hb : block st₁ with
    | none =>
      rw [hb] at hrel
      cases hm : mean ⟨[] :: s.blocks, s.global⟩ with
      | none => exact .none
      | some m =>
        rw [hm] at hrel
        cases hrel
    | some inner =>
      rw [hb] at hrel
      obtain ⟨⟨s', ts⟩, hm, hmeans⟩ := OptionRel.of_some hrel rfl
      have hin := hgrown inner hb
      have hinlen := hin.length hopened
      have hpop : inner.pop = some { inner with configsStack := st.configsStack, current := st.current } := by
        rw [pop, hin.stack, hstack]
      rw [hm, Option.bind_some, Option.map_some, hpop]
      have hin_dc := hin.same st.dcs.length (by omega)
      have hin_scope := hmeans.scope
      rw [hcur] at hin_scope
      refine .some ⟨by rw [hin.current, hcur], ?_, fun t hsame htest hprev => ?_⟩
      · -- the variables of the block are the first of the scope
        show Within inner.dcs inner.values st.current { s' with blocks := s'.blocks.tail }
        obtain ⟨p, s₀, hp, rfl, h₀⟩ := hin_scope.inv (by omega)
        rw [hin_dc.parent, hdc] at hp
        obtain rfl := Option.some.inj hp
        exact h₀
      · have hn : inner.current = st.dcs.length := by rw [hin.current, hcur]
        dsimp only at hsame htest hprev ⊢
        rw [hn] at htest hprev ⊢
        have hparent : (t.dc st.dcs.length).parent = some st.current := by
          rw [htest.parent]
          show (dcOf inner.dcs st.dcs.length).parent = _
          rw [hin_dc.parent, hdc]
        have hverdict : verdict env f valid (t.dc st.dcs.length) = verdict env f valid (dataConfig c r) := by
          refine verdict_congr ?_ ?_ ?_
          · rw [htest.comp]
            show (dcOf inner.dcs st.dcs.length).comp = _
            rw [hin_dc.comp, hdc]
          · rw [htest.cond]
            show (dcOf inner.dcs st.dcs.length).cond = _
            rw [hin_dc.cond, hdc]
          · rw [htest.string]
            show (dcOf inner.dcs st.dcs.length).string = _
            rw [hin_dc.string, hdc]
        obtain ⟨hyes, hno⟩ := evaluate_branch hparent hprev
        rw [hverdict] at hyes
        have hinner := hmeans.applied t fun j hj hj' => hsame j (by omega) hj'
        rw [hcur, hlen] at hinner
        have hown : s'.own = inner.values st.dcs.length := hin_scope.own
        refine ⟨?_, hyes⟩
        have hlt : st.dcs.length < inner.dcs.length := by omega
        rw [applied_cons hlt, hinner, ← hown]
        have hholds : BlockHolds env t f valid st.dcs.length ↔ evaluate env t f valid st.dcs.length = .true :=
          or_iff_right (by omega)
        rw [if_congr hholds rfl rfl]
        by_cases hcurr : BlockHolds env t f valid st.current
        · rw [if_pos hcurr, ← hyes hcurr]
          by_cases htrue : evaluate env t f valid st.dcs.length = .true
          · rw [if_pos htrue, if_pos htrue, if_pos htrue]
            rfl
          · rw [if_neg htrue, if_neg htrue, if_neg htrue]
            rfl
        · rw [if_neg hcurr, if_neg (hno hcurr), if_neg (hno hcurr)]
          rfl

theorem varlines_within {vs : List (Varline V)} (h : Within st.dcs st.values st.current s) (hlinked : WellLinked st.dcs) :
    Option.Rel (fun st' s' => Within st'.dcs st'.values st'.current s') (vs.foldlM (ConfigT.varline a) st)
      (vs.foldlM (Scope.varline a) s) := by
  induction vs generalizing st s with
  | nil => exact .some h
  | cons v vs ih =>
    rw [List.foldlM_cons, List.foldlM_cons]
    refine OptionRel.bind (OptionRel.with_left (varline_within h hlinked v)) fun st₁ s₁ ⟨hst, hin⟩ => ?_
    obtain ⟨vars, -, rfl⟩ := varline_some hst
    exact ih hin hlinked

/-- A branch without one before it is a chain. -/
theorem first_means {p : Nat × ConfigT V} {r : CondResult × Scope V × List (Table V)}
    (h : BranchMeans env f valid st .false p r) (hlt : st.dcs.length < p.2.dcs.length)
    (hprev : (dcOf p.2.dcs st.dcs.length).prev = none) : ChainMeans env f valid st p r := by
  have hmeaning : ∀ t, Inherits st p.2 t →
      Config.applied env t f valid p.2.values st.dcs.length p.2.dcs.length =
        (if BlockHolds env t f valid st.current then r.2.2 else []) ∧
        (BlockHolds env t f valid st.current → evaluate env t f valid p.1 = r.1) := by
    intro t ht
    have htest := ht st.dcs.length (Nat.le_refl _) hlt
    refine h.meaning t (fun j hj hj' => ht j (by omega) hj') ?_ fun _ => ?_ <;> rw [h.first]
    · exact ⟨htest.comp, htest.cond, htest.string, htest.parent, rfl⟩
    · rw [htest.prev, hprev]
      rfl
  exact ⟨h.scope, fun t ht => (hmeaning t ht).1, fun t ht => (hmeaning t ht).2⟩

/-- **A chain goes on with `else`.** -/
theorem else_means {st₁ st₂ : ConfigT V} {ks₁ ks₂ : List Bytes} {b : Nat} {prev result : CondResult} {s₁ s₂ : Scope V}
    {ts₁ ts₂ : List (Table V)} (hok : Ok st) (hgrown : st.Grown st₁ ks₁) (hgrown₂ : st₁.Grown st₂ ks₂)
    (h₁ : ChainMeans env f valid st (b, st₁) (prev, s₁, ts₁)) (hb : b < st₁.dcs.length)
    (h₂ : BranchMeans env f valid st₁ prev (st₁.dcs.length, st₂) (result, s₂, ts₂)) (hlt : st₁.dcs.length < st₂.dcs.length) :
    ChainMeans env f valid st (st₁.dcs.length, { st₂ with dcs := linkElse st₂.dcs b st₁.dcs.length })
      (result, s₂, ts₁ ++ ts₂) := by
  have hlen := hgrown.length hok
  have hlength : (linkElse st₂.dcs b st₁.dcs.length).length = st₂.dcs.length := length_linkElse
  have htest : ∀ j, j ≠ st₁.dcs.length → SameTest (dcOf st₂.dcs j) (dcOf (linkElse st₂.dcs b st₁.dcs.length) j) :=
    fun j hj => linkElse_test (by omega) (by omega) hj
  have hnew : dcOf (linkElse st₂.dcs b st₁.dcs.length) st₁.dcs.length =
      { dcOf st₂.dcs st₁.dcs.length with prev := some b } := by
    rw [dcOf_linkElse (by omega) (by omega), if_neg (by omega), if_pos rfl]
  have hscope₂ := h₂.scope
  rw [hgrown.current] at hscope₂
  have hmeaning : ∀ t, Inherits st { st₂ with dcs := linkElse st₂.dcs b st₁.dcs.length } t →
      Config.applied env t f valid st₂.values st.dcs.length st₂.dcs.length =
        (if BlockHolds env t f valid st.current then ts₁ ++ ts₂ else []) ∧
        (BlockHolds env t f valid st.current → evaluate env t f valid st₁.dcs.length = result) := by
    intro t ht
    have hthere : ∀ j, st.dcs.length ≤ j → j < st₂.dcs.length →
        SameTest (dcOf (linkElse st₂.dcs b st₁.dcs.length) j) (t.dc j) :=
      fun j hj hj' => ht j hj (by rw [hlength]; exact hj')
    have ht₁ : Inherits st st₁ t := fun j hj hj' =>
      ((hgrown₂.same j hj').test.trans (htest j (by omega))).trans (hthere j hj (by omega))
    have hbranch : SameTest { dcOf st₂.dcs st₁.dcs.length with prev := some b } (t.dc st₁.dcs.length) := by
      rw [← hnew]
      exact hthere _ (by omega) (by omega)
    have hprev : (t.dc st₁.dcs.length).prev = some b := hbranch.prev
    obtain ⟨happ, hres⟩ := h₂.meaning t
      (fun j hj hj' => (htest j (by omega)).trans (hthere j (by omega) hj'))
      ⟨hbranch.comp, hbranch.cond, hbranch.string, hbranch.parent, rfl⟩
      (fun hcur => by
        rw [hgrown.current] at hcur
        rw [hprev]
        exact h₁.result t ht₁ hcur)
    rw [hgrown.current] at happ hres
    refine ⟨?_, hres⟩
    have hvalues : ∀ j, st.dcs.length ≤ j → j < st₁.dcs.length → st₂.values j = st₁.values j :=
      fun j hj hj' => hgrown₂.values_new hgrown hok hj hj'
    have happ₁ := h₁.applied t ht₁
    dsimp only at happ happ₁
    rw [applied_append (show _ ≤ st₁.dcs.length by omega) hlt.le, applied_congr hvalues, happ₁, happ]
    split_ifs <;> simp
  refine ⟨?_, fun t ht => ?_, fun t ht => (hmeaning t ht).2⟩
  · have hcongr : Within (linkElse st₂.dcs b st₁.dcs.length) st₂.values st.current ⟨s₂.blocks, st₂.values 0⟩ := by
      refine hscope₂.congr hgrown₂.ok.linked (fun j _ => ?_) fun _ _ _ => rfl
      by_cases hj : j = st₁.dcs.length
      · rw [hj, hnew]
      · exact (htest j hj).parent
    rwa [← hscope₂.global_eq] at hcongr
  · rw [← (hmeaning t ht).1, hlength]

mutual

/-- **The lines of a block.** -/
theorem parse_means {st : ConfigT V} {s : Scope V} (ls : Metalines V) (hok : Ok st) (hfresh : st.Fresh (ls.keys st.key))
    (hs : Within st.dcs st.values st.current s) :
    Option.Rel (Means env f valid st) (ls.parse a st) (ls.mean a (verdict env f valid) s) := by
  cases ls with
  | nil => exact .some ⟨hs, fun t _ => by rw [applied_self, ite_self]⟩
  | snoc ls l =>
    refine OptionRel.bind (OptionRel.with_left (parse_means ls hok hfresh.left hs)) fun st₁ ⟨s₁, ts₁⟩ ⟨hls, h₁⟩ => ?_
    have hgrown := parse_grown ls hok hfresh.left hls
    have hkey := hgrown.key hok
    have hfresh₁ : st₁.Fresh (l.keys st₁.key) := by
      rw [hkey]
      exact hfresh.right hgrown
    have hscope := h₁.scope
    rw [← hgrown.current] at hscope
    refine OptionRel.map_right (OptionRel.with_left (metaline_means l hgrown.ok hfresh₁ hscope))
      fun st₂ ⟨s₂, ts₂⟩ ⟨hl, h₂⟩ => ?_
    have hgrown₂ := metaline_grown l hgrown.ok hfresh₁ hl
    have hlen := hgrown.length hok
    have hlen₂ := hgrown₂.length hgrown.ok
    have hscope₂ := h₂.scope
    rw [hgrown.current] at hscope₂
    refine ⟨hscope₂, fun t ht => ?_⟩
    have ht₁ : Inherits st st₁ t := fun j hj hj' => (hgrown₂.same j hj').test.trans (ht j hj (by omega))
    have ht₂ : Inherits st₁ st₂ t := fun j hj hj' => ht j (by omega) hj'
    have happ₂ := h₂.applied t ht₂
    rw [hgrown.current] at happ₂
    have hle : st.dcs.length ≤ st₁.dcs.length := by omega
    have hle₂ : st₁.dcs.length ≤ st₂.dcs.length := by omega
    rw [applied_append hle hle₂, applied_congr fun j hj hj' => hgrown₂.values_new hgrown hok hj hj', h₁.applied t ht₁, happ₂]
    split_ifs <;> simp

theorem metaline_means {st : ConfigT V} {s : Scope V} (l : Metaline V) (hok : Ok st) (hfresh : st.Fresh (l.keys st.key))
    (hs : Within st.dcs st.values st.current s) :
    Option.Rel (Means env f valid st) (l.parse a st) (l.mean a (verdict env f valid) s) := by
  cases l with
  | varline v =>
    rw [Metaline.parse, Metaline.mean]
    refine OptionRel.map_right (OptionRel.with_left (varline_within hs hok.linked v)) fun st₁ s₁ ⟨hst, hin⟩ => ?_
    obtain ⟨vars, -, rfl⟩ := varline_some hst
    refine ⟨hin, fun t _ => ?_⟩
    rw [ite_self]
    exact applied_self _
  | global vs =>
    rw [Metaline.parse, Metaline.mean, push_of_ok hok, Option.bind_some, hs.global_eq]
    have hvs : Option.Rel (fun st' s' => Within st'.dcs st'.values st'.current s')
        (vs.foldlM (ConfigT.varline a) { st with configsStack := st.current :: st.configsStack, current := 0 })
        (vs.foldlM (Scope.varline a) ⟨[], st.values 0⟩) := varlines_within .global hok.linked
    generalize hrun : vs.foldlM (ConfigT.varline a) _ = x at hvs ⊢
    generalize vs.foldlM (Scope.varline a) _ = y at hvs ⊢
    cases hvs with
    | none => exact .none
    | @some st₁ g hg =>
      obtain ⟨vars, rfl⟩ := varlines_some hrun
      rw [Option.bind_some, Option.map_some]
      refine .some ⟨?_, fun t _ => ?_⟩
      · rw [hg.global_eq]
        exact hs.congr hok.linked (fun _ _ => rfl) fun j _ hne => Function.update_of_ne hne _ _
      · rw [ite_self]
        exact applied_self _
  | condlines cs =>
    rw [Metaline.parse, Metaline.mean]
    exact OptionRel.map (condlines_means cs hok hfresh hs) fun p r h => ⟨h.scope, h.applied⟩

theorem condlines_means {st : ConfigT V} {s : Scope V} (cs : Condlines V) (hok : Ok st) (hfresh : st.Fresh (cs.keys st.key))
    (hs : Within st.dcs st.values st.current s) :
    Option.Rel (ChainMeans env f valid st) (cs.parse a st) (cs.mean a (verdict env f valid) s) := by
  cases cs with
  | condline c ls =>
    have hbranch : Option.Rel (BranchMeans env f valid st .false) (st.condline a (ls.parse a) c)
        (meanBranch a (verdict env f valid) (ls.mean a (verdict env f valid)) .false c s) :=
      branch_means hok hfresh hs (block_grown ls)
        (fun st₁ s₁ hok₁ hkey hfresh₁ hs₁ => by
          rw [← hkey] at hfresh₁
          exact parse_means ls hok₁ hfresh₁ hs₁) .false
    refine OptionRel.mono (OptionRel.with_left hbranch) fun ⟨m, st'⟩ r ⟨hparse, h⟩ => ?_
    obtain ⟨rfl, _, _, hparsed⟩ := condline_branch hok hfresh (block_grown ls) hparse
    have hlen := hparsed.grown.length hok
    rw [List.length_cons] at hlen
    have hlt : st.dcs.length < st'.dcs.length := by omega
    exact first_means h hlt hparsed.context.prev
  | elseline cs c ls =>
    refine OptionRel.bind (OptionRel.with_left (condlines_means cs hok hfresh.left hs))
      fun ⟨b, st₁⟩ ⟨prev, s₁, ts₁⟩ ⟨hcs, h₁⟩ => ?_
    obtain ⟨hgrown, -, hb', -, -⟩ := condlines_grown cs hok hfresh.left hcs
    have hkey := hgrown.key hok
    have hfresh₁ : st₁.Fresh (contextKey st₁.key c :: ls.keys (contextKey st₁.key c)) := by
      rw [hkey]
      exact hfresh.right hgrown
    have hscope := h₁.scope
    rw [← hgrown.current] at hscope
    have hbranch : Option.Rel (BranchMeans env f valid st₁ prev) (st₁.condline a (ls.parse a) c)
        (meanBranch a (verdict env f valid) (ls.mean a (verdict env f valid)) prev c s₁) :=
      branch_means hgrown.ok hfresh₁ hscope (block_grown ls)
        (fun st₁ s₁ hok₁ hkey hfresh₁ hs₁ => by
          rw [← hkey] at hfresh₁
          exact parse_means ls hok₁ hfresh₁ hs₁) prev
    refine OptionRel.bind_map (OptionRel.with_left hbranch) fun ⟨m, st₂⟩ ⟨result, s₂, ts₂⟩ ⟨hparse, h₂⟩ => ?_
    obtain ⟨rfl, _, _, hparsed⟩ := condline_branch hgrown.ok hfresh₁ (block_grown ls) hparse
    have hlen₂ := hparsed.grown.length hgrown.ok
    rw [List.length_cons] at hlen₂
    have hlink : st₂.link b st₁.dcs.length =
        some (st₁.dcs.length, { st₂ with dcs := linkElse st₂.dcs b st₁.dcs.length }) := if_neg (by omega)
    show Option.Rel (ChainMeans env f valid st) (st₂.link b st₁.dcs.length) (some (result, s₂, ts₁ ++ ts₂))
    rw [hlink]
    exact .some (else_means hok hgrown hparsed.grown h₁ hb' h₂ (by omega))

end

/-! ## The loop over the contexts -/

theorem init_ok (vars : Table V) : Ok (.init vars) := by
  refine ⟨⟨fun i hi p hp => ?_, fun i hi c hc => ?_, fun i hi p hp => ?_, fun i hi n hn => ?_⟩, rfl, Nat.one_pos, fun _ => rfl⟩
  all_goals
    obtain rfl := Nat.lt_one_iff.mp hi
    contradiction

/-- What a loop over all contexts has seen of those before this one. -/
def SeenBelow (env : Env) (t : Tree) (con : Con) (i : Nat) : Prop :=
  ∀ j, 0 < j → j < i → evaluate env t con.fields con.valid j ≠ .unset → Cached con.caches j

theorem dependsOn_le {k : Nat} (h : DependsOn t i k) : k ≤ i := by
  induction h with
  | refl => exact Nat.le_refl i
  | tail _ hlink ih =>
    rcases hlink with hlink | hlink
    · exact Nat.le_trans (Nat.le_of_lt (parent_spec hlink).1) ih
    · exact Nat.le_trans (Nat.le_of_lt (prev_spec hlink).1) ih

/-- In the order of the contexts every branch comes after the one before it. -/
theorem SeenBelow.inOrder {con : Con} (h : SeenBelow env t con i) : InOrder env t con i := by
  intro k p q hk hp hq hfails
  obtain ⟨hpk, -, hparent⟩ := prev_spec hp
  have hki := dependsOn_le hk
  have hqk := block_eq_some hq
  have hqp : (t.dc p).parent = some q := by rw [hparent, hqk]
  have hlt := (parent_spec hqp).1
  have hblock : (t.dc p).block = some q := by
    rw [DataConfig.block, hparent]
    exact hq
  have hskip : evaluate env t con.fields con.valid p = .skip := by
    rw [evaluate_eq, hblock]
    rcases hfails with hfails | hfails <;> simp [hfails, combine]
  exact Or.inl (h p (by omega) (by omega) (by simp [hskip]))

/-- `PATCH` with the variables of the contexts that apply. -/
def patchAll (defaults : Bytes → V) (ts : List (Table V)) (conf : Bytes → V) : Bytes → V :=
  ts.foldl (fun conf vars => patch (storage defaults vars) vars conf) conf

theorem patchLoop_applied {con : Con} (h : Agrees env t con) (hseen : SeenBelow env t con i) (hi : 0 < i) (n : Nat)
    (defaults conf : Bytes → V) : (patchLoop env t values defaults n i con conf).1 =
      patchAll defaults (applied env t con.fields con.valid values i (i + n)) conf := by
  induction n generalizing i con conf with
  | zero => rw [Nat.add_zero, applied_self]; rfl
  | succ n ih =>
    have hchecked := cached_agrees (Nat.lt_succ_self i) h hseen.inOrder
    unfold patchLoop configCheckCond
    generalize configCheckCondCached env t (i + 1) con i = o at hchecked ⊢
    obtain ⟨r, con'⟩ := o
    obtain ⟨hresult, hagrees, hframe, -, hcached⟩ := hchecked
    dsimp only at hresult hagrees hframe hcached ⊢
    have hseen' : SeenBelow env t con' (i + 1) := by
      intro j hj hj' hne
      rw [hframe.fields, hframe.valid] at hne
      by_cases hji : j = i
      · subst hji
        have hr : r ≠ .unset := by rwa [hresult]
        show (con'.caches j).result ≠ .unset
        rw [hcached hr]
        exact hr
      · exact hframe.cached (hseen j hj (by omega) hne)
    rw [ih hagrees hseen' (Nat.succ_pos i), hframe.fields, hframe.valid, applied_cons (show i < i + (n + 1) by omega),
      show i + 1 + n = i + (n + 1) by omega, ← hresult]
    cases r <;> rfl

theorem patch_apply (storage : Bytes → V) (vars : Table V) (conf : Bytes → V) (key : Bytes) :
    patch storage vars conf key = if vars.any (fun e => e.1 == key) then storage key else conf key := by
  unfold patch
  induction vars generalizing conf with
  | nil => rfl
  | cons e vars ih =>
    rw [List.foldl_cons, ih, List.any_cons]
    by_cases he : e.1 = key
    · subst he
      simp
    · have hbeq : (e.1 == key) = false := beq_false_of_ne he
      rw [hbeq, Bool.false_or, Function.update_of_ne (Ne.symm he)]

theorem patch_storage (defaults : Bytes → V) (vars : Table V) (conf : Bytes → V) (key : Bytes) :
    patch (storage defaults vars) vars conf key = (vars.patches key).getD (conf key) := by
  rw [patch_apply, Table.patches]
  split_ifs with hany
  · obtain ⟨e, he, hkey⟩ := List.any_eq_true.mp hany
    have hsome : (vars.get key).isSome := by
      rw [Table.get, Option.isSome_map, List.find?_isSome]
      exact ⟨e, he, by rw [beq_iff_eq.mp hkey]; exact beq_self_eq_true _⟩
    obtain ⟨v, hv⟩ := Option.isSome_iff_exists.mp hsome
    rw [storage, hv]
    rfl
  · rfl

theorem patchAll_apply (defaults : Bytes → V) (ts : List (Table V)) (conf : Bytes → V) (key : Bytes) :
    patchAll defaults ts conf key = (ts.reverse.findSome? fun vars => vars.patches key).getD (conf key) := by
  unfold patchAll
  induction ts using List.reverseRecOn with
  | nil => rfl
  | append_singleton ts vars ih =>
    rw [List.foldl_append, List.foldl_cons, List.foldl_nil, patch_storage, ih, List.reverse_append]
    cases hvars : vars.patches key <;> simp [hvars]

/-- **The options of a request are those of the blocks that apply to it**, in every configuration in which no block is
opened twice: the last one that sets an option counts, and the global block when there is none. The parser rejects what
has no meaning. -/
theorem patchConnection_meaning {ls : Metalines V}
    (hfresh : ((ascii "global" :: ls.keys (ascii "global")).map foldKey).Nodup) (a : Actions V) (env : Env) (vars : Table V) :
    (∀ f valid, ls.parse a (.init vars) = none ↔ ls.mean a (verdict env f valid) ⟨[], vars⟩ = none) ∧
      ∀ st, ls.parse a (.init vars) = some st → ∃ t : Tree, t.dcs = st.dcs ∧ ∀ con, Agrees env t con →
        ∃ s ts, ls.mean a (verdict env con.fields con.valid) ⟨[], vars⟩ = some (s, ts) ∧ ∀ defaults key,
          (patchConnection env t st.values defaults con).1 key =
            (ts.reverse.findSome? fun vars => vars.patches key).getD ((s.global.get key).getD (defaults key)) := by
  have hok := init_ok vars
  have hrel : ∀ f valid, Option.Rel (Means env f valid (.init vars)) (ls.parse a (.init vars))
      (ls.mean a (verdict env f valid) ⟨[], vars⟩) := fun f valid => parse_means ls hok hfresh .global
  constructor
  · intro f valid
    exact OptionRel.eq_none_iff (hrel f valid)
  · intro st hst
    have hgrown := parse_grown ls hok hfresh hst
    refine ⟨⟨st.dcs, hgrown.ok.linked⟩, rfl, fun con hagrees => ?_⟩
    have hcon := hrel con.fields con.valid
    rw [hst] at hcon
    obtain ⟨⟨s, ts⟩, hmean, hmeans⟩ := OptionRel.of_some hcon rfl
    refine ⟨s, ts, hmean, fun defaults key => ?_⟩
    have happ := hmeans.applied ⟨st.dcs, hgrown.ok.linked⟩ fun j _ _ => ⟨rfl, rfl, rfl, rfl, rfl⟩
    have hlen := hgrown.length hok
    have hone : (ConfigT.init vars).dcs.length = 1 := rfl
    have hroot : BlockHolds env ⟨st.dcs, hgrown.ok.linked⟩ con.fields con.valid (ConfigT.init vars).current := Or.inl rfl
    rw [if_pos hroot, hone] at happ
    have hused : 1 + (Tree.used ⟨st.dcs, hgrown.ok.linked⟩ - 1) = st.dcs.length := by
      show 1 + (st.dcs.length - 1) = st.dcs.length
      omega
    rw [patchConnection, patchLoop_applied hagrees (fun j hj hj' => by omega) Nat.one_pos, hused, happ, patchAll_apply,
      hmeans.scope.global_eq]
    rfl

/-- Numbers are added, and all conditions look at the host. -/
def sampleActions : Actions Nat := ⟨fun a b => some (a + b), fun c => some (.httpHost, Buffer.ofString c.rvalue)⟩

/-- `$h == "x" { o = 1 } else $h == "y" { o = 2  $h != "x" { o += 3 } }`. -/
def sampleLines : Metalines Nat :=
  .snoc .nil (.condlines (.elseline
    (.condline ⟨[], ascii "h", .eq, ascii "x"⟩ (.snoc .nil (.varline (.assign (ascii "o") 1))))
    ⟨[], ascii "h", .eq, ascii "y"⟩
    (.snoc (.snoc .nil (.varline (.assign (ascii "o") 2)))
      (.condlines (.condline ⟨[], ascii "h", .ne, ascii "x"⟩ (.snoc .nil (.varline (.append (ascii "o") 3))))))))

def sampleCon : Con := { Con.init sampleFields with valid := Function.update (fun _ => false) .httpHost true }

theorem patchConnection_meaning_sample : ∃ st, sampleLines.parse sampleActions (.init []) = some st ∧
    ∃ t : Tree, t.dcs = st.dcs ∧
      (patchConnection sampleEnv t st.values (fun _ => 0) sampleCon).1 (ascii "o") = 5 := by
  have hfresh : ((ascii "global" :: sampleLines.keys (ascii "global")).map foldKey).Nodup := by decide
  obtain ⟨-, hmeaning⟩ := patchConnection_meaning hfresh sampleActions sampleEnv []
  have hsome : (sampleLines.parse sampleActions (.init [])).isSome = true := by decide +kernel
  obtain ⟨st, hst⟩ := Option.isSome_iff_exists.mp hsome
  obtain ⟨t, ht, hcon⟩ := hmeaning st hst
  have hagrees : Agrees sampleEnv t sampleCon := setValid_agrees (agrees_init sampleFields) (Or.inl rfl)
  obtain ⟨s, ts, hmean, hpatch⟩ := hcon sampleCon hagrees
  have hmean' : sampleLines.mean sampleActions (verdict sampleEnv sampleCon.fields sampleCon.valid) ⟨[], []⟩ =
      some (⟨[], []⟩, [[(ascii "o", 2)], [(ascii "o", 5)]]) := by decide +kernel
  obtain ⟨rfl, rfl⟩ := Prod.mk.inj (Option.some.inj (hmean.symm.trans hmean'))
  exact ⟨st, hst, t, ht, hpatch (fun _ => 0) (ascii "o")⟩

end Lighttpd.Config
