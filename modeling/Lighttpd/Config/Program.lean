import Lighttpd.Array.Order
import Lighttpd.Config.Condition

/-!
# The blocks of the configuration (`configparser.y`)

The parser makes a flat list of contexts of the nested blocks: each block has a link to the one that it stands in, and an
`else` branch one to the branch before it. A block is looked up by its key, so the same comparison in the same block is
the same context again.

- `Metalines`: the language, as the grammar has it;
- `Metalines.parse`: the actions of the parser on `config_t`;
- `parse_grown`: what they leave as it was, and that the links are as `WellLinked` wants them.
-/

namespace Lighttpd.Config

/-! ## The language -/

/-- `$srvvarname["stringop"] op "rvalue"`. -/
structure Cond where
  srvvarname : Bytes
  stringop : Bytes
  op : ConfigCond
  rvalue : Bytes

inductive Varline (V : Type)
  | assign (key : Bytes) (value : V)
  | append (key : Bytes) (value : V)

mutual

inductive Metalines (V : Type)
  | nil
  | snoc (ls : Metalines V) (l : Metaline V)

/-- `metaline`. There are no conditionals in a `global` block. -/
inductive Metaline (V : Type)
  | varline (v : Varline V)
  | global (vs : List (Varline V))
  | condlines (cs : Condlines V)

inductive Condlines (V : Type)
  | condline (c : Cond) (ls : Metalines V)
  | elseline (cs : Condlines V) (c : Cond) (ls : Metalines V)

end

/-- The comparison as it stands in the key of a context. -/
def Cond.name (c : Cond) : Bytes :=
  let op := match c.op with
    | .unset => []
    | .ne => ascii "!="
    | .eq => ascii "=="
    | .noMatch => ascii "!~"
    | .isMatch => ascii "=~"
  c.srvvarname ++ c.stringop ++ op ++ c.rvalue

def contextKey (outer : Bytes) (c : Cond) : Bytes := outer ++ chr '/' :: c.name

mutual

def Metalines.keys {V : Type} (outer : Bytes) : Metalines V → List Bytes
  | .nil => []
  | .snoc ls l => ls.keys outer ++ l.keys outer

def Metaline.keys {V : Type} (outer : Bytes) : Metaline V → List Bytes
  | .varline _ => []
  | .global _ => []
  | .condlines cs => cs.keys outer

def Condlines.keys {V : Type} (outer : Bytes) : Condlines V → List Bytes
  | .condline c ls => contextKey outer c :: ls.keys (contextKey outer c)
  | .elseline cs c ls => cs.keys outer ++ contextKey outer c :: ls.keys (contextKey outer c)

end

/-! ## The parser -/

/-- The variables of a block, which `array_get_element` finds without regard to case. -/
abbrev Table (V : Type) : Type := List (Bytes × V)

/-- `array_get_element`. -/
def Table.get {V : Type} (t : Table V) (key : Bytes) : Option V :=
  (t.find? fun e => foldKey e.1 == foldKey key).map Prod.snd

/-- What `array_extract_element` leaves. -/
def Table.extract {V : Type} (t : Table V) (key : Bytes) : Table V := t.eraseP fun e => foldKey e.1 == foldKey key

/-- What the actions call: `configparser_merge_data`, and the preparation of a comparison, whose kind is looked up in
`comps`, whose value is normalised and whose expression is compiled. -/
structure Actions (V : Type) where
  mergeData : V → V → Option V
  prepare : Cond → Option (Comp × Buffer)

/-- `config_t`. The keys and the values of the contexts stand beside what is looked at when a condition is checked. -/
structure ConfigT (V : Type) where
  dcs : List DataConfig
  keys : List Bytes
  values : Nat → Table V
  current : Nat
  configsStack : List Nat

variable {V : Type}

/-- The loop of `configparser_get_variable`, which goes at most `n` links up. -/
def ConfigT.getVariable (st : ConfigT V) : Nat → Nat → Bytes → Option V
  | 0, _, _ => none
  | n + 1, i, key =>
    match (st.values i).get key with
    | some du => some du
    | none =>
      match (dcOf st.dcs i).parent with
      | none => none
      | some p => st.getVariable n p key

def Varline.put (a : Actions V) (getVariable : Bytes → Option V) (vars : Table V) : Varline V → Option (Table V)
  | .assign key b =>
    if (ascii "env.").isPrefixOf key then none
    else if (vars.get key).isNone then some (vars ++ [(key, b)])
    else none
  | .append key b =>
    if (ascii "env.").isPrefixOf key then none
    else
      match vars.get key with
      | some du => (a.mergeData du b).map fun du => vars.extract key ++ [(key, du)]
      | none =>
        match getVariable key with
        | some du => (a.mergeData du b).map fun du => vars ++ [(key, du)]
        | none => some (vars ++ [(key, b)])

namespace ConfigT

def setValue (st : ConfigT V) (i : Nat) (vars : Table V) : ConfigT V :=
  { st with values := Function.update st.values i vars }

def varline (a : Actions V) (st : ConfigT V) (v : Varline V) : Option (ConfigT V) :=
  (v.put a (st.getVariable (st.current + 1) st.current) (st.values st.current)).map (st.setValue st.current)

/-- `configparser_push` of a context that exists. -/
def push (st : ConfigT V) (i : Nat) : Option (ConfigT V) :=
  if st.configsStack ≠ [] ∧ st.current = 0 then none
  else some { st with configsStack := st.current :: st.configsStack, current := i }

def pop (st : ConfigT V) : Option (ConfigT V) :=
  match st.configsStack with
  | [] => none
  | i :: is => some { st with configsStack := is, current := i }

end ConfigT

def addContext (dcs : List DataConfig) (i : Nat) (dc : DataConfig) : List DataConfig :=
  dcs.set i { dcOf dcs i with children := (dcOf dcs i).children ++ [dcs.length] } ++ [{ dc with parent := some i }]

/-- `C->prev = B; B->next = C`. -/
def linkElse (dcs : List DataConfig) (b c : Nat) : List DataConfig :=
  (dcs.set c { dcOf dcs c with prev := some b }).set b { dcOf dcs b with next := some c }

namespace ConfigT

def context (a : Actions V) (st : ConfigT V) (c : Cond) : Option (ConfigT V) :=
  let key := contextKey (st.keys.getD st.current []) c
  match st.keys.findIdx? fun k => foldKey k == foldKey key with
  | some i => st.push i
  | none =>
    (a.prepare c).bind fun (comp, string) =>
      push { st with
        dcs := addContext st.dcs st.current { comp := comp, cond := c.op, string := string }
        keys := st.keys ++ [key]
        values := Function.update st.values st.dcs.length [] } st.dcs.length

def condline (a : Actions V) (block : ConfigT V → Option (ConfigT V)) (st : ConfigT V) (c : Cond) :
    Option (Nat × ConfigT V) :=
  (st.context a c).bind fun st => (block st).bind fun st => st.pop.map fun st' => (st.current, st')

def link (st : ConfigT V) (b c : Nat) : Option (Nat × ConfigT V) :=
  if b ≥ c then none else some (c, { st with dcs := linkElse st.dcs b c })

end ConfigT

mutual

def Metalines.parse (a : Actions V) : Metalines V → ConfigT V → Option (ConfigT V)
  | .nil, st => some st
  | .snoc ls l, st => (ls.parse a st).bind (l.parse a)

def Metaline.parse (a : Actions V) : Metaline V → ConfigT V → Option (ConfigT V)
  | .varline v, st => st.varline a v
  | .global vs, st => (st.push 0).bind fun st => (vs.foldlM (ConfigT.varline a) st).bind ConfigT.pop
  | .condlines cs, st => (cs.parse a st).map Prod.snd

/-- The actions of `condlines`, with the context of the last branch. -/
def Condlines.parse (a : Actions V) : Condlines V → ConfigT V → Option (Nat × ConfigT V)
  | .condline c ls, st => st.condline a (ls.parse a) c
  | .elseline cs c ls, st =>
    (cs.parse a st).bind fun (b, st) => (st.condline a (ls.parse a) c).bind fun (c, st) => st.link b c

end

/-- `config_read` has made the global block, with the variables of the process. -/
def ConfigT.init (vars : Table V) : ConfigT V := ⟨[{}], [ascii "global"], fun _ => vars, 0, []⟩

/-! ## The links -/

variable {dcs : List DataConfig} {dc : DataConfig} {i j b c : Nat}

theorem dcOf_of_le (h : dcs.length ≤ i) : dcOf dcs i = {} := by
  rw [dcOf, List.getD_eq_getElem?_getD, List.getElem?_eq_none h]
  rfl

theorem dcOf_set (h : i < dcs.length) : dcOf (dcs.set i dc) j = if j = i then dc else dcOf dcs j := by
  simp only [dcOf, List.getD_eq_getElem?_getD, List.getElem?_set]
  by_cases hj : i = j
  · subst hj
    simp [h]
  · simp [hj, Ne.symm hj]

theorem length_addContext : (addContext dcs i dc).length = dcs.length + 1 := by simp [addContext]

theorem length_linkElse : (linkElse dcs b c).length = dcs.length := by simp [linkElse]

theorem dcOf_addContext (h : i < dcs.length) : dcOf (addContext dcs i dc) j =
    if j = dcs.length then { dc with parent := some i }
    else if j = i then { dcOf dcs i with children := (dcOf dcs i).children ++ [dcs.length] }
    else dcOf dcs j := by
  rw [← dcOf_set h]
  simp only [addContext, dcOf, List.getD_eq_getElem?_getD, List.getElem?_append, List.length_set]
  by_cases hlt : j < dcs.length
  · rw [if_pos hlt, if_neg (by omega)]
  · rw [if_neg hlt]
    by_cases heq : j = dcs.length
    · simp [heq]
    · rw [if_neg heq, List.getElem?_eq_none (by simp; omega), List.getElem?_eq_none (by simp; omega)]

theorem dcOf_linkElse (hb : b < dcs.length) (hc : c < dcs.length) : dcOf (linkElse dcs b c) j =
    if j = b then { dcOf dcs b with next := some c }
    else if j = c then { dcOf dcs c with prev := some b }
    else dcOf dcs j := by
  rw [linkElse, dcOf_set (by simpa using hb), dcOf_set hc]

theorem WellLinked.addContext (h : WellLinked dcs) (hi : i < dcs.length)
    (hdc : dc.prev = none ∧ dc.next = none ∧ dc.children = []) : WellLinked (addContext dcs i dc) := by
  obtain ⟨hprev, hnext, hchildren⟩ := hdc
  have hlen : (Config.addContext dcs i dc).length = dcs.length + 1 := length_addContext
  -- what is looked at of a context that was there
  have hold : ∀ j, j < dcs.length → (dcOf (Config.addContext dcs i dc) j).parent = (dcOf dcs j).parent ∧
      (dcOf (Config.addContext dcs i dc) j).prev = (dcOf dcs j).prev ∧
      (dcOf (Config.addContext dcs i dc) j).next = (dcOf dcs j).next ∧
      ∀ k ∈ (dcOf dcs j).children, k ∈ (dcOf (Config.addContext dcs i dc) j).children := by
    intro j hj
    rw [dcOf_addContext hi, if_neg (by omega)]
    by_cases hji : j = i
    · subst hji
      simp +contextual
    · simp [hji]
  have hnew : dcOf (Config.addContext dcs i dc) dcs.length = { dc with parent := some i } := by
    rw [dcOf_addContext hi, if_pos rfl]
  have hchild : dcs.length ∈ (dcOf (Config.addContext dcs i dc) i).children := by
    rw [dcOf_addContext hi, if_neg (by omega), if_pos rfl]
    simp
  refine ⟨fun j hj p hp => ?_, fun j hj k hk => ?_, fun j hj p hp => ?_, fun j hj n hn => ?_⟩
  · by_cases hjn : j = dcs.length
    · subst hjn
      rw [hnew] at hp
      obtain rfl := Option.some.inj hp
      exact ⟨hi, hchild⟩
    · rw [(hold j (by omega)).1] at hp
      obtain ⟨hlt, hmem⟩ := h.parent j (by omega) p hp
      exact ⟨hlt, (hold p (by omega)).2.2.2 j hmem⟩
  · by_cases hjn : j = dcs.length
    · subst hjn
      rw [hnew] at hk
      simp [hchildren] at hk
    · by_cases hkn : k = dcs.length
      · subst hkn
        rw [hnew]
        rw [dcOf_addContext hi, if_neg hjn] at hk
        split at hk
        · rename_i hji
          rw [hji]
          rfl
        · have hpar := h.children j (by omega) dcs.length hk
          rw [dcOf_of_le (Nat.le_refl _)] at hpar
          cases hpar
      · have hk' : k ∈ (dcOf dcs j).children := by
          rw [dcOf_addContext hi, if_neg hjn] at hk
          split at hk
          · rename_i hji
            rw [hji]
            simpa [hkn] using hk
          · exact hk
        have hpar := h.children j (by omega) k hk'
        have hklt : k < dcs.length := by
          by_contra hge
          rw [dcOf_of_le (by omega)] at hpar
          cases hpar
        rw [(hold k hklt).1]
        exact hpar
  · by_cases hjn : j = dcs.length
    · subst hjn
      rw [hnew] at hp
      simp [hprev] at hp
    · rw [(hold j (by omega)).2.1] at hp
      obtain ⟨hlt, hmem, hpar⟩ := h.prev j (by omega) p hp
      rw [(hold p (by omega)).1, (hold j (by omega)).1, (hold p (by omega)).2.2.1]
      exact ⟨hlt, hmem, hpar⟩
  · by_cases hjn : j = dcs.length
    · subst hjn
      rw [hnew] at hn
      simp [hnext] at hn
    · rw [(hold j (by omega)).2.2.1] at hn
      have hmem := h.next j (by omega) n hn
      have hnlt : n < dcs.length := by
        by_contra hge
        rw [dcOf_of_le (by omega)] at hmem
        cases hmem
      rw [(hold n hnlt).2.1]
      exact hmem

theorem WellLinked.linkElse (h : WellLinked dcs) (hbc : b < c) (hc : c < dcs.length) (hnext : (dcOf dcs b).next = none)
    (hprev : (dcOf dcs c).prev = none) (hparent : (dcOf dcs b).parent = (dcOf dcs c).parent) :
    WellLinked (linkElse dcs b c) := by
  have hdc : ∀ j, dcOf (Config.linkElse dcs b c) j = if j = b then { dcOf dcs b with next := some c }
      else if j = c then { dcOf dcs c with prev := some b } else dcOf dcs j :=
    fun j => dcOf_linkElse (by omega) hc
  have hpar : ∀ j, (dcOf (Config.linkElse dcs b c) j).parent = (dcOf dcs j).parent ∧
      (dcOf (Config.linkElse dcs b c) j).children = (dcOf dcs j).children := by
    intro j
    rw [hdc]
    split_ifs with hj hj'
    · subst hj
      exact ⟨rfl, rfl⟩
    · subst hj'
      exact ⟨rfl, rfl⟩
    · exact ⟨rfl, rfl⟩
  have hpr : ∀ j, (dcOf (Config.linkElse dcs b c) j).prev = if j = c then some b else (dcOf dcs j).prev := by
    intro j
    rw [hdc]
    split_ifs with hj hj' hj'
    · omega
    · rw [hj]
    · rfl
    · rfl
  have hnx : ∀ j, (dcOf (Config.linkElse dcs b c) j).next = if j = b then some c else (dcOf dcs j).next := by
    intro j
    rw [hdc]
    split_ifs with hj hj'
    · rfl
    · rw [hj']
    · rfl
  have hlen : (Config.linkElse dcs b c).length = dcs.length := length_linkElse
  refine ⟨fun j hj p hp => ?_, fun j hj k hk => ?_, fun j hj p hp => ?_, fun j hj n hn => ?_⟩
  · rw [(hpar j).1] at hp
    rw [(hpar p).2]
    exact h.parent j (by omega) p hp
  · rw [(hpar j).2] at hk
    rw [(hpar k).1]
    exact h.children j (by omega) k hk
  · rw [hpr] at hp
    rw [hnx, (hpar p).1, (hpar j).1]
    by_cases hjc : j = c
    · rw [if_pos hjc] at hp
      obtain rfl := Option.some.inj hp
      rw [hjc, if_pos rfl]
      exact ⟨hbc, rfl, hparent⟩
    · rw [if_neg hjc] at hp
      obtain ⟨hlt, hmem, heq⟩ := h.prev j (by omega) p hp
      have hpb : p ≠ b := by
        rintro rfl
        rw [hnext] at hmem
        cases hmem
      rw [if_neg hpb]
      exact ⟨hlt, hmem, heq⟩
  · rw [hnx] at hn
    rw [hpr]
    by_cases hjb : j = b
    · rw [if_pos hjb] at hn
      obtain rfl := Option.some.inj hn
      rw [if_pos rfl, hjb]
      rfl
    · rw [if_neg hjb] at hn
      have hmem := h.next j (by omega) n hn
      have hnc : n ≠ c := by
        rintro rfl
        rw [hprev] at hmem
        cases hmem
      rw [if_neg hnc]
      exact hmem

/-! ## What the actions leave as it was -/

/-- What is looked at of a context is the same. There may be more blocks in it. -/
structure SameContext (dc dc' : DataConfig) : Prop where
  comp : dc'.comp = dc.comp
  cond : dc'.cond = dc.cond
  string : dc'.string = dc.string
  parent : dc'.parent = dc.parent
  prev : dc'.prev = dc.prev
  next : dc'.next = dc.next

theorem SameContext.refl (dc : DataConfig) : SameContext dc dc := ⟨rfl, rfl, rfl, rfl, rfl, rfl⟩

theorem SameContext.trans {dc₁ dc₂ dc₃ : DataConfig} (h : SameContext dc₁ dc₂) (h' : SameContext dc₂ dc₃) :
    SameContext dc₁ dc₃ :=
  ⟨h'.comp.trans h.comp, h'.cond.trans h.cond, h'.string.trans h.string, h'.parent.trans h.parent,
    h'.prev.trans h.prev, h'.next.trans h.next⟩

namespace ConfigT

/-- The parser is in one of its contexts. -/
structure Ok (st : ConfigT V) : Prop where
  linked : WellLinked st.dcs
  keys : st.keys.length = st.dcs.length
  current : st.current < st.dcs.length
  stack : st.current = 0 → st.configsStack = []

def key (st : ConfigT V) : Bytes := st.keys.getD st.current []

def Fresh (st : ConfigT V) (ks : List Bytes) : Prop := ((st.keys ++ ks).map foldKey).Nodup

/-- **More contexts, with these keys.** Of the others, the variables of the block and the global ones may change. -/
structure Grown (st st' : ConfigT V) (ks : List Bytes) : Prop where
  ok : Ok st'
  current : st'.current = st.current
  stack : st'.configsStack = st.configsStack
  keys : st'.keys = st.keys ++ ks
  same : ∀ j < st.dcs.length, SameContext (dcOf st.dcs j) (dcOf st'.dcs j)
  values : ∀ j < st.dcs.length, j ≠ st.current → j ≠ 0 → st'.values j = st.values j

variable {st st' st'' : ConfigT V} {a : Actions V} {ks ks' : List Bytes} {vars : Table V} {n : Nat}

theorem Grown.length (h : Grown st st' ks) (hok : Ok st) : st'.dcs.length = st.dcs.length + ks.length := by
  rw [← h.ok.keys, ← hok.keys, h.keys, List.length_append]

theorem Grown.key (h : Grown st st' ks) (hok : Ok st) : st'.key = st.key := by
  have hlt : st.current < st.keys.length := by
    rw [hok.keys]
    exact hok.current
  rw [ConfigT.key, ConfigT.key, h.current, h.keys, List.getD_eq_getElem?_getD, List.getD_eq_getElem?_getD,
    List.getElem?_append_left hlt]

theorem Grown.refl (hok : Ok st) : Grown st st [] :=
  ⟨hok, rfl, rfl, (List.append_nil _).symm, fun _ _ => .refl _, fun _ _ _ _ => rfl⟩

theorem Grown.trans (h : Grown st st' ks) (h' : Grown st' st'' ks') (hok : Ok st) : Grown st st'' (ks ++ ks') := by
  have hle := h.length hok
  refine ⟨h'.ok, h'.current.trans h.current, h'.stack.trans h.stack, ?_, fun j hj => ?_, fun j hj hne hne' => ?_⟩
  · rw [h'.keys, h.keys, List.append_assoc]
  · exact (h.same j hj).trans (h'.same j (by omega))
  · rw [h'.values j (by omega) (by rwa [h.current]) hne', h.values j hj hne hne']

theorem Grown.values_new (h' : Grown st' st'' ks') (h : Grown st st' ks) (hok : Ok st) {j : Nat} (hj : st.dcs.length ≤ j)
    (hj' : j < st'.dcs.length) : st''.values j = st'.values j := by
  have hcurrent := hok.current
  have hne : j ≠ st'.current := by
    rw [h.current]
    omega
  exact h'.values j hj' hne (by omega)

theorem Fresh.left (h : st.Fresh (ks ++ ks')) : st.Fresh ks := by
  unfold Fresh at h ⊢
  rw [← List.append_assoc, List.map_append] at h
  exact h.of_append_left

theorem Fresh.right (h : st.Fresh (ks ++ ks')) (hgrown : Grown st st' ks) : st'.Fresh ks' := by
  unfold Fresh at h ⊢
  rw [hgrown.keys, List.append_assoc]
  exact h

theorem setValue_grown (hok : Ok st) {i : Nat} (hi : i = st.current ∨ i = 0) (vars : Table V) :
    Grown st (st.setValue i vars) [] := by
  refine ⟨⟨hok.linked, hok.keys, hok.current, hok.stack⟩, rfl, rfl, (List.append_nil _).symm, fun _ _ => .refl _,
    fun j _ hne hne' => ?_⟩
  have hji : j ≠ i := by
    rintro rfl
    exact hi.elim hne hne'
  exact Function.update_of_ne hji _ _

theorem varline_some {v : Varline V} (h : st.varline a v = some st') : ∃ vars,
    v.put a (st.getVariable (st.current + 1) st.current) (st.values st.current) = some vars ∧
      st' = st.setValue st.current vars := by
  obtain ⟨vars, hput, heq⟩ := Option.map_eq_some_iff.mp h
  exact ⟨vars, hput, heq.symm⟩

theorem push_of_ok (hok : Ok st) (i : Nat) :
    st.push i = some { st with configsStack := st.current :: st.configsStack, current := i } :=
  if_neg fun h => h.1 (hok.stack h.2)

/-- The lines of a `global` block change its variables. -/
theorem varlines_some {vs : List (Varline V)} (h : vs.foldlM (varline a) st = some st') :
    ∃ vars, st' = st.setValue st.current vars := by
  induction vs generalizing st with
  | nil =>
    cases h
    exact ⟨st'.values st'.current, by rw [setValue, Function.update_eq_self]⟩
  | cons v vs ih =>
    rw [List.foldlM_cons] at h
    obtain ⟨st₁, hv, hvs⟩ := Option.bind_eq_some_iff.mp h
    obtain ⟨vars₁, -, rfl⟩ := varline_some hv
    obtain ⟨vars, rfl⟩ := ih hvs
    exact ⟨vars, by simp [setValue]⟩

def opened (st : ConfigT V) (key : Bytes) (dc : DataConfig) : ConfigT V :=
  ⟨addContext st.dcs st.current dc, st.keys ++ [key], Function.update st.values st.dcs.length [], st.dcs.length,
    st.current :: st.configsStack⟩

/-- What the parser knows of a comparison. -/
def dataConfig (c : Cond) (r : Comp × Buffer) : DataConfig := { comp := r.1, cond := c.op, string := r.2 }

theorem context_fresh (hok : Ok st) {c : Cond} (hfresh : st.Fresh (contextKey st.key c :: ks)) :
    st.context a c = (a.prepare c).map fun r => st.opened (contextKey st.key c) (dataConfig c r) := by
  have hnone : (st.keys.findIdx? fun k => foldKey k == foldKey (contextKey st.key c)) = none := by
    rw [List.findIdx?_eq_none_iff]
    intro k hk
    unfold Fresh at hfresh
    rw [List.map_append, List.nodup_append] at hfresh
    have hne := hfresh.2.2 (foldKey k) (List.mem_map_of_mem hk) (foldKey (contextKey st.key c)) (by simp)
    simpa using hne
  have hpush : ¬(st.configsStack ≠ [] ∧ st.current = 0) := fun h => h.1 (hok.stack h.2)
  unfold context
  dsimp only
  rw [← key, hnone]
  cases a.prepare c with
  | none => rfl
  | some r =>
    obtain ⟨comp, string⟩ := r
    exact if_neg hpush

variable {key : Bytes}

theorem opened_ok (hok : Ok st) (hdc : dc.prev = none ∧ dc.next = none ∧ dc.children = []) :
    Ok (st.opened key dc) := by
  have hlen : (addContext st.dcs st.current dc).length = st.dcs.length + 1 := length_addContext
  have hcurrent := hok.current
  refine ⟨hok.linked.addContext hok.current hdc, ?_, ?_, fun hzero => ?_⟩
  · simp [opened, hlen, hok.keys]
  · show st.dcs.length < (addContext st.dcs st.current dc).length
    omega
  · have hz : st.dcs.length = 0 := hzero
    omega

theorem opened_key (hok : Ok st) : (st.opened key dc).key = key := by
  simp [opened, ConfigT.key, ← hok.keys]

theorem opened_same (hok : Ok st) {j : Nat} (hj : j < st.dcs.length) :
    SameContext (dcOf st.dcs j) (dcOf (st.opened key dc).dcs j) := by
  have heq : dcOf (st.opened key dc).dcs j = if j = st.current then
      { dcOf st.dcs st.current with children := (dcOf st.dcs st.current).children ++ [st.dcs.length] }
      else dcOf st.dcs j := by
    rw [opened, dcOf_addContext hok.current, if_neg (by omega)]
  rw [heq]
  split_ifs with hcur
  · subst hcur
    exact ⟨rfl, rfl, rfl, rfl, rfl, rfl⟩
  · exact .refl _

theorem opened_dc (hok : Ok st) :
    dcOf (st.opened key dc).dcs st.dcs.length = { dc with parent := some st.current } := by
  rw [opened, dcOf_addContext hok.current, if_pos rfl]

/-- A branch has been parsed: its context is the first of the new ones. -/
structure Branch (a : Actions V) (block : ConfigT V → Option (ConfigT V)) (st : ConfigT V) (c : Cond) (ks : List Bytes)
    (st' : ConfigT V) (r : Comp × Buffer) (inner : ConfigT V) : Prop where
  prepared : a.prepare c = some r
  parsed : block (st.opened (contextKey st.key c) (dataConfig c r)) = some inner
  inside : Grown (st.opened (contextKey st.key c) (dataConfig c r)) inner ks
  result : st' = { inner with configsStack := st.configsStack, current := st.current }
  grown : Grown st st' (contextKey st.key c :: ks)
  context : SameContext { dataConfig c r with parent := some st.current } (dcOf st'.dcs st.dcs.length)

theorem condline_branch {block : ConfigT V → Option (ConfigT V)} {c : Cond} (hok : Ok st)
    (hfresh : st.Fresh (contextKey st.key c :: ks))
    (hblock : ∀ st₁ st₂, Ok st₁ → st₁.key = contextKey st.key c → st₁.Fresh ks → block st₁ = some st₂ → Grown st₁ st₂ ks)
    (h : st.condline a block c = some (n, st')) : n = st.dcs.length ∧ ∃ r inner, Branch a block st c ks st' r inner := by
  unfold condline at h
  rw [context_fresh hok hfresh] at h
  obtain ⟨st₁, hopen, h⟩ := Option.bind_eq_some_iff.mp h
  obtain ⟨r, hr, rfl⟩ := Option.map_eq_some_iff.mp hopen
  obtain ⟨inner, hinner, h⟩ := Option.bind_eq_some_iff.mp h
  obtain ⟨st₃, hpop, h⟩ := Option.map_eq_some_iff.mp h
  have hopened : Ok (st.opened (contextKey st.key c) (dataConfig c r)) := opened_ok hok ⟨rfl, rfl, rfl⟩
  have hfresh' : (st.opened (contextKey st.key c) (dataConfig c r)).Fresh ks := by
    unfold Fresh at hfresh ⊢
    rw [opened, List.append_assoc]
    exact hfresh
  have hin := hblock _ inner hopened (opened_key hok) hfresh' hinner
  have hlen : (addContext st.dcs st.current (dataConfig c r)).length = st.dcs.length + 1 := length_addContext
  have hlen' := hin.length hopened
  have hcurrent := hok.current
  have hinlen : inner.dcs.length = st.dcs.length + 1 + ks.length := by
    rw [hlen']
    exact congrArg (· + ks.length) hlen
  rw [pop, hin.stack] at hpop
  obtain rfl := Option.some.inj hpop
  obtain ⟨rfl, rfl⟩ := Prod.mk.inj h
  refine ⟨hin.current, r, inner, hr, hinner, hin, rfl, ⟨⟨hin.ok.linked, hin.ok.keys, ?_, hok.stack⟩, rfl, rfl, ?_,
    fun j hj => ?_, fun j hj _ hne' => ?_⟩, ?_⟩
  · show st.current < inner.dcs.length
    omega
  · show inner.keys = st.keys ++ contextKey st.key c :: ks
    rw [hin.keys, opened, List.append_assoc]
    rfl
  · exact (opened_same hok hj).trans (hin.same j (by rw [opened, hlen]; omega))
  · show inner.values j = st.values j
    have hne : j ≠ (st.opened (contextKey st.key c) (dataConfig c r)).current := by
      show j ≠ st.dcs.length
      omega
    rw [hin.values j (by rw [opened, hlen]; omega) hne hne', opened]
    exact Function.update_of_ne (by omega) _ _
  · have hsame := hin.same st.dcs.length (by rw [opened, hlen]; omega)
    rwa [opened_dc hok] at hsame

end ConfigT

open ConfigT

variable {a : Actions V}

/-- A `global` block. -/
theorem global_parse {st st' : ConfigT V} {vs : List (Varline V)} (hok : Ok st) (h : (Metaline.global vs).parse a st = some st') :
    ∃ vars, st' = st.setValue 0 vars := by
  rw [Metaline.parse, push_of_ok hok, Option.bind_some] at h
  obtain ⟨st₁, hvs, hpop⟩ := Option.bind_eq_some_iff.mp h
  obtain ⟨vars, rfl⟩ := varlines_some hvs
  exact ⟨vars, (Option.some.inj hpop).symm⟩

mutual

/-- **The lines of a block.** -/
theorem parse_grown {st st' : ConfigT V} (ls : Metalines V) (hok : Ok st) (hfresh : st.Fresh (ls.keys st.key))
    (h : ls.parse a st = some st') : Grown st st' (ls.keys st.key) := by
  cases ls with
  | nil =>
    cases h
    exact .refl hok
  | snoc ls l =>
    obtain ⟨st₁, hls, hl⟩ := Option.bind_eq_some_iff.mp h
    have h₁ := parse_grown ls hok hfresh.left hls
    have hkey := h₁.key hok
    have h₂ := metaline_grown l h₁.ok (by rw [hkey]; exact hfresh.right h₁) hl
    rw [hkey] at h₂
    exact h₁.trans h₂ hok

theorem metaline_grown {st st' : ConfigT V} (l : Metaline V) (hok : Ok st) (hfresh : st.Fresh (l.keys st.key))
    (h : l.parse a st = some st') : Grown st st' (l.keys st.key) := by
  cases l with
  | varline v =>
    obtain ⟨vars, -, rfl⟩ := varline_some h
    exact setValue_grown hok (Or.inl rfl) vars
  | global vs =>
    obtain ⟨vars, rfl⟩ := global_parse hok h
    exact setValue_grown hok (Or.inr rfl) vars
  | condlines cs =>
    obtain ⟨r, hcs, rfl⟩ := Option.map_eq_some_iff.mp h
    exact (condlines_grown cs hok hfresh hcs).1

theorem condlines_grown {st st' : ConfigT V} {n : Nat} (cs : Condlines V) (hok : Ok st) (hfresh : st.Fresh (cs.keys st.key))
    (h : cs.parse a st = some (n, st')) : Grown st st' (cs.keys st.key) ∧ st.dcs.length ≤ n ∧ n < st'.dcs.length ∧
      (dcOf st'.dcs n).parent = some st.current ∧ (dcOf st'.dcs n).next = none := by
  cases cs with
  | condline c ls =>
    obtain ⟨rfl, r, inner, hbranch⟩ := condline_branch hok hfresh
      (fun st₁ st₂ hok₁ hkey hfresh₁ hparse => by
        rw [← hkey] at hfresh₁ ⊢
        exact parse_grown ls hok₁ hfresh₁ hparse) h
    have hlen := hbranch.grown.length hok
    rw [List.length_cons] at hlen
    exact ⟨hbranch.grown, Nat.le_refl _, by omega, hbranch.context.parent, hbranch.context.next⟩
  | elseline cs c ls =>
    obtain ⟨⟨b, st₁⟩, hcs, h⟩ := Option.bind_eq_some_iff.mp h
    obtain ⟨⟨m, st₂⟩, hc, h⟩ := Option.bind_eq_some_iff.mp h
    obtain ⟨h₁, hb, hb', hparent, hnext⟩ := condlines_grown cs hok hfresh.left hcs
    have hkey := h₁.key hok
    have hfresh₁ : st₁.Fresh (contextKey st₁.key c :: ls.keys (contextKey st₁.key c)) := by
      rw [hkey]
      exact hfresh.right h₁
    obtain ⟨rfl, r, inner, hbranch⟩ := condline_branch h₁.ok hfresh₁
      (fun st₁ st₂ hok₁ hkey hfresh₁ hparse => by
        rw [← hkey] at hfresh₁ ⊢
        exact parse_grown ls hok₁ hfresh₁ hparse) hc
    have hgrown := h₁.trans hbranch.grown hok
    rw [hkey] at hgrown
    have hlen₂ := hbranch.grown.length h₁.ok
    rw [List.length_cons] at hlen₂
    have hsame := hbranch.grown.same b hb'
    have hprev₂ : (dcOf st₂.dcs st₁.dcs.length).prev = none := hbranch.context.prev
    have hparent₂ : (dcOf st₂.dcs st₁.dcs.length).parent = some st.current := by
      rw [hbranch.context.parent, h₁.current]
    have hnext₂ : (dcOf st₂.dcs st₁.dcs.length).next = none := hbranch.context.next
    -- the branch before is the older one
    have h : st₂.link b st₁.dcs.length = some (n, st') := h
    rw [link, if_neg (by omega)] at h
    obtain ⟨rfl, rfl⟩ := Prod.mk.inj (Option.some.inj h)
    have hdc : ∀ j, dcOf (linkElse st₂.dcs b st₁.dcs.length) j =
        if j = b then { dcOf st₂.dcs b with next := some st₁.dcs.length }
        else if j = st₁.dcs.length then { dcOf st₂.dcs st₁.dcs.length with prev := some b } else dcOf st₂.dcs j :=
      fun j => dcOf_linkElse (by omega) (by omega)
    have hlinked : WellLinked (linkElse st₂.dcs b st₁.dcs.length) :=
      hbranch.grown.ok.linked.linkElse (by omega) (by omega) (by rw [hsame.next, hnext]) hprev₂
        (by rw [hsame.parent, hparent, hparent₂])
    have hlen : (linkElse st₂.dcs b st₁.dcs.length).length = st₂.dcs.length := length_linkElse
    refine ⟨⟨⟨hlinked, ?_, ?_, hgrown.ok.stack⟩, hgrown.current, hgrown.stack, hgrown.keys, fun j hj => ?_,
      hgrown.values⟩, ?_, ?_, ?_, ?_⟩
    · show st₂.keys.length = (linkElse st₂.dcs b st₁.dcs.length).length
      rw [hlen, hgrown.ok.keys]
    · show st₂.current < (linkElse st₂.dcs b st₁.dcs.length).length
      rw [hlen]
      exact hgrown.ok.current
    · have hle := h₁.length hok
      show SameContext (dcOf st.dcs j) (dcOf (linkElse st₂.dcs b st₁.dcs.length) j)
      rw [hdc, if_neg (by omega), if_neg (by omega)]
      exact hgrown.same j hj
    · have hle := h₁.length hok
      omega
    · show st₁.dcs.length < (linkElse st₂.dcs b st₁.dcs.length).length
      omega
    · show (dcOf (linkElse st₂.dcs b st₁.dcs.length) st₁.dcs.length).parent = some st.current
      rw [hdc, if_neg (by omega), if_pos rfl]
      exact hparent₂
    · show (dcOf (linkElse st₂.dcs b st₁.dcs.length) st₁.dcs.length).next = none
      rw [hdc, if_neg (by omega), if_pos rfl]
      exact hnext₂

end

/-- The lines of the block with the key `outer`. -/
theorem block_grown (ls : Metalines V) {outer : Bytes} (st st' : ConfigT V) (hok : Ok st) (hkey : st.key = outer)
    (hfresh : st.Fresh (ls.keys outer)) (h : ls.parse a st = some st') : Grown st st' (ls.keys outer) := by
  subst hkey
  exact parse_grown ls hok hfresh h

end Lighttpd.Config
