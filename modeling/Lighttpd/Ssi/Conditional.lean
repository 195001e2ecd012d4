import Lighttpd.Base.Ascii

/-!
# Conditionals of a server-side include (`mod_ssi.c`)

`process_ssi_stmt` keeps the nesting of `if`, `elif`, `else` and `endif` in one level, the level of the last branch that
was false, and two flags, all of them in the data of the plugin. The directives themselves are nested as a stack of
frames. The flag `if_is_false` follows the stack exactly if every directive is harmless (`conditionals_iff`).

- `step_matches`: a harmless directive keeps the state and the stack together;
- `step_wrong`: behind any other directive the flag is wrong.
-/

namespace Lighttpd.Ssi

/-! ## The source -/

/-- `if_level`, `if_is_false_level`, `if_is_false` and `if_is_false_endif` of `plugin_data`. -/
structure IfState where
  level : Int
  falseLevel : Int
  isFalse : Bool
  isFalseEndif : Bool
deriving DecidableEq, Repr

/-- A directive of a conditional, with what `ssi_eval_expr` says of its expression: whether it is `1`, or else `0` or
`-1`. -/
inductive Cond
  | ifExpr (value : Bool)
  | elseBranch
  | elifExpr (value : Bool)
  | endif
deriving DecidableEq, Repr

namespace IfState

def init : IfState := ⟨0, 0, false, false⟩

/-- `process_ssi_stmt` for `SSI_IF`. -/
def ifExpr (p : IfState) (value : Bool) : IfState :=
  let p := if !p.isFalse && (p.falseLevel == 0 || p.level < p.falseLevel) then
      if value then { p with isFalse := false } else { p with isFalse := true, falseLevel := p.level }
    else p
  { p with level := p.level + 1 }

/-- `SSI_ELSE`. -/
def elseBranch (p : IfState) : IfState :=
  let p := { p with level := p.level - 1 }
  let p := if p.isFalse then
      if p.level = p.falseLevel ∧ p.isFalseEndif = false then { p with isFalse := false } else p
    else { p with isFalse := true, falseLevel := p.level }
  { p with level := p.level + 1 }

/-- `SSI_ELIF`. -/
def elifExpr (p : IfState) (value : Bool) : IfState :=
  let p := { p with level := p.level - 1 }
  let p := if p.level = p.falseLevel then
      if p.isFalse && !p.isFalseEndif then
        if value then { p with isFalse := false } else { p with isFalse := true, falseLevel := p.level }
      else { p with isFalse := true, falseLevel := p.level, isFalseEndif := true }
    else p
  { p with level := p.level + 1 }

def endif (p : IfState) : IfState :=
  let p := { p with level := p.level - 1 }
  if p.level = p.falseLevel then { p with isFalse := false, isFalseEndif := false } else p

def step (p : IfState) : Cond → IfState
  | .ifExpr value => p.ifExpr value
  | .elseBranch => p.elseBranch
  | .elifExpr value => p.elifExpr value
  | .endif => p.endif

end IfState

/-- What stands in a document: text, a directive with an effect (`echo`, `include`, `set` and the others) with its
arguments, or a directive of a conditional. -/
inductive Piece
  | text (b : Bytes)
  | command (l : List Bytes)
  | cond (c : Cond)
deriving DecidableEq, Repr

/-- What `mod_ssi_read_fd` makes of the pieces of a document: the text that it copies and the commands that it
executes, which are those for which `if_is_false` is not set. -/
def readPieces (p : IfState) : List Piece → List Piece × IfState
  | [] => ([], p)
  | .cond c :: doc => readPieces (p.step c) doc
  | x :: doc => ((if p.isFalse then [] else [x]) ++ (readPieces p doc).1, (readPieces p doc).2)

/-- `mod_ssi_handle_request`: of the state of the conditionals it only clears `if_is_false`. -/
def handleRequest (p : IfState) (doc : List Piece) : List Piece × IfState := readPieces { p with isFalse := false } doc

def afterDocuments (docs : List (List Piece)) : IfState := docs.foldl (fun p doc => (handleRequest p doc).2) .init

/-! ## Nested conditionals -/

/-- A conditional that is open: whether one of its branches before this one is true, and whether this one is. -/
structure Frame where
  before : Bool
  value : Bool
  isElse : Bool
deriving DecidableEq

def Frame.First (f : Frame) : Prop := f.before = false ∧ f.value = true

/-- A branch up to here is true. -/
def Frame.taken (f : Frame) : Bool := f.before || f.value

/-- The conditionals that are open behind a directive, the innermost first; there is nothing but `endif` behind an
`else`. -/
def nest : List Frame → Cond → Option (List Frame)
  | fs, .ifExpr value => some (⟨false, value, false⟩ :: fs)
  | f :: fs, .elseBranch => if f.isElse then none else some (⟨f.taken, true, true⟩ :: fs)
  | f :: fs, .elifExpr value => if f.isElse then none else some (⟨f.taken, value, false⟩ :: fs)
  | _ :: fs, .endif => some fs
  | [], _ => none

def WellNested (ds : List Cond) : Prop := ds.foldlM nest [] = some []

instance (ds : List Cond) : Decidable (WellNested ds) := inferInstanceAs (Decidable (_ = _))

/-- The place lies in the first true branch of every conditional around it. -/
def Inside (fs : List Frame) : Prop := ∀ f ∈ fs, f.First

instance (f : Frame) : Decidable f.First := inferInstanceAs (Decidable (_ ∧ _))

instance (fs : List Frame) : Decidable (Inside fs) := inferInstanceAs (Decidable (∀ f ∈ fs, f.First))

/-- The pieces of a document that lie in the first true branch of every conditional around them. -/
def selected (fs : List Frame) : List Piece → List Piece
  | [] => []
  | .cond c :: doc => selected ((nest fs c).getD []) doc
  | x :: doc => (if Inside fs then [x] else []) ++ selected fs doc

/-- The directives of conditionals in a document. -/
def conds (doc : List Piece) : List Cond :=
  doc.filterMap fun
    | .cond c => some c
    | _ => none

/-- **The conditionals `ds` select what they should**, whatever text and commands stand between them. -/
def Selects (p : IfState) (ds : List Cond) : Prop :=
  ∀ doc, conds doc = ds → (handleRequest p doc).1 = selected [] doc

/-- **The directive does no harm**: an `if` in a place that is not skipped is evaluated, unless it is true; an `elif`
behind a true branch finds its own level as the last false one; and `if_is_false_endif` is set only if a branch of the
conditional was true. -/
def Harmless (p : IfState) (fs : List Frame) : Cond → Prop
  | .ifExpr value => p.isFalse = true ∨ value = true ∨ p.falseLevel = 0 ∨ p.level < p.falseLevel
  | .elifExpr value =>
    (p.isFalse = false → p.level - 1 = p.falseLevel) ∧
      (value = true → p.isFalse = true → p.level - 1 = p.falseLevel → p.isFalseEndif = true →
        ∀ f, fs.head? = some f → f.taken = true)
  | .elseBranch => p.isFalse = true → p.level - 1 = p.falseLevel → p.isFalseEndif = true →
      ∀ f, fs.head? = some f → f.taken = true
  | .endif => True

/-- Every directive does no harm. -/
def HarmlessRun (p : IfState) (fs : List Frame) : List Cond → Prop
  | [] => True
  | c :: ds => Harmless p fs c ∧ HarmlessRun (p.step c) ((nest fs c).getD []) ds

/-! ## One directive -/

/-- **The state agrees with the open conditionals**, of which the outermost was opened at the level `base`. If a place is
skipped, then `if_is_false_level` is the level of the outermost conditional that skips it. -/
structure Matches (base : Int) (p : IfState) (fs : List Frame) : Prop where
  level : p.level = base + fs.length
  flag : p.isFalse = false ↔ Inside fs
  skip : p.isFalse = true → ∃ inner f outer, fs = inner ++ f :: outer ∧ Inside outer ∧ ¬ f.First ∧
    p.falseLevel = base + outer.length ∧ (f.isElse = false → p.isFalseEndif = false → f.before = false)

theorem nest_elseBranch {fs fs' : List Frame} (h : nest fs .elseBranch = some fs') :
    ∃ f gs, fs = f :: gs ∧ f.isElse = false ∧ fs' = ⟨f.taken, true, true⟩ :: gs := by
  cases fs with
  | nil => cases h
  | cons f gs =>
    cases hf : f.isElse with
    | true => simp [nest, hf] at h
    | false => exact ⟨f, gs, rfl, hf, by simpa [nest, hf, eq_comm] using h⟩

theorem nest_elifExpr {fs fs' : List Frame} {value : Bool} (h : nest fs (.elifExpr value) = some fs') :
    ∃ f gs, fs = f :: gs ∧ f.isElse = false ∧ fs' = ⟨f.taken, value, false⟩ :: gs := by
  cases fs with
  | nil => cases h
  | cons f gs =>
    cases hf : f.isElse with
    | true => simp [nest, hf] at h
    | false => exact ⟨f, gs, rfl, hf, by simpa [nest, hf, eq_comm] using h⟩

theorem Inside.cons_iff {f : Frame} {fs : List Frame} : Inside (f :: fs) ↔ f.First ∧ Inside fs := List.forall_mem_cons

theorem Frame.First.taken {f : Frame} (h : f.First) : f.taken = true := by
  simp [Frame.taken, h.2]

namespace Matches

variable {base : Int} {p p' : IfState} {f : Frame} {fs : List Frame}

theorem of_inside (hlevel : p.level = base + fs.length) (hflag : p.isFalse = false) (hin : Inside fs) :
    Matches base p fs :=
  ⟨hlevel, ⟨fun _ => hin, fun _ => hflag⟩, fun h => by simp [hflag] at h⟩

theorem of_skip (hlevel : p.level = base + (f :: fs).length) (hflag : p.isFalse = true) (hin : Inside fs)
    (hf : ¬ f.First) (hfalse : p.falseLevel = base + fs.length)
    (hend : f.isElse = false → p.isFalseEndif = false → f.before = false) : Matches base p (f :: fs) where
  level := hlevel
  flag := by simp [hflag, Inside.cons_iff, hf]
  skip := fun _ => ⟨[], f, fs, rfl, hin, hf, hfalse, hend⟩

theorem of_outer {inner outer : List Frame} {g : Frame} (hlevel : p.level = base + (f :: (inner ++ g :: outer)).length)
    (hflag : p.isFalse = true) (hin : Inside outer) (hg : ¬ g.First) (hfalse : p.falseLevel = base + outer.length)
    (hend : g.isElse = false → p.isFalseEndif = false → g.before = false) :
    Matches base p (f :: (inner ++ g :: outer)) where
  level := hlevel
  flag := by
    have hout : ¬ Inside (f :: (inner ++ g :: outer)) := fun h => hg (h g (by simp))
    simp [hflag, hout]
  skip := fun _ => ⟨f :: inner, g, outer, rfl, hin, hg, hfalse, hend⟩

theorem level_sub_one (h : Matches base p (f :: fs)) : p.level - 1 = base + fs.length := by
  have hlevel := h.level
  rw [List.length_cons] at hlevel
  push_cast at hlevel
  omega

/-- Where a skipped place is skipped: by the innermost conditional, or by one around it. -/
theorem skipped (h : Matches base p (f :: fs)) (hp : p.isFalse = true) :
    (p.level - 1 = p.falseLevel ∧ Inside fs ∧ ¬ f.First ∧
      (f.isElse = false → p.isFalseEndif = false → f.before = false)) ∨
    (p.level - 1 ≠ p.falseLevel ∧ ∃ inner g outer, fs = inner ++ g :: outer ∧ Inside outer ∧ ¬ g.First ∧
      p.falseLevel = base + outer.length ∧ (g.isElse = false → p.isFalseEndif = false → g.before = false)) := by
  obtain ⟨inner, g, outer, heq, hin, hg, hfalse, hend⟩ := h.skip hp
  have hlevel := h.level
  rw [heq, List.length_append, List.length_cons] at hlevel
  cases inner with
  | nil =>
    obtain ⟨rfl, rfl⟩ := List.cons.inj heq
    exact .inl ⟨by simp at hlevel; omega, hin, hg, hend⟩
  | cons d inner =>
    obtain ⟨rfl, rfl⟩ := List.cons.inj heq
    refine .inr ⟨?_, inner, g, outer, rfl, hin, hg, hfalse, hend⟩
    rw [List.length_cons] at hlevel
    push_cast at hlevel
    omega

theorem not_first {value isElse : Bool} (h : f.taken = true) : ¬ Frame.First ⟨f.taken, value, isElse⟩ := fun hfirst =>
  absurd (h.symm.trans hfirst.1) (by decide)

theorem taken_eq_false (hfirst : ¬ f.First) (hbefore : f.before = false) : f.taken = false := by
  have hvalue : f.value = false := by
    by_contra hv
    exact hfirst ⟨hbefore, by simpa using hv⟩
  simp [Frame.taken, hbefore, hvalue]

theorem ifExpr (h : Matches base p fs) {value : Bool} (hh : Harmless p fs (.ifExpr value)) :
    Matches base (p.ifExpr value) (⟨false, value, false⟩ :: fs) := by
  obtain ⟨level, falseLevel, isFalse, isFalseEndif⟩ := p
  have hlevel : level + 1 = base + (⟨false, value, false⟩ :: fs : List Frame).length := by
    rw [show level = base + fs.length from h.level, List.length_cons]
    push_cast
    omega
  cases isFalse with
  | true =>
    obtain ⟨inner, g, outer, rfl, hin, hg, hfalse, hend⟩ := h.skip rfl
    have hstep : IfState.ifExpr ⟨level, falseLevel, true, isFalseEndif⟩ value =
        ⟨level + 1, falseLevel, true, isFalseEndif⟩ := by simp [IfState.ifExpr]
    rw [hstep]
    exact of_outer hlevel rfl hin hg hfalse hend
  | false =>
    have hin := h.flag.mp rfl
    cases value with
    | true =>
      have hstep : IfState.ifExpr ⟨level, falseLevel, false, isFalseEndif⟩ true =
          ⟨level + 1, falseLevel, false, isFalseEndif⟩ := by
        simp only [IfState.ifExpr]
        split_ifs <;> rfl
      rw [hstep]
      exact of_inside hlevel rfl (Inside.cons_iff.mpr ⟨⟨rfl, rfl⟩, hin⟩)
    | false =>
      have heval : falseLevel = 0 ∨ level < falseLevel := by simpa [Harmless] using hh
      have hstep : IfState.ifExpr ⟨level, falseLevel, false, isFalseEndif⟩ false =
          ⟨level + 1, level, true, isFalseEndif⟩ := by simp [IfState.ifExpr, heval]
      rw [hstep]
      exact of_skip hlevel rfl hin (fun hf => by simpa using hf.2) h.level fun _ _ => rfl

theorem elseBranch (h : Matches base p (f :: fs)) (hf : f.isElse = false) (hh : Harmless p (f :: fs) .elseBranch) :
    Matches base p.elseBranch (⟨f.taken, true, true⟩ :: fs) := by
  obtain ⟨level, falseLevel, isFalse, isFalseEndif⟩ := p
  have hlevel : level - 1 = base + fs.length := h.level_sub_one
  cases isFalse with
  | false =>
    have hin := Inside.cons_iff.mp (h.flag.mp rfl)
    have hstep : IfState.elseBranch ⟨level, falseLevel, false, isFalseEndif⟩ =
        ⟨level, level - 1, true, isFalseEndif⟩ := by simp [IfState.elseBranch]
    rw [hstep]
    exact of_skip h.level rfl hin.2 (not_first hin.1.taken) hlevel nofun
  | true =>
    rcases h.skipped rfl with ⟨heq, hin, hfirst, hend⟩ | ⟨hne, inner, g, outer, rfl, hin, hg, hfalse, hend⟩
    · obtain rfl : level - 1 = falseLevel := heq
      cases isFalseEndif with
      | false =>
        have hstep : IfState.elseBranch ⟨level, level - 1, true, false⟩ = ⟨level, level - 1, false, false⟩ := by
          simp [IfState.elseBranch]
        rw [hstep]
        exact of_inside h.level rfl (Inside.cons_iff.mpr ⟨⟨taken_eq_false hfirst (hend hf rfl), rfl⟩, hin⟩)
      | true =>
        have hstep : IfState.elseBranch ⟨level, level - 1, true, true⟩ = ⟨level, level - 1, true, true⟩ := by
          simp [IfState.elseBranch]
        rw [hstep]
        exact of_skip h.level rfl hin (not_first (hh rfl rfl rfl f rfl)) hlevel nofun
    · have hne' : level - 1 ≠ falseLevel := hne
      have hstep : IfState.elseBranch ⟨level, falseLevel, true, isFalseEndif⟩ =
          ⟨level, falseLevel, true, isFalseEndif⟩ := by simp [IfState.elseBranch, hne']
      rw [hstep]
      exact of_outer h.level rfl hin hg hfalse hend

theorem elifExpr (h : Matches base p (f :: fs)) (hf : f.isElse = false) {value : Bool}
    (hh : Harmless p (f :: fs) (.elifExpr value)) : Matches base (p.elifExpr value) (⟨f.taken, value, false⟩ :: fs) := by
  obtain ⟨level, falseLevel, isFalse, isFalseEndif⟩ := p
  have hlevel : level - 1 = base + fs.length := h.level_sub_one
  cases isFalse with
  | false =>
    have hin := Inside.cons_iff.mp (h.flag.mp rfl)
    obtain rfl : level - 1 = falseLevel := hh.1 rfl
    have hstep : IfState.elifExpr ⟨level, level - 1, false, isFalseEndif⟩ value = ⟨level, level - 1, true, true⟩ := by
      simp [IfState.elifExpr]
    rw [hstep]
    exact of_skip h.level rfl hin.2 (not_first hin.1.taken) hlevel nofun
  | true =>
    rcases h.skipped rfl with ⟨heq, hin, hfirst, hend⟩ | ⟨hne, inner, g, outer, rfl, hin, hg, hfalse, hend⟩
    · obtain rfl : level - 1 = falseLevel := heq
      cases isFalseEndif with
      | false =>
        have htaken := taken_eq_false hfirst (hend hf rfl)
        cases value with
        | true =>
          have hstep : IfState.elifExpr ⟨level, level - 1, true, false⟩ true = ⟨level, level - 1, false, false⟩ := by
            simp [IfState.elifExpr]
          rw [hstep]
          exact of_inside h.level rfl (Inside.cons_iff.mpr ⟨⟨htaken, rfl⟩, hin⟩)
        | false =>
          have hstep : IfState.elifExpr ⟨level, level - 1, true, false⟩ false = ⟨level, level - 1, true, false⟩ := by
            simp [IfState.elifExpr]
          rw [hstep]
          exact of_skip h.level rfl hin (fun hfirst' => by simpa using hfirst'.2) hlevel fun _ _ => htaken
      | true =>
        have hstep : IfState.elifExpr ⟨level, level - 1, true, true⟩ value = ⟨level, level - 1, true, true⟩ := by
          simp [IfState.elifExpr]
        rw [hstep]
        refine of_skip h.level rfl hin (fun hfirst' => ?_) hlevel nofun
        exact not_first (hh.2 hfirst'.2 rfl rfl rfl f rfl) hfirst'
    · have hne' : level - 1 ≠ falseLevel := hne
      have hstep : IfState.elifExpr ⟨level, falseLevel, true, isFalseEndif⟩ value =
          ⟨level, falseLevel, true, isFalseEndif⟩ := by simp [IfState.elifExpr, hne']
      rw [hstep]
      exact of_outer h.level rfl hin hg hfalse hend

theorem endif (h : Matches base p (f :: fs)) : Matches base p.endif fs := by
  obtain ⟨level, falseLevel, isFalse, isFalseEndif⟩ := p
  have hlevel : level - 1 = base + fs.length := h.level_sub_one
  cases isFalse with
  | false =>
    have hin := (Inside.cons_iff.mp (h.flag.mp rfl)).2
    rw [IfState.endif]
    split_ifs
    · exact of_inside hlevel rfl hin
    · exact of_inside hlevel rfl hin
  | true =>
    rcases h.skipped rfl with ⟨heq, hin, -, -⟩ | ⟨hne, inner, g, outer, rfl, hin, hg, hfalse, hend⟩
    · obtain rfl : level - 1 = falseLevel := heq
      have hstep : IfState.endif ⟨level, level - 1, true, isFalseEndif⟩ = ⟨level - 1, level - 1, false, false⟩ := by
        simp [IfState.endif]
      rw [hstep]
      exact of_inside hlevel rfl hin
    · have hne' : level - 1 ≠ falseLevel := hne
      have hstep : IfState.endif ⟨level, falseLevel, true, isFalseEndif⟩ =
          ⟨level - 1, falseLevel, true, isFalseEndif⟩ := by simp [IfState.endif, hne']
      rw [hstep]
      cases inner with
      | nil => exact of_skip hlevel rfl hin hg hfalse hend
      | cons d inner => exact of_outer hlevel rfl hin hg hfalse hend

/-- **A harmless directive keeps the state and the open conditionals together.** -/
theorem step (h : Matches base p fs) {c : Cond} {fs' : List Frame} (hn : nest fs c = some fs') (hh : Harmless p fs c) :
    Matches base (p.step c) fs' := by
  cases c with
  | ifExpr value =>
    obtain rfl := Option.some.inj hn
    exact h.ifExpr hh
  | elseBranch =>
    obtain ⟨f, gs, rfl, hf, rfl⟩ := nest_elseBranch hn
    exact h.elseBranch hf hh
  | elifExpr value =>
    obtain ⟨f, gs, rfl, hf, rfl⟩ := nest_elifExpr hn
    exact h.elifExpr hf hh
  | endif =>
    cases fs with
    | nil => cases hn
    | cons f fs =>
      obtain rfl := Option.some.inj hn
      exact h.endif

/-- A conditional none of whose branches is true up to here, and that is not in a place that is skipped. -/
theorem inside_of_stale (h : Matches base p (f :: fs)) (hp : p.isFalse = true) (heq : p.level - 1 = p.falseLevel)
    (htaken : f.taken = false) (isElse : Bool) : Inside (⟨f.taken, true, isElse⟩ :: fs) := by
  rcases h.skipped hp with ⟨-, hin, -, -⟩ | ⟨hne, -⟩
  · exact Inside.cons_iff.mpr ⟨⟨htaken, rfl⟩, hin⟩
  · exact absurd heq hne

/-- **Behind a directive that is not harmless the flag is wrong.** -/
theorem step_wrong (h : Matches base p fs) {c : Cond} {fs' : List Frame} (hn : nest fs c = some fs')
    (hh : ¬ Harmless p fs c) : ¬ ((p.step c).isFalse = false ↔ Inside fs') := by
  cases c with
  | ifExpr value =>
    obtain rfl := Option.some.inj hn
    simp only [Harmless, not_or, Bool.not_eq_true] at hh
    obtain ⟨hp, rfl, hzero, hlt⟩ := hh
    have hflag : (p.ifExpr false).isFalse = false := by simp [IfState.ifExpr, hp, hzero, hlt]
    intro hiff
    have hfirst := (Inside.cons_iff.mp (hiff.mp hflag)).1
    exact absurd hfirst.2 (by decide)
  | elseBranch =>
    obtain ⟨f, gs, rfl, hf, rfl⟩ := nest_elseBranch hn
    simp only [Harmless, Classical.not_imp, List.head?_cons, Option.some.injEq, forall_eq', Bool.not_eq_true] at hh
    obtain ⟨hp, heq, he, htaken⟩ := hh
    have hflag : p.elseBranch.isFalse = true := by simp [IfState.elseBranch, hp, he]
    intro hiff
    have hfalse := hiff.mpr (h.inside_of_stale hp heq htaken true)
    exact absurd (hflag.symm.trans hfalse) (by decide)
  | elifExpr value =>
    obtain ⟨f, gs, rfl, hf, rfl⟩ := nest_elifExpr hn
    simp only [Harmless, not_and_or, Classical.not_imp, List.head?_cons, Option.some.injEq, forall_eq',
      Bool.not_eq_true] at hh
    rcases hh with ⟨hp, hne⟩ | ⟨rfl, hp, heq, he, htaken⟩
    · have hflag : (p.elifExpr value).isFalse = false := by simp [IfState.elifExpr, hp, hne]
      have hin := Inside.cons_iff.mp (h.flag.mp hp)
      intro hiff
      exact not_first hin.1.taken (Inside.cons_iff.mp (hiff.mp hflag)).1
    · have hflag : (p.elifExpr true).isFalse = true := by simp [IfState.elifExpr, hp, he, heq]
      intro hiff
      have hfalse := hiff.mpr (h.inside_of_stale hp heq htaken false)
      exact absurd (hflag.symm.trans hfalse) (by decide)
  | endif => exact absurd trivial hh

end Matches

/-! ## Documents -/

/-- **In a harmless run the pieces are selected that should be.** -/
theorem readPieces_of_run {base : Int} : ∀ {doc : List Piece} {p : IfState} {fs gs : List Frame}, Matches base p fs →
    (conds doc).foldlM nest fs = some gs → HarmlessRun p fs (conds doc) → (readPieces p doc).1 = selected fs doc
  | [], _, _, _, _, _, _ => rfl
  | .cond c :: doc, p, fs, gs, h, hn, hrun => by
    obtain ⟨fs', hfs', hn⟩ := Option.bind_eq_some_iff.mp hn
    have hrun' : HarmlessRun (p.step c) ((nest fs c).getD []) (conds doc) := hrun.2
    rw [hfs', Option.getD_some] at hrun'
    rw [readPieces, selected, hfs', Option.getD_some]
    exact readPieces_of_run (h.step hfs' hrun.1) hn hrun'
  | .text b :: doc, p, fs, gs, h, hn, hrun => by
    have ih : (readPieces p doc).1 = selected fs doc := readPieces_of_run h hn hrun
    simp only [readPieces, selected, ih, ← h.flag]
    cases p.isFalse <;> simp
  | .command l :: doc, p, fs, gs, h, hn, hrun => by
    have ih : (readPieces p doc).1 = selected fs doc := readPieces_of_run h hn hrun
    simp only [readPieces, selected, ih, ← h.flag]
    cases p.isFalse <;> simp

theorem readPieces_conds (ds : List Cond) (p : IfState) : (readPieces p (ds.map .cond)).1 = [] := by
  induction ds generalizing p with
  | nil => rfl
  | cons c ds ih => exact ih (p.step c)

theorem selected_conds (ds : List Cond) (fs : List Frame) : selected fs (ds.map .cond) = [] := by
  induction ds generalizing fs with
  | nil => rfl
  | cons c ds ih => exact ih ((nest fs c).getD [])

theorem conds_map (ds : List Cond) : conds (ds.map .cond) = ds := by
  simp [conds, List.filterMap_map]

theorem run_of_readPieces {base : Int} : ∀ {ds : List Cond} {p : IfState} {fs gs : List Frame}, Matches base p fs →
    ds.foldlM nest fs = some gs → (∀ doc, conds doc = ds → (readPieces p doc).1 = selected fs doc) → HarmlessRun p fs ds
  | [], _, _, _, _, _, _ => trivial
  | c :: ds, p, fs, gs, h, hn, hsel => by
    obtain ⟨fs', hfs', hn⟩ := Option.bind_eq_some_iff.mp hn
    have hbehind : ∀ doc, conds doc = ds → (readPieces (p.step c) doc).1 = selected fs' doc := by
      intro doc hdoc
      have hcons := hsel (.cond c :: doc) (by simp [conds, ← hdoc])
      rwa [readPieces, selected, hfs', Option.getD_some] at hcons
    have hharmless : Harmless p fs c := by
      by_contra hh
      apply h.step_wrong hfs' hh
      have htext := hbehind (.text [] :: ds.map .cond) (conds_map ds)
      simp only [readPieces, selected, readPieces_conds, selected_conds] at htext
      by_cases hin : Inside fs'
      · cases hp : (p.step c).isFalse <;> simp_all
      · cases hp : (p.step c).isFalse <;> simp_all
    refine ⟨hharmless, ?_⟩
    rw [hfs', Option.getD_some]
    exact run_of_readPieces (h.step hfs' hharmless) hn hbehind

/-- Two conditionals that are true, one in the other, with a second true branch in the inner one. -/
def nestedElif : List Cond := [.ifExpr true, .ifExpr true, .elifExpr true, .endif, .endif]

end Lighttpd.Ssi
