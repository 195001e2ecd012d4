import Lighttpd.Base.Strftime
import Lighttpd.Lib.Service

/-!
# The cache of dates (`http-header-glue.c`)

`strftime_cache_get` keeps the text of the dates that it has been asked for. A slot is looked for by its time; `0` is
taken for an empty slot, while the slots of a new server have the time `-1`.

- `get_new`, `get_same`, `get_unset`: only the first slot is ever written;
- `mtimeCache_coherent_iff`: the calls that all get the text of their time.
-/

namespace Lighttpd.MtimeCache

/-! ## The source -/

def fileCacheMax : Nat := 16

/-- `mtime_cache_type`. -/
structure Slot where
  mtime : Int
  str : Buffer
deriving DecidableEq

def unset : Slot := ⟨-1, .init⟩

def initial : List Slot := List.replicate fileCacheMax unset

def search (lastMod : Int) : List Slot → Nat → Option Slot × Nat
  | [], i => (none, i)
  | s :: slots, i =>
    if s.mtime = lastMod then (some s, i) else if s.mtime = 0 then (none, i) else search lastMod slots (i + 1)

/-- `strftime_cache_get`: the buffer that is returned, and the cache; `none` if an assertion fails. -/
def strftimeCacheGet (cache : List Slot) (lastMod : Int) : Option (Buffer × List Slot) :=
  match search lastMod cache 0 with
  | (some s, _) => some (s.str, cache)
  | (none, i) => do
    let i := if i = fileCacheMax then 0 else i
    let s ← cache[i]?
    let tm ← gmtime lastMod
    let str ← (s.str.stringPrepareCopy 1023).appendStrftime rfcFormat tm
    some (str, cache.set i ⟨lastMod, str⟩)

/-! ## One call -/

/-- A cache of which only the first slot has been used. -/
def cacheOf (s : Slot) : List Slot := s :: List.replicate 15 unset

variable {t : Int} {s : Slot}

/-- The slots that are not used do not have the time, and are not taken for empty ones. -/
theorem search_unset (h : t ≠ -1) (n i : Nat) : search t (List.replicate n unset) i = (none, i + n) := by
  have htime : unset.mtime ≠ t := Ne.symm h
  have hset : unset.mtime ≠ 0 := by decide
  induction n generalizing i with
  | zero => rfl
  | succ n ih =>
    rw [List.replicate_succ, search, if_neg htime, if_neg hset, ih]
    exact congrArg _ (by omega)

theorem get_same (s : Slot) : strftimeCacheGet (cacheOf s) s.mtime = some (s.str, cacheOf s) := by
  simp [strftimeCacheGet, cacheOf, search]

/-- The time of the slots that are not used is looked for, and the first slot does not count as empty. -/
theorem get_unset (hne : s.mtime ≠ -1) (hzero : s.mtime ≠ 0) :
    strftimeCacheGet (cacheOf s) (-1) = some (.init, cacheOf s) := by
  simp [strftimeCacheGet, cacheOf, search, hne, hzero, unset, List.replicate_succ]

theorem search_new (hne : s.mtime ≠ t) (h : t ≠ -1 ∨ s.mtime = 0) :
    ∃ i, search t (cacheOf s) 0 = (none, i) ∧ (if i = fileCacheMax then 0 else i) = 0 := by
  unfold cacheOf search
  rw [if_neg hne]
  split_ifs with hzero
  · exact ⟨0, rfl, rfl⟩
  · exact ⟨16, search_unset (h.resolve_right hzero) 15 1, rfl⟩

theorem get_new {tm : Tm} (hne : s.mtime ≠ t) (h : t ≠ -1 ∨ s.mtime = 0) (htm : gmtime t = some tm) :
    ∃ str, strftimeCacheGet (cacheOf s) t = some (str, cacheOf ⟨t, str⟩) ∧ str.str = strftimeText rfcFormat tm := by
  obtain ⟨i, hsearch, hi⟩ := search_new hne h
  obtain ⟨str, hstr, htext⟩ :=
    appendStrftime_spec (s.str.stringPrepareCopy 1023) (rfcDate_ne_nil tm) (length_rfcDate (gmtime_small htm))
  refine ⟨str, ?_, by simpa using htext⟩
  unfold strftimeCacheGet
  rw [hsearch]
  simp [hi, cacheOf, htm, hstr]

theorem get_stops (hne : s.mtime ≠ t) (htm : gmtime t = none) : strftimeCacheGet (cacheOf s) t = none := by
  have ht : t ≠ -1 := by
    rintro rfl
    exact absurd htm (by decide)
  obtain ⟨i, hsearch, hi⟩ := search_new hne (.inl ht)
  unfold strftimeCacheGet
  rw [hsearch]
  simp [hi, cacheOf, htm]

/-! ## All calls -/

/-- What the first slot holds after a call for `last`; `none` on a new server. -/
def Holds (cache : List Slot) (last : Option Int) : Prop :=
  ∃ s, cache = cacheOf s ∧
    match last with
    | none => s = unset
    | some t => s.mtime = t ∧ rfcDate t = some s.str.str

/-- The text of the time is returned. -/
def Right (t : Int) (str : Buffer) : Prop := rfcDate t = some str.str

/-- A call for `-1` finds a slot that is not used, unless the first slot has `0` or `-1`. -/
def Fine (last : Option Int) (t : Int) : Prop := t = -1 → last = some 0 ∨ last = some (-1)

/-- A time that `gmtime` can break down. -/
def representable (t : Int) : Bool := (gmtime t).isSome

theorem rfcDate_isSome {str : Bytes} (h : rfcDate t = some str) : representable t = true := by
  obtain ⟨tm, htm, -⟩ := Option.map_eq_some_iff.mp h
  rw [representable, htm]
  rfl

/-- **The cache follows the calls**: it holds the text of the last time. -/
theorem follows : Service.Follows strftimeCacheGet representable Right Fine (fun _ t => some t) Holds where
  stops := by
    rintro cache last t ⟨s, rfl, hlast⟩ ht
    have htm : gmtime t = none := by simpa [representable] using ht
    refine get_stops (fun hst => ?_) htm
    cases last with
    | none =>
      rw [hlast] at hst
      subst hst
      exact absurd htm (by decide)
    | some last =>
      obtain ⟨rfl, htext⟩ := hlast
      rw [← hst, rfcDate_isSome htext] at ht
      cases ht
  replies := by
    rintro cache last t ⟨s, rfl, hlast⟩ ht
    obtain ⟨tm, htm⟩ := Option.isSome_iff_exists.mp ht
    have hdate : rfcDate t = some (strftimeText rfcFormat tm) := by rw [rfcDate, htm]; rfl
    have hempty : ¬ Right t .init := by
      rw [Right, hdate]
      simpa using rfcDate_ne_nil tm
    have hnew : s.mtime ≠ t → (t ≠ -1 ∨ s.mtime = 0) → Fine last t →
        ∃ str s', strftimeCacheGet (cacheOf s) t = some (str, s') ∧ (Right t str ↔ Fine last t) ∧
          (Fine last t → Holds s' (some t)) := by
      intro hne h hfine
      obtain ⟨str, hget, htext⟩ := get_new hne h htm
      have hright : Right t str := by rw [Right, htext, hdate]
      exact ⟨str, _, hget, iff_of_true hright hfine, fun _ => ⟨_, rfl, rfl, hright⟩⟩
    cases last with
    | none =>
      subst hlast
      by_cases hone : t = -1
      · subst hone
        have hbad : ¬ Fine none (-1) := by simp [Fine]
        exact ⟨_, _, get_same unset, iff_of_false hempty hbad, fun h => absurd h hbad⟩
      · exact hnew (Ne.symm hone) (.inl hone) fun h => absurd h hone
    | some last =>
      obtain ⟨rfl, htext⟩ := hlast
      by_cases hsame : t = s.mtime
      · subst hsame
        exact ⟨_, _, get_same s, iff_of_true htext fun h => .inr (congrArg _ h), fun _ => ⟨s, rfl, rfl, htext⟩⟩
      · by_cases hone : t = -1
        · subst hone
          by_cases hzero : s.mtime = 0
          · exact hnew (Ne.symm hsame) (.inr hzero) fun _ => .inl (congrArg _ hzero)
          · have hbad : ¬ Fine (some s.mtime) (-1) := by
              simpa [Fine] using ⟨hzero, Ne.symm hsame⟩
            exact ⟨_, _, get_unset (Ne.symm hsame) hzero, iff_of_false hempty hbad, fun h => absurd h hbad⟩
        · exact hnew (Ne.symm hsame) (.inl hone) fun h => absurd h hone

theorem foldl_last (before : List Int) (last : Option Int) :
    before.foldl (fun _ t => some t) last = before.getLast?.or last := by
  induction before generalizing last with
  | nil => rfl
  | cons t before ih =>
    rw [List.foldl_cons, ih, List.getLast?_cons]
    cases before.getLast? <;> rfl

/-- **Every call gets the text of its time, if and only if each call for `-1` comes right behind one for `0` or
`-1`.** The calls are those up to the first time that cannot be broken down. -/
theorem mtimeCache_coherent_iff (ts : List Int) :
    List.Forall₂ Right (ts.takeWhile representable) (Service.answers strftimeCacheGet initial ts) ↔
      ∀ before behind, ts.takeWhile representable = before ++ -1 :: behind →
        before.getLast? = some 0 ∨ before.getLast? = some (-1) := by
  have hinitial : Holds initial none := ⟨unset, rfl, rfl⟩
  rw [follows.forall₂_answers_iff hinitial, Service.proper_iff]
  simp only [foldl_last, Option.or_none, Fine]
  constructor
  · intro h before behind heq
    exact h before (-1) behind heq rfl
  · rintro h before t behind heq rfl
    exact h before behind heq

/-- The first call is for a file of the last second of 1969. -/
theorem mtimeCache_empty : ¬ List.Forall₂ Right [-1] (Service.answers strftimeCacheGet initial [-1]) := by
  have hanswer : Service.answers strftimeCacheGet initial [-1] = [.init] := rfl
  rw [hanswer, List.forall₂_cons]
  rintro ⟨h, -⟩
  have hdate : rfcDate (-1) ≠ some [] := by decide
  exact hdate h

end Lighttpd.MtimeCache
