import Mathlib.Algebra.Ring.Int.Defs
import Lighttpd.Backend.Env
import Lighttpd.Request.Fields
import Lighttpd.Response.ByteRange
import Lighttpd.Base.Strftime

/-!
# The times of `mod_expire` (`mod_expire.c`)

The value of an entry of `expire.url` is a base, maybe `plus`, and numbers with units. The numbers are read into an `int`
and multiplied there.

- `offsetLoop_spelled`: what the loop accepts, and what it adds up;
- `getOffset_iff`: the same for the whole string;
- `expire_iff`: when the offset is the one that is written down, and that the headers agree.
-/

namespace Lighttpd.Expire

/-! ## `mod_expire_get_offset` -/

/-- The chain of comparisons with the names of the units, which is there twice. -/
def seconds (unit : Bytes) : Option Int :=
  if unit = ascii "years" then some (60 * 60 * 24 * 30 * 12)
  else if unit = ascii "months" then some (60 * 60 * 24 * 30)
  else if unit = ascii "weeks" then some (60 * 60 * 24 * 7)
  else if unit = ascii "days" then some (60 * 60 * 24)
  else if unit = ascii "hours" then some (60 * 60)
  else if unit = ascii "minutes" then some 60
  else if unit = ascii "seconds" then some 1
  else none

/-- `type`: `0` is for the time of the request, `1` for the time of the file. -/
inductive Base
  | access
  | modification
deriving DecidableEq, Repr

def toTime (n : Int) : Int := Int.bmod n (2 ^ 64)

/-- `num *= k`, in an `int`: the product wraps around. -/
def mulInt (num k : Int) : Int := toInt (num * k)

/-- The loop over the numbers and units: `retts`, and beside it the values that are added to it, in their order. The first
argument bounds the number of rounds. -/
def offsetLoop : Nat → Bytes → Int → List Int → Except String (Int × List Int)
  | 0, _, _, _ => .error ""
  | fuel + 1, ts, retts, added =>
    if chr ' ' ∉ ts then .error "missing space after <num>:"
    else
      let (num, err) := strtol 10 ts
      if err.head? ≠ some (chr ' ') then .error "missing <type> after <num>:"
      else
        let ts := (ts.dropWhile (· ≠ chr ' ')).tail
        if chr ' ' ∈ ts then
          match seconds (ts.takeWhile (· ≠ chr ' ')) with
          | none => .error "unknown type:"
          | some k =>
            let num := mulInt (toInt num) k
            offsetLoop fuel (ts.dropWhile (· ≠ chr ' ')).tail (toTime (retts + num)) (added ++ [num])
        else
          match seconds ts with
          | none => .error "unknown type:"
          | some k =>
            let num := mulInt (toInt num) k
            .ok (toTime (retts + num), added ++ [num])

def splitBase (ts : Bytes) : Option (Base × Bytes) :=
  if (ascii "access ").isPrefixOf ts then some (.access, ts.drop 7)
  else if (ascii "now ").isPrefixOf ts then some (.access, ts.drop 4)
  else if (ascii "modification ").isPrefixOf ts then some (.modification, ts.drop 13)
  else none

def skipPlus (ts : Bytes) : Bytes := if (ascii "plus ").isPrefixOf ts then ts.drop 5 else ts

/-- What `mod_expire_get_offset` returns, its offset, and the values that have been added up to it. -/
structure Offset where
  base : Base
  retts : Int
  added : List Int
deriving DecidableEq, Repr

def getOffset (expire : Bytes) : Except String Offset :=
  if expire = [] then .error "empty:"
  else
    match splitBase (cstr expire) with
    | none => .error "invalid <base>:"
    | some (base, ts) =>
      (offsetLoop ((cstr expire).length + 1) (skipPlus ts) 0 []).map fun (retts, added) => ⟨base, retts, added⟩

example : getOffset (ascii "access plus 1 days 2 hours") = .ok ⟨.access, 93600, [86400, 7200]⟩ := rfl

/-! ## The form of a value -/

/-- A number: digits, maybe behind a sign. -/
def Numeral (t : Bytes) (n : Int) : Prop :=
  ∃ sign digits v, t = sign ++ digits ∧ Request.decimalValue digits = some v ∧
    ((sign = [] ∨ sign = [chr '+']) ∧ n = v ∨ sign = [chr '-'] ∧ n = -v)

/-- What the loop takes for a number: also nothing, which is zero, and white space other than blanks in front of it. -/
def NumText (t : Bytes) (n : Int) : Prop :=
  t = [] ∧ n = 0 ∨ ∃ ws u, t = ws ++ u ∧ (∀ c ∈ ws, isspace c = true ∧ c ≠ chr ' ') ∧ Numeral u n

/-- A number, its text and the seconds of its unit. -/
structure Item where
  text : Bytes
  num : Int
  unit : Int

def Item.seconds (i : Item) : Int := i.num * i.unit

/-- The items of a text, with blanks between the numbers and the units. -/
inductive Spelled : Bytes → List Item → Prop
  | last {t u : Bytes} {n k : Int} (ht : NumText t n) (hu : Expire.seconds u = some k) :
    Spelled (t ++ chr ' ' :: u) [⟨t, n, k⟩]
  | cons {t u s : Bytes} {n k : Int} {items : List Item} (ht : NumText t n) (hu : Expire.seconds u = some k)
    (hs : Spelled s items) : Spelled (t ++ chr ' ' :: (u ++ chr ' ' :: s)) (⟨t, n, k⟩ :: items)

def baseNames : List (Bytes × Base) :=
  [(ascii "access ", .access), (ascii "now ", .access), (ascii "modification ", .modification)]

inductive Value : Bytes → Base → List Item → Prop
  | mk {name plus s : Bytes} {base : Base} {items : List Item}
    (hname : (name, base) ∈ baseNames)
    (hplus : plus ∈ [[], ascii "plus "]) (hs : Spelled s items) : Value (name ++ (plus ++ s)) base items

/-! ## Numbers -/

/-- A number as `strtol` gives it. -/
def clampLong (n : Int) : Int := max (min n longMax) (-(longMax : Int) - 1)

variable {digits ts : Bytes} {k : Int}

theorem decimalValue_spec {v : Nat} (h : Request.decimalValue digits = some v) :
    digits ≠ [] ∧ digits.all lightIsdigit = true ∧ readDigits 10 0 digits = (v, []) := by
  unfold Request.decimalValue at h
  split_ifs at h with hdigits
  refine ⟨hdigits.1, hdigits.2, ?_⟩
  rw [readDigits_digits hdigits.2, Option.some.inj h]

theorem decimalValue_read {v : Nat} (h : readDigits 10 0 digits = (v, [])) (hne : [] ≠ digits) :
    Request.decimalValue digits = some v := by
  obtain ⟨hall, hv⟩ := readDigits_all h
  unfold Request.decimalValue
  rw [if_pos ⟨hne.symm, hall⟩, hv]

theorem readSign_spec (t : Bytes) : ∃ sign, t = sign ++ (readSign t).2 ∧
    ((sign = [] ∨ sign = [chr '+']) ∧ (readSign t).1 = false ∨ sign = [chr '-'] ∧ (readSign t).1 = true) := by
  unfold readSign
  split
  · exact ⟨[chr '-'], rfl, .inr ⟨rfl, rfl⟩⟩
  · exact ⟨[chr '+'], rfl, .inl ⟨.inr rfl, rfl⟩⟩
  · exact ⟨[], rfl, .inl ⟨.inl rfl, rfl⟩⟩

theorem readSign_digits (h : digits.all lightIsdigit = true) : readSign digits = (false, digits) := by
  rcases digits with _ | ⟨c, digits⟩
  · rfl
  have hc : lightIsdigit c = true := List.all_eq_true.mp h c List.mem_cons_self
  obtain ⟨-, hminus, hplus, -⟩ := digit_facts hc
  unfold readSign
  simp [hminus, hplus]

variable {t s rest : Bytes} {n : Int} {items : List Item} {base : Base}

/-- A number is what `strtol` reads behind the white space. -/
theorem numeral_iff : Numeral t n ↔
    ∃ v : Nat, Request.decimalValue (readSign t).2 = some v ∧ n = if (readSign t).1 then -(v : Int) else v := by
  constructor
  · rintro ⟨sign, digits, v, rfl, hdigits, hsign⟩
    obtain ⟨-, hall, -⟩ := decimalValue_spec hdigits
    rcases hsign with ⟨rfl | rfl, rfl⟩ | ⟨rfl, rfl⟩
    · rw [List.nil_append, readSign_digits hall]
      exact ⟨v, hdigits, rfl⟩
    · exact ⟨v, hdigits, rfl⟩
    · exact ⟨v, hdigits, rfl⟩
  · rintro ⟨v, hdigits, hn⟩
    obtain ⟨sign, ht, hsign⟩ := readSign_spec t
    refine ⟨sign, (readSign t).2, v, ht, hdigits, ?_⟩
    rcases hsign with ⟨hsign, hneg⟩ | ⟨hsign, hneg⟩
    · rw [hneg] at hn
      exact .inl ⟨hsign, hn⟩
    · rw [hneg] at hn
      exact .inr ⟨hsign, hn⟩

theorem Numeral.unique {m : Int} (hm : Numeral t m) (hn : Numeral t n) : m = n := by
  obtain ⟨v, hv, rfl⟩ := Iff.mp numeral_iff hm
  obtain ⟨w, hw, rfl⟩ := Iff.mp numeral_iff hn
  rw [hv] at hw
  cases hw
  rfl

theorem Numeral.plain (h : Numeral t n) : t ≠ [] ∧ ∀ c ∈ t, isspace c = false := by
  obtain ⟨sign, digits, v, rfl, hdigits, hsign⟩ := h
  obtain ⟨hne, hall, -⟩ := decimalValue_spec hdigits
  refine ⟨by simp [hne], fun c hc => ?_⟩
  rcases List.mem_append.mp hc with hc | hc
  · have hsigns : sign = [] ∨ sign = [chr '+'] ∨ sign = [chr '-'] := by tauto
    rcases hsigns with rfl | rfl | rfl
    · cases hc
    · rw [List.mem_singleton.mp hc]
      rfl
    · rw [List.mem_singleton.mp hc]
      rfl
  · exact (digit_facts (List.all_eq_true.mp hall c hc)).1

/-- **What `strtol` reads to its end.** -/
theorem strtolBody_iff (hs : s ≠ []) {x : Int} : strtolBody s t = (x, []) ↔ ∃ n, Numeral t n ∧ x = clampLong n := by
  unfold strtolBody
  dsimp only
  constructor
  · intro h
    obtain ⟨v, rest, hread⟩ : ∃ v rest, readDigits 10 0 (readSign t).2 = (v, rest) := ⟨_, _, rfl⟩
    rw [hread] at h
    split_ifs at h with hnone hneg
    · cases h
      exact absurd rfl hs
    · obtain ⟨rfl, rfl⟩ := Prod.mk.inj h
      exact ⟨-v, Iff.mpr numeral_iff ⟨v, decimalValue_read hread hnone, by rw [if_pos hneg]⟩, by unfold clampLong; omega⟩
    · obtain ⟨rfl, rfl⟩ := Prod.mk.inj h
      exact ⟨v, Iff.mpr numeral_iff ⟨v, decimalValue_read hread hnone, by rw [if_neg hneg]⟩, by unfold clampLong; omega⟩
  · rintro ⟨n, hn, rfl⟩
    obtain ⟨v, hv, rfl⟩ := Iff.mp numeral_iff hn
    obtain ⟨hne, hall, hread⟩ := decimalValue_spec hv
    rw [hread, if_neg (fun h => hne h.symm)]
    unfold clampLong
    split_ifs with hneg
    · congr 1
      have : longMax = 2 ^ 63 - 1 := rfl
      omega
    · congr 1
      omega

/-! ## The text of a number in front of its unit -/

theorem seconds_spec {u : Bytes} (h : seconds u = some k) : 1 ≤ k ∧ chr ' ' ∉ u ∧
    ∃ c s d, u = c :: s ∧ isspace c = false ∧ c ≠ 45 ∧ c ≠ 43 ∧ digitVal c = some d ∧ ¬ d < 10 := by
  unfold seconds at h
  split_ifs at h with h1 h2 h3 h4 h5 h6 h7
  all_goals
    cases h
    subst u
    exact ⟨by decide, by decide, _, _, _, rfl, rfl, by decide, by decide, rfl, by decide⟩

theorem NumText.blank (h : NumText t n) : chr ' ' ∉ t := by
  rcases h with ⟨rfl, -⟩ | ⟨ws, u, rfl, hws, hu⟩
  · nofun
  · intro hmem
    rcases List.mem_append.mp hmem with hmem | hmem
    · exact (hws _ hmem).2 rfl
    · exact absurd (hu.plain.2 _ hmem) (by decide)

theorem dropWhile_space {ws u : Bytes} (hws : ∀ c ∈ ws, isspace c = true) (hu : ∀ c ∈ u.head?, isspace c = false) :
    (ws ++ u).dropWhile isspace = u := by
  rw [List.dropWhile_append_of_pos hws]
  cases u with
  | nil => rfl
  | cons c u => rw [List.dropWhile_cons_of_neg (by simp [hu c rfl])]

theorem NumText.unique {m : Int} (hm : NumText t m) (hn : NumText t n) : m = n := by
  have hdrop : ∀ {ws u : Bytes} {m : Int}, (∀ c ∈ ws, isspace c = true ∧ c ≠ chr ' ') → Numeral u m →
      (ws ++ u).dropWhile isspace = u ∧ ws ++ u ≠ [] := by
    intro ws u m hws hu
    obtain ⟨hne, hplain⟩ := hu.plain
    refine ⟨dropWhile_space (fun c hc => (hws c hc).1) fun c hc => hplain c (List.mem_of_mem_head? hc), ?_⟩
    simp [hne]
  rcases hm with ⟨rfl, rfl⟩ | ⟨ws, u, rfl, hws, hu⟩
  · rcases hn with ⟨-, rfl⟩ | ⟨ws, u, heq, hws, hu⟩
    · rfl
    · exact absurd heq.symm (hdrop hws hu).2
  · rcases hn with ⟨heq, -⟩ | ⟨ws', u', heq, hws', hu'⟩
    · exact absurd heq (hdrop hws hu).2
    · have h := (hdrop hws hu).1
      rw [heq, (hdrop hws' hu').1] at h
      subst h
      exact hu.unique hu'

theorem numText_iff (hblank : chr ' ' ∉ t) (hne : t ≠ []) : NumText t n ↔ Numeral (t.dropWhile isspace) n := by
  constructor
  · rintro (⟨rfl, -⟩ | ⟨ws, u, rfl, hws, hu⟩)
    · exact absurd rfl hne
    · rwa [dropWhile_space (fun c hc => (hws c hc).1) fun c hc => hu.plain.2 c (List.mem_of_mem_head? hc)]
  · intro h
    refine .inr ⟨t.takeWhile isspace, t.dropWhile isspace, List.takeWhile_append_dropWhile.symm, fun c hc => ?_, h⟩
    refine ⟨List.mem_takeWhile_imp hc, ?_⟩
    rintro rfl
    exact hblank ((List.takeWhile_prefix _).subset hc)

/-- Where there is only white space, nothing is read: a unit is no number. -/
theorem strtol_space (hzero : (0 : Byte) ∉ t ++ chr ' ' :: rest) (hspace : t.dropWhile isspace = [])
    (hunit : seconds (rest.takeWhile (· ≠ chr ' ')) = some k) :
    strtol 10 (t ++ chr ' ' :: rest) = (0, t ++ chr ' ' :: rest) := by
  obtain ⟨-, -, c, s, d, hu, hc, hminus, hplus, hdigit, hd⟩ := seconds_spec hunit
  obtain ⟨rest, rfl⟩ : ∃ rest', rest = c :: rest' := by
    have hsplit : rest.takeWhile (· ≠ chr ' ') ++ rest.dropWhile (· ≠ chr ' ') = rest := List.takeWhile_append_dropWhile
    rw [hu] at hsplit
    exact ⟨_, hsplit.symm⟩
  have hdrop : (t ++ chr ' ' :: c :: rest).dropWhile isspace = c :: rest := by
    rw [List.dropWhile_append, if_pos (by simp [hspace]), List.dropWhile_cons_of_pos (show isspace (chr ' ') = true from rfl),
      List.dropWhile_cons_of_neg (by simp [hc])]
  have hsign : readSign (c :: rest) = (false, c :: rest) := by
    unfold readSign
    simp [hminus, hplus]
  have hread : readDigits 10 0 (c :: rest) = (0, c :: rest) := by
    unfold readDigits
    simp only [hdigit, if_neg hd]
  rw [strtol_eq hzero, hdrop, strtolBody, hsign, hread]
  exact if_pos rfl

/-- **A number in front of its unit**: `strtol` stops at the blank behind it just when there is a number, or nothing. -/
theorem strtol_unit (hzero : (0 : Byte) ∉ t ++ chr ' ' :: rest) (hblank : chr ' ' ∉ t)
    (hunit : seconds (rest.takeWhile (· ≠ chr ' ')) = some k) :
    ((strtol 10 (t ++ chr ' ' :: rest)).2.head? = some (chr ' ') ↔ ∃ n, NumText t n) ∧
    ∀ n, NumText t n → (strtol 10 (t ++ chr ' ' :: rest)).1 = clampLong n := by
  by_cases hne : t = []
  · subst hne
    rw [strtol_space hzero rfl hunit]
    refine ⟨iff_of_true rfl ⟨0, .inl ⟨rfl, rfl⟩⟩, fun n hn => ?_⟩
    rw [hn.unique (.inl ⟨rfl, rfl⟩)]
    rfl
  simp only [numText_iff hblank hne]
  by_cases hspace : t.dropWhile isspace = []
  · -- white space only
    have hno : ∀ n, ¬ Numeral (t.dropWhile isspace) n := fun n hn => hn.plain.1 hspace
    refine ⟨iff_of_false ?_ fun ⟨n, hn⟩ => hno n hn, fun n hn => absurd hn (hno n)⟩
    obtain ⟨c, t, rfl⟩ := List.exists_cons_of_ne_nil hne
    rw [strtol_space hzero hspace hunit]
    intro h
    exact hblank (List.mem_cons.mpr (.inl (Option.some.inj h).symm))
  · have hzero' : (0 : Byte) ∉ t := fun h => hzero (List.mem_append_left _ h)
    have happend := strtol_append hzero (by rintro c ⟨⟩; rfl) (.inl hspace)
    have hend : (strtol 10 t).2 = [] ↔ ∃ n, Numeral (t.dropWhile isspace) n := by
      rw [strtol_eq hzero']
      constructor
      · intro h
        obtain ⟨n, hn, -⟩ := (strtolBody_iff hne).mp (Prod.ext rfl h)
        exact ⟨n, hn⟩
      · rintro ⟨n, hn⟩
        rw [(strtolBody_iff hne).mpr ⟨n, hn, rfl⟩]
    refine ⟨?_, fun n hn => ?_⟩
    · rw [← hend, happend]
      cases hrest : (strtol 10 t).2 with
      | nil => exact iff_of_true rfl rfl
      | cons c s =>
        have hmem : c ∈ t := (strtol_suffix hzero').subset (by rw [hrest]; exact List.mem_cons_self)
        refine iff_of_false (fun h => ?_) nofun
        exact hblank ((Option.some.inj h) ▸ hmem)
    · rw [happend, strtol_eq hzero', (strtolBody_iff hne).mpr ⟨n, hn, rfl⟩]

/-! ## The loop -/

def Item.added (i : Item) : Int := mulInt (toInt (clampLong i.num)) i.unit

def sumTime (retts : Int) (added : List Int) : Int := added.foldl (fun retts num => toTime (retts + num)) retts

theorem split_blank (h : chr ' ' ∈ s) : ∃ t rest, s = t ++ chr ' ' :: rest ∧ chr ' ' ∉ t := by
  obtain ⟨t, rest, rfl, ht⟩ := List.eq_append_cons_of_mem h
  exact ⟨t, rest, rfl, ht⟩

theorem takeWhile_blank (h : chr ' ' ∉ t) (rest : Bytes) : (t ++ chr ' ' :: rest).takeWhile (· ≠ chr ' ') = t := by
  rw [List.takeWhile_append_of_pos fun c hc => decide_eq_true (ne_of_mem_of_not_mem hc h)]
  simp

theorem dropWhile_blank (h : chr ' ' ∉ t) (rest : Bytes) :
    ((t ++ chr ' ' :: rest).dropWhile (· ≠ chr ' ')).tail = rest := by
  rw [List.dropWhile_append_of_pos fun c hc => decide_eq_true (ne_of_mem_of_not_mem hc h)]
  simp

theorem split_unique {t' rest' : Bytes} (ht : chr ' ' ∉ t) (ht' : chr ' ' ∉ t')
    (h : t ++ chr ' ' :: rest = t' ++ chr ' ' :: rest') : t = t' ∧ rest = rest' := by
  have hfirst := congrArg (List.takeWhile (· ≠ chr ' ')) h
  rw [takeWhile_blank ht, takeWhile_blank ht'] at hfirst
  have hbehind := congrArg (fun s => (s.dropWhile (· ≠ chr ' ')).tail) h
  rw [dropWhile_blank ht, dropWhile_blank ht'] at hbehind
  exact ⟨hfirst, hbehind⟩

theorem takeWhile_self (h : chr ' ' ∉ t) : t.takeWhile (· ≠ chr ' ') = t :=
  List.takeWhile_eq_self_iff.mpr fun _ hc => decide_eq_true (ne_of_mem_of_not_mem hc h)

/-- **One round of the loop**, for a text up to a blank and what is behind it. -/
theorem offsetLoop_round {fuel : Nat} (hzero : (0 : Byte) ∉ t ++ chr ' ' :: rest) (ht : chr ' ' ∉ t)
    (retts : Int) (added : List Int) (out : Int × List Int) :
    offsetLoop (fuel + 1) (t ++ chr ' ' :: rest) retts added = .ok out ↔
      ∃ n k, NumText t n ∧ seconds (rest.takeWhile (· ≠ chr ' ')) = some k ∧
        let num := (Item.mk t n k).added
        if chr ' ' ∈ rest then
          offsetLoop fuel (rest.dropWhile (· ≠ chr ' ')).tail (toTime (retts + num)) (added ++ [num]) = .ok out
        else (toTime (retts + num), added ++ [num]) = out := by
  have hlast : chr ' ' ∉ rest → seconds rest = seconds (rest.takeWhile (· ≠ chr ' ')) :=
    fun h => by rw [takeWhile_self h]
  rw [offsetLoop, if_neg (by simp), dropWhile_blank ht]
  dsimp only
  cases hk : seconds (rest.takeWhile (· ≠ chr ' ')) with
  | none =>
    rw [hk] at hlast
    refine iff_of_false ?_ (by simp)
    split_ifs with herr hmore
    · nofun
    · nofun
    · rw [hlast hmore]
      nofun
  | some k =>
    rw [hk] at hlast
    obtain ⟨hiff, hvalue⟩ := strtol_unit hzero ht hk
    by_cases hnum : ∃ n, NumText t n
    · obtain ⟨n, hn⟩ := hnum
      have hexists : ∀ P : Int → Int → Prop, (∃ m j, NumText t m ∧ some k = some j ∧ P m j) ↔ P n k := by
        intro P
        constructor
        · rintro ⟨m, j, hm, hj, hP⟩
          cases hj
          rwa [hm.unique hn] at hP
        · exact fun hP => ⟨n, k, hn, rfl, hP⟩
      rw [if_neg (not_not.mpr (hiff.mpr ⟨n, hn⟩)), hvalue n hn, hexists]
      dsimp only
      split_ifs with hmore
      · exact Iff.rfl
      · rw [hlast hmore]
        dsimp only
        rw [Except.ok.injEq]
        exact Iff.rfl
    · rw [if_pos fun h => hnum (hiff.mp h)]
      refine iff_of_false nofun ?_
      rintro ⟨n, -, hn, -⟩
      exact hnum ⟨n, hn⟩

theorem Spelled.first (h : Spelled (t ++ chr ' ' :: rest) items)
    (ht : chr ' ' ∉ t) : ∃ n k tail, NumText t n ∧ seconds (rest.takeWhile (· ≠ chr ' ')) = some k ∧
      items = ⟨t, n, k⟩ :: tail ∧
      if chr ' ' ∈ rest then Spelled (rest.dropWhile (· ≠ chr ' ')).tail tail else tail = [] := by
  generalize hs : t ++ chr ' ' :: rest = s at h
  cases h with
  | @last t' u n k ht' hu =>
    obtain ⟨rfl, rfl⟩ := split_unique ht ht'.blank hs
    obtain ⟨-, hblank, -⟩ := seconds_spec hu
    exact ⟨n, k, [], ht', by rwa [takeWhile_self hblank], rfl, by rw [if_neg hblank]⟩
  | @cons t' u s' n k tail ht' hu htail =>
    obtain ⟨rfl, rfl⟩ := split_unique ht ht'.blank hs
    obtain ⟨-, hblank, -⟩ := seconds_spec hu
    exact ⟨n, k, tail, ht', by rwa [takeWhile_blank hblank], rfl,
      by rwa [if_pos (by simp), dropWhile_blank hblank]⟩

/-- **What the loop accepts**, and what it adds up. -/
theorem offsetLoop_spelled {fuel : Nat} (hfuel : ts.length < fuel) (hzero : (0 : Byte) ∉ ts)
    (retts : Int) (added : List Int) (out : Int × List Int) :
    offsetLoop fuel ts retts added = .ok out ↔
      ∃ items, Spelled ts items ∧ out = (sumTime retts (items.map Item.added), added ++ items.map Item.added) := by
  induction fuel generalizing ts retts added with
  | zero => exact absurd hfuel (Nat.not_lt_zero _)
  | succ fuel ih =>
    by_cases hblank : chr ' ' ∈ ts
    · obtain ⟨t, rest, rfl, ht⟩ := split_blank hblank
      rw [offsetLoop_round hzero ht]
      dsimp only
      by_cases hmore : chr ' ' ∈ rest
      · -- a unit, and more behind it
        obtain ⟨u, s, rfl, hu⟩ := split_blank hmore
        simp only [hmore, if_true, takeWhile_blank hu, dropWhile_blank hu]
        have hlen : s.length < fuel := by
          simp only [List.length_append, List.length_cons] at hfuel
          omega
        have hzero' : (0 : Byte) ∉ s := fun h => hzero (by simp [h])
        constructor
        · rintro ⟨n, k, hn, hk, hrest⟩
          obtain ⟨items, hitems, rfl⟩ := (ih hlen hzero' _ _).mp hrest
          exact ⟨⟨t, n, k⟩ :: items, .cons hn hk hitems, by simp [sumTime]⟩
        · rintro ⟨items, hitems, rfl⟩
          obtain ⟨n, k, tail, hn, hk, rfl, htail⟩ := hitems.first ht
          rw [if_pos hmore, dropWhile_blank hu] at htail
          rw [takeWhile_blank hu] at hk
          exact ⟨n, k, hn, hk, (ih hlen hzero' _ _).mpr ⟨tail, htail, by simp [sumTime]⟩⟩
      · -- the last unit
        simp only [hmore, if_false, takeWhile_self hmore]
        constructor
        · rintro ⟨n, k, hn, hk, rfl⟩
          exact ⟨[⟨t, n, k⟩], .last hn hk, rfl⟩
        · rintro ⟨items, hitems, rfl⟩
          obtain ⟨n, k, tail, hn, hk, rfl, htail⟩ := hitems.first ht
          rw [if_neg hmore] at htail
          rw [takeWhile_self hmore] at hk
          subst htail
          exact ⟨n, k, hn, hk, rfl⟩
    · rw [offsetLoop, if_pos hblank]
      refine iff_of_false nofun ?_
      rintro ⟨items, hitems, -⟩
      cases hitems with
      | last => exact hblank (by simp)
      | cons => exact hblank (by simp)

/-! ## The whole string -/

theorem Spelled.unique {items' : List Item} (h : Spelled s items) (h' : Spelled s items') : items = items' := by
  induction h generalizing items' with
  | @last t u n k ht hu =>
    obtain ⟨-, hblank, -⟩ := seconds_spec hu
    obtain ⟨m, j, tail, hm, hj, rfl, htail⟩ := h'.first ht.blank
    rw [takeWhile_self hblank, hu] at hj
    rw [if_neg hblank] at htail
    cases hj
    rw [hm.unique ht, htail]
  | @cons t u s n k items ht hu _ ih =>
    obtain ⟨-, hblank, -⟩ := seconds_spec hu
    obtain ⟨m, j, tail, hm, hj, rfl, htail⟩ := h'.first ht.blank
    rw [takeWhile_blank hblank, hu] at hj
    rw [if_pos (by simp), dropWhile_blank hblank] at htail
    cases hj
    rw [hm.unique ht, ih htail]

theorem Spelled.unit_pos (h : Spelled s items) : ∀ i ∈ items, 1 ≤ i.unit := by
  induction h with
  | last _ hu => simpa using (seconds_spec hu).1
  | cons _ hu _ ih =>
    rw [List.forall_mem_cons]
    exact ⟨(seconds_spec hu).1, ih⟩

/-- No number begins with `plus`. -/
theorem Spelled.not_plus (h : Spelled s items) : ¬ ascii "plus " <+: s := by
  rintro ⟨rest, rfl⟩
  have hsplit : ascii "plus " ++ rest = ascii "plus" ++ chr ' ' :: rest := rfl
  rw [hsplit] at h
  obtain ⟨n, -, -, hn, -⟩ := h.first (by decide)
  have hnum := (numText_iff (by decide) (by decide)).mp hn
  obtain ⟨v, hv, -⟩ := numeral_iff.mp hnum
  cases hv

theorem skipPlus_iff :
    Spelled (skipPlus ts) items ↔ ∃ plus ∈ [[], ascii "plus "], ∃ s, ts = plus ++ s ∧ Spelled s items := by
  unfold skipPlus
  split_ifs with hplus
  · obtain ⟨rest, rfl⟩ := List.isPrefixOf_iff_prefix.mp hplus
    have hdrop : (ascii "plus " ++ rest).drop 5 = rest := List.drop_left' rfl
    rw [hdrop]
    constructor
    · exact fun h => ⟨ascii "plus ", by simp, rest, rfl, h⟩
    · rintro ⟨plus, hmem, s, hs, h⟩
      simp only [List.mem_cons, List.not_mem_nil, or_false] at hmem
      rcases hmem with rfl | rfl
      · exact absurd ⟨rest, hs⟩ h.not_plus
      · rwa [List.append_cancel_left hs]
  · constructor
    · exact fun h => ⟨[], by simp, ts, rfl, h⟩
    · rintro ⟨plus, hmem, s, rfl, h⟩
      simp only [List.mem_cons, List.not_mem_nil, or_false] at hmem
      rcases hmem with rfl | rfl
      · exact h
      · exact absurd (List.isPrefixOf_iff_prefix.mpr (List.prefix_append _ _)) hplus

theorem splitBase_iff : splitBase ts = some (base, rest) ↔ ∃ name, (name, base) ∈ baseNames ∧ ts = name ++ rest := by
  constructor
  · intro h
    unfold splitBase at h
    split_ifs at h with h1 h2 h3
    · obtain ⟨s, rfl⟩ := List.isPrefixOf_iff_prefix.mp h1
      cases h
      exact ⟨ascii "access ", by simp [baseNames], rfl⟩
    · obtain ⟨s, rfl⟩ := List.isPrefixOf_iff_prefix.mp h2
      cases h
      exact ⟨ascii "now ", by simp [baseNames], rfl⟩
    · obtain ⟨s, rfl⟩ := List.isPrefixOf_iff_prefix.mp h3
      cases h
      exact ⟨ascii "modification ", by simp [baseNames], rfl⟩
  · rintro ⟨name, hmem, rfl⟩
    simp only [baseNames, List.mem_cons, Prod.mk.injEq, List.not_mem_nil, or_false] at hmem
    rcases hmem with ⟨rfl, rfl⟩ | ⟨rfl, rfl⟩ | ⟨rfl, rfl⟩ <;> rfl

theorem value_iff : Value s base items ↔ ∃ rest, splitBase s = some (base, rest) ∧ Spelled (skipPlus rest) items := by
  constructor
  · rintro ⟨hname, hplus, hs⟩
    exact ⟨_, Iff.mpr splitBase_iff ⟨_, hname, rfl⟩, Iff.mpr skipPlus_iff ⟨_, hplus, _, rfl, hs⟩⟩
  · rintro ⟨rest, hbase, hs⟩
    obtain ⟨name, hname, rfl⟩ := Iff.mp splitBase_iff hbase
    obtain ⟨plus, hplus, s, rfl, hitems⟩ := Iff.mp skipPlus_iff hs
    exact .mk hname hplus hitems

theorem Value.unique {base' : Base} {items' : List Item} (h : Value s base items)
    (h' : Value s base' items') : items = items' := by
  obtain ⟨rest, hbase, hs⟩ := Iff.mp value_iff h
  obtain ⟨rest', hbase', hs'⟩ := Iff.mp value_iff h'
  rw [hbase] at hbase'
  cases hbase'
  exact hs.unique hs'

theorem Value.unit_pos (h : Value s base items) : ∀ i ∈ items, 1 ≤ i.unit := by
  obtain ⟨rest, -, hs⟩ := Iff.mp value_iff h
  exact hs.unit_pos

/-- What is behind the base and `plus` is a part of the string. -/
theorem rest_part (h : splitBase s = some (base, rest)) : skipPlus rest <:+ s := by
  obtain ⟨name, -, rfl⟩ := Iff.mp splitBase_iff h
  refine List.IsSuffix.trans ?_ (List.suffix_append name rest)
  unfold skipPlus
  split_ifs
  · exact List.drop_suffix _ _
  · exact List.suffix_refl _

/-- **What `mod_expire_get_offset` accepts**, and what it gives. -/
theorem getOffset_iff {expire : Bytes} {off : Offset} :
    getOffset expire = .ok off ↔ ∃ items, Value (cstr expire) off.base items ∧
      off.retts = sumTime 0 (items.map Item.added) ∧ off.added = items.map Item.added := by
  simp only [value_iff]
  unfold getOffset
  by_cases hempty : expire = []
  · subst hempty
    rw [if_pos rfl]
    refine iff_of_false nofun ?_
    rintro ⟨items, ⟨rest, hbase, -⟩, -⟩
    cases hbase
  rw [if_neg hempty]
  cases hsplit : splitBase (cstr expire) with
  | none => simp
  | some split =>
    obtain ⟨base, rest⟩ := split
    have hpart := rest_part hsplit
    have hzero : (0 : Byte) ∉ skipPlus rest := fun h => by simpa using List.mem_takeWhile_imp (hpart.subset h)
    have hloop := offsetLoop_spelled (Nat.lt_succ_of_le hpart.length_le) hzero 0 []
    dsimp only
    constructor
    · intro h
      cases hout : offsetLoop ((cstr expire).length + 1) (skipPlus rest) 0 [] with
      | error e =>
        rw [hout] at h
        cases h
      | ok out =>
        rw [hout] at h
        cases h
        obtain ⟨items, hitems, rfl⟩ := (hloop out).mp hout
        exact ⟨items, ⟨rest, rfl, hitems⟩, rfl, rfl⟩
    · rintro ⟨items, ⟨rest', hrest, hitems⟩, hretts, hadded⟩
      obtain ⟨hbase, rfl⟩ := Prod.mk.inj (Option.some.inj hrest)
      rw [(hloop _).mpr ⟨items, hitems, rfl⟩]
      obtain ⟨base', retts, added⟩ := off
      subst hbase hretts hadded
      rfl

/-! ## Exact offsets -/

theorem toInt_bounds (n : Int) : -2 ^ 31 ≤ toInt n ∧ toInt n < 2 ^ 31 :=
  ⟨Int.le_bmod (by decide), Int.bmod_lt (by decide)⟩

theorem toInt_self (hlow : -2 ^ 31 ≤ n) (hhigh : n < 2 ^ 31) : toInt n = n :=
  Int.bmod_eq_of_le hlow hhigh

/-- **A product that fits comes out as it is**, and no other does. -/
theorem added_eq_iff {i : Item} (hunit : 1 ≤ i.unit) :
    i.added = i.seconds ↔ -2 ^ 31 ≤ i.seconds ∧ i.seconds < 2 ^ 31 := by
  constructor
  · intro h
    rw [← h]
    exact toInt_bounds _
  · rintro ⟨hlow, hhigh⟩
    -- the number is not larger than the product
    have hnum : -2 ^ 31 ≤ i.num ∧ i.num < 2 ^ 31 := by
      unfold Item.seconds at hlow hhigh
      rcases Int.le_total 0 i.num with hpos | hneg
      · have := Int.mul_le_mul_of_nonneg_left hunit hpos
        omega
      · have := Int.mul_le_mul_of_nonpos_left hneg hunit
        omega
    have hclamp : clampLong i.num = i.num := by
      have : (longMax : Int) = 2 ^ 63 - 1 := rfl
      unfold clampLong
      omega
    unfold Item.added mulInt
    rw [hclamp, toInt_self hnum.1 hnum.2]
    exact toInt_self hlow hhigh

theorem sumTime_eq (r : Int) (added : List Int) : sumTime (toTime r) added = toTime (r + added.sum) := by
  induction added generalizing r with
  | nil => simp [sumTime]
  | cons num added ih =>
    have hstep : toTime (toTime r + num) = toTime (r + num) := Int.bmod_add_bmod
    rw [List.sum_cons, ← Int.add_assoc, ← ih, ← hstep]
    rfl

theorem toTime_eq_iff : toTime n = n ↔ -2 ^ 63 ≤ n ∧ n < 2 ^ 63 := by
  constructor
  · intro h
    rw [← h]
    exact ⟨Int.le_bmod (by decide), Int.bmod_lt (by decide)⟩
  · rintro ⟨hlow, hhigh⟩
    exact Int.bmod_eq_of_le hlow hhigh

/-- The offset of a string that is accepted is exact: the string is a base and numbers with units, no product is changed,
and the offset is their sum. -/
def OffsetExact (expire : Bytes) : Prop :=
  ∀ off, getOffset expire = .ok off → ∃ items, Value (cstr expire) off.base items ∧
    (∀ i ∈ items, Numeral i.text i.num) ∧ off.added = items.map Item.seconds ∧ off.retts = (items.map Item.seconds).sum

/-- Every number is written down as such, and fits with its unit in an `int`, and the sum in a `time_t`. -/
def InRange (expire : Bytes) : Prop :=
  ∀ base items, Value (cstr expire) base items →
    (∀ i ∈ items, Numeral i.text i.num ∧ -2 ^ 31 ≤ i.seconds ∧ i.seconds < 2 ^ 31) ∧
    -2 ^ 63 ≤ (items.map Item.seconds).sum ∧ (items.map Item.seconds).sum < 2 ^ 63

theorem offsetExact_iff (expire : Bytes) : OffsetExact expire ↔ InRange expire := by
  constructor
  · intro h base items hvalue
    obtain ⟨items', hvalue', hnum, hadded, hretts⟩ :=
      h ⟨base, sumTime 0 (items.map Item.added), items.map Item.added⟩ (getOffset_iff.mpr ⟨items, hvalue, rfl, rfl⟩)
    obtain rfl := hvalue.unique hvalue'
    dsimp only at hadded hretts
    have hexact : ∀ i ∈ items, i.added = i.seconds := List.map_inj_left.mp hadded
    rw [hadded] at hretts
    refine ⟨fun i hi => ⟨hnum i hi, (added_eq_iff (hvalue.unit_pos i hi)).mp (hexact i hi)⟩, ?_⟩
    have hsum := sumTime_eq 0 (items.map Item.seconds)
    rw [Int.zero_add] at hsum
    exact Iff.mp toTime_eq_iff (hsum.symm.trans hretts)
  · intro h off hoff
    obtain ⟨items, hvalue, hretts, hadded⟩ := getOffset_iff.mp hoff
    obtain ⟨hitems, hsum⟩ := h off.base items hvalue
    have hexact : items.map Item.added = items.map Item.seconds :=
      List.map_inj_left.mpr fun i hi => (added_eq_iff (hvalue.unit_pos i hi)).mpr (hitems i hi).2
    rw [hexact] at hretts hadded
    have hfold := sumTime_eq 0 (items.map Item.seconds)
    rw [Int.zero_add, Iff.mpr toTime_eq_iff hsum] at hfold
    exact ⟨items, hvalue, fun i hi => (hitems i hi).1, hadded, hretts.trans hfold⟩

/-! ## `mod_expire_path_handler` -/

/-- What the handler does: it may set no header, return `HANDLER_ERROR`, or read the result `NULL` of `gmtime`. -/
inductive Handled
  | goOn
  | error
  | crash
  | headers (expires cacheControl : Bytes)
deriving DecidableEq, Repr

def setHeaders (curTs expires : Int) : Handled :=
  -- expires should be at least srv->cur_ts
  let expires := if expires < curTs then curTs else expires
  match rfcDate expires with
  | none => .crash
  | some date => .headers date (ascii "max-age=" ++ liItostrn (expires - curTs))

/-- `mod_expire_path_handler`, for the entries of `expire.url` with their keys. The time of the file is `none` if there is
no file. -/
def pathHandler (path : Bytes) (curTs : Int) (mtime : Option Int) : List (Option Bytes × Bytes) → Handled
  | [] => .goOn
  | (key, value) :: expireUrl =>
    match key with
    | none => pathHandler path curTs mtime expireUrl
    | some key =>
      if key.length ≤ path.length ∧ strncmpEqual path key key.length = true then
        match getOffset value with
        | .error _ => .error
        | .ok off =>
          match off.base, mtime with
          | .access, _ => setHeaders curTs (toTime (off.retts + curTs))
          | .modification, none => .goOn
          | .modification, some mtime => setHeaders curTs (toTime (off.retts + mtime))
      else pathHandler path curTs mtime expireUrl

/-- The two headers name the same time, which is not before the present one. -/
def Agree (curTs : Int) (expires cacheControl : Bytes) : Prop :=
  ∃ age : Int, 0 ≤ age ∧ cacheControl = ascii "max-age=" ++ liItostrn age ∧ rfcDate (curTs + age) = some expires

theorem setHeaders_agree {curTs t : Int} {expires cacheControl : Bytes}
    (h : setHeaders curTs t = .headers expires cacheControl) : Agree curTs expires cacheControl := by
  unfold setHeaders at h
  dsimp only at h
  split at h
  · cases h
  · next date hdate =>
    cases h
    refine ⟨_, ?_, rfl, ?_⟩
    · split_ifs <;> omega
    · rwa [show ∀ t, curTs + (t - curTs) = t by omega]

/-- **`Expires` and `max-age` agree**, and are never negative. -/
theorem pathHandler_agree {path : Bytes} {curTs : Int} {mtime : Option Int} {expireUrl : List (Option Bytes × Bytes)}
    {expires cacheControl : Bytes} (h : pathHandler path curTs mtime expireUrl = .headers expires cacheControl) :
    Agree curTs expires cacheControl := by
  induction expireUrl with
  | nil => cases h
  | cons entry expireUrl ih =>
    obtain ⟨key, value⟩ := entry
    cases key with
    | none => exact ih h
    | some key =>
      rw [pathHandler] at h
      split_ifs at h with hkey
      · split at h
        · cases h
        · split at h
          · exact setHeaders_agree h
          · cases h
          · exact setHeaders_agree h
      · exact ih h

/-- **When offsets are exact**: every number of the value is written as such and fits with its unit in an `int`, and the sum
in a `time_t`. The headers agree in any case. -/
theorem expire_iff (expire : Bytes) :
    (OffsetExact expire ∧ ∀ path curTs mtime expireUrl expires cacheControl,
      pathHandler path curTs mtime expireUrl = .headers expires cacheControl → Agree curTs expires cacheControl) ↔
    InRange expire := by
  rw [offsetExact_iff]
  exact and_iff_left fun _ _ _ _ _ _ => pathHandler_agree

/-- 200 years do not fit in an `int`; and days without a number are taken for none. -/
theorem expire_years : ¬ OffsetExact (ascii "access 200 years") ∧ ¬ OffsetExact (ascii "access  days") := by
  simp only [offsetExact_iff]
  constructor
  · intro h
    have hnum : NumText (ascii "200") 200 := .inr ⟨[], _, rfl, nofun, numeral_iff.mpr ⟨200, by decide, rfl⟩⟩
    have hvalue : Value (cstr (ascii "access 200 years")) .access [⟨ascii "200", 200, 60 * 60 * 24 * 30 * 12⟩] :=
      @Value.mk (ascii "access ") [] _ _ _ (by decide) (by decide) (.last hnum rfl)
    exact absurd ((h _ _ hvalue).1 _ List.mem_cons_self).2.2 (by decide)
  · intro h
    have hvalue : Value (cstr (ascii "access  days")) .access [⟨[], 0, 60 * 60 * 24⟩] :=
      @Value.mk (ascii "access ") [] _ _ _ (by decide) (by decide) (.last (.inl ⟨rfl, rfl⟩) rfl)
    exact absurd rfl ((h _ _ hvalue).1 _ List.mem_cons_self).1.plain.1

end Lighttpd.Expire
