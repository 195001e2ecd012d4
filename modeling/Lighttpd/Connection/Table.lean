import Mathlib.Data.List.Basic
import Mathlib.Data.List.Nodup
import Mathlib.Logic.Function.Basic
import Lighttpd.Lib.Run

/-!
# The table of connections (`connections.c`)

`srv->conns` holds all connections that have ever been made. Those in use are in front of the others: a new connection
is taken from behind them, and a closed one is swapped with the last of them. `con->ndx` is the place of a connection in
use, and `-1` for the others.

- `step_ok`: each operation succeeds and keeps the table in order;
- `connections_listed`: what this means for every run.
-/

namespace Lighttpd

/-- `connections`, and the field `ndx` of each connection. `made` counts the calls of `connection_init`, and a connection
is named by its number among them. -/
structure Connections where
  ptr : List Nat
  size : Nat
  used : Nat
  ndx : Nat → Int
  made : Nat

namespace Connections

/-- `srv->conns` when the server starts. -/
def init : Connections := ⟨[], 0, 0, fun _ => -1, 0⟩

/-- `n` calls of `connection_init`, whose results go behind the others. -/
def grow (conns : Connections) (n : Nat) : Connections :=
  { conns with
    ptr := conns.ptr ++ List.range' conns.made n
    size := conns.size + n
    ndx := fun con => if conns.made ≤ con then -1 else conns.ndx con
    made := conns.made + n }

def getNewConnection (conns : Connections) : Option (Nat × Connections) :=
  let conns :=
    if conns.size = 0 then { conns with ptr := [] }.grow 128
    else if conns.size = conns.used then conns.grow 128
    else conns
  conns.ptr[conns.used]?.map fun con =>
    (con, { conns with ndx := Function.update conns.ndx con conns.used, used := conns.used + 1 })

def swapLast (conns : Connections) (i : Nat) : Option Connections := do
  let temp ← conns.ptr[i]?
  let last ← conns.ptr[conns.used - 1]?
  return { conns with
    ptr := (conns.ptr.set i last).set (conns.used - 1) temp
    ndx := Function.update (Function.update conns.ndx last i) temp (-1) }

/-- `connection_del`, and whether it returns `0`. -/
def del (conns : Connections) (con : Option Nat) : Option (Bool × Connections) :=
  match con with
  | none => some (false, conns)
  | some con =>
    if conns.ndx con = -1 then some (false, conns)
    else
      let i := (conns.ndx con).toNat
      (if i ≠ conns.used - 1 then conns.swapLast i else some conns).map fun conns =>
        (true, { conns with used := conns.used - 1, ndx := Function.update conns.ndx con (-1) })

/-! ## Order -/

/-- **The table is in order**: every connection that has been made is in it once, and `ndx` is the place of those in
use. -/
structure Ok (conns : Connections) : Prop where
  length : conns.ptr.length = conns.size
  used : conns.used ≤ conns.size
  nodup : conns.ptr.Nodup
  mem : ∀ con, con ∈ conns.ptr ↔ con < conns.made
  ndx : ∀ i con, conns.ptr[i]? = some con → conns.ndx con = if i < conns.used then (i : Int) else -1
  unmade : ∀ con, conns.made ≤ con → conns.ndx con = -1

variable {conns conns' : Connections}

theorem init_ok : Ok init := ⟨rfl, Nat.le_refl 0, List.nodup_nil, by simp [init], by simp [init], fun _ _ => rfl⟩

variable {con : Nat} {s : Connections × List Nat}

theorem Ok.place_unique (h : Ok conns) {i j : Nat} (hi : conns.ptr[i]? = some con)
    (hj : conns.ptr[j]? = some con) : i = j := by
  obtain ⟨hi', rfl⟩ := List.getElem?_eq_some_iff.mp hi
  obtain ⟨hj', heq⟩ := List.getElem?_eq_some_iff.mp hj
  exact (h.nodup.getElem_inj_iff.mp heq).symm

theorem Ok.place (h : Ok conns) (hndx : conns.ndx con ≠ -1) :
    ∃ i, i < conns.used ∧ conns.ptr[i]? = some con ∧ conns.ndx con = i := by
  have hmade : con < conns.made := by
    by_contra hnot
    exact hndx (h.unmade con (Nat.le_of_not_lt hnot))
  obtain ⟨i, hi⟩ := List.mem_iff_getElem?.mp ((h.mem con).mpr hmade)
  have hplace := h.ndx i con hi
  split at hplace
  · rename_i hlt
    exact ⟨i, hlt, hi, hplace⟩
  · exact absurd hplace hndx

theorem grow_ok (h : Ok conns) (n : Nat) : Ok (conns.grow n) where
  length := by simp [grow, h.length]
  used := by
    have := h.used
    show conns.used ≤ conns.size + n
    omega
  nodup := by
    refine List.nodup_append.mpr ⟨h.nodup, List.nodup_range', ?_⟩
    rintro con hcon _ hnew rfl
    have hold : con < conns.made := (h.mem con).mp hcon
    exact absurd (List.mem_range'_1.mp hnew).1 (Nat.not_le_of_lt hold)
  mem := by
    intro con
    show con ∈ conns.ptr ++ List.range' conns.made n ↔ (con : Nat) < conns.made + n
    rw [List.mem_append, List.mem_range'_1, h.mem con]
    omega
  ndx := by
    intro i con hi
    show (if conns.made ≤ con then -1 else conns.ndx con) = if i < conns.used then (i : Int) else -1
    have hi' : (conns.ptr ++ List.range' conns.made n)[i]? = some con := hi
    rw [List.getElem?_append] at hi'
    split at hi'
    · have hold : con < conns.made := (h.mem con).mp (List.mem_of_getElem? hi')
      rw [if_neg (Nat.not_le_of_lt hold)]
      exact h.ndx i con hi'
    · rename_i hlen
      have hnew := (List.mem_range'_1.mp (List.mem_of_getElem? hi')).1
      have := h.used
      have := h.length
      rw [if_pos hnew, if_neg (by omega)]
  unmade := by
    intro con hcon
    show (if conns.made ≤ con then -1 else conns.ndx con) = -1
    have hcon' : conns.made + n ≤ con := hcon
    rw [if_pos (by omega)]

/-- `ndx` is `-1` for new connections. -/
theorem grow_ndx (h : Ok conns) (n con : Nat) : (conns.grow n).ndx con = conns.ndx con := by
  show (if conns.made ≤ con then -1 else conns.ndx con) = _
  split
  · rename_i hle
    exact (h.unmade con hle).symm
  · rfl

theorem room_ok (h : Ok conns) : ∃ conns', Ok conns' ∧ conns'.used = conns.used ∧ conns'.used < conns'.size ∧
    (∀ con, conns'.ndx con = conns.ndx con) ∧
    (if conns.size = 0 then { conns with ptr := [] }.grow 128
      else if conns.size = conns.used then conns.grow 128 else conns) = conns' := by
  have hused := h.used
  by_cases hzero : conns.size = 0
  · have hlength := h.length
    rw [hzero, List.length_eq_zero_iff] at hlength
    have hnil : { conns with ptr := [] } = conns := by rw [← hlength]
    rw [if_pos hzero, hnil]
    refine ⟨_, grow_ok h 128, rfl, ?_, grow_ndx h 128, rfl⟩
    show conns.used < conns.size + 128
    omega
  · rw [if_neg hzero]
    by_cases hfull : conns.size = conns.used
    · rw [if_pos hfull]
      refine ⟨_, grow_ok h 128, rfl, ?_, grow_ndx h 128, rfl⟩
      show conns.used < conns.size + 128
      omega
    · rw [if_neg hfull]
      exact ⟨conns, h, rfl, by omega, fun _ => rfl, rfl⟩

/-! ## The operations -/

/-- **`connections_get_new_connection`** takes a connection that is not in use. -/
theorem getNewConnection_ok (h : Ok conns) : ∃ con conns', conns.getNewConnection = some (con, conns') ∧ Ok conns' ∧
    conns.ndx con = -1 ∧ ∀ other, conns'.ndx other ≠ -1 ↔ other = con ∨ conns.ndx other ≠ -1 := by
  obtain ⟨conns₁, h₁, hused, hroom, hndx, heq⟩ := room_ok h
  have hlt : conns₁.used < conns₁.ptr.length := by
    rw [h₁.length]
    exact hroom
  have hget := List.getElem?_eq_getElem hlt
  generalize conns₁.ptr[conns₁.used] = con at hget
  have hfree : conns₁.ndx con = -1 := by
    rw [h₁.ndx _ _ hget, if_neg (Nat.lt_irrefl _)]
  refine ⟨con, { conns₁ with ndx := Function.update conns₁.ndx con conns₁.used, used := conns₁.used + 1 }, ?_,
    ⟨h₁.length, hroom, h₁.nodup, h₁.mem, ?_, ?_⟩, (hndx con).symm.trans hfree, ?_⟩
  · unfold getNewConnection
    rw [heq]
    simp only [hget, Option.map_some]
  · intro i other hi
    show Function.update conns₁.ndx con _ other = if i < conns₁.used + 1 then (i : Int) else -1
    by_cases hother : other = con
    · subst hother
      rw [h₁.place_unique hi hget, Function.update_self, if_pos (Nat.lt_succ_self _)]
    · have hne : i ≠ conns₁.used := by
        rintro rfl
        exact hother (Option.some.inj (hi.symm.trans hget))
      rw [Function.update_of_ne hother, h₁.ndx i other hi]
      by_cases hi' : i < conns₁.used
      · rw [if_pos hi', if_pos (by omega)]
      · rw [if_neg hi', if_neg (by omega)]
  · intro other hother
    have hne : other ≠ con := by
      rintro rfl
      exact Nat.not_le_of_lt ((h₁.mem other).mp (List.mem_of_getElem? hget)) hother
    show Function.update conns₁.ndx con _ other = -1
    rw [Function.update_of_ne hne, h₁.unmade other hother]
  · intro other
    show Function.update conns₁.ndx con _ other ≠ -1 ↔ _
    by_cases hother : other = con
    · rw [hother, Function.update_self]
      exact iff_of_true (by omega) (Or.inl rfl)
    · rw [Function.update_of_ne hother, hndx other]
      simp [hother]

/-- The last connection in use, and the one that is to be closed, change places. -/
theorem swapLast_ok (h : Ok conns) {i : Nat} (hi : i < conns.used) (hcon : conns.ptr[i]? = some con)
    (hne : i ≠ conns.used - 1) : ∃ conns', conns.swapLast i = some conns' ∧
      Ok { conns' with used := conns'.used - 1, ndx := Function.update conns'.ndx con (-1) } ∧
      ∀ other, other ≠ con → (conns'.ndx other ≠ -1 ↔ conns.ndx other ≠ -1) := by
  have hlength := h.length
  have hused := h.used
  have hlast : conns.used - 1 < conns.ptr.length := by omega
  have hlt : i < conns.ptr.length := by omega
  have hget := List.getElem?_eq_getElem hlast
  have hcon' : conns.ptr[i] = con := Option.some.inj ((List.getElem?_eq_getElem hlt).symm.trans hcon)
  have hdiff : conns.ptr[conns.used - 1] ≠ con := by
    rw [← hcon']
    exact fun heq => hne (h.nodup.getElem_inj_iff.mp heq).symm
  have hperm : ((conns.ptr.set i conns.ptr[conns.used - 1]).set (conns.used - 1) con).Perm conns.ptr := by
    rw [← hcon']
    exact List.set_set_perm hlt hlast
  have hplace : conns.ndx conns.ptr[conns.used - 1] ≠ -1 := by
    rw [h.ndx _ _ hget, if_pos (by omega)]
    omega
  generalize conns.ptr[conns.used - 1] = last at hget hdiff hperm hplace
  refine ⟨{ conns with
    ptr := (conns.ptr.set i last).set (conns.used - 1) con
    ndx := Function.update (Function.update conns.ndx last i) con (-1) }, ?_,
    ⟨?_, ?_, hperm.nodup_iff.mpr h.nodup, fun other => hperm.mem_iff.trans (h.mem other), ?_, ?_⟩, ?_⟩
  · simp [swapLast, hcon, hget]
  · simp [hlength]
  · show conns.used - 1 ≤ conns.size
    omega
  · intro k other hk
    have hk' : ((conns.ptr.set i last).set (conns.used - 1) con)[k]? = some other := hk
    show Function.update (Function.update (Function.update conns.ndx last i) con (-1)) con (-1) other =
      if k < conns.used - 1 then (k : Int) else -1
    rw [Function.update_idem]
    by_cases hklast : k = conns.used - 1
    · subst hklast
      rw [List.getElem?_set_self (by simpa using hlast)] at hk'
      rw [← Option.some.inj hk', Function.update_self, if_neg (Nat.lt_irrefl _)]
    · rw [List.getElem?_set_ne (Ne.symm hklast)] at hk'
      by_cases hki : k = i
      · subst hki
        rw [List.getElem?_set_self hlt] at hk'
        rw [← Option.some.inj hk', Function.update_of_ne hdiff, Function.update_self, if_pos (by omega)]
      · rw [List.getElem?_set_ne (Ne.symm hki)] at hk'
        have hothercon : other ≠ con := fun heq => hki (h.place_unique hk' (heq ▸ hcon))
        have hotherlast : other ≠ last := fun heq => hklast (h.place_unique hk' (heq ▸ hget))
        rw [Function.update_of_ne hothercon, Function.update_of_ne hotherlast, h.ndx k other hk']
        by_cases hk'' : k < conns.used
        · rw [if_pos hk'', if_pos (by omega)]
        · rw [if_neg hk'', if_neg (by omega)]
  · intro other hother
    have hmem : ∀ j c, conns.ptr[j]? = some c → other ≠ c := fun j c hc heq =>
      Nat.not_le_of_lt ((h.mem c).mp (List.mem_of_getElem? hc)) (heq ▸ hother)
    show Function.update (Function.update (Function.update conns.ndx last i) con (-1)) con (-1) other = -1
    rw [Function.update_idem, Function.update_of_ne (hmem i con hcon), Function.update_of_ne (hmem _ last hget)]
    exact h.unmade other hother
  · intro other hother
    show Function.update (Function.update conns.ndx last i) con (-1) other ≠ -1 ↔ _
    rw [Function.update_of_ne hother]
    by_cases hotherlast : other = last
    · rw [hotherlast, Function.update_self]
      exact iff_of_true (by omega) hplace
    · rw [Function.update_of_ne hotherlast]

/-- **`connection_del`** takes the connection out of use, whatever it is. -/
theorem del_ok (h : Ok conns) (con : Option Nat) : ∃ ok conns', conns.del con = some (ok, conns') ∧ Ok conns' ∧
    ∀ other, conns'.ndx other ≠ -1 ↔ some other ≠ con ∧ conns.ndx other ≠ -1 := by
  cases con with
  | none => exact ⟨false, conns, rfl, h, by simp⟩
  | some con =>
    by_cases hfree : conns.ndx con = -1
    · refine ⟨false, conns, by simp [del, hfree], h, fun other => ⟨fun hne => ⟨?_, hne⟩, And.right⟩⟩
      rintro heq
      exact hne (Option.some.inj heq ▸ hfree)
    · obtain ⟨i, hi, hcon, hndx⟩ := h.place hfree
      have htoNat : (conns.ndx con).toNat = i := by
        rw [hndx]
        rfl
      have hrest : ∀ conns' : Connections, (∀ other, other ≠ con → (conns'.ndx other ≠ -1 ↔ conns.ndx other ≠ -1)) →
          ∀ other, Function.update conns'.ndx con (-1) other ≠ -1 ↔ some other ≠ some con ∧ conns.ndx other ≠ -1 := by
        intro conns' hkeep other
        by_cases hother : other = con
        · rw [hother, Function.update_self]
          exact iff_of_false (by simp) (by simp)
        · rw [Function.update_of_ne hother, hkeep other hother]
          simp [hother]
      by_cases hlast : i = conns.used - 1
      · refine ⟨true, { conns with used := conns.used - 1, ndx := Function.update conns.ndx con (-1) },
          by simp [del, hfree, htoNat, hlast], ⟨h.length, ?_, h.nodup, h.mem, ?_, ?_⟩, hrest conns fun _ _ => Iff.rfl⟩
        · have := h.used
          show conns.used - 1 ≤ conns.size
          omega
        · intro k other hk
          show Function.update conns.ndx con (-1) other = if k < conns.used - 1 then (k : Int) else -1
          by_cases hother : other = con
          · rw [hother] at hk ⊢
            rw [Function.update_self, h.place_unique hk hcon, if_neg (by omega)]
          · have hk' : k ≠ i := fun heq => hother (Option.some.inj ((heq ▸ hk).symm.trans hcon))
            rw [Function.update_of_ne hother, h.ndx k other hk]
            by_cases hk'' : k < conns.used
            · rw [if_pos hk'', if_pos (by omega)]
            · rw [if_neg hk'', if_neg (by omega)]
        · intro other hother
          show Function.update conns.ndx con (-1) other = -1
          by_cases heq : other = con
          · rw [heq, Function.update_self]
          · rw [Function.update_of_ne heq]
            exact h.unmade other hother
      · obtain ⟨conns', hswap, hok, hkeep⟩ := swapLast_ok h hi hcon hlast
        exact ⟨true, _, by simp [del, hfree, htoNat, hlast, hswap], hok, hrest conns' hkeep⟩

/-! ## Runs -/

/-- The calls of the two functions. -/
inductive Op
  | new
  | del (con : Option Nat)

/-- One call. The list has the open connections: those that have been taken and have not been deleted. -/
def step (s : Connections × List Nat) : Op → Option (Connections × List Nat)
  | .new => s.1.getNewConnection.map fun r => (r.2, r.1 :: s.2)
  | .del con => (s.1.del con).map fun r => (r.2, s.2.filter fun other => some other ≠ con)

/-- **No connection is lost or listed twice.** -/
structure Listed (conns : Connections) (opened : List Nat) : Prop where
  size : conns.ptr.length = conns.size
  used : conns.used ≤ conns.size
  distinct : (conns.ptr.take conns.used).Nodup
  once : ∀ con ∈ opened, ∃! i : Nat, i < conns.used ∧ conns.ptr[i]? = some con
  place : ∀ con ∈ opened, ∃ i : Nat, conns.ndx con = i ∧ i < conns.used ∧ conns.ptr[i]? = some con
  closed : ∀ con, con < conns.made → con ∉ opened →
    conns.ndx con = -1 ∧ ∃ i : Nat, conns.used ≤ i ∧ conns.ptr[i]? = some con
  kept : ∀ con, con < conns.made → ∃! i : Nat, conns.ptr[i]? = some con
  count : opened.Nodup ∧ opened.length = conns.used

/-- The open connections are those in use. -/
structure Tracked (s : Connections × List Nat) : Prop where
  ok : Ok s.1
  mem : ∀ con, con ∈ s.2 ↔ s.1.ndx con ≠ -1
  nodup : s.2.Nodup

/-- **One call** succeeds and keeps the table in order. -/
theorem step_ok (h : Tracked s) (op : Op) : ∃ s', step s op = some s' ∧ Tracked s' := by
  cases op with
  | new =>
    obtain ⟨con, conns', heq, hok, hfree, hmem⟩ := getNewConnection_ok h.ok
    refine ⟨(conns', con :: s.2), by simp [step, heq], hok, fun other => ?_, ?_⟩
    · rw [List.mem_cons, h.mem other]
      exact (hmem other).symm
    · exact List.nodup_cons.mpr ⟨fun hcon => (h.mem con).mp hcon hfree, h.nodup⟩
  | del con =>
    obtain ⟨ok, conns', heq, hok, hmem⟩ := del_ok h.ok con
    refine ⟨(conns', s.2.filter fun other => some other ≠ con), by simp [step, heq], hok, fun other => ?_,
      h.nodup.filter _⟩
    rw [List.mem_filter, h.mem other, decide_eq_true_iff, and_comm]
    exact (hmem other).symm

theorem run_ok (h : Tracked s) (ops : List Op) : ∃ s', Run.run step s ops = some s' ∧ Tracked s' := by
  induction ops generalizing s with
  | nil => exact ⟨s, rfl, h⟩
  | cons op ops ih =>
    obtain ⟨s₁, heq, h₁⟩ := step_ok h op
    obtain ⟨s', hrun, h'⟩ := ih h₁
    exact ⟨s', by rw [Run.run_cons, heq]; exact hrun, h'⟩

theorem Tracked.listed (h : Tracked s) : Listed s.1 s.2 := by
  have hplace : ∀ con ∈ s.2, ∃ i, i < s.1.used ∧ s.1.ptr[i]? = some con ∧ s.1.ndx con = i := fun con hcon =>
    h.ok.place ((h.mem con).mp hcon)
  have hnodup : (s.1.ptr.take s.1.used).Nodup := h.ok.nodup.sublist (List.take_sublist _ _)
  refine ⟨h.ok.length, h.ok.used, hnodup, fun con hcon => ?_, fun con hcon => ?_, fun con hmade hcon => ?_,
    fun con hmade => ?_, h.nodup, ?_⟩
  · obtain ⟨i, hi, hget, -⟩ := hplace con hcon
    exact ⟨i, ⟨hi, hget⟩, fun j hj => h.ok.place_unique hj.2 hget⟩
  · obtain ⟨i, hi, hget, hndx⟩ := hplace con hcon
    exact ⟨i, hndx, hi, hget⟩
  · have hndx : s.1.ndx con = -1 := by
      by_contra hne
      exact hcon ((h.mem con).mpr hne)
    obtain ⟨i, hi⟩ := List.mem_iff_getElem?.mp ((h.ok.mem con).mpr hmade)
    refine ⟨hndx, i, ?_, hi⟩
    by_contra hlt
    have := h.ok.ndx i con hi
    rw [if_pos (by omega)] at this
    omega
  · obtain ⟨i, hi⟩ := List.mem_iff_getElem?.mp ((h.ok.mem con).mpr hmade)
    exact ⟨i, hi, fun j hj => h.ok.place_unique hj hi⟩
  · have hperm : s.2.Perm (s.1.ptr.take s.1.used) := by
      refine (List.perm_ext_iff_of_nodup h.nodup hnodup).mpr fun con => ⟨fun hcon => ?_, fun hcon => ?_⟩
      · obtain ⟨i, hi, hget, -⟩ := hplace con hcon
        refine List.mem_iff_getElem?.mpr ⟨i, ?_⟩
        rw [List.getElem?_take_of_lt hi]
        exact hget
      · obtain ⟨i, hi⟩ := List.mem_iff_getElem?.mp hcon
        rw [List.getElem?_take] at hi
        split at hi
        · rename_i hlt
          rw [h.mem con, h.ok.ndx i con hi, if_pos hlt]
          omega
        · cases hi
    have hle : s.1.used ≤ s.1.ptr.length := h.ok.length ▸ h.ok.used
    rw [hperm.length_eq, List.length_take]
    omega

/-- **The table of connections stays in order** through every sequence of calls: the first `used` entries are distinct,
each open connection is at its place `ndx` and nowhere else, and each deleted one has `-1` and waits behind `used`. -/
theorem connections_listed (ops : List Op) :
    ∃ conns opened, Run.run step (init, []) ops = some (conns, opened) ∧ Listed conns opened := by
  obtain ⟨s, hrun, h⟩ := run_ok (s := (init, [])) ⟨init_ok, by simp [init], List.nodup_nil⟩ ops
  exact ⟨s.1, s.2, hrun, h.listed⟩

example : (Run.run step (init, []) [.new, .new, .new, .del (some 0), .del (some 0), .new]).map
    (fun s => (s.1.ptr.take 4, s.1.used, s.2)) = some ([2, 1, 0, 3], 3, [0, 2, 1]) := by decide

end Connections
end Lighttpd
