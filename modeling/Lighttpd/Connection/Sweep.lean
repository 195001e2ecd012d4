import Lighttpd.Base.Strtol
import Lighttpd.Connection.Read
import Lighttpd.Connection.Table

/-!
# The sweep over the connections (`server.c`)

Once in a second the main loop walks over `srv->conns` and checks all connections for timeouts. What
`connection_state_machine` does to a connection that has changed is arbitrary; it may close it, and `connection_del`
then swaps it with the last one.

- `visit_spec`: what one turn of the loop does to the table;
- `sweep_complete_iff`: the sweep reaches all connections if and only if it closes none but the last of the table.
-/

namespace Lighttpd

/-- What the sweep reads and writes of a connection. `pollin` is `FDEVENT_IN` of the events that are waited for, and
`globalCnt` names the counter behind `conf.global_bytes_per_second_cnt_ptr`. -/
structure Watched where
  state : ConState
  pollin : Bool
  requestCount : Nat
  readIdleTs : Int
  closeTimeoutTs : Int
  writeRequestTs : Int
  connectionStart : Int
  keepAliveIdle : Int
  maxReadIdle : Nat
  maxWriteIdle : Nat
  kbytesPerSecond : Nat
  trafficLimitReached : Bool
  bytesWritten : Int
  bytesWrittenCurSecond : Int
  globalCnt : Nat
deriving DecidableEq

/-- What `connection_state_machine` leaves of a connection, what it does to the counters, and whether it has closed the
connection. -/
structure Handled where
  con : Watched
  counters : (Nat → Int) → Nat → Int
  closed : Bool

namespace Watched

def httpLingerTimeout : Int := 5

/-- The timeouts of a connection that is closed or read from, and `changed`. -/
def checkRead (curTs : Int) (con : Watched) : Watched × Bool :=
  if con.state = .close then (con, decide (curTs - con.closeTimeoutTs > httpLingerTimeout))
  else if con.pollin then
    if con.requestCount = 1 ∨ con.state ≠ .read then
      if curTs - con.readIdleTs > con.maxReadIdle then ({ con with state := .error }, true) else (con, false)
    else if curTs - con.readIdleTs > con.keepAliveIdle then ({ con with state := .error }, true)
    else (con, false)
  else (con, false)

def checkWrite (curTs : Int) (con : Watched) (changed : Bool) : Watched × Bool :=
  if con.state = .write ∧ con.writeRequestTs ≠ 0 ∧ curTs - con.writeRequestTs > con.maxWriteIdle then
    ({ con with state := .error }, true)
  else (con, changed)

/-- A connection over its traffic limit is enabled again. -/
def checkTraffic (curTs : Int) (con : Watched) (changed : Bool) : Watched × Bool :=
  let diff := toInt (curTs - con.connectionStart)
  let tDiff := if diff = 0 then 1 else diff
  if con.trafficLimitReached ∧
      (con.kbytesPerSecond = 0 ∨ con.bytesWritten.tdiv tDiff < con.kbytesPerSecond * 1024) then
    ({ con with trafficLimitReached := false }, true)
  else (con, changed)

def check (curTs : Int) (con : Watched) : Watched × Bool :=
  let r := con.checkRead curTs
  let r := r.1.checkWrite curTs r.2
  r.1.checkTraffic curTs r.2

/-- **The connection has timed out.** -/
inductive TimedOut (curTs : Int) (con : Watched) : Prop
  | linger (hstate : con.state = .close) (h : curTs - con.closeTimeoutTs > httpLingerTimeout)
  | read (hstate : con.state ≠ .close) (hin : con.pollin = true) (hfirst : con.requestCount = 1 ∨ con.state ≠ .read)
      (h : curTs - con.readIdleTs > con.maxReadIdle)
  | keepAlive (hstate : con.state = .read) (hin : con.pollin = true) (hcount : con.requestCount ≠ 1)
      (h : curTs - con.readIdleTs > con.keepAliveIdle)
  | write (hstate : con.state = .write) (hstarted : con.writeRequestTs ≠ 0)
      (h : curTs - con.writeRequestTs > con.maxWriteIdle)

variable {curTs : Int} {con : Watched}

theorem checkWrite_changed : (con.checkWrite curTs true).2 = true := by
  unfold checkWrite
  split <;> rfl

theorem checkTraffic_changed : (con.checkTraffic curTs true).2 = true := by
  simp only [checkTraffic, apply_ite Prod.snd, ite_self]

/-- **A connection that has timed out** goes to the state machine. -/
theorem TimedOut.changed (h : TimedOut curTs con) : (con.check curTs).2 = true := by
  have hread : (con.checkRead curTs).2 = true → (con.check curTs).2 = true := by
    intro hchanged
    simp only [check, hchanged, checkWrite_changed, checkTraffic_changed]
  cases h with
  | linger hstate h => exact hread (by simp [checkRead, hstate, h])
  | read hstate hin hfirst h => exact hread (by simp [checkRead, hstate, hin, hfirst, h])
  | keepAlive hstate hin hcount h => exact hread (by simp [checkRead, hstate, hin, hcount, h])
  | write hstate hstarted h =>
    by_cases hchanged : (con.checkRead curTs).2 = true
    · exact hread hchanged
    · have hsame : (con.checkRead curTs).1 = con := by
        unfold checkRead at hchanged ⊢
        split
        · rfl
        · grind
      have hwrite : (con.checkWrite curTs (con.checkRead curTs).2).2 = true := by
        simp [checkWrite, hstate, hstarted, h]
      simp only [check, hsame, hwrite, checkTraffic_changed]

end Watched

/-! ## The loop -/

/-- One turn of the loop: the connection, how it was found, whether `connection_state_machine` was called for it, and
what is left in its counter. -/
structure Visit where
  con : Nat
  found : Watched
  changed : Bool
  counter : Int

/-- The connections and the counters; `visits` are the turns of the loop up to now. -/
structure Tick where
  conns : Connections
  con : Nat → Watched
  counters : Nat → Int
  visits : List Visit

namespace Tick

open Connections Watched

/-- What the state machine does to a connection, if it is called. -/
def handled (curTs : Int) (machine : Nat → Watched → Handled) (n : Nat) (con : Watched) : Handled :=
  let r := con.check curTs
  if r.2 then machine n r.1 else ⟨r.1, id, false⟩

def visit (curTs : Int) (machine : Nat → Watched → Handled) (s : Tick) (n : Nat) : Option Tick :=
  let r := handled curTs machine n (s.con n)
  let con := { r.con with bytesWrittenCurSecond := 0 }
  let counters := Function.update (r.counters s.counters) con.globalCnt 0
  (if r.closed then (s.conns.del (some n)).map Prod.snd else some s.conns).map fun conns =>
    { conns := conns
      con := Function.update s.con n con
      counters := counters
      visits := s.visits ++ [⟨n, s.con n, ((s.con n).check curTs).2, counters con.globalCnt⟩] }

/-- The loop from `ndx` on, with fuel. -/
def sweepLoop (curTs : Int) (machine : Nat → Watched → Handled) : Nat → Tick → Nat → Option Tick
  | 0, s, ndx => if ndx < s.conns.used then none else some s
  | fuel + 1, s, ndx =>
    if ndx < s.conns.used then do
      let n ← s.conns.ptr[ndx]?
      let s ← s.visit curTs machine n
      sweepLoop curTs machine fuel s (ndx + 1)
    else some s

def sweep (curTs : Int) (machine : Nat → Watched → Handled) (s : Tick) : Option Tick :=
  sweepLoop curTs machine s.conns.used s 0

/-- The turns of the loop for one connection. -/
def visitsOf (s : Tick) (n : Nat) : List Visit := s.visits.filter fun v => v.con = n

def Closes (curTs : Int) (machine : Nat → Watched → Handled) (s : Tick) (n : Nat) : Prop :=
  (handled curTs machine n (s.con n)).closed = true

instance (curTs : Int) (machine : Nat → Watched → Handled) (s : Tick) (n : Nat) :
    Decidable (Closes curTs machine s n) := inferInstanceAs (Decidable (_ = _))

/-- **All connections are examined**: each one that is open when the sweep starts is visited exactly once, as it was
then; it goes to the state machine if it has timed out, and its counters are reset. -/
def Complete (curTs : Int) (s s' : Tick) : Prop :=
  ∀ n, s.conns.ndx n ≠ -1 → ∃ v, s'.visitsOf n = [v] ∧ v.found = s.con n ∧
    (TimedOut curTs (s.con n) → v.changed = true) ∧ v.counter = 0 ∧ (s'.con n).bytesWrittenCurSecond = 0

variable {curTs : Int} {machine : Nat → Watched → Handled} {s s' : Tick} {n m ndx fuel : Nat}

/-! ## One turn -/

/-- The connection at `ndx` is taken out of the table: the last one comes to its place. -/
theorem del_ndx {conns : Connections} (h : conns.Ok) (hlt : ndx < conns.used) (hget : conns.ptr[ndx]? = some n) :
    ∃ conns', conns.del (some n) = some (true, conns') ∧ conns'.Ok ∧ conns'.used = conns.used - 1 ∧
      conns'.ndx n = -1 ∧
      ∀ m, m ≠ n → conns'.ndx m = if conns.ndx m = (conns.used - 1 : Nat) then (ndx : Int) else conns.ndx m := by
  have hndx : conns.ndx n = ndx := by rw [h.ndx ndx n hget, if_pos hlt]
  have hlen : conns.used ≤ conns.ptr.length := h.length ▸ h.used
  obtain ⟨ok, conns', heq, hok, -⟩ := del_ok h (some n)
  have hopen : ¬conns.ndx n = -1 := by omega
  have htoNat : (conns.ndx n).toNat = ndx := by omega
  unfold del at heq
  simp only [hopen, htoNat, if_false] at heq
  by_cases hlast : ndx = conns.used - 1
  · rw [if_neg (not_not_intro hlast)] at heq
    cases heq
    refine ⟨_, by simp [del, hopen, htoNat, hlast], hok, rfl, Function.update_self .., fun m hm => ?_⟩
    show Function.update conns.ndx n (-1) m = _
    rw [Function.update_of_ne hm]
    split
    · omega
    · rfl
  · rw [if_pos hlast] at heq
    have hget' : conns.ptr[conns.used - 1]? = some conns.ptr[conns.used - 1] := List.getElem?_eq_getElem (by omega)
    generalize conns.ptr[conns.used - 1] = last at hget'
    have hswap : conns.swapLast ndx = some { conns with
        ptr := (conns.ptr.set ndx last).set (conns.used - 1) n
        ndx := Function.update (Function.update conns.ndx last ndx) n (-1) } := by simp [swapLast, hget, hget']
    rw [hswap] at heq
    cases heq
    refine ⟨_, by simp [del, hopen, htoNat, hlast, hswap], hok, rfl, Function.update_self .., fun m hm => ?_⟩
    show Function.update (Function.update (Function.update conns.ndx last ndx) n (-1)) n (-1) m = _
    rw [Function.update_idem, Function.update_of_ne hm]
    by_cases hmlast : m = last
    · rw [hmlast, Function.update_self, h.ndx _ _ hget', if_pos (by omega)]
    · have hplace : conns.ndx m ≠ (conns.used - 1 : Nat) := by
        intro hm'
        have hne : conns.ndx m ≠ -1 := by omega
        obtain ⟨i, -, hi, hmi⟩ := h.place hne
        rw [hmi, Int.ofNat_inj] at hm'
        rw [hm', hget'] at hi
        exact hmlast (Option.some.inj hi).symm
      rw [Function.update_of_ne hmlast, if_neg hplace]

/-- What one turn of the loop has done: connection `n` at `ndx` has been visited, and perhaps closed. -/
structure Visited (curTs : Int) (machine : Nat → Watched → Handled) (s s' : Tick) (n ndx : Nat) : Prop where
  ok : s'.conns.Ok
  open_ : ¬s.Closes curTs machine n → s'.conns = s.conns
  closed : s.Closes curTs machine n → s'.conns.used = s.conns.used - 1 ∧ s'.conns.ndx n = -1 ∧
    ∀ m, m ≠ n → s'.conns.ndx m = if s.conns.ndx m = (s.conns.used - 1 : Nat) then (ndx : Int) else s.conns.ndx m
  other : ∀ m, m ≠ n → s'.con m = s.con m ∧ s'.visitsOf m = s.visitsOf m
  own : ∃ v, s'.visitsOf n = s.visitsOf n ++ [v] ∧ v.found = s.con n ∧
    (TimedOut curTs (s.con n) → v.changed = true) ∧ v.counter = 0
  reset : (s'.con n).bytesWrittenCurSecond = 0

/-- **One turn of the loop.** -/
theorem visit_spec (curTs : Int) (machine : Nat → Watched → Handled) (h : s.conns.Ok) (hlt : ndx < s.conns.used)
    (hget : s.conns.ptr[ndx]? = some n) : ∃ s', s.visit curTs machine n = some s' ∧ Visited curTs machine s s' n ndx := by
  have hother : ∀ (v : Visit) m, v.con = n → m ≠ n →
      (s.visits ++ [v]).filter (fun v => v.con = m) = s.visits.filter fun v => v.con = m := by
    intro v m hv hm
    simp [hv, Ne.symm hm]
  have hown : ∀ (v : Visit), v.con = n →
      (s.visits ++ [v]).filter (fun v => v.con = n) = (s.visits.filter fun v => v.con = n) ++ [v] := by
    intro v hv
    simp [hv]
  obtain ⟨conns', hconns, hok, hopen, hclosed⟩ : ∃ conns',
      (if (handled curTs machine n (s.con n)).closed then (s.conns.del (some n)).map Prod.snd else some s.conns) =
        some conns' ∧ conns'.Ok ∧ (¬s.Closes curTs machine n → conns' = s.conns) ∧
      (s.Closes curTs machine n → conns'.used = s.conns.used - 1 ∧ conns'.ndx n = -1 ∧
        ∀ m, m ≠ n → conns'.ndx m = if s.conns.ndx m = (s.conns.used - 1 : Nat) then (ndx : Int)
          else s.conns.ndx m) := by
    by_cases hcloses : s.Closes curTs machine n
    · obtain ⟨conns', hdel, hok, hspec⟩ := del_ndx h hlt hget
      have hclosed : (handled curTs machine n (s.con n)).closed = true := hcloses
      exact ⟨conns', by rw [if_pos hclosed, hdel]; rfl, hok, fun hnot => absurd hcloses hnot, fun _ => hspec⟩
    · exact ⟨s.conns, if_neg hcloses, h, fun _ => rfl, fun hnot => absurd hnot hcloses⟩
  unfold visit
  dsimp only
  rw [hconns]
  refine ⟨_, rfl, hok, hopen, hclosed, fun m hm => ⟨Function.update_of_ne hm _ _, hother _ m rfl hm⟩,
    ⟨_, hown _ rfl, rfl, TimedOut.changed, Function.update_self ..⟩, ?_⟩
  show (Function.update s.con n _ n).bytesWrittenCurSecond = 0
  rw [Function.update_self]

/-! ## The whole loop -/

theorem sweepLoop_end (h : ¬ndx < s.conns.used) : sweepLoop curTs machine fuel s ndx = some s := by
  cases fuel <;> simp only [sweepLoop, h, if_false]

theorem sweepLoop_turn (curTs : Int) (machine : Nat → Watched → Handled) (h : s.conns.Ok) (hlt : ndx < s.conns.used) :
    ∃ n s₁, s.conns.ptr[ndx]? = some n ∧ s.conns.ndx n = ndx ∧ Visited curTs machine s s₁ n ndx ∧
      ∀ fuel, sweepLoop curTs machine (fuel + 1) s ndx = sweepLoop curTs machine fuel s₁ (ndx + 1) := by
  have hlen : ndx < s.conns.ptr.length := h.length ▸ Nat.lt_of_lt_of_le hlt h.used
  obtain ⟨n, hget⟩ : ∃ n, s.conns.ptr[ndx]? = some n := ⟨_, List.getElem?_eq_getElem hlen⟩
  obtain ⟨s₁, hvisit, hs₁⟩ := visit_spec curTs machine h hlt hget
  refine ⟨n, s₁, hget, by rw [h.ndx ndx n hget, if_pos hlt], hs₁, fun fuel => ?_⟩
  simp [sweepLoop, hlt, hget, hvisit]

theorem Visited.place (h : Visited curTs machine s s' n ndx) (hm : m ≠ n) : s'.conns.ndx m = s.conns.ndx m ∨
    s.Closes curTs machine n ∧ s.conns.ndx m = (s.conns.used - 1 : Nat) ∧ s'.conns.ndx m = ndx := by
  by_cases hcloses : s.Closes curTs machine n
  · rw [(h.closed hcloses).2.2 m hm]
    split
    · exact Or.inr ⟨hcloses, ‹_›, rfl⟩
    · exact Or.inl rfl
  · exact Or.inl (by rw [h.open_ hcloses])

theorem sweepLoop_ends (curTs : Int) (machine : Nat → Watched → Handled) (h : s.conns.Ok)
    (hfuel : s.conns.used ≤ ndx + fuel) : ∃ s', sweepLoop curTs machine fuel s ndx = some s' := by
  induction fuel generalizing s ndx with
  | zero => exact ⟨s, sweepLoop_end (by omega)⟩
  | succ fuel ih =>
    by_cases hlt : ndx < s.conns.used
    · obtain ⟨n, s₁, -, -, hs₁, hturn⟩ := sweepLoop_turn curTs machine h hlt
      have hused : s₁.conns.used ≤ s.conns.used := by
        by_cases hcloses : s.Closes curTs machine n
        · rw [(hs₁.closed hcloses).1]
          omega
        · exact Nat.le_of_eq (by rw [hs₁.open_ hcloses])
      have hfuel₁ : s₁.conns.used ≤ ndx + 1 + fuel := by omega
      obtain ⟨s', hs'⟩ := ih hs₁.ok hfuel₁
      exact ⟨s', (hturn fuel).trans hs'⟩
    · exact ⟨s, sweepLoop_end hlt⟩

/-- **A connection that the loop has passed** is not visited any more. -/
theorem sweepLoop_passed (h : s.conns.Ok) (hm : s.conns.ndx m < ndx)
    (hloop : sweepLoop curTs machine fuel s ndx = some s') : s'.visitsOf m = s.visitsOf m ∧ s'.con m = s.con m := by
  induction fuel generalizing s ndx with
  | zero =>
    by_cases hlt : ndx < s.conns.used
    · simp [sweepLoop, hlt] at hloop
    · rw [sweepLoop_end hlt] at hloop
      cases hloop
      exact ⟨rfl, rfl⟩
  | succ fuel ih =>
    by_cases hlt : ndx < s.conns.used
    · obtain ⟨n, s₁, -, hn, hs₁, hturn⟩ := sweepLoop_turn curTs machine h hlt
      have hne : m ≠ n := by
        rintro rfl
        omega
      have hm₁ : s₁.conns.ndx m < (ndx + 1 : Nat) := by
        rcases hs₁.place hne with hplace | ⟨-, -, hplace⟩ <;> omega
      obtain ⟨hvisits, hcon⟩ := ih hs₁.ok hm₁ (hturn fuel ▸ hloop)
      exact ⟨hvisits.trans (hs₁.other m hne).2, hcon.trans (hs₁.other m hne).1⟩
    · rw [sweepLoop_end hlt] at hloop
      cases hloop
      exact ⟨rfl, rfl⟩

/-- What the loop does to a connection that it visits once. -/
def VisitedOnce (curTs : Int) (s s' : Tick) (m : Nat) : Prop :=
  ∃ v, s'.visitsOf m = s.visitsOf m ++ [v] ∧ v.found = s.con m ∧
    (TimedOut curTs (s.con m) → v.changed = true) ∧ v.counter = 0 ∧ (s'.con m).bytesWrittenCurSecond = 0

/-- The loop closes no connection from `ndx` on, except the last one. -/
def KeepsFrom (curTs : Int) (machine : Nat → Watched → Handled) (s : Tick) (ndx : Nat) : Prop :=
  ∀ i m, ndx ≤ i → i + 1 < s.conns.used → s.conns.ptr[i]? = some m → ¬s.Closes curTs machine m

theorem closes_congr (h : s'.con m = s.con m) : s'.Closes curTs machine m ↔ s.Closes curTs machine m := by
  unfold Closes
  rw [h]

/-- A connection that the loop has not passed has its place from `ndx` on. -/
theorem place_lt (h : s.conns.Ok) (hm : (ndx : Int) ≤ s.conns.ndx m) : ∃ i, ndx ≤ i ∧ i < s.conns.used ∧
    s.conns.ptr[i]? = some m ∧ s.conns.ndx m = i := by
  have hne : s.conns.ndx m ≠ -1 := by omega
  obtain ⟨i, hlt, hget, hi⟩ := h.place hne
  exact ⟨i, by omega, hlt, hget, hi⟩

theorem Visited.keepsFrom (h : Visited curTs machine s s' n ndx) (hok : s.conns.Ok) (hn : s.conns.ptr[ndx]? = some n)
    (hcloses : ¬s.Closes curTs machine n) :
    KeepsFrom curTs machine s' (ndx + 1) ↔ KeepsFrom curTs machine s ndx := by
  have hconns := h.open_ hcloses
  refine ⟨fun hkeeps i m hi hlt hget => ?_, fun hkeeps i m hi hlt hget => ?_⟩
  · by_cases hne : m = n
    · exact hne ▸ hcloses
    · have hi' : i ≠ ndx := fun heq => hne (Option.some.inj (by rw [← hget, heq, hn]))
      rw [← closes_congr (h.other m hne).1]
      exact hkeeps i m (by omega) (hconns ▸ hlt) (hconns ▸ hget)
  · rw [hconns] at hlt hget
    have hne : m ≠ n := by
      rintro rfl
      have := hok.place_unique hget hn
      omega
    rw [closes_congr (h.other m hne).1]
    exact hkeeps i m (by omega) hlt hget

/-- **If no connection but the last is closed**, all of them are visited. -/
theorem sweepLoop_reaches (h : s.conns.Ok) (hkeeps : KeepsFrom curTs machine s ndx)
    (hloop : sweepLoop curTs machine fuel s ndx = some s') (hm : (ndx : Int) ≤ s.conns.ndx m) :
    VisitedOnce curTs s s' m := by
  obtain ⟨i, hi, hused, hget, hplace⟩ := place_lt h hm
  induction fuel generalizing s ndx with
  | zero =>
    simp [sweepLoop, show ndx < s.conns.used by omega] at hloop
  | succ fuel ih =>
    obtain ⟨n, s₁, hn, hndx, hs₁, hturn⟩ := sweepLoop_turn curTs machine h (show ndx < s.conns.used by omega)
    rw [hturn fuel] at hloop
    by_cases hne : m = n
    · subst hne
      obtain ⟨v, hv, hfound, htimed, hcounter⟩ := hs₁.own
      have hpassed : s₁.conns.ndx m < (ndx + 1 : Nat) := by
        by_cases hcloses : s.Closes curTs machine m
        · rw [(hs₁.closed hcloses).2.1]
          omega
        · rw [hs₁.open_ hcloses, hndx]
          omega
      obtain ⟨hvisits, hcon⟩ := sweepLoop_passed hs₁.ok hpassed hloop
      exact ⟨v, hvisits.trans hv, hfound, htimed, hcounter, hcon ▸ hs₁.reset⟩
    · have hlt : ndx < i := by
        refine Nat.lt_of_le_of_ne hi fun heq => hne (Option.some.inj ?_)
        rw [← hget, ← heq, hn]
      have hcloses : ¬s.Closes curTs machine n := hkeeps ndx n (Nat.le_refl _) (by omega) hn
      have hconns := hs₁.open_ hcloses
      obtain ⟨hcon, hvisits⟩ := hs₁.other m hne
      obtain ⟨v, hv, hfound, htimed, hrest⟩ := ih hs₁.ok ((hs₁.keepsFrom h hn hcloses).mpr hkeeps) hloop
        (by rw [hconns, hplace]; omega) hlt (hconns ▸ hused) (hconns ▸ hget) (hconns ▸ hplace)
      rw [hcon] at hfound htimed
      exact ⟨v, hvisits ▸ hv, hfound, htimed, hrest⟩

/-- **If another connection is closed**, one is not visited: the one that comes to its place. -/
theorem sweepLoop_skips (h : s.conns.Ok) (hkeeps : ¬KeepsFrom curTs machine s ndx)
    (hloop : sweepLoop curTs machine fuel s ndx = some s') :
    ∃ m, (ndx : Int) ≤ s.conns.ndx m ∧ s'.visitsOf m = s.visitsOf m := by
  have hlt : ndx + 1 < s.conns.used := by
    by_contra hnot
    exact hkeeps fun i m hi hlt _ => absurd hlt (by omega)
  induction fuel generalizing s ndx with
  | zero => simp [sweepLoop, show ndx < s.conns.used by omega] at hloop
  | succ fuel ih =>
    obtain ⟨n, s₁, hn, hndx, hs₁, hturn⟩ := sweepLoop_turn curTs machine h (show ndx < s.conns.used by omega)
    rw [hturn fuel] at hloop
    by_cases hcloses : s.Closes curTs machine n
    · obtain ⟨last, hlast⟩ : ∃ last, s.conns.ptr[s.conns.used - 1]? = some last :=
        ⟨_, List.getElem?_eq_getElem (by have := h.length; have := h.used; omega)⟩
      have hplace : s.conns.ndx last = (s.conns.used - 1 : Nat) := by
        rw [h.ndx _ _ hlast, if_pos (by omega)]
      have hne : last ≠ n := by
        rintro rfl
        omega
      have hpassed : s₁.conns.ndx last < (ndx + 1 : Nat) := by
        rw [(hs₁.closed hcloses).2.2 last hne, if_pos hplace]
        omega
      exact ⟨last, by omega, (sweepLoop_passed hs₁.ok hpassed hloop).1.trans (hs₁.other last hne).2⟩
    · have hconns := hs₁.open_ hcloses
      have hkeeps₁ : ¬KeepsFrom curTs machine s₁ (ndx + 1) := fun hnot =>
        hkeeps ((hs₁.keepsFrom h hn hcloses).mp hnot)
      have hlt₁ : ndx + 1 + 1 < s₁.conns.used := by
        by_contra hnot
        exact hkeeps₁ fun i m hi hlt _ => absurd hlt (by omega)
      obtain ⟨m, hm, hvisits⟩ := ih hs₁.ok hkeeps₁ hloop hlt₁
      rw [hconns] at hm
      have hne : m ≠ n := by
        rintro rfl
        omega
      exact ⟨m, by omega, hvisits.trans (hs₁.other m hne).2⟩

/-- **The sweep is complete** if and only if it closes no connection but the last one of the table. -/
theorem sweep_complete_iff (curTs : Int) (machine : Nat → Watched → Handled) (s : Tick) (h : s.conns.Ok)
    (hvisits : s.visits = []) : ∃ s', s.sweep curTs machine = some s' ∧
      (Complete curTs s s' ↔
        ∀ i n, i + 1 < s.conns.used → s.conns.ptr[i]? = some n → ¬s.Closes curTs machine n) := by
  obtain ⟨s', hloop⟩ := sweepLoop_ends curTs machine h (Nat.le_of_eq (Nat.zero_add s.conns.used).symm)
  have hnone : ∀ n, s.visitsOf n = [] := fun n => by simp [visitsOf, hvisits]
  refine ⟨s', hloop, fun hcomplete => ?_, fun hkeeps n hn => ?_⟩
  · by_contra hnot
    have hkeeps : ¬KeepsFrom curTs machine s 0 := fun hkeeps => hnot fun i n => hkeeps i n (Nat.zero_le i)
    obtain ⟨m, hm, hskipped⟩ := sweepLoop_skips h hkeeps hloop
    obtain ⟨v, hv, -⟩ := hcomplete m (by omega)
    rw [hskipped, hnone m] at hv
    cases hv
  · obtain ⟨i, -, -, hi⟩ := h.place hn
    obtain ⟨v, hv, hrest⟩ := sweepLoop_reaches h (fun i n _ => hkeeps i n) hloop (m := n) (by omega)
    exact ⟨v, by rw [hv, hnone n, List.nil_append], hrest⟩

/-- The table of `n` connections, on a server that has not had more than 128 of them. -/
def opened (n : Nat) : Connections :=
  ⟨List.range 128, 128, n, fun con => if con < n then con else -1, 128⟩

theorem opened_ok (h : n ≤ 128) : (opened n).Ok where
  length := by simp [opened]
  used := h
  nodup := List.nodup_range
  mem := fun con => List.mem_range
  ndx := by
    intro i con hget
    obtain ⟨_, hi⟩ := List.getElem?_eq_some_iff.mp hget
    have hcon : i = con := by simpa [opened] using hi
    rw [hcon]
    rfl
  unmade := by
    intro con hcon
    have hle : ¬con < n := Nat.not_lt.mpr (Nat.le_trans h hcon)
    simp [opened, hle]

/-- A connection whose client has been asked to close it. -/
def lingering (closeTimeoutTs : Int) : Watched :=
  ⟨.close, true, 1, 0, closeTimeoutTs, 0, 0, 5, 60, 360, 0, false, 1000, 1000, 0⟩

/-- Three of these connections, by the time when their clients have been asked. -/
def threeLingering (closeTimeoutTs : Nat → Int) : Tick :=
  ⟨opened 3, fun n => lingering (closeTimeoutTs n), fun _ => 3000, []⟩

/-- `connection_handle_close_state` on a connection that has lingered long enough. -/
def closeLingering (_ : Nat) (con : Watched) : Handled := ⟨{ con with state := .connect }, id, true⟩

theorem sweep_complete_iff_last : ∃ s',
    (threeLingering fun n => if n = 2 then 10 else 18).sweep 20 closeLingering = some s' ∧
    Complete 20 (threeLingering fun n => if n = 2 then 10 else 18) s' := by
  obtain ⟨s', hsweep, hiff⟩ := sweep_complete_iff 20 closeLingering
    (threeLingering fun n => if n = 2 then 10 else 18) (opened_ok (by decide)) rfl
  refine ⟨s', hsweep, hiff.mpr fun i n hi hget => ?_⟩
  have hi' : i < 2 := Nat.lt_of_succ_lt_succ hi
  match i, hi', hget with
  | 0, _, rfl => decide
  | 1, _, rfl => decide

theorem sweep_skips_last : ¬∃ s', (threeLingering fun _ => 10).sweep 20 closeLingering = some s' ∧
    Complete 20 (threeLingering fun _ => 10) s' := by
  rintro ⟨s', hsweep, hcomplete⟩
  have hvisits : ((threeLingering fun _ => 10).sweep 20 closeLingering).map (fun s => s.visits.map Visit.con) =
      some [0, 1] := by decide
  rw [hsweep, Option.map_some, Option.some.injEq] at hvisits
  obtain ⟨v, hv, -⟩ := hcomplete 2 (by decide)
  have hmem : v ∈ s'.visitsOf 2 := by simp [hv]
  obtain ⟨hvisit, hcon⟩ := List.mem_filter.mp hmem
  have hmem' : v.con ∈ s'.visits.map Visit.con := List.mem_map_of_mem hvisit
  rw [hvisits, of_decide_eq_true hcon] at hmem'
  simp at hmem'

end Tick
end Lighttpd
