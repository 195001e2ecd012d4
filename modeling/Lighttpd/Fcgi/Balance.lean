import Lighttpd.Fcgi.Account

/-!
# The counters of a FastCGI backend are right

`Balanced` says what the counters count. Each function changes a counter as it changes what is counted (`Keeps`), with
two exceptions: a child that is found to have exited while its process is still taken to run, and a handler context that
gives a connection back which it has given back before. `accounts_balance` is the main result: without these two the
counters are right in every run.
-/

namespace Lighttpd
namespace Fcgi
namespace Account

open Backend Census

/-! ## One host -/

/-- A change of a host that changes `active_procs` with the number of the running processes, and no load. -/
structure SameHost (h h' : ExtensionHost) : Prop where
  active : h'.activeProcs - h'.first.countP Proc.running = h.activeProcs - h.first.countP Proc.running
  load : h'.load = h.load
  proc : ∀ (k : Nat) (p' : Proc), h'.first[k]? = some p' → ∃ p : Proc, h.first[k]? = some p ∧ p'.load = p.load

namespace SameHost

variable {h h' : ExtensionHost} {k : Nat} {p p' : Proc} {active : Int}

theorem refl (h : ExtensionHost) : SameHost h h := ⟨rfl, rfl, fun _ p' hp => ⟨p', hp, rfl⟩⟩

theorem setProc (hp : h.first[k]? = some p) (hload : p'.load = p.load)
    (hactive : active = h.activeProcs + one Proc.running (some p') - one Proc.running (some p)) :
    SameHost h (h.setProc k p' active) := by
  constructor
  · have hcount := countP_set (p := Proc.running) hp p'
    simp only [ExtensionHost.setProc]
    omega
  · rfl
  · intro n q hq
    simp only [ExtensionHost.setProc, List.getElem?_set] at hq
    split at hq
    · rename_i hkn
      subst hkn
      split at hq
      · cases hq
        exact ⟨p, hp, hload⟩
      · cases hq
    · exact ⟨q, hq, rfl⟩

theorem stop (hp : h.first[k]? = some p) (hload : p'.load = p.load) (hstop : p'.running = false) :
    SameHost h (h.setProc k p' (h.stopped p)) := by
  apply setProc hp hload
  rw [one_of_false hstop]
  unfold ExtensionHost.stopped
  cases hrun : p.running with
  | true =>
    rw [one_of_true hrun, if_pos rfl]
    omega
  | false =>
    rw [one_of_false hrun, if_neg (by decide)]
    omega

theorem disable (now : Int) (hp : h.first[k]? = some p) : SameHost h (h.disable now k p) := by
  unfold ExtensionHost.disable
  split
  · apply stop hp
    · rfl
    · unfold Proc.running
      cases p.isLocal <;> rfl
  · exact refl h

theorem overload (now : Int) (hp : h.first[k]? = some p) : SameHost h (h.overload now k p) := by
  unfold ExtensionHost.overload
  split
  · exact stop hp rfl rfl
  · exact refl h

end SameHost

variable {p : Proc} {spawn : Spawn} {active active' now : Int}

theorem fcgiSpawnConnection_running {p' : Proc} (h : fcgiSpawnConnection spawn p active = some (p', active')) :
    p'.running = true ∧ p'.load = p.load ∧ active' = active + 1 := by
  cases spawn <;> cases h <;> exact ⟨rfl, rfl, rfl⟩

/-- A child that has exited while its process is taken to run is not taken off `active_procs`. -/
theorem SameHost.childExited {h : ExtensionHost} {waited : Waited} {k : Nat}
    (hp : h.first[k]? = some p) (hno : ¬ (p.pid ≠ 0 ∧ p.running = true ∧ waited = .exited)) :
    SameHost h (h.childExited waited spawn k p) := by
  unfold ExtensionHost.childExited
  split
  · rename_i hexit
    have hstop : p.running = false := by
      cases hrun : p.running with
      | true => exact absurd ⟨hexit.1, hrun, hexit.2.2⟩ hno
      | false => rfl
    split
    · rename_i p' active hspawn
      obtain ⟨hrun, hload, rfl⟩ := fcgiSpawnConnection_running hspawn
      apply setProc hp hload
      rw [one_of_true hrun, one_of_false hstop]
      omega
    · refine setProc hp ?_ ?_
      · rfl
      · rw [one_of_false hstop, one_of_false (by rfl)]
        omega
  · exact refl h

/-! ## `fcgi_restart_dead_procs` -/

/-- A process that is changed, and `active_procs` with it. -/
structure SameProc (p : Proc) (active : Int) (p' : Proc) (active' : Int) : Prop where
  load : p'.load = p.load
  active : active' - one Proc.running (some p') = active - one Proc.running (some p)

theorem reenable_same (now : Int) (active : Int) (h : p.running = false) :
    SameProc p active (reenable now p active).1 (reenable now p active).2 := by
  unfold reenable
  split
  · exact ⟨rfl, rfl⟩
  · constructor
    · rfl
    · rw [one_of_false h, one_of_true (by rfl)]
      omega

theorem restartDied_same (now : Int) (binPath : Bool) (spawn : Spawn) (active : Int) (h : p.running = false) :
    SameProc p active (restartDied now binPath spawn p active).2.1 (restartDied now binPath spawn p active).2.2 := by
  unfold restartDied
  split
  · split
    · exact ⟨rfl, rfl⟩
    · split
      · rename_i p' active' hspawn
        obtain ⟨hrun, hload, rfl⟩ := fcgiSpawnConnection_running hspawn
        constructor
        · exact hload
        · rw [one_of_false h, one_of_true hrun]
          dsimp only
          omega
      · exact ⟨rfl, rfl⟩
  · exact reenable_same now active h

theorem restartProc_same {binPath : Bool} {waited : Waited} {p' : Proc} {more : Bool}
    (h : restartProc now binPath waited spawn p active = some (more, p', active')) :
    SameProc p active p' active' := by
  unfold restartProc at h
  cases hstate : p.state with
  | unset | killed => simp [hstate] at h
  | running =>
    simp only [hstate, Option.some.injEq, Prod.mk.injEq] at h
    obtain ⟨-, rfl, rfl⟩ := h
    exact ⟨rfl, rfl⟩
  | overloaded =>
    simp only [hstate, Option.some.injEq, Prod.mk.injEq] at h
    have hsame := reenable_same now (p := p) active (by simp [Proc.running, hstate])
    rw [h.2] at hsame
    exact hsame
  | diedWaitForPid =>
    have hstop : p.running = false := by simp [Proc.running, hstate]
    simp only [hstate] at h
    split at h
    · simp only [Option.some.injEq, Prod.mk.injEq] at h
      have hsame := reenable_same now (p := p) active hstop
      rw [h.2] at hsame
      exact hsame
    · have hsame := restartDied_same now binPath spawn (p := { p with state := .died }) active rfl
      rw [Option.some.inj h] at hsame
      constructor
      · exact hsame.load
      · rw [hsame.active, one_of_false hstop, one_of_false (by rfl)]
  | died =>
    simp only [hstate] at h
    have hsame := restartDied_same now binPath spawn (p := p) active
      (by simp [Proc.running, hstate])
    rw [Option.some.inj h] at hsame
    exact hsame

theorem restartLoop_same {binPath : Bool} {restart : Restart} {procs procs' : List Proc} {k : Nat}
    (h : restartLoop now binPath restart k procs active = some (procs', active')) :
    active' - procs'.countP Proc.running = active - procs.countP Proc.running ∧
      ∀ (n : Nat) (p' : Proc), procs'[n]? = some p' → ∃ p : Proc, procs[n]? = some p ∧ p'.load = p.load := by
  induction procs generalizing k active procs' active' with
  | nil =>
    cases h
    exact ⟨rfl, fun n p' hp => ⟨p', hp, rfl⟩⟩
  | cons p procs ih =>
    obtain ⟨⟨more, p₁, active₁⟩, hproc, h⟩ := Option.bind_eq_some_iff.mp h
    have hsame := restartProc_same hproc
    have hhead := hsame.active
    dsimp only at h
    cases more with
    | true =>
      rw [if_pos rfl] at h
      obtain ⟨⟨rest, active₂⟩, hrest, h⟩ := Option.bind_eq_some_iff.mp h
      cases h
      obtain ⟨hactive, hload⟩ := ih hrest
      constructor
      · dsimp only
        rw [Census.countP_cons, Census.countP_cons]
        omega
      · intro n p' hp
        cases n with
        | zero =>
          cases hp
          exact ⟨p, rfl, hsame.load⟩
        | succ n => exact hload n p' hp
    | false =>
      cases h
      constructor
      · rw [Census.countP_cons, Census.countP_cons]
        omega
      · intro n p' hp
        cases n with
        | zero =>
          cases hp
          exact ⟨p, rfl, hsame.load⟩
        | succ n => exact ⟨p', hp, rfl⟩

/-- **`fcgi_restart_dead_procs` keeps `active_procs` right.** -/
theorem SameHost.restart {restart : Restart} {h h' : ExtensionHost}
    (heq : fcgiRestartDeadProcs now restart h = some h') : SameHost h h' := by
  obtain ⟨⟨procs, active⟩, hloop, heq⟩ := Option.bind_eq_some_iff.mp heq
  cases heq
  obtain ⟨hactive, hload⟩ := restartLoop_same hloop
  exact ⟨hactive, rfl, hload⟩

/-! ## Hosts and one handler context -/

section Hosts

variable {ι ε : Type} [DecidableEq ι]

/-- A connection of the handler context has been counted, and not given back. -/
def HandlerCtx.connected (c : HandlerCtx ι ε) : Bool :=
  match c.state with
  | .init | .connect => false
  | .prepareWrite | .write | .read => true

def HandlerCtx.assigned (i : ι) (c : HandlerCtx ι ε) : Bool := c.host = some i

/-- The handler context holds a connection that is counted on the process at `k` of the host. -/
def HandlerCtx.counted (i : ι) (k : Nat) (c : HandlerCtx ι ε) : Bool :=
  c.host = some i ∧ c.proc = some k ∧ c.connected

/-- The counters of a host change with the number `a` of the handler contexts that are assigned to it, and the numbers
`n` of the connections that are counted on its processes. -/
structure HostKeeps (h : ExtensionHost) (a : Int) (n : Nat → Int) (h' : ExtensionHost) (a' : Int) (n' : Nat → Int) :
    Prop where
  active : h'.activeProcs - h'.first.countP Proc.running = h.activeProcs - h.first.countP Proc.running
  load : h'.load - a' = h.load - a
  proc : ∀ (k : Nat) (p' : Proc), h'.first[k]? = some p' → ∃ p : Proc, h.first[k]? = some p ∧
    p'.load - n' k = p.load - n k

variable {h : ExtensionHost} {r : (ι → ExtensionHost) × Option (HandlerCtx ι ε)} {ctxs : List (HandlerCtx ι ε)}

theorem SameHost.keeps {h' : ExtensionHost} (hsame : SameHost h h') (a : Int) (n : Nat → Int) :
    HostKeeps h a n h' a n where
  active := hsame.active
  load := by rw [hsame.load]
  proc k p' hp := by
    obtain ⟨p, hp, hload⟩ := hsame.proc k p' hp
    exact ⟨p, hp, by rw [hload]⟩

variable {i : ι} {k n : Nat}

theorem HostKeeps.setLoad {a : Int} {n n' : Nat → Int} {p : Proc} {load : Int}
    (hp : h.first[k]? = some p) (hload : load - n' k = p.load - n k) (hne : ∀ m, m ≠ k → n' m = n m) :
    HostKeeps h a n (h.setProc k { p with load := load } h.activeProcs) a n' := by
  constructor
  · have hcount := countP_set (p := Proc.running) hp { p with load := load }
    have hrun : one Proc.running (some { p with load := load }) = one Proc.running (some p) := one_congr rfl
    rw [hrun] at hcount
    simp only [ExtensionHost.setProc]
    omega
  · rfl
  · intro m q hq
    rw [ExtensionHost.setProc, List.getElem?_set] at hq
    split at hq
    · rename_i hkm
      subst hkm
      split at hq
      · cases hq
        exact ⟨p, hp, hload⟩
      · cases hq
    · rename_i hkm
      exact ⟨q, hq, by rw [hne m (Ne.symm hkm)]⟩

/-- What is counted for a handler context, if it is there, is added to the counters as it changes. -/
def Keeps (hosts : ι → ExtensionHost) (o : Option (HandlerCtx ι ε)) (hosts' : ι → ExtensionHost)
    (o' : Option (HandlerCtx ι ε)) : Prop :=
  ∀ i, HostKeeps (hosts i) (one (HandlerCtx.assigned i) o) (fun k => one (HandlerCtx.counted i k) o)
    (hosts' i) (one (HandlerCtx.assigned i) o') (fun k => one (HandlerCtx.counted i k) o')

variable {hosts hosts' hosts'' : ι → ExtensionHost} {o o' o'' : Option (HandlerCtx ι ε)} {c c' : HandlerCtx ι ε}

namespace Keeps

theorem refl (hosts : ι → ExtensionHost) (o : Option (HandlerCtx ι ε)) : Keeps hosts o hosts o :=
  fun _ => (SameHost.refl _).keeps _ _

theorem trans (h : Keeps hosts o hosts' o') (h' : Keeps hosts' o' hosts'' o'') : Keeps hosts o hosts'' o'' := by
  intro i
  constructor
  · exact (h' i).active.trans (h i).active
  · exact (h' i).load.trans (h i).load
  · intro k p hp
    obtain ⟨p₁, hp₁, hload₁⟩ := (h' i).proc k p hp
    obtain ⟨p₂, hp₂, hload₂⟩ := (h i).proc k p₁ hp₁
    exact ⟨p₂, hp₂, hload₁.trans hload₂⟩

/-- A change of the host `i`, and of what is counted on it. -/
theorem update {i : ι} {h : ExtensionHost}
    (hkeep : HostKeeps (hosts i) (one (HandlerCtx.assigned i) o) (fun k => one (HandlerCtx.counted i k) o)
      h (one (HandlerCtx.assigned i) o') (fun k => one (HandlerCtx.counted i k) o'))
    (hother : ∀ j, j ≠ i → one (HandlerCtx.assigned j) o' = one (HandlerCtx.assigned j) o ∧
      ∀ k, one (HandlerCtx.counted j k) o' = one (HandlerCtx.counted j k) o) :
    Keeps hosts o (Function.update hosts i h) o' := by
  intro j
  by_cases hj : j = i
  · subst hj
    rw [Function.update_self]
    exact hkeep
  · obtain ⟨hassigned, hcounted⟩ := hother j hj
    rw [Function.update_of_ne hj, hassigned, funext hcounted]
    exact (SameHost.refl _).keeps _ _

theorem ofHost {i : ι} {h : ExtensionHost} (hsame : SameHost (hosts i) h) :
    Keeps hosts o (Function.update hosts i h) o :=
  update (hsame.keeps _ _) fun _ _ => ⟨rfl, fun _ => rfl⟩

theorem onProc {f : ExtensionHost → Nat → Proc → ExtensionHost}
    (hsame : ∀ i k p, c.host = some i → c.proc = some k → (hosts i).first[k]? = some p →
      SameHost (hosts i) (f (hosts i) k p)) :
    Keeps hosts o (Account.onProc hosts c f) o := by
  unfold Account.onProc
  split
  · rename_i i k hhost hproc
    apply ofHost
    dsimp only
    cases hp : (hosts i).first[k]? with
    | none => exact SameHost.refl _
    | some p => exact hsame i k p hhost hproc hp
  · exact refl _ _

theorem ofCtx (hhost : c'.host = c.host) (hcount : ∀ i k, c'.counted i k = c.counted i k) :
    Keeps hosts (some c) hosts (some c') := by
  intro i
  have hassigned : c'.assigned i = c.assigned i := by simp only [HandlerCtx.assigned, hhost]
  rw [one_congr hassigned, funext fun k => one_congr (hcount i k)]
  exact (SameHost.refl _).keeps _ _

end Keeps

theorem HandlerCtx.counted_of_not_connected (h : c.connected = false) (i : ι) (k : Nat) : c.counted i k = false := by
  simp [HandlerCtx.counted, h]

theorem HandlerCtx.counted_congr (hhost : c'.host = c.host) (hproc : c'.proc = c.proc)
    (hconn : c'.connected = c.connected) (i : ι) (k : Nat) : c'.counted i k = c.counted i k := by
  simp only [HandlerCtx.counted, hhost, hproc, hconn]

/-- The load of a process changes as the handler context takes a connection to it or gives it back. -/
theorem Keeps.onLoad {g : Int → Int} {d : Int} (hhost : c.host = some i) (hproc : c.proc = some k)
    (hg : ∀ load, g load = load + d)
    (hassigned : ∀ j, one (HandlerCtx.assigned j) o' = one (HandlerCtx.assigned j) o)
    (hcounted : ∀ j m, one (HandlerCtx.counted j m) o' =
      one (HandlerCtx.counted j m) o + if j = i ∧ m = k then d else 0) :
    Keeps hosts o (Account.onProc hosts c fun h k p => h.setProc k { p with load := g p.load } h.activeProcs) o' := by
  have hother : ∀ m, m ≠ k → one (HandlerCtx.counted i m) o' = one (HandlerCtx.counted i m) o := by
    intro m hmk
    rw [hcounted, if_neg (fun h => hmk h.2), Int.add_zero]
  unfold Account.onProc
  simp only [hhost, hproc, onHost]
  apply Keeps.update
  · rw [hassigned i]
    cases hp : (hosts i).first[k]? with
    | none =>
      constructor
      · rfl
      · rfl
      · intro m p' hp'
        refine ⟨p', hp', ?_⟩
        have hmk : m ≠ k := by
          rintro rfl
          rw [Option.elim_none, hp] at hp'
          cases hp'
        rw [hother m hmk]
    | some p =>
      apply HostKeeps.setLoad hp
      · rw [hcounted, if_pos ⟨rfl, rfl⟩, hg]
        omega
      · exact hother
  · intro j hj
    refine ⟨hassigned j, fun m => ?_⟩
    rw [hcounted, if_neg (fun h => hj h.1), Int.add_zero]

theorem one_counted (hhost : c.host = some i) (hproc : c.proc = some k)
    (hconn : c.connected = true) (j : ι) (m : Nat) :
    one (HandlerCtx.counted j m) (some c) = if j = i ∧ m = k then 1 else 0 := by
  simp only [one, HandlerCtx.counted, hhost, hproc, hconn, Option.some.injEq, and_true, decide_eq_true_eq]
  simp only [eq_comm]

theorem one_counted_of_not_connected (hconn : c.connected = false) (j : ι) (m : Nat) :
    one (HandlerCtx.counted j m) (some c) = 0 :=
  one_of_false (HandlerCtx.counted_of_not_connected hconn j m)

theorem one_assigned_congr (hhost : c'.host = c.host) (j : ι) :
    one (HandlerCtx.assigned j) (some c') = one (HandlerCtx.assigned j) (some c) := by
  apply one_congr
  simp only [HandlerCtx.assigned, hhost]

/-- **A connection is taken and counted.** -/
theorem Keeps.loadInc (hhost : c'.host = some i) (hproc : c'.proc = some k)
    (hconn : c'.connected = true) (hhost₀ : c.host = some i) (hconn₀ : c.connected = false) :
    Keeps hosts (some c) (fcgiProcLoadInc hosts c') (some c') := by
  refine Keeps.onLoad (d := 1) hhost hproc (fun _ => rfl) ?_ ?_
  · exact one_assigned_congr (hhost.trans hhost₀.symm)
  · intro j m
    rw [one_counted hhost hproc hconn, one_counted_of_not_connected hconn₀, Int.zero_add]

/-- **A connection is given back, and no longer counted.** -/
theorem Keeps.loadDec (hhost : c.host = some i) (hproc : c.proc = some k)
    (hconn : c.connected = true) (hhost' : c'.host = some i) (hconn' : c'.connected = false) :
    Keeps hosts (some c) (fcgiProcLoadDec hosts c) (some c') := by
  refine Keeps.onLoad (d := -1) hhost hproc (fun _ => rfl) ?_ ?_
  · exact one_assigned_congr (hhost'.trans hhost.symm)
  · intro j m
    rw [one_counted hhost hproc hconn, one_counted_of_not_connected hconn']
    split <;> rfl

/-- The number of the handler contexts that are assigned to a host changes. -/
theorem Keeps.onAssign {d : Int}
    (hassigned : ∀ j, one (HandlerCtx.assigned j) o' = one (HandlerCtx.assigned j) o + if j = i then d else 0)
    (hcounted : ∀ j m, one (HandlerCtx.counted j m) o' = one (HandlerCtx.counted j m) o) :
    Keeps hosts o (onHost hosts i fun h => { h with load := h.load + d }) o' := by
  apply Keeps.update
  · constructor
    · rfl
    · rw [hassigned i, if_pos rfl]
      dsimp only
      omega
    · intro m p hp
      exact ⟨p, hp, by rw [hcounted]⟩
  · intro j hj
    constructor
    · rw [hassigned j, if_neg hj, Int.add_zero]
    · exact hcounted j

theorem one_assigned (hhost : c.host = some i) (j : ι) :
    one (HandlerCtx.assigned j) (some c) = if j = i then 1 else 0 := by
  simp only [one, HandlerCtx.assigned, hhost, Option.some.injEq, decide_eq_true_eq]
  simp only [eq_comm]

theorem one_assigned_none (hhost : c.host = none) (j : ι) : one (HandlerCtx.assigned j) (some c) = 0 := by
  simp [one, HandlerCtx.assigned, hhost]

theorem Keeps.hostAssign (hhost : c.host = none) (hconn : c.connected = false) :
    Keeps hosts (some c) (fcgiHostAssign hosts c i).1 (some (fcgiHostAssign hosts c i).2) := by
  refine Keeps.onAssign (d := 1) ?_ ?_
  · intro j
    rw [one_assigned_none hhost, one_assigned (i := i) rfl, Int.zero_add]
  · intro j m
    rw [one_counted_of_not_connected hconn, one_counted_of_not_connected (by exact hconn)]

theorem Keeps.hostReset (hconn : c.connected = false) (ho : o' = none ∨ o' = some { c with host := none }) :
    Keeps hosts (some c) (fcgiHostReset hosts c).1 o' := by
  have hassigned : ∀ j, one (HandlerCtx.assigned j) o' = 0 := by
    intro j
    rcases ho with rfl | rfl
    · exact one_none
    · exact one_assigned_none rfl j
  have hcounted : ∀ j m, one (HandlerCtx.counted j m) o' = one (HandlerCtx.counted j m) (some c) := by
    intro j m
    rw [one_counted_of_not_connected hconn]
    rcases ho with rfl | rfl
    · exact one_none
    · exact one_counted_of_not_connected (by exact hconn) j m
  unfold fcgiHostReset
  split
  · rename_i i hhost
    refine Keeps.onAssign (d := -1) ?_ hcounted
    intro j
    rw [hassigned, one_assigned hhost]
    split <;> rfl
  · rename_i hhost
    intro i
    rw [hassigned, ← one_assigned_none hhost i, funext fun m => hcounted i m]
    exact (SameHost.refl _).keeps _ _

/-! ## The steps -/

/-- What is known of a handler context that is not freed: a connection that is counted was taken. -/
structure HandlerCtx.Held (c : HandlerCtx ι ε) : Prop where
  gotProc : c.connected = true → c.gotProc = true
  proc : c.connected = true → ∃ i k, c.host = some i ∧ c.proc = some k

/-- **`got_proc` tells of a connection that has been given back before**, and of which the load would be taken off a
second time. -/
def HandlerCtx.Stale (c : HandlerCtx ι ε) : Prop :=
  c.gotProc = true ∧ c.connected = false ∧ c.host.isSome ∧ c.proc.isSome

theorem onProc_of_none {f : ExtensionHost → Nat → Proc → ExtensionHost} (h : ¬ (c.host.isSome ∧ c.proc.isSome)) :
    onProc hosts c f = hosts := by
  unfold onProc
  split
  · rename_i hhost hproc
    rw [hhost, hproc] at h
    exact absurd ⟨rfl, rfl⟩ h
  · rfl

theorem Keeps.release (hheld : c.Held) (hstale : ¬ c.Stale) (hhost : c'.host = c.host)
    (hconn : c'.connected = false) :
    Keeps hosts (some c) (Account.release hosts c) (some c') := by
  unfold Account.release
  cases h : c.connected with
  | true =>
    obtain ⟨i, k, hi, hk⟩ := hheld.proc h
    rw [if_pos (hheld.gotProc h)]
    exact Keeps.loadDec hi hk h (hhost.trans hi) hconn
  | false =>
    have hnone : (if c.gotProc then fcgiProcLoadDec hosts c else hosts) = hosts := by
      split
      · rename_i hgot
        apply onProc_of_none
        intro hsome
        exact hstale ⟨hgot, h, hsome⟩
      · rfl
    rw [hnone]
    apply Keeps.ofCtx hhost
    intro i k
    rw [HandlerCtx.counted_of_not_connected h, HandlerCtx.counted_of_not_connected hconn]

theorem fcgiHostReset_ctx : (fcgiHostReset hosts c).2 = { c with host := none } := by
  unfold fcgiHostReset
  split
  · rfl
  · rename_i hhost
    rw [← hhost]

theorem fcgiHostReset_congr (h : c'.host = c.host) : (fcgiHostReset hosts c').1 = (fcgiHostReset hosts c).1 := by
  unfold fcgiHostReset
  rw [h]
  split <;> rfl

/-- **`fcgi_connection_close` takes off what is counted for the handler context.** -/
theorem Keeps.connectionClose (hheld : c.Held) (hstale : ¬ c.Stale) :
    Keeps hosts (some c) (fcgiConnectionClose hosts c) none := by
  have hrel : Keeps hosts (some c) (Account.release hosts c) (some { c with state := .init }) :=
    Keeps.release hheld hstale rfl rfl
  have hcongr : (fcgiHostReset (Account.release hosts c) { c with state := .init }).1 = fcgiConnectionClose hosts c :=
    fcgiHostReset_congr rfl
  rw [← hcongr]
  exact hrel.trans (Keeps.hostReset rfl (.inl rfl))

/-- **`fcgi_reconnect` does so too.** -/
theorem Keeps.reconnect (hheld : c.Held) (hstale : ¬ c.Stale) :
    Keeps hosts (some c) (fcgiReconnect hosts c).1 (some (fcgiReconnect hosts c).2) := by
  have hrel : Keeps hosts (some c) (Account.release hosts c)
      (some { c with state := .init, reconnects := c.reconnects + 1 }) := Keeps.release hheld hstale rfl rfl
  refine hrel.trans (Keeps.hostReset rfl (.inr ?_))
  exact congrArg some fcgiHostReset_ctx

theorem fcgiReconnect_state : (fcgiReconnect hosts c).2.state = .init := by
  unfold fcgiReconnect
  rw [fcgiHostReset_ctx]

/-! ## `fcgi_write_request` -/

/-- What is known of a handler context between two steps. -/
structure HandlerCtx.Ok (c : HandlerCtx ι ε) : Prop where
  placed : c.state ≠ .init → ∃ i k, c.host = some i ∧ c.proc = some k
  gotProc : c.connected = true → c.gotProc = true
  ready : c.state ≠ .prepareWrite

omit [DecidableEq ι] in
theorem HandlerCtx.Ok.held (h : c.Ok) : c.Held := by
  refine ⟨h.gotProc, fun hconn => h.placed ?_⟩
  intro hinit
  simp [HandlerCtx.connected, hinit] at hconn

omit [DecidableEq ι] in
theorem HandlerCtx.ok_of (hgot : c.gotProc = true) (hhost : c.host = some i)
    (hproc : c.proc = some k) (hready : c.state ≠ .prepareWrite) : c.Ok :=
  ⟨fun _ => ⟨i, k, hhost, hproc⟩, fun _ => hgot, hready⟩

omit [DecidableEq ι] in
theorem HandlerCtx.ok_of_init (h : c.state = .init) : c.Ok := by
  constructor
  · intro hne
    exact absurd h hne
  · intro hconn
    simp [HandlerCtx.connected, h] at hconn
  · rw [h]
    decide

def Attempt.fails : Attempt → Bool
  | .socketFailed | .overloaded | .dead => true
  | .waitForFd | .delayed | .ok => false

/-- **The attempt to connect to a process of the host fails.** Under `FCGI_STATE_INIT` there is none without a process
that runs. -/
def ConnectFails (env : SendEnv) (hosts : ι → ExtensionHost) (i : ι) (c : HandlerCtx ι ε) : Prop :=
  match c.state with
  | .init => env.attempt.fails = true ∧ ∃ p ∈ (hosts i).first, p.running = true
  | .connect => env.soError = true
  | .prepareWrite | .write | .read => False

/-- **What `fcgi_write_request` does**: the counters are kept right. A handler context that is left with an error has
been given a process in an attempt that fails. -/
structure Written (env : SendEnv) (hosts : ι → ExtensionHost) (i : ι) (c : HandlerCtx ι ε)
    (r : Bool × (ι → ExtensionHost) × HandlerCtx ι ε) : Prop where
  keeps : Keeps hosts (some c) r.2.1 (some r.2.2)
  ok : r.1 = true → r.2.2.Ok
  held : r.2.2.Held
  stale : r.2.2.Stale → c.gotProc = true ∧ (r.1 = false → ConnectFails env hosts i c)

omit [DecidableEq ι] in
theorem writeQueue_ctx (d : Drained) (c : HandlerCtx ι ε) :
    (writeQueue d c).2.host = c.host ∧ (writeQueue d c).2.proc = c.proc ∧
      (writeQueue d c).2.gotProc = c.gotProc ∧ (writeQueue d c).2.connected = true ∧
      (writeQueue d c).2.state ≠ .prepareWrite := by
  cases d <;> exact ⟨rfl, rfl, rfl, rfl, nofun⟩

omit [DecidableEq ι] in
theorem HandlerCtx.not_stale (h : c.connected = true) : ¬ c.Stale := by
  intro hstale
  rw [hstale.2.1] at h
  cases h

variable {env : SendEnv}

/-- Under `FCGI_STATE_WRITE`. -/
theorem writeQueue_written (d : Drained) (hhost : c'.host = some i) (hproc : c'.proc = some k)
    (hconn : c'.connected = true) (hgot : c'.gotProc = true) (hkeeps : Keeps hosts (some c) hosts' (some c')) :
    Written env hosts i c ((writeQueue d c').1, hosts', (writeQueue d c').2) := by
  obtain ⟨hhost', hproc', hgot', hconn', hstate'⟩ := writeQueue_ctx d c'
  have hok : (writeQueue d c').2.Ok :=
    HandlerCtx.ok_of (hgot'.trans hgot) (hhost'.trans hhost) (hproc'.trans hproc) hstate'
  constructor
  · apply hkeeps.trans
    apply Keeps.ofCtx hhost'
    exact HandlerCtx.counted_congr hhost' hproc' (hconn'.trans hconn.symm)
  · exact fun _ => hok
  · exact hok.held
  · intro h
    exact absurd h (HandlerCtx.not_stale hconn')

theorem prepareWrite_written (hhost : c'.host = some i) (hproc : c'.proc = some k)
    (hstate : c'.state = .prepareWrite) (hhost₀ : c.host = some i) (hconn₀ : c.connected = false) :
    Written env hosts i c (prepareWrite env hosts c') := by
  have hconn : c'.connected = true := by
    unfold HandlerCtx.connected
    rw [hstate]
  have hinc : Keeps hosts (some c) (fcgiProcLoadInc hosts c') (some c') :=
    Keeps.loadInc hhost hproc hconn hhost₀ hconn₀
  unfold prepareWrite
  dsimp only
  split
  · refine writeQueue_written env.drained hhost hproc rfl rfl (hinc.trans (Keeps.ofCtx rfl ?_))
    exact HandlerCtx.counted_congr rfl rfl hconn.symm
  · constructor
    · refine hinc.trans (Keeps.ofCtx rfl ?_)
      exact HandlerCtx.counted_congr rfl rfl rfl
    · intro h
      cases h
    · exact ⟨fun _ => rfl, fun _ => ⟨i, k, hhost, hproc⟩⟩
    · intro h
      exact absurd h (HandlerCtx.not_stale hconn)

theorem Keeps.setProc (hconn : c.connected = false) (o : Option Nat) :
    Keeps hosts (some c) hosts (some { c with proc := o }) := by
  apply Keeps.ofCtx (by rfl)
  intro j m
  rw [HandlerCtx.counted_of_not_connected hconn, HandlerCtx.counted_of_not_connected (by exact hconn)]

theorem connect_written (hhost : c.host = some i) (hstate : c.state = .init)
    (hrun : ∃ p ∈ (hosts i).first, p.running = true) :
    Written env hosts i c (connect env hosts { c with proc := some k }) := by
  have hconn : c.connected = false := by
    unfold HandlerCtx.connected
    rw [hstate]
  have hproc : Keeps hosts (some c) hosts (some { c with proc := some k }) := Keeps.setProc hconn (some k)
  have hinit : HandlerCtx.Ok { c with proc := some k } := HandlerCtx.ok_of_init hstate
  have hfails : env.attempt.fails = true → ConnectFails env hosts i c := by
    intro h
    unfold ConnectFails
    rw [hstate]
    exact ⟨h, hrun⟩
  unfold connect
  cases hattempt : env.attempt with
  | waitForFd => exact ⟨hproc, fun _ => hinit, hinit.held, fun h => ⟨h.1, nofun⟩⟩
  | socketFailed =>
    exact ⟨hproc, fun _ => hinit, hinit.held, fun h => ⟨h.1, fun _ => hfails (by rw [hattempt]; rfl)⟩⟩
  | delayed =>
    have hok : HandlerCtx.Ok { c with proc := some k, state := .connect } :=
      ⟨fun _ => ⟨i, k, hhost, rfl⟩, nofun, nofun⟩
    refine ⟨hproc.trans (Keeps.ofCtx rfl ?_), fun _ => hok, hok.held, fun h => ⟨h.1, nofun⟩⟩
    exact HandlerCtx.counted_congr rfl rfl hconn.symm
  | overloaded =>
    refine ⟨hproc.trans (Keeps.onProc ?_), fun _ => hinit, hinit.held,
      fun h => ⟨h.1, fun _ => hfails (by rw [hattempt]; rfl)⟩⟩
    exact fun _ _ _ _ _ hp => SameHost.overload env.now hp
  | dead =>
    refine ⟨hproc.trans (Keeps.onProc ?_), fun _ => hinit, hinit.held,
      fun h => ⟨h.1, fun _ => hfails (by rw [hattempt]; rfl)⟩⟩
    exact fun _ _ _ _ _ hp => SameHost.disable env.now hp
  | ok =>
    exact prepareWrite_written hhost rfl rfl hhost hconn

theorem selectProc_running {procs : List Proc} {best : Option (Nat × Proc)} {x : Nat × Proc}
    (h : selectProc n best procs = some x) : best.isSome ∨ ∃ p ∈ procs, p.running = true := by
  induction procs generalizing n best with
  | nil =>
    left
    rw [selectProc] at h
    rw [h]
    rfl
  | cons p procs ih =>
    unfold selectProc at h
    split at h
    · rename_i hrun
      exact .inr ⟨p, List.mem_cons_self, hrun⟩
    · rcases ih h with hbest | ⟨q, hq, hrun⟩
      · exact .inl hbest
      · exact .inr ⟨q, List.mem_cons_of_mem p hq, hrun⟩

/-- **`fcgi_write_request` keeps the counters right.** -/
theorem fcgiWriteRequest_written (hok : c.Ok) (hhost : c.host = some i) :
    Written env hosts i c (fcgiWriteRequest env hosts i c) := by
  unfold fcgiWriteRequest
  cases hstate : c.state with
  | init =>
    have hconn : c.connected = false := by
      unfold HandlerCtx.connected
      rw [hstate]
    dsimp only
    rw [← hstate]
    split
    · have hinit : HandlerCtx.Ok { c with proc := none } := HandlerCtx.ok_of_init hstate
      refine ⟨Keeps.setProc hconn none, fun _ => hinit, hinit.held, fun h => ?_⟩
      obtain ⟨-, -, -, hproc⟩ := h
      cases hproc
    · rename_i k p hselect
      apply connect_written hhost hstate
      rcases selectProc_running hselect with h | h
      · cases h
      · exact h
  | connect =>
    have hconn : c.connected = false := by
      unfold HandlerCtx.connected
      rw [hstate]
    obtain ⟨j, k, hj, hk⟩ := hok.placed (by rw [hstate]; decide)
    dsimp only
    split
    · rename_i herror
      refine ⟨Keeps.onProc ?_, fun _ => hok, hok.held, fun h => ⟨h.1, fun _ => ?_⟩⟩
      · exact fun _ _ _ _ _ hp => SameHost.disable env.now hp
      · unfold ConnectFails
        rw [hstate]
        exact herror
    · exact prepareWrite_written hhost hk rfl hhost hconn
  | prepareWrite => exact absurd hstate hok.ready
  | write =>
    have hconn : c.connected = true := by
      unfold HandlerCtx.connected
      rw [hstate]
    obtain ⟨j, k, hj, hk⟩ := hok.placed (by rw [hstate]; decide)
    exact writeQueue_written env.drained hhost hk hconn (hok.gotProc hconn) (Keeps.refl _ _)
  | read =>
    have hconn : c.connected = true := by
      unfold HandlerCtx.connected
      rw [hstate]
    exact ⟨Keeps.refl _ _, fun _ => hok, hok.held, fun h => absurd h (HandlerCtx.not_stale hconn)⟩

/-! ## `fcgi_send_request` and `fcgi_recv_response` -/

/-- What a step does to a handler context, which may be freed by it. -/
def Steps (hosts : ι → ExtensionHost) (c : HandlerCtx ι ε) (r : (ι → ExtensionHost) × Option (HandlerCtx ι ε)) : Prop :=
  Keeps hosts (some c) r.1 r.2 ∧ ∀ c', r.2 = some c' → c'.Ok

theorem steps_close (hheld : c.Held) (hstale : ¬ c.Stale) : Steps hosts c (fcgiConnectionClose hosts c, none) :=
  ⟨Keeps.connectionClose hheld hstale, nofun⟩

theorem steps_reconnect (hheld : c.Held) (hstale : ¬ c.Stale) :
    Steps hosts c ((fcgiReconnect hosts c).1, some (fcgiReconnect hosts c).2) := by
  constructor
  · exact Keeps.reconnect hheld hstale
  · rintro c' ⟨⟩
    exact HandlerCtx.ok_of_init fcgiReconnect_state

theorem Keeps.steps (hkeeps : Keeps hosts (some c) hosts' (some c')) (hsteps : Steps hosts' c' r) : Steps hosts c r :=
  ⟨hkeeps.trans hsteps.1, hsteps.2⟩

theorem sendResult_steps {w : Bool × (ι → ExtensionHost) × HandlerCtx ι ε}
    (hwritten : Written env hosts i c w)
    (hsound : ¬ (c.gotProc = true ∧ ConnectFails env hosts i c)) (h : sendResult env i w = some r) :
    Steps hosts c r := by
  obtain ⟨ok, hosts₁, c₁⟩ := w
  unfold sendResult at h
  dsimp only at h
  cases ok with
  | true =>
    cases h
    refine ⟨hwritten.keeps, ?_⟩
    rintro c' ⟨⟩
    exact hwritten.ok rfl
  | false =>
    have hstale : ¬ c₁.Stale := by
      intro hs
      obtain ⟨hgot, hfails⟩ := hwritten.stale hs
      exact hsound ⟨hgot, hfails rfl⟩
    rw [if_neg (by decide)] at h
    split at h
    · obtain ⟨hst, hrestart, h⟩ := Option.bind_eq_some_iff.mp h
      have hkeeps := hwritten.keeps.trans (Keeps.ofHost (SameHost.restart hrestart))
      split at h
      · cases h
        exact hkeeps.steps (steps_reconnect hwritten.held hstale)
      · cases h
        exact hkeeps.steps (steps_close hwritten.held hstale)
    · cases h
      exact hwritten.keeps.steps (steps_close hwritten.held hstale)

theorem sendTo_steps (hok : c.Ok) (hhost : c.host = some i)
    (hsound : ¬ (c.gotProc = true ∧ ConnectFails env hosts i c)) (h : sendTo env hosts i c = some r) :
    Steps hosts c r :=
  sendResult_steps (fcgiWriteRequest_written hok hhost) hsound h

theorem fcgiRecvResponse_steps {env : RecvEnv} (hok : c.Ok) (hconn : c.connected = true)
    (hsound : ∀ i k p, c.host = some i → c.proc = some k → (hosts i).first[k]? = some p →
      ¬ (env.received = .closed ∧ p.pid ≠ 0 ∧ p.running = true ∧ env.waited = .exited)) :
    Steps hosts c (fcgiRecvResponse env hosts c) := by
  have hstale := HandlerCtx.not_stale hconn
  unfold fcgiRecvResponse
  cases hreceived : env.received with
  | more =>
    refine ⟨Keeps.refl _ _, ?_⟩
    rintro c' ⟨⟩
    exact hok
  | done => exact steps_close hok.held hstale
  | closed =>
    have hkeeps : Keeps hosts (some c)
        (onProc hosts c fun h k p => h.childExited env.waited env.spawn k p) (some c) := by
      apply Keeps.onProc
      intro i k p hi hk hp
      apply SameHost.childExited hp
      exact fun hexit => hsound i k p hi hk hp ⟨hreceived, hexit⟩
    dsimp only
    split
    · exact hkeeps.steps (steps_reconnect hok.held hstale)
    · exact hkeeps.steps (steps_close hok.held hstale)

/-! ## Runs -/

/-- **What the counters count**: `active_procs` the processes of the host that run, `host->load` the handler contexts
that are assigned to it, and `proc->load` those that hold a connection counted on the process. -/
structure Balanced (hosts : ι → ExtensionHost) (ctxs : List (HandlerCtx ι ε)) : Prop where
  active : ∀ i, (hosts i).activeProcs = (hosts i).first.countP Proc.running
  load : ∀ i, (hosts i).load = ctxs.countP (HandlerCtx.assigned i)
  proc : ∀ (i : ι) (k : Nat) (p : Proc), (hosts i).first[k]? = some p → p.load = ctxs.countP (HandlerCtx.counted i k)

/-- No counter is negative. -/
structure NonNegative (hosts : ι → ExtensionHost) : Prop where
  active : ∀ i, 0 ≤ (hosts i).activeProcs
  load : ∀ i, 0 ≤ (hosts i).load
  proc : ∀ i, ∀ p ∈ (hosts i).first, 0 ≤ p.load

theorem Balanced.nonNegative (h : Balanced hosts ctxs) : NonNegative hosts := by
  constructor
  · intro i
    rw [h.active]
    omega
  · intro i
    rw [h.load]
    omega
  · intro i p hp
    obtain ⟨k, hk⟩ := List.mem_iff_getElem?.mp hp
    rw [h.proc i k p hk]
    omega

theorem Balanced.replace (h : Balanced hosts ctxs) (hc : ctxs[n]? = some c)
    (hkeeps : Keeps hosts (some c) hosts' o') : Balanced hosts' (Census.replace ctxs n o') := by
  constructor
  · intro i
    have hactive := (hkeeps i).active
    have hbefore := h.active i
    omega
  · intro i
    have hcount := countP_replace (p := HandlerCtx.assigned i) hc o'
    have hload := (hkeeps i).load
    have hbefore := h.load i
    omega
  · intro i k p hp
    have hcount := countP_replace (p := HandlerCtx.counted i k) hc o'
    obtain ⟨q, hq, hload⟩ := (hkeeps i).proc k p hp
    have hbefore := h.proc i k q hq
    omega

theorem Balanced.update (hb : Balanced hosts ctxs)
    (hsame : SameHost (hosts i) h) : Balanced (Function.update hosts i h) ctxs := by
  have hkeeps : Keeps hosts (none : Option (HandlerCtx ι ε)) (Function.update hosts i h) none := Keeps.ofHost hsame
  constructor
  · intro j
    have hactive := (hkeeps j).active
    have hbefore := hb.active j
    omega
  · intro j
    have hload := (hkeeps j).load
    have hbefore := hb.load j
    omega
  · intro j k p hp
    obtain ⟨q, hq, hload⟩ := (hkeeps j).proc k p hp
    have hbefore := hb.proc j k q hq
    omega

/-- The invariant of a run. -/
structure Server.Ok (s : Server ι ε) : Prop where
  balanced : Balanced s.hosts s.ctxs
  ctxs : ∀ c ∈ s.ctxs, c.Ok

/-- `mod_fastcgi_set_defaults`: all processes have been started, and there are no requests. -/
structure Server.Started (s : Server ι ε) : Prop where
  active : ∀ i, (s.hosts i).activeProcs = (s.hosts i).first.length
  load : ∀ i, (s.hosts i).load = 0
  procs : ∀ i, ∀ p ∈ (s.hosts i).first, p.state = .running ∧ p.load = 0
  ctxs : s.ctxs = []

def Server.target (s : Server ι ε) (c : HandlerCtx ι ε) : Option ι :=
  c.host.or ((chooseHost s.hosts (s.exts c.ext)).map Prod.snd)

/-- **The steps that keep the counters right.** In `fcgi_recv_response` no child has exited whose process is still in
`PROC_STATE_RUNNING`. And no handler context that has given back a connection, and has not got another one since, is
closed or fails to connect while it has a process. -/
def Sound (s : Server ι ε) : Op ι ε → Prop
  | .checkExtension _ => True
  | .trigger _ _ _ => True
  | .send n env => ∀ c i, s.ctxs[n]? = some c → s.target c = some i →
    ¬ (c.gotProc = true ∧ ConnectFails env s.hosts i c)
  | .recv n env => ∀ c i k p, s.ctxs[n]? = some c → c.host = some i → c.proc = some k →
    (s.hosts i).first[k]? = some p →
    ¬ (env.received = .closed ∧ p.pid ≠ 0 ∧ p.running = true ∧ env.waited = .exited)
  | .close n => ∀ c, s.ctxs[n]? = some c → ¬ c.Stale

variable [DecidableEq ε] {s s' : Server ι ε}

omit [DecidableEq ε] in
theorem Server.Started.ok (h : s.Started) : s.Ok := by
  constructor
  · constructor
    · intro i
      rw [h.active, List.countP_eq_length.mpr]
      intro p hp
      simp [Proc.running, (h.procs i p hp).1]
    · intro i
      rw [h.load, h.ctxs]
      rfl
    · intro i k p hp
      rw [(h.procs i p (List.mem_of_getElem? hp)).2, h.ctxs]
      rfl
  · rw [h.ctxs]
    nofun

omit [DecidableEq ε] in
theorem Server.Ok.replace {exts : ε → Extension ι} (h : s.Ok) (hc : s.ctxs[n]? = some c)
    (hsteps : Steps s.hosts c (hosts', o')) :
    Server.Ok { exts := exts, hosts := hosts', ctxs := Census.replace s.ctxs n o' } := by
  constructor
  · exact h.balanced.replace hc hsteps.1
  · intro c' hc'
    rcases mem_replace hc' with hc' | hc'
    · exact h.ctxs c' hc'
    · exact hsteps.2 c' hc'

theorem fcgiSendRequest_ok (h : s.Ok) (hc : s.ctxs[n]? = some c) (hsound : Sound s (.send n env))
    (heq : fcgiSendRequest s n env c = some s') : s'.Ok := by
  have hok := h.ctxs c (List.mem_of_getElem? hc)
  unfold fcgiSendRequest at heq
  split at heq
  · rename_i i hhost
    obtain ⟨⟨hosts, o⟩, hsend, heq⟩ := Option.bind_eq_some_iff.mp heq
    cases heq
    refine h.replace hc (sendTo_steps hok hhost (hsound c i hc ?_) hsend)
    rw [Server.target, hhost]
    rfl
  · rename_i hhost
    have hinit : c.state = .init := by
      by_contra hne
      obtain ⟨i, k, hi, -⟩ := hok.placed hne
      rw [hhost] at hi
      cases hi
    have hconn : c.connected = false := by
      unfold HandlerCtx.connected
      rw [hinit]
    split at heq
    · cases heq
      refine h.replace hc (steps_close hok.held ?_)
      intro hstale
      have hsome := hstale.2.2.1
      rw [hhost] at hsome
      cases hsome
    · rename_i ndx i hchoose
      obtain ⟨⟨hosts, o⟩, hsend, heq⟩ := Option.bind_eq_some_iff.mp heq
      cases heq
      have hassign : Keeps s.hosts (some c) (fcgiHostAssign s.hosts c i).1 (some (fcgiHostAssign s.hosts c i).2) :=
        Keeps.hostAssign hhost hconn
      refine h.replace hc (hassign.steps (sendTo_steps (HandlerCtx.ok_of_init hinit) rfl ?_ hsend))
      have htarget : s.target c = some i := by
        rw [Server.target, hhost, hchoose]
        rfl
      have hno := hsound c i hc htarget
      unfold ConnectFails at hno ⊢
      rw [hinit] at hno
      simp only [fcgiHostAssign, hinit, onHost, Function.update_self]
      exact hno

/-- **What a step keeps.** -/
theorem step_ok {op : Op ι ε} (h : s.Ok) (hsound : Sound s op) (heq : step s op = some s') : s'.Ok := by
  cases op with
  | checkExtension e =>
    rw [step] at heq
    split at heq
    · cases heq
      constructor
      · constructor
        · exact h.balanced.active
        · intro i
          rw [h.balanced.load, List.countP_append]
          rfl
        · intro i k p hp
          rw [h.balanced.proc i k p hp, List.countP_append]
          rfl
      · intro c hc
        rcases List.mem_append.mp hc with hc | hc
        · exact h.ctxs c hc
        · rw [List.mem_singleton.mp hc]
          exact HandlerCtx.ok_of_init rfl
    · cases heq
      exact h
  | send n env =>
    obtain ⟨c, hc, heq⟩ := Option.bind_eq_some_iff.mp heq
    exact fcgiSendRequest_ok h hc hsound heq
  | recv n env =>
    obtain ⟨c, hc, heq⟩ := Option.bind_eq_some_iff.mp heq
    split at heq
    · rename_i hstate
      cases heq
      have hconn : c.connected = true := by
        unfold HandlerCtx.connected
        rcases hstate with hstate | hstate <;> rw [hstate]
      refine h.replace hc (fcgiRecvResponse_steps (h.ctxs c (List.mem_of_getElem? hc)) hconn ?_)
      exact fun i k p => hsound c i k p hc
    · cases heq
  | close n =>
    obtain ⟨c, hc, heq⟩ := Option.bind_eq_some_iff.mp heq
    cases heq
    exact h.replace hc (steps_close (h.ctxs c (List.mem_of_getElem? hc)).held (hsound c hc))
  | trigger i now restart =>
    obtain ⟨hst, hrestart, heq⟩ := Option.bind_eq_some_iff.mp heq
    cases heq
    exact ⟨h.balanced.update (SameHost.restart hrestart), h.ctxs⟩

/-- **The counters of a FastCGI backend are right in every run in which no child is found dead whose process is taken
to run, and no connection is given back twice.** From the start of the server on, over any hosts, extensions and
requests, and whatever the system and the backends answer. -/
theorem accounts_balance (s₀ : Server ι ε) (h : s₀.Started) (ops : List (Op ι ε)) (s : Server ι ε)
    (hsound : Run.Meets step Sound s₀ ops) (hrun : Run.run step s₀ ops = some s) :
    Balanced s.hosts s.ctxs ∧ NonNegative s.hosts := by
  have hok : s.Ok := Run.run_keeps (fun _ _ _ => step_ok) h.ok hsound hrun
  exact ⟨hok.balanced, hok.balanced.nonNegative⟩

end Hosts

/-! ## Samples -/

def sampleServer : Server Unit Unit where
  exts _ := ⟨[()], -1⟩
  hosts _ := ⟨[⟨7, 0, 0, true, .running⟩], 1, 0, 0, true⟩
  ctxs := []

theorem sampleServer_started : sampleServer.Started where
  active _ := rfl
  load _ := rfl
  procs _ p hp := by
    rw [List.mem_singleton.mp hp]
    exact ⟨rfl, rfl⟩
  ctxs := rfl

/-- A call of `fcgi_send_request` in which an attempt to connect ends so. -/
def sampleSend (attempt : Attempt) (drained : Drained) : SendEnv :=
  ⟨0, attempt, false, true, drained, ⟨fun _ => .alive, fun _ => .failed⟩⟩

theorem accounts_balance_sample : ∃ s, Run.run step sampleServer
      [.checkExtension (), .send 0 (sampleSend .ok .all), .close 0] = some s ∧
    Balanced s.hosts s.ctxs ∧ NonNegative s.hosts := by
  have hsome : (Run.run step sampleServer
      [.checkExtension (), .send 0 (sampleSend .ok .all), .close 0]).isSome := rfl
  obtain ⟨s, hrun⟩ := Option.isSome_iff_exists.mp hsome
  refine ⟨s, hrun, ?_⟩
  refine accounts_balance sampleServer sampleServer_started _ s ?_ hrun
  refine ⟨trivial, fun s₁ h₁ => ?_⟩
  cases h₁
  refine ⟨?_, fun s₂ h₂ => ?_⟩
  · rintro c i ⟨⟩ hi ⟨⟨⟩, -⟩
  · cases h₂
    refine ⟨?_, fun _ _ => trivial⟩
    rintro c ⟨⟩ ⟨-, ⟨⟩, -⟩

/-- The child exits while its process is in `PROC_STATE_RUNNING`, and the new one is counted too. -/
def sampleExit : List (Op Unit Unit) :=
  [.checkExtension (), .send 0 (sampleSend .ok .all), .recv 0 ⟨.closed, .exited, .child 8, true, false⟩]

/-- A connection is given back in `fcgi_recv_response`, and again after the next attempt fails in `socket`. -/
def sampleStale : List (Op Unit Unit) :=
  [.checkExtension (), .send 0 (sampleSend .ok .some), .recv 0 ⟨.closed, .alive, .failed, false, true⟩,
    .send 0 (sampleSend .socketFailed .some)]

/-- **The counters go wrong**: `active_procs` is 2 with one process, and the load of a process is -1. -/
theorem counters_go_wrong : sampleServer.Started ∧
    (∃ s, Run.run step sampleServer sampleExit = some s ∧ ¬ Balanced s.hosts s.ctxs) ∧
    ∃ s, Run.run step sampleServer sampleStale = some s ∧ ¬ NonNegative s.hosts := by
  refine ⟨sampleServer_started, ?_, ?_⟩
  · have hcount : (Run.run step sampleServer sampleExit).map
        (fun s => ((s.hosts ()).activeProcs, (s.hosts ()).first.countP Proc.running)) = some (2, 1) := by
      decide
    obtain ⟨s, hrun, hs⟩ := Option.map_eq_some_iff.mp hcount
    refine ⟨s, hrun, fun hb => ?_⟩
    have hactive := hb.active ()
    rw [Prod.mk.injEq] at hs
    rw [hs.1, hs.2] at hactive
    cases hactive
  · have hload : (Run.run step sampleServer sampleStale).map (fun s => ((s.hosts ()).first.map Proc.load)) =
        some [-1] := by
      decide
    obtain ⟨s, hrun, hs⟩ := Option.map_eq_some_iff.mp hload
    refine ⟨s, hrun, fun hn => ?_⟩
    have hmem : (-1 : Int) ∈ (s.hosts ()).first.map Proc.load := by
      rw [hs]
      exact List.mem_singleton_self _
    obtain ⟨p, hp, hneg⟩ := List.mem_map.mp hmem
    have hle := hn.proc () p hp
    omega

end Account
end Fcgi
end Lighttpd
