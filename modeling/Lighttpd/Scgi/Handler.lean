import Lighttpd.Scgi.Balance

/-!
# The handler contexts of a SCGI backend

What each function does to the list and the counters of the host, for one handler context. The list is kept in every
case; the counters are kept except for a handler context that is given up without a process, a connection that is given
back a second time, and a process that is taken to have died, or found dead, while it is counted as running.
-/

namespace Lighttpd
namespace Scgi
namespace Account

open Backend DoublyLinked Census

variable {κ : Type} [DecidableEq κ] {ids : List κ} {h h' : ExtensionHost κ} {k : κ}

section Contexts

variable {n : Int} {m : κ → Int} {c c' : HandlerCtx κ}

/-- What is known of a handler context in every run. -/
structure HandlerCtx.Ok (ids : List κ) (c : HandlerCtx κ) : Prop where
  proc : ∀ k, c.proc = some k → k ∈ ids
  placed : c.state ≠ .init → c.proc.isSome
  gotProc : c.connected = true → c.gotProc = true

/-- The numbers of the other handler contexts that have taken a process are below what a counter holds. -/
def Bounded (m : κ → Int) : Prop := ∀ k, 0 ≤ m k ∧ m k + 1 < 2 ^ 64

theorem size_eq {x : Int} (h₀ : 0 ≤ x) (h : x < 2 ^ 64) : size x = x := Int.emod_eq_of_lt h₀ h

theorem one_counted {k : κ} (hproc : c.proc = some k) (hconn : c.connected = true) (j : κ) :
    one (HandlerCtx.counted j) (some c) = if j = k then 1 else 0 := by
  simp only [one, HandlerCtx.counted, hproc, hconn, Option.some.injEq, and_true, decide_eq_true_eq]
  simp only [eq_comm]

theorem one_counted_of_not_connected (hconn : c.connected = false) (j : κ) :
    one (HandlerCtx.counted j) (some c) = 0 := by
  apply one_of_false
  simp [HandlerCtx.counted, hconn]

/-! ## A change of a load, and the sort behind it -/

def ExtensionHost.addLoads (h : ExtensionHost κ) (k : κ) (e d : Int) : ExtensionHost κ :=
  (h.addLoad e).addProcLoad k d

theorem addLoads_zero_left (k : κ) (d : Int) : h.addLoads k 0 d = h.addProcLoad k d := by
  simp [ExtensionHost.addLoads, ExtensionHost.addLoad]

theorem addLoads_zero_right (k : κ) (e : Int) : h.addLoads k e 0 = h.addLoad e := by
  simp [ExtensionHost.addLoads, ExtensionHost.addProcLoad, ExtensionHost.setProc, ExtensionHost.addLoad]

theorem addLoads_procs (h : ExtensionHost κ) (k : κ) (e d : Int) (j : κ) :
    (h.addLoads k e d).procs j =
      { h.procs j with load := if j = k then (h.procs j).load + d else (h.procs j).load } := by
  by_cases hj : j = k
  · subst hj
    rw [if_pos rfl]
    exact setProc_self ..
  · rw [if_neg hj]
    exact Function.update_of_ne hj ..

theorem addLoads_changed (h : ExtensionHost κ) (k : κ) (e d : Int) : LoadChanged k h (h.addLoads k e d) := by
  refine ⟨rfl, rfl, ?_⟩
  intro j hj
  rw [addLoads_procs, if_neg hj]

theorem addLoads_ok (hok : h.Ok ids) (k : κ) (e d : Int) : (h.addLoads k e d).Ok ids := by
  obtain ⟨l, hlists, hperm⟩ := hok.list
  refine ⟨⟨l, ⟨hlists.list, hlists.numProcs⟩, hperm⟩, ?_⟩
  intro j hj
  rw [addLoads_procs]
  exact hok.procs j hj

/-- What is counted for a handler context, if it is there, changes with the counters. -/
structure Counted (k : κ) (e d : Int) (o o' : Option (HandlerCtx κ)) : Prop where
  host : one (fun _ => true) o' = one (fun _ => true) o + e
  proc : ∀ j, one (HandlerCtx.counted j) o' = one (HandlerCtx.counted j) o + if j = k then d else 0

variable {e d : Int} {o o' : Option (HandlerCtx κ)}

theorem Counts.addLoads {links : Links κ} (hc : Counts ids n m h o) (hcounted : Counted k e d o o')
    (hsorted : ExtensionHost.Sorted ids { h.addLoads k e d with links := links }) :
    Counts ids n m { h.addLoads k e d with links := links } o' := by
  constructor
  · simp only [addLoads_procs]
    exact hc.active
  · rw [hcounted.host, ← Int.add_assoc, ← hc.load]
    rfl
  · intro j hj
    have hload := hc.proc j hj
    rw [hcounted.proc j]
    dsimp only
    rw [addLoads_procs]
    dsimp only
    split <;> omega
  · exact hsorted

theorem Counts.sizes (hm : Bounded m) (hc : Counts ids n m h o) (hcounted : Counted k e d o o') (hk : k ∈ ids) :
    size (h.procs k).load = (h.procs k).load ∧
      size ((h.addLoads k e d).procs k).load = (h.procs k).load + d := by
  have hload := hc.proc k hk
  have hproc := hcounted.proc k
  rw [if_pos rfl] at hproc
  have hbefore := one_bounds (HandlerCtx.counted k) o
  have hafter := one_bounds (HandlerCtx.counted k) o'
  have hmk := hm k
  rw [addLoads_procs, if_pos rfl]
  constructor
  · apply size_eq <;> omega
  · dsimp only
    apply size_eq <;> omega

/-- **A load that does not grow, and `scgi_proclist_sort_down`.** -/
theorem sortDown_addLoads (e : Int) {d : Int} (hd : d ≤ 0) (hok : h.Ok ids) (hk : k ∈ ids) :
    ∃ h', scgiProclistSortDown (h.addLoads k e d) k = some h' ∧ h'.Ok ids ∧
      ∀ n m o o', Bounded m → Counted k e d o o' → Counts ids n m h o → Counts ids n m h' o' := by
  have hok' := addLoads_ok hok k e d
  obtain ⟨links, hsort, hwf, hsorted⟩ := sortDown_keeps hok'.list hk
  refine ⟨_, hsort, ⟨hwf, hok'.procs⟩, ?_⟩
  intro n m o o' hm hcounted hc
  apply hc.addLoads hcounted
  apply hsorted h hc.sorted (addLoads_changed h k e d)
  have hsizes := hc.sizes hm hcounted hk
  omega

/-- **A load that does not shrink, and `scgi_proclist_sort_up`.** -/
theorem sortUp_addLoads (e : Int) {d : Int} (hd : 0 ≤ d) (hok : h.Ok ids) (hk : k ∈ ids) :
    ∃ h', scgiProclistSortUp (h.addLoads k e d) k = some h' ∧ h'.Ok ids ∧
      ∀ n m o o', Bounded m → Counted k e d o o' → Counts ids n m h o → Counts ids n m h' o' := by
  have hok' := addLoads_ok hok k e d
  obtain ⟨links, hsort, hwf, hsorted⟩ := sortUp_keeps hok'.list hk
  refine ⟨_, hsort, ⟨hwf, hok'.procs⟩, ?_⟩
  intro n m o o' hm hcounted hc
  apply hc.addLoads hcounted
  apply hsorted h hc.sorted (addLoads_changed h k e d)
  have hsizes := hc.sizes hm hcounted hk
  omega

/-! ## What the functions do -/

/-- **`got_proc` tells of a connection that has been given back before.** -/
def HandlerCtx.Stale (c : HandlerCtx κ) : Prop := c.gotProc = true ∧ c.connected = false

/-- **`scgi_connection_close`** keeps the list. It takes off what is counted for the handler context if it has a process
and its connection is not given back a second time. -/
theorem connectionClose_keeps (hok : h.Ok ids) (hctx : c.Ok ids) :
    ∃ h', scgiConnectionClose h c = some h' ∧ h'.Ok ids ∧
      ∀ n m, Bounded m → c.proc.isSome → ¬ c.Stale → Counts ids n m h (some c) → Counts ids n m h' none := by
  unfold scgiConnectionClose
  cases hproc : c.proc with
  | none => exact ⟨h, rfl, hok, fun _ _ _ hsome => nomatch hsome⟩
  | some k =>
    have hk := hctx.proc k hproc
    dsimp only
    unfold release
    cases hgot : c.gotProc with
    | true =>
      obtain ⟨h', hsort, hok', hcounts⟩ := sortDown_addLoads (-1) (d := -1) (by decide) hok hk
      refine ⟨h', hsort, hok', ?_⟩
      intro n m hm _ hstale
      apply hcounts n m _ _ hm
      have hconn : c.connected = true := by
        by_contra hconn
        exact hstale ⟨hgot, by simpa using hconn⟩
      refine ⟨rfl, fun j => ?_⟩
      rw [one_counted hproc hconn, one_none]
      split <;> rfl
    | false =>
      obtain ⟨h', hsort, hok', hcounts⟩ := sortDown_addLoads (-1) (d := 0) (by decide) hok hk
      rw [addLoads_zero_right] at hsort
      refine ⟨h', hsort, hok', ?_⟩
      intro n m hm _ _
      apply hcounts n m _ _ hm
      have hconn : c.connected = false := by
        by_contra hconn
        have hgot' := hctx.gotProc (by simpa using hconn)
        rw [hgot] at hgot'
        cases hgot'
      refine ⟨rfl, fun j => ?_⟩
      rw [one_counted_of_not_connected hconn, one_none]
      split <;> rfl

/-- **`scgi_reconnect`** of a handler context with a connection. -/
theorem reconnect_keeps (hok : h.Ok ids) (hctx : c.Ok ids) (hproc : c.proc = some k) (hconn : c.connected = true) :
    ∃ h' c', scgiReconnect h c k = some (h', c') ∧ h'.Ok ids ∧ c'.Ok ids ∧
      ∀ n m, Bounded m → Counts ids n m h (some c) → Counts ids n m h' (some c') := by
  have hk := hctx.proc k hproc
  obtain ⟨h', hsort, hok', hcounts⟩ := sortDown_addLoads 0 (d := -1) (by decide) hok hk
  rw [addLoads_zero_left] at hsort
  refine ⟨h', { c with state := .init, reconnects := c.reconnects + 1 }, ?_, hok', ?_, ?_⟩
  · unfold scgiReconnect
    rw [hsort]
    rfl
  · exact ⟨hctx.proc, fun hne => absurd rfl hne, nofun⟩
  · intro n m hm
    apply hcounts n m _ _ hm
    refine ⟨rfl, fun j => ?_⟩
    rw [one_counted hproc hconn, one_counted_of_not_connected rfl]
    split <;> rfl

theorem Counts.ofCtx (hcounted : ∀ j, c'.counted j = c.counted j) (hc : Counts ids n m h (some c)) :
    Counts ids n m h (some c') := by
  constructor
  · exact hc.active
  · exact hc.load
  · intro j hj
    rw [hc.proc j hj, one_congr (hcounted j)]
  · exact hc.sorted

theorem counted_congr (hproc : c'.proc = c.proc) (hconn : c'.connected = c.connected) (j : κ) :
    c'.counted j = c.counted j := by
  simp only [HandlerCtx.counted, hproc, hconn]

theorem counted_of_not_connected (hconn : c.connected = false) (hconn' : c'.connected = false) (j : κ) :
    c'.counted j = c.counted j := by
  simp only [HandlerCtx.counted, hconn, hconn']
  simp

/-- **What `scgi_write_request` does**: the list and the counters are kept. After an error there is a connection, or there
is none and nothing else has changed. -/
structure Written (ids : List κ) (h : ExtensionHost κ) (c : HandlerCtx κ) (failed : Option κ → Prop)
    (r : Option (Rc × ExtensionHost κ × HandlerCtx κ)) : Prop where
  result : ∃ rc h' c', r = some (rc, h', c') ∧ h'.Ok ids ∧ c'.Ok ids ∧
    (∀ n m, Bounded m → Counts ids n m h (some c) → Counts ids n m h' (some c')) ∧
    (rc = .error → c'.connected = true ∨ h' = h ∧ c.connected = false ∧ c'.gotProc = c.gotProc ∧
      (c.state = .connect → c'.pid = c.pid) ∧ failed c'.proc)

variable {failed : Option κ → Prop} {env : SendEnv}

/-- Under `FCGI_STATE_WRITE`. -/
theorem writeQueue_written (hok : h'.Ok ids) (hctx : c'.Ok ids) (hproc : c'.proc = some k) (hconn : c'.connected = true)
    (hcounts : ∀ n m, Bounded m → Counts ids n m h (some c) → Counts ids n m h' (some c')) :
    Written ids h c failed (writeQueue env h' c') := by
  have hwrite : HandlerCtx.Ok ids { c' with state := .write } :=
    ⟨hctx.proc, fun _ => by rw [hproc]; rfl, fun _ => hctx.gotProc hconn⟩
  have hcounted : ∀ j, HandlerCtx.counted j { c' with state := .write } = c'.counted j :=
    counted_congr rfl hconn.symm
  have hcounts' : ∀ n m, Bounded m → Counts ids n m h (some c) →
      Counts ids n m h' (some { c' with state := .write }) :=
    fun n m hm hc => (hcounts n m hm hc).ofCtx hcounted
  constructor
  unfold writeQueue
  cases env.drained with
  | all =>
    refine ⟨_, _, _, rfl, hok, ⟨hctx.proc, fun _ => by rw [hproc]; rfl, fun _ => hctx.gotProc hconn⟩, ?_, nofun⟩
    have hread : ∀ j, HandlerCtx.counted j { c' with state := .read } = c'.counted j := counted_congr rfl hconn.symm
    exact fun n m hm hc => (hcounts n m hm hc).ofCtx hread
  | some => exact ⟨_, _, _, rfl, hok, hwrite, hcounts', nofun⟩
  | failed => exact ⟨_, _, _, rfl, hok, hwrite, hcounts', fun _ => .inl rfl⟩
  | dropped =>
    dsimp only
    split
    · obtain ⟨h₁, c₁, heq, hok₁, hctx₁, hcounts₁⟩ :=
        reconnect_keeps (c := { c' with state := .write }) hok hwrite hproc rfl
      refine ⟨.comeback, h₁, c₁, ?_, hok₁, hctx₁, ?_, nofun⟩
      · rw [hproc]
        dsimp only [bind, Option.bind]
        rw [hproc] at heq
        rw [heq]
        rfl
      · exact fun n m hm hc => hcounts₁ n m hm (hcounts' n m hm hc)
    · exact ⟨_, _, _, rfl, hok, hwrite, hcounts', fun _ => .inl rfl⟩

theorem connected_written (hok : h.Ok ids) (hctx : c'.Ok ids) (hproc : c'.proc = some k) (hconn : c.connected = false) :
    Written ids h c failed (connected env h c' k) := by
  have hk := hctx.proc k hproc
  obtain ⟨h₁, hsort, hok₁, hcounts⟩ := sortUp_addLoads 0 (d := 1) (by decide) hok hk
  rw [addLoads_zero_left] at hsort
  unfold connected
  rw [hsort]
  refine writeQueue_written hok₁ ⟨hctx.proc, ?_, fun _ => rfl⟩ hproc rfl ?_
  · intro _
    rw [hproc]
    rfl
  · intro n m hm
    apply hcounts n m _ _ hm
    refine ⟨rfl, fun j => ?_⟩
    have hone : one (HandlerCtx.counted j) (some { c' with gotProc := true, state := .write }) =
        if j = k then 1 else 0 := one_counted (by exact hproc) rfl j
    rw [one_counted_of_not_connected hconn, Int.zero_add, hone]

/-- The process that a handler context has when its attempt to connect fails. -/
def failedProc (env : SendEnv) (h : ExtensionHost κ) (c : HandlerCtx κ) : Option (Option κ) :=
  match c.state with
  | .init =>
    match env.attempt with
    | .waitForFd => none
    | .socketFailed => some c.proc
    | .failed => some (firstRunning h h.numProcs h.links.first)
    | .delayed | .ok => if (firstRunning h h.numProcs h.links.first).isNone then some none else none
  | .connect => if env.soError then some c.proc else none
  | .prepareWrite | .write | .read => none

omit [DecidableEq κ] in
theorem firstRunning_mem {fuel : Nat} {l₁ l₂ : List κ} (hlist : IsList h.links (l₁ ++ l₂))
    (heq : firstRunning h fuel l₂.head? = some k) : k ∈ l₂ ∧ (h.procs k).running = true := by
  induction l₂ generalizing l₁ fuel with
  | nil => cases fuel <;> cases heq
  | cons x l₂ ih =>
    cases fuel with
    | zero => cases heq
    | succ fuel =>
      rw [List.head?_cons, firstRunning] at heq
      split at heq
      · rename_i hrun
        cases heq
        exact ⟨List.mem_cons_self, hrun⟩
      · rw [hlist.at.2.1] at heq
        rw [List.append_cons] at hlist
        obtain ⟨hmem, hrun⟩ := ih hlist heq
        exact ⟨List.mem_cons_of_mem x hmem, hrun⟩

omit [DecidableEq κ] in
theorem ExtensionHost.Ok.firstRunning (hok : h.Ok ids)
    (heq : Account.firstRunning h h.numProcs h.links.first = some k) : k ∈ ids ∧ (h.procs k).running = true := by
  obtain ⟨l, hlists, hperm⟩ := hok.list
  rw [hlists.list.first] at heq
  have hwhole : IsList h.links ([] ++ l) := hlists.list
  obtain ⟨hmem, hrun⟩ := firstRunning_mem hwhole heq
  exact ⟨hperm.mem_iff.mp hmem, hrun⟩

omit [DecidableEq κ] in
theorem HandlerCtx.ok_of_init (hstate : c.state = .init) (hproc : ∀ k, c.proc = some k → k ∈ ids) : c.Ok ids := by
  refine ⟨hproc, fun hne => absurd hstate hne, ?_⟩
  intro hconn
  simp [HandlerCtx.connected, hstate] at hconn

theorem written_idle {rc : Rc} (hok : h.Ok ids) (hctx : c'.Ok ids) (hconn : c.connected = false)
    (hconn' : c'.connected = false)
    (herror : rc = .error → c'.gotProc = c.gotProc ∧ (c.state = .connect → c'.pid = c.pid) ∧ failed c'.proc) :
    Written ids h c failed (some (rc, h, c')) := by
  refine ⟨_, _, _, rfl, hok, hctx, ?_, ?_⟩
  · exact fun n m _ hc => hc.ofCtx (counted_of_not_connected hconn hconn')
  · exact fun hrc => .inr ⟨rfl, hconn, herror hrc⟩

omit [DecidableEq κ] in
theorem failedProc_of_none (hstate : c.state = .init) (hwait : env.attempt ≠ .waitForFd)
    (hsocket : env.attempt ≠ .socketFailed) (hfirst : firstRunning h h.numProcs h.links.first = none) :
    failedProc env h c = some none := by
  unfold failedProc
  rw [hstate, hfirst]
  cases hattempt : env.attempt with
  | waitForFd => exact absurd hattempt hwait
  | socketFailed => exact absurd hattempt hsocket
  | delayed | failed | ok => rfl

omit [DecidableEq κ] in
theorem failedProc_of_failed (hstate : c.state = .init) (hattempt : env.attempt = .failed) :
    failedProc env h c = some (firstRunning h h.numProcs h.links.first) := by
  unfold failedProc
  rw [hstate, hattempt]

theorem connect_written (hok : h.Ok ids) (hstate : c.state = .init)
    (hwait : env.attempt ≠ .waitForFd) (hsocket : env.attempt ≠ .socketFailed) :
    Written ids h c (fun q => failedProc env h c = some q) (connect env h c) := by
  have hconn : c.connected = false := by
    unfold HandlerCtx.connected
    rw [hstate]
  have hno : ¬ c.state = .connect := by
    rw [hstate]
    decide
  unfold connect
  cases hfirst : firstRunning h h.numProcs h.links.first with
  | none =>
    have hctx : HandlerCtx.Ok ids { c with proc := none } := by
      apply HandlerCtx.ok_of_init (by exact hstate)
      intro k hk
      cases hk
    apply written_idle hok hctx hconn hconn
    exact fun _ => ⟨rfl, fun h => absurd h hno, failedProc_of_none hstate hwait hsocket hfirst⟩
  | some k =>
    obtain ⟨hk, hrun⟩ := hok.firstRunning hfirst
    have hmem : ∀ j, (takeProc h c k).proc = some j → j ∈ ids := by
      rintro j ⟨⟩
      exact hk
    have hctx : (takeProc h c k).Ok ids := HandlerCtx.ok_of_init hstate hmem
    dsimp only
    split
    · have hwaiting : HandlerCtx.Ok ids { takeProc h c k with state := .connect } := by
        refine ⟨hmem, fun _ => rfl, ?_⟩
        intro hc
        cases hc
      apply written_idle hok hwaiting hconn rfl
      intro hrc
      cases hrc
    · exact connected_written hok hctx rfl hconn
    · rename_i hdelayed hattempt
      apply written_idle hok hctx hconn hconn
      refine fun _ => ⟨rfl, fun h => absurd h hno, ?_⟩
      have hfailed : env.attempt = .failed := by
        cases h : env.attempt <;> first | rfl | exact absurd h (by assumption)
      rw [failedProc_of_failed hstate hfailed, hfirst]
      rfl

/-- **`scgi_write_request` keeps the list and the counters.** -/
theorem scgiWriteRequest_written (hok : h.Ok ids) (hctx : c.Ok ids) :
    Written ids h c (fun q => failedProc env h c = some q) (scgiWriteRequest env h c) := by
  have hplaced : c.state ≠ .init → ∃ k, c.proc = some k := fun hne => Option.isSome_iff_exists.mp (hctx.placed hne)
  unfold scgiWriteRequest
  cases hstate : c.state with
  | init =>
    have hconn : c.connected = false := by
      unfold HandlerCtx.connected
      rw [hstate]
    have hno : ¬ c.state = .connect := by
      rw [hstate]
      decide
    dsimp only
    split
    · exact written_idle hok hctx hconn hconn nofun
    · rename_i hattempt
      apply written_idle hok hctx hconn hconn
      refine fun _ => ⟨rfl, fun h => absurd h hno, ?_⟩
      unfold failedProc
      rw [hstate, hattempt]
    · rename_i hwait hsocket
      exact connect_written hok hstate hwait hsocket
  | connect =>
    have hconn : c.connected = false := by
      unfold HandlerCtx.connected
      rw [hstate]
    obtain ⟨k, hproc⟩ := hplaced (by rw [hstate]; decide)
    dsimp only
    split
    · rename_i herror
      apply written_idle hok hctx hconn hconn
      refine fun _ => ⟨rfl, fun _ => rfl, ?_⟩
      unfold failedProc
      rw [hstate, if_pos herror]
    · rw [hproc]
      exact connected_written hok hctx hproc hconn
  | prepareWrite | write =>
    have hconn : c.connected = true := by
      unfold HandlerCtx.connected
      rw [hstate]
    obtain ⟨k, hproc⟩ := hplaced (by rw [hstate]; decide)
    exact writeQueue_written hok hctx hproc hconn fun n m _ hc => hc
  | read =>
    exact ⟨_, _, _, rfl, hok, hctx, fun n m _ hc => hc, nofun⟩

theorem disableRemote_keeps (now : Int) (hok : h.Ok ids) (hk : k ∈ ids) :
    Keeps ids h (disableRemote now h k) ∧
      ((h.procs k).isLocal = true → disableRemote now h k = h) ∧
      ((h.procs k).isLocal = false → ((disableRemote now h k).procs k).isLocal = false) := by
  unfold disableRemote
  split
  · rename_i hremote
    have hrun : (h.procs k).running = true := by
      rcases (hok.procs k hk hremote.1).2 with hrun | hdis
      · simp [Proc.running, hrun]
      · exact absurd hdis hremote.2
    have hself : (((h.setProc k { h.procs k with disableTs := now, state := .disabled }).addActive (-1)).procs k) =
        { h.procs k with disableTs := now, state := .disabled } := setProc_self ..
    refine ⟨?_, ?_, ?_⟩
    · apply (setProc_addActive_changed (by rfl) (-1)).keeps hok hk
      · rw [hself]
        exact fun _ => ⟨(hok.procs k hk hremote.1).1, .inr rfl⟩
      · rw [hself, one_of_true hrun, one_of_false (by rfl)]
        rfl
    · intro hlocal
      rw [hremote.1] at hlocal
      cases hlocal
    · intro _
      rw [hself]
      exact hremote.1
  · exact ⟨Keeps.refl hok, fun _ => rfl, id⟩

theorem markDied_ok (hok : h.Ok ids) (c : HandlerCtx κ) (k : κ) : (markDied h c k).Ok ids := by
  unfold markDied
  split
  · rename_i hlocal
    apply (setProc_changed (by rfl)).ok hok
    rw [setProc_self]
    intro hremote
    rw [show (h.procs k).isLocal = false from hremote] at hlocal
    cases hlocal.1
  · exact hok

/-- The two marks that are made after an error, on the process of the handler context. -/
theorem marks_keep (env : SendEnv) (hok : h.Ok ids) (hctx : c.Ok ids) :
    (onProc (disableRemote env.now) h c).Ok ids ∧
      (onProc (fun h k => markDied h c k) (onProc (disableRemote env.now) h c) c).Ok ids ∧
      ∀ k, c.proc = some k → Keeps ids h (onProc (disableRemote env.now) h c) ∧
        (¬ ((h.procs k).isLocal = true ∧ (h.procs k).state = .running ∧ c.pid = (h.procs k).pid) →
          Keeps ids h (onProc (fun h k => markDied h c k) (onProc (disableRemote env.now) h c) c)) := by
  unfold onProc
  cases hproc : c.proc with
  | none => exact ⟨hok, hok, nofun⟩
  | some k =>
    obtain ⟨hkeep, hlocal, hremote⟩ := disableRemote_keeps env.now hok (hctx.proc k hproc)
    refine ⟨hkeep.ok, markDied_ok hkeep.ok c k, ?_⟩
    rintro k' ⟨⟩
    refine ⟨hkeep, fun hno => ?_⟩
    have hsame : markDied (disableRemote env.now h k) c k = disableRemote env.now h k := by
      apply if_neg
      cases hl : (h.procs k).isLocal with
      | true =>
        rw [hlocal hl]
        exact hno
      | false =>
        rw [hremote hl]
        exact fun hmark => nomatch hmark.1
    dsimp only
    rw [hsame]
    exact hkeep

/-- **What follows an error in `scgi_send_request`.** The counters are right afterwards if the handler context has a
process, does not give its connection back a second time, and does not take a process of lighttpd's own to have died. -/
theorem sendFailed_keeps (env : SendEnv) (hok : h.Ok ids) (hctx : c.Ok ids) :
    ∃ h', sendFailed env h c = some h' ∧ h'.Ok ids ∧
      ∀ n m k, Bounded m → c.proc = some k → ¬ c.Stale → (c.connected = true ∨
          ¬ ((h.procs k).isLocal = true ∧ (h.procs k).state = .running ∧ c.pid = (h.procs k).pid)) →
        Counts ids n m h (some c) → Counts ids n m h' none := by
  obtain ⟨hok₁, hok₂, hkeeps⟩ := marks_keep env hok hctx
  unfold sendFailed
  dsimp only
  split
  · rename_i hstate
    have hconn : ¬ c.connected = true := by
      unfold HandlerCtx.connected
      rcases hstate with hstate | hstate <;> rw [hstate] <;> decide
    obtain ⟨h₃, hrestart, hkeep₃⟩ := scgiRestartDeadProcs_keeps env.now env.restart hok₂
    obtain ⟨h₄, hclose, hok₄, hcounts⟩ := connectionClose_keeps hkeep₃.ok hctx
    refine ⟨h₄, ?_, hok₄, ?_⟩
    · rw [hrestart]
      exact hclose
    · intro n m k hm hproc hstale hmark hc
      apply hcounts n m hm (by rw [hproc]; rfl) hstale
      apply hkeep₃.counts
      apply ((hkeeps k hproc).2 (hmark.resolve_left hconn)).counts
      exact hc
  · obtain ⟨h₄, hclose, hok₄, hcounts⟩ := connectionClose_keeps hok₁ hctx
    refine ⟨h₄, hclose, hok₄, ?_⟩
    intro n m k hm hproc hstale _ hc
    exact hcounts n m hm (by rw [hproc]; rfl) hstale ((hkeeps k hproc).1.counts n m _ hc)

/-- **An attempt to connect does not fail in a way that breaks a counter**: when it fails, the handler context has a
process, it has not had a connection before, and the process is not one of lighttpd's own that is taken to have died. -/
def FailsSafely (env : SendEnv) (h : ExtensionHost κ) (c : HandlerCtx κ) : Prop :=
  ∀ q, failedProc env h c = some q → ∃ k, q = some k ∧ c.gotProc = false ∧
    ¬ ((h.procs k).isLocal = true ∧ (h.procs k).running = true ∧ (c.state = .init ∨ c.pid = (h.procs k).pid))

/-- **`scgi_send_request`**. -/
theorem scgiSendRequest_keeps (env : SendEnv) (hok : h.Ok ids) (hctx : c.Ok ids) :
    ∃ h' o', scgiSendRequest env h c = some (h', o') ∧ h'.Ok ids ∧ (∀ c', o' = some c' → c'.Ok ids) ∧
      ∀ n m, Bounded m → FailsSafely env h c → Counts ids n m h (some c) → Counts ids n m h' o' := by
  have hwritten : Written ids h c (fun q => failedProc env h c = some q) (scgiWriteRequest env h c) :=
    scgiWriteRequest_written hok hctx
  obtain ⟨rc, h₁, c₁, hwrite, hok₁, hctx₁, hcounts, herror⟩ := hwritten.result
  unfold scgiSendRequest
  rw [hwrite]
  dsimp only [bind, Option.bind]
  split
  · rename_i hrc
    obtain ⟨h₂, hfailed, hok₂, hcounts₂⟩ := sendFailed_keeps env hok₁ hctx₁
    rw [hfailed]
    refine ⟨h₂, none, rfl, hok₂, nofun, ?_⟩
    intro n m hm hsafe hc
    rcases herror hrc with hconn | ⟨rfl, hidle, hgot, hpid, hproc⟩
    · have hplaced : c₁.proc.isSome := by
        apply hctx₁.placed
        intro hinit
        simp [HandlerCtx.connected, hinit] at hconn
      obtain ⟨k, hk⟩ := Option.isSome_iff_exists.mp hplaced
      apply hcounts₂ n m k hm hk ?_ (.inl hconn) (hcounts n m hm hc)
      intro hstale
      rw [hstale.2] at hconn
      cases hconn
    · obtain ⟨k, hk, hgot', hmark⟩ := hsafe _ hproc
      refine hcounts₂ n m k hm hk ?_ (.inr ?_) (hcounts n m hm hc)
      · intro hstale
        have hg := hstale.1
        rw [hgot, hgot'] at hg
        cases hg
      · rintro ⟨hlocal, hrun, hp⟩
        apply hmark
        refine ⟨hlocal, by simp [Proc.running, hrun], ?_⟩
        unfold HandlerCtx.connected at hidle
        cases hstate : c.state with
        | init => exact .inl rfl
        | connect =>
          right
          rw [← hpid hstate]
          exact hp
        | prepareWrite | write | read =>
          rw [hstate] at hidle
          cases hidle
  · refine ⟨h₁, some c₁, rfl, hok₁, ?_, fun n m hm _ hc => hcounts n m hm hc⟩
    rintro c' ⟨⟩
    exact hctx₁

/-- A child has exited while its process is taken to run. -/
def ExitsRunning (env : RecvEnv) (h : ExtensionHost κ) (k : κ) : Prop :=
  env.received = .closed ∧ (h.procs k).pid ≠ 0 ∧ (h.procs k).running = true ∧ env.waited = .exited

/-- The look at the child keeps the list, and right counters unless the process was taken to run. -/
theorem childExited_keeps (env : RecvEnv) (hok : h.Ok ids) (hk : k ∈ ids) :
    ∃ h', childExited env h k = some h' ∧ h'.Ok ids ∧
      (¬ ((h.procs k).pid ≠ 0 ∧ (h.procs k).running = true ∧ env.waited = .exited) → Keeps ids h h') := by
  have hp := hok.procs k hk
  unfold childExited
  split
  · rename_i hexit
    have hstop : ¬ ((h.procs k).pid ≠ 0 ∧ (h.procs k).running = true ∧ env.waited = .exited) →
        (h.procs k).running = false := by
      intro hno
      by_contra hrun
      exact hno ⟨hexit.1, by simpa using hrun, hexit.2.2⟩
    split
    · refine ⟨_, rfl, ?_, ?_⟩
      · apply (setProc_changed (by rfl)).ok hok
        rw [setProc_self]
        exact fun hremote => absurd (hp hremote).1 hexit.1
      · intro hno
        apply (setProc_changed (by rfl)).keeps hok hk
        · rw [setProc_self]
          exact fun hremote => absurd (hp hremote).1 hexit.1
        · rw [setProc_self, one_of_false (by rfl), one_of_false (hstop hno)]
          rfl
    · rename_i h₁ hspawn
      obtain ⟨hch, hrun, hspawnOk⟩ := spawn_changed hspawn hp
      obtain ⟨h₂, hsort, hkeep₂, -, -⟩ := sortDown_same (hch.ok hok hspawnOk) hk
      refine ⟨h₂, hsort, hkeep₂.ok, fun hno => ?_⟩
      refine Keeps.trans ?_ hkeep₂
      apply hch.keeps hok hk hspawnOk
      rw [one_of_true hrun, one_of_false (hstop hno)]
      rfl
  · exact ⟨h, rfl, hok, fun _ => Keeps.refl hok⟩

/-- **`scgi_recv_response`**. -/
theorem scgiRecvResponse_keeps (env : RecvEnv) (hok : h.Ok ids) (hctx : c.Ok ids) (hconn : c.connected = true) :
    ∃ h' o', scgiRecvResponse env h c = some (h', o') ∧ h'.Ok ids ∧ (∀ c', o' = some c' → c'.Ok ids) ∧
      ∀ n m, Bounded m → (∀ k, c.proc = some k → ¬ ExitsRunning env h k) → Counts ids n m h (some c) →
        Counts ids n m h' o' := by
  have hplaced : c.proc.isSome := by
    apply hctx.placed
    intro hinit
    simp [HandlerCtx.connected, hinit] at hconn
  obtain ⟨k, hk⟩ := Option.isSome_iff_exists.mp hplaced
  have hstale : ¬ c.Stale := by
    intro hs
    rw [hs.2] at hconn
    cases hconn
  unfold scgiRecvResponse
  cases hreceived : env.received with
  | more =>
    refine ⟨h, some c, rfl, hok, ?_, fun n m _ _ hc => hc⟩
    rintro c' ⟨⟩
    exact hctx
  | done =>
    obtain ⟨h₁, hclose, hok₁, hcounts⟩ := connectionClose_keeps hok hctx
    dsimp only
    rw [hclose]
    exact ⟨h₁, none, rfl, hok₁, nofun, fun n m hm _ hc => hcounts n m hm hplaced hstale hc⟩
  | closed =>
    obtain ⟨h₁, hchild, hok₁, hkeep⟩ := childExited_keeps env hok (hctx.proc k hk)
    have hcounts₁ : ∀ n m, ¬ ExitsRunning env h k → Counts ids n m h (some c) → Counts ids n m h₁ (some c) := by
      intro n m hno hc
      apply (hkeep _).counts n m _ hc
      exact fun hexit => hno ⟨hreceived, hexit⟩
    dsimp only
    rw [hk]
    dsimp only [bind, Option.bind]
    rw [hchild]
    dsimp only
    split
    · obtain ⟨h₂, c₂, hrec, hok₂, hctx₂, hcounts₂⟩ := reconnect_keeps hok₁ hctx hk hconn
      rw [hrec]
      refine ⟨h₂, some c₂, rfl, hok₂, ?_, fun n m hm hno hc => hcounts₂ n m hm (hcounts₁ n m (hno k rfl) hc)⟩
      rintro c' ⟨⟩
      exact hctx₂
    · obtain ⟨h₂, hclose, hok₂, hcounts₂⟩ := connectionClose_keeps hok₁ hctx
      rw [hclose]
      exact ⟨h₂, none, rfl, hok₂, nofun, fun n m hm hno hc => hcounts₂ n m hm hplaced hstale (hcounts₁ n m (hno k rfl) hc)⟩

end Contexts

end Account
end Scgi
end Lighttpd
