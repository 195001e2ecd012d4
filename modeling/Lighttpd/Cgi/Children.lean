import Lighttpd.Lib.Run
import Lighttpd.Lib.SwapRemove
import Mathlib.Logic.Function.Basic
import Mathlib.Data.List.Nodup
import Mathlib.Tactic.Tauto

/-!
# Who waits for a child (`mod_cgi.c`)

A child belongs to the handler context of its connection. When the connection is closed while the child is still there, it
gets a signal and its pid goes to the list `cgi_pid`, which `cgi_trigger` looks through every second: an entry that is
removed is replaced by the last one, and the same index is looked at again.

- `triggerLoop_sweeps`: what the loop of `cgi_trigger` leaves, also when it is interrupted;
- `step_accounted`: every child has one that will wait for it;
- `children_accounted`: in every run;
- `cgiTrigger_reaps`: after any run the trigger leaves the children that still run.

Left to the kernel: `fork` gives a pid that is not in use, and `waitpid` with `WNOHANG` fails only for an interruption
(`EINTR`) or if there is no such child (`ECHILD`). No other code of the server waits for these children.
-/

namespace Lighttpd.Cgi
open SwapRemove

/-- The number of a process; `0` for none. -/
abbrev Pid := ℕ

/-- A child of the server. It is there until somebody has waited for it. -/
inductive Life where
  | running
  | ended
deriving DecidableEq

/-- The errors of `waitpid`. -/
inductive Errno where
  | eintr
  | echild

/-- What `waitpid` returns with `WNOHANG`. -/
inductive Waited where
  | notFinished
  | exited
  | error (errno : Errno)

/-- `waitpid(pid, &status, WNOHANG)`. -/
def waitpid (children : Pid → Option Life) (interrupted : Bool) (pid : Pid) : Waited × (Pid → Option Life) :=
  if interrupted then (.error .eintr, children)
  else
    match children pid with
    | none => (.error .echild, children)
    | some .running => (.notFinished, children)
    | some .ended => (.exited, Function.update children pid none)

/-- What is seen from outside: a signal, with what is known of the process it is for, and the messages of the log. -/
inductive Event where
  | sigterm (pid : Pid) (life : Option Life)
  | vanished
  | waitpidFailed

/-- The children, `con->plugin_ctx[p->id]` with its pid, and the list of the plugin. -/
structure State (κ : Type*) where
  children : Pid → Option Life
  hctx : κ → Option Pid
  cgiPid : List Pid
  log : List Event

def cgiPidAdd (r : List Pid) (pid : Pid) : Int × List Pid :=
  (r.foldl (fun (m : Int) p => if (p : Int) > m then p else m) (-1), r ++ [pid])

def cgiPidDel (r : List Pid) (pid : Pid) : List Pid :=
  let i := r.idxOf pid
  if i ≠ r.length then
    (if i ≠ r.length - 1 then r.set i (r.getLastD 0) else r).dropLast
  else r

theorem cgiPidDel_of_mem {r : List Pid} {pid : Pid} (h : pid ∈ r) : cgiPidDel r pid = removeAt r (r.idxOf pid) := by
  have hlt : r.idxOf pid < r.length := List.idxOf_lt_length_iff.mpr h
  rcases List.eq_nil_or_concat' r with rfl | ⟨l, b, rfl⟩
  · cases h
  · rw [cgiPidDel, if_pos (Nat.ne_of_lt hlt), removeAt, List.getLast?_concat, List.getLastD_concat]
    simp only
    split
    · rfl
    · next hlast =>
      rw [List.length_append, List.length_singleton, Nat.add_sub_cancel, not_not] at hlast
      rw [hlast]
      simp

theorem cgiPidDel_append {pre post : List Pid} {pid : Pid} (h : pid ∉ pre) :
    cgiPidDel (pre ++ pid :: post) pid = pre ++ lastFirst post := by
  have hidx : (pre ++ pid :: post).idxOf pid = pre.length := by
    rw [List.idxOf_append_of_notMem h, List.idxOf_cons_self, Nat.add_zero]
  rw [cgiPidDel_of_mem (by simp), hidx, removeAt_append]

theorem length_cgiPidDel {r : List Pid} {pid : Pid} (h : pid ∈ r) : (cgiPidDel r pid).length + 1 = r.length := by
  have hlt : r.idxOf pid < r.length := List.idxOf_lt_length_iff.mpr h
  rw [cgiPidDel, if_pos (Nat.ne_of_lt hlt)]
  split <;> simp <;> omega

variable {κ : Type*}

/-! ## `cgi_trigger` -/

/-- `HANDLER_GO_ON` and `HANDLER_ERROR`. -/
inductive TriggerResult where
  | goOn
  | error
deriving DecidableEq

/-- The loop of `cgi_trigger`. The calls of `waitpid` that are interrupted are given in their order. -/
def triggerLoop (s : State κ) (ndx : ℕ) (interrupts : List Bool) : State κ × TriggerResult :=
  if h : ndx < s.cgiPid.length then
    match waitpid s.children (interrupts.headD false) s.cgiPid[ndx] with
    | (.notFinished, _) => triggerLoop s (ndx + 1) interrupts.tail
    | (.error .echild, _) =>
      triggerLoop { s with cgiPid := cgiPidDel s.cgiPid s.cgiPid[ndx], log := s.log ++ [.vanished] } ndx interrupts.tail
    | (.error .eintr, _) => ({ s with log := s.log ++ [.waitpidFailed] }, .error)
    | (.exited, children) =>
      -- the last entry is here now: look at the same index again
      triggerLoop { s with children := children, cgiPid := cgiPidDel s.cgiPid s.cgiPid[ndx] } ndx interrupts.tail
  else (s, .goOn)
termination_by s.cgiPid.length - ndx
decreasing_by
  · omega
  · have := length_cgiPidDel (List.getElem_mem h)
    omega
  · have := length_cgiPidDel (List.getElem_mem h)
    omega

def cgiTrigger (s : State κ) (interrupts : List Bool) : State κ × TriggerResult := triggerLoop s 0 interrupts

section Loop

variable {s : State κ} {pre post : List Pid} {pid : Pid} {interrupts : List Bool}

theorem triggerLoop_interrupted (hpids : s.cgiPid = pre ++ pid :: post) (hint : interrupts.headD false = true) :
    triggerLoop s pre.length interrupts = ({ s with log := s.log ++ [.waitpidFailed] }, .error) := by
  have hlt : pre.length < s.cgiPid.length := by simp [hpids]
  rw [triggerLoop, dif_pos hlt, hint]
  simp [waitpid]

theorem triggerLoop_running (hpids : s.cgiPid = pre ++ pid :: post) (hint : interrupts.headD false = false)
    (hlife : s.children pid = some .running) :
    triggerLoop s pre.length interrupts = triggerLoop s (pre ++ [pid]).length interrupts.tail := by
  have hlt : pre.length < s.cgiPid.length := by simp [hpids]
  have hget : s.cgiPid[pre.length] = pid := by simp [hpids]
  rw [triggerLoop, dif_pos hlt, hint, hget]
  simp [waitpid, hlife]

theorem triggerLoop_ended (hpids : s.cgiPid = pre ++ pid :: post) (hpre : pid ∉ pre) (hint : interrupts.headD false = false)
    (hlife : s.children pid = some .ended) :
    triggerLoop s pre.length interrupts = triggerLoop
      { s with children := Function.update s.children pid none, cgiPid := pre ++ lastFirst post } pre.length interrupts.tail := by
  have hlt : pre.length < s.cgiPid.length := by simp [hpids]
  have hget : s.cgiPid[pre.length] = pid := by simp [hpids]
  have hdel : cgiPidDel s.cgiPid pid = pre ++ lastFirst post := by rw [hpids, cgiPidDel_append hpre]
  rw [triggerLoop, dif_pos hlt, hint, hget]
  simp [waitpid, hlife, hdel]

/-- **What the loop does with the entries `post`** behind those that it has looked at. -/
structure Sweeps (s : State κ) (pre post : List Pid) (interrupts : List Bool) (r : State κ × TriggerResult) : Prop where
  hctx : r.1.hctx = s.hctx
  pids : r.1.cgiPid.Perm (pre ++ post.filter fun p => (r.1.children p).isSome)
  others : ∀ p ∉ post, r.1.children p = s.children p
  reaped : ∀ p ∈ post, r.1.children p = s.children p ∨ s.children p = some .ended ∧ r.1.children p = none
  log : ∃ l, r.1.log = s.log ++ l ∧ ∀ e ∈ l, e = .waitpidFailed
  goOn : r.2 = .goOn → ∀ p ∈ post, r.1.children p ≠ some .ended
  uninterrupted : true ∉ interrupts → r.2 = .goOn

variable {r : State κ × TriggerResult} {is : List Bool}

theorem Sweeps.interrupted (hpids : s.cgiPid = pre ++ post) (hchild : ∀ p ∈ post, s.children p ≠ none)
    (hint : true ∈ interrupts) :
    Sweeps s pre post interrupts ({ s with log := s.log ++ [.waitpidFailed] }, .error) := by
  have hall : post.filter (fun p => (s.children p).isSome) = post :=
    List.filter_eq_self.mpr fun p hp => Option.isSome_iff_ne_none.mpr (hchild p hp)
  exact ⟨rfl, by rw [hall]; exact List.Perm.of_eq hpids, fun p _ => rfl, fun p _ => .inl rfl, ⟨_, rfl, by simp⟩, nofun,
    fun h => absurd hint h⟩

theorem Sweeps.keep (h : Sweeps s (pre ++ [pid]) post is r) (his : true ∉ interrupts → true ∉ is) (hpid : pid ∉ post)
    (hlife : s.children pid = some .running) : Sweeps s pre (pid :: post) interrupts r := by
  have hsame : r.1.children pid = some .running := (h.others pid hpid).trans hlife
  have hfilter : pre ++ (pid :: post).filter (fun p => (r.1.children p).isSome) =
      (pre ++ [pid]) ++ post.filter (fun p => (r.1.children p).isSome) := by
    rw [List.filter_cons_of_pos (by rw [hsame]; rfl)]
    simp
  refine ⟨h.hctx, hfilter ▸ h.pids, fun p hp => h.others p fun hmem => hp (List.mem_cons_of_mem pid hmem), ?_, h.log, ?_,
    fun hint => h.uninterrupted (his hint)⟩
  · intro p hp
    rcases List.mem_cons.mp hp with rfl | hp
    · exact .inl (h.others p hpid)
    · exact h.reaped p hp
  · intro hrc p hp
    rcases List.mem_cons.mp hp with rfl | hp
    · rw [hsame]
      exact nofun
    · exact h.goOn hrc p hp

theorem Sweeps.remove {s' : State κ} (h : Sweeps s' pre (lastFirst post) is r) (his : true ∉ interrupts → true ∉ is)
    (hpid : pid ∉ post) (hlife : s.children pid = some .ended) (hs' : s'.children = Function.update s.children pid none)
    (hhctx : s'.hctx = s.hctx) (hlog : s'.log = s.log) : Sweeps s pre (pid :: post) interrupts r := by
  have hmem : ∀ p, p ∈ lastFirst post ↔ p ∈ post := fun p => (lastFirst_perm post).mem_iff
  have hne : ∀ p ∈ post, p ≠ pid := fun p hp heq => hpid (heq ▸ hp)
  have hgone : r.1.children pid = none := by
    rw [h.others pid ((hmem pid).not.mpr hpid), hs', Function.update_self]
  have hold : ∀ p, p ≠ pid → s'.children p = s.children p := fun p hp => by rw [hs', Function.update_of_ne hp]
  refine ⟨h.hctx.trans hhctx, ?_, ?_, ?_, hlog ▸ h.log, ?_, fun hint => h.uninterrupted (his hint)⟩
  · rw [List.filter_cons_of_neg (by simp [hgone])]
    exact h.pids.trans (List.Perm.append_left pre ((lastFirst_perm post).filter _))
  · intro p hp
    rw [List.mem_cons, not_or] at hp
    rw [h.others p ((hmem p).not.mpr hp.2), hold p hp.1]
  · intro p hp
    rcases List.mem_cons.mp hp with rfl | hp
    · exact .inr ⟨hlife, hgone⟩
    · rw [← hold p (hne p hp)]
      exact h.reaped p ((hmem p).mpr hp)
  · intro hrc p hp
    rcases List.mem_cons.mp hp with rfl | hp
    · rw [hgone]
      exact nofun
    · exact h.goOn hrc p ((hmem p).mpr hp)

end Loop

/-- **The loop of `cgi_trigger`.** The induction is on the entries it has not looked at: an entry that is removed brings
the last one to the same index. -/
theorem triggerLoop_sweeps (s : State κ) (pre post : List Pid) (interrupts : List Bool) (hpids : s.cgiPid = pre ++ post)
    (hnodup : (pre ++ post).Nodup) (hchild : ∀ p ∈ post, s.children p ≠ none) :
    Sweeps s pre post interrupts (triggerLoop s pre.length interrupts) := by
  induction hn : post.length generalizing s pre post interrupts with
  | zero =>
    obtain rfl := List.eq_nil_of_length_eq_zero hn
    rw [triggerLoop, dif_neg (by simp [hpids])]
    exact ⟨rfl, by simp [hpids], fun p _ => rfl, by simp, ⟨[], by simp⟩, by simp, fun _ => rfl⟩
  | succ n ih =>
    cases post with
    | nil => cases hn
    | cons pid post =>
      have hpre : pid ∉ pre := fun h => (List.nodup_append.mp hnodup).2.2 pid h pid List.mem_cons_self rfl
      have hpost : pid ∉ post := (List.nodup_cons.mp (List.nodup_append.mp hnodup).2.1).1
      have htail : true ∉ interrupts → true ∉ interrupts.tail := fun h hmem => h (List.mem_of_mem_tail hmem)
      have hlength : post.length = n := Nat.succ.inj hn
      cases hint : interrupts.headD false with
      | true =>
        have hmem : true ∈ interrupts := by
          cases interrupts with
          | nil => cases hint
          | cons i is => exact hint ▸ List.mem_cons_self
        rw [triggerLoop_interrupted hpids hint]
        exact Sweeps.interrupted hpids hchild hmem
      | false =>
        cases hlife : s.children pid with
        | none => exact absurd hlife (hchild pid List.mem_cons_self)
        | some life =>
          cases life with
          | running =>
            rw [triggerLoop_running hpids hint hlife]
            exact (ih s (pre ++ [pid]) post interrupts.tail (by simp [hpids]) (by simpa using hnodup)
              (fun p hp => hchild p (List.mem_cons_of_mem pid hp)) hlength).keep htail hpost hlife
          | ended =>
            have hperm := List.Perm.append_left pre (lastFirst_perm post)
            have hnodup' : (pre ++ post).Nodup :=
              hnodup.sublist (List.Sublist.append_left (List.sublist_cons_self pid post) pre)
            rw [triggerLoop_ended hpids hpre hint hlife]
            refine (ih _ pre (lastFirst post) interrupts.tail rfl (hperm.nodup_iff.mpr hnodup') (fun p hp => ?_)
              (by rw [(lastFirst_perm post).length_eq, hlength])).remove htail hpost hlife rfl rfl rfl
            have hp' : p ∈ post := (lastFirst_perm post).mem_iff.mp hp
            have hne : p ≠ pid := fun heq => hpost (heq ▸ hp')
            simpa [Function.update_of_ne hne] using hchild p (List.mem_cons_of_mem pid hp')

/-! ## Who waits -/

/-- The signal goes to a child of the server, and no child is missing. -/
def Event.Sound : Event → Prop
  | .sigterm _ life => life ≠ none
  | .vanished => False
  | .waitpidFailed => True

/-- The handler context of the connection has this child. -/
def Owns (hctx : κ → Option Pid) (con : κ) (pid : Pid) : Prop := pid ≠ 0 ∧ hctx con = some pid

/-- Who is going to wait for a child: a handler context, or an entry of the list. -/
def Holds (s : State κ) (pid : Pid) : κ ⊕ ℕ → Prop
  | .inl con => Owns s.hctx con pid
  | .inr i => s.cgiPid[i]? = some pid

/-- **Every child has exactly one that waits for it**, and nobody waits for anything else. -/
structure Accounted (s : State κ) : Prop where
  nodup : s.cgiPid.Nodup
  inj : ∀ con con' pid, Owns s.hctx con pid → Owns s.hctx con' pid → con = con'
  disjoint : ∀ con pid, Owns s.hctx con pid → pid ∉ s.cgiPid
  child : ∀ pid, s.children pid ≠ none ↔ (∃ con, Owns s.hctx con pid) ∨ pid ∈ s.cgiPid
  sound : ∀ e ∈ s.log, e.Sound

def init (κ : Type*) : State κ where
  children _ := none
  hctx _ := none
  cgiPid := []
  log := []

section Invariant

variable {s : State κ} {pid : Pid}

theorem init_accounted : Accounted (init κ) :=
  ⟨List.nodup_nil, by simp [init, Owns], by simp [init], by simp [init, Owns], by simp [init]⟩

theorem Accounted.existsUnique (h : Accounted s) (hpid : s.children pid ≠ none) : ∃! o, Holds s pid o := by
  rcases (h.child pid).mp hpid with ⟨con, hcon⟩ | hmem
  · refine ⟨.inl con, hcon, fun o ho => ?_⟩
    cases o with
    | inl con' => rw [h.inj con' con pid ho hcon]
    | inr i => exact absurd (List.mem_of_getElem? ho) (h.disjoint con pid hcon)
  · obtain ⟨i, hi⟩ := List.mem_iff_getElem?.mp hmem
    refine ⟨.inr i, hi, fun o ho => ?_⟩
    cases o with
    | inl con => exact absurd hmem (h.disjoint con pid ho)
    | inr j =>
      have hlt := (List.getElem?_eq_some_iff.mp ho).1
      rw [(List.getElem?_inj hlt h.nodup).mp (ho.trans hi.symm)]

theorem Accounted.child_of_holds (h : Accounted s) {o : κ ⊕ ℕ} (ho : Holds s pid o) : s.children pid ≠ none := by
  cases o with
  | inl con => exact (h.child pid).mpr (.inl ⟨con, ho⟩)
  | inr i => exact (h.child pid).mpr (.inr (List.mem_of_getElem? ho))

theorem Accounted.sweeps (h : Accounted s) (interrupts : List Bool) :
    Sweeps s [] s.cgiPid interrupts (cgiTrigger s interrupts) :=
  triggerLoop_sweeps s [] s.cgiPid interrupts rfl h.nodup fun p hp => (h.child p).mpr (.inr hp)

theorem Accounted.trigger (h : Accounted s) (interrupts : List Bool) : Accounted (cgiTrigger s interrupts).1 := by
  have hsweeps := h.sweeps interrupts
  have hmem : ∀ p, p ∈ (cgiTrigger s interrupts).1.cgiPid ↔
      p ∈ s.cgiPid ∧ (cgiTrigger s interrupts).1.children p ≠ none := by
    intro p
    rw [hsweeps.pids.mem_iff, List.nil_append, List.mem_filter, Option.isSome_iff_ne_none]
  refine ⟨hsweeps.pids.nodup_iff.mpr (h.nodup.filter _), ?_, ?_, fun p => ?_, ?_⟩
  · rw [hsweeps.hctx]
    exact h.inj
  · intro con p hcon
    rw [hsweeps.hctx] at hcon
    exact fun hp => h.disjoint con p hcon ((hmem p).mp hp).1
  · rw [hsweeps.hctx, hmem]
    by_cases hp : p ∈ s.cgiPid
    · have hno : ¬ ∃ con, Owns s.hctx con p := fun ⟨con, hcon⟩ => h.disjoint con p hcon hp
      tauto
    · rw [hsweeps.others p hp, h.child p]
      tauto
  · obtain ⟨l, hl, hfailed⟩ := hsweeps.log
    rw [hl]
    intro e he
    rcases List.mem_append.mp he with he | he
    · exact h.sound e he
    · rw [hfailed e he]
      exact trivial

theorem Accounted.ends (h : Accounted s) (hpid : s.children pid = some .running) :
    Accounted { s with children := Function.update s.children pid (some .ended) } := by
  refine ⟨h.nodup, h.inj, h.disjoint, fun p => ?_, h.sound⟩
  by_cases hp : p = pid
  · subst hp
    simpa [hpid] using h.child p
  · simpa [Function.update_of_ne hp] using h.child p

end Invariant

/-! ## The system -/

section System

variable [DecidableEq κ]

/-- The part of `cgi_connection_close` that is about the child; also `cgi_connection_close_callback`. -/
def cgiConnectionClose (s : State κ) (con : κ) (interrupted : Bool) : State κ :=
  match s.hctx con with
  | none => s
  | some pid =>
    let s := { s with hctx := Function.update s.hctx con none }
    if pid = 0 then s
    else
      match waitpid s.children interrupted pid with
      | (.exited, children) => { s with children := children }
      | (.error .echild, _) => s
      | (_, _) => { s with cgiPid := (cgiPidAdd s.cgiPid pid).2, log := s.log ++ [.sigterm pid (s.children pid)] }

/-- What happens to the children. A connection is not handled again as long as its handler context has a child. -/
inductive Op (κ : Type*) where
  /-- `cgi_is_handled`, of a file that a handler is configured for. -/
  | isHandled (con : κ)
  /-- `cgi_create_env` where `fork` succeeds. What comes after it may fail, then the handler context is closed. -/
  | createEnv (con : κ) (pid : Pid) (aborted : Option Bool)
  | connectionClose (con : κ) (interrupted : Bool)
  | trigger (interrupts : List Bool)
  /-- A child ends. -/
  | ends (pid : Pid)

def forked (s : State κ) (con : κ) (pid : Pid) : State κ :=
  { s with children := Function.update s.children pid (some .running), hctx := Function.update s.hctx con (some pid) }

def step (s : State κ) : Op κ → Option (State κ)
  | .isHandled con =>
    if s.hctx con = none ∨ s.hctx con = some 0 then some { s with hctx := Function.update s.hctx con (some 0) } else none
  | .createEnv con pid aborted =>
    if s.hctx con = some 0 ∧ pid ≠ 0 ∧ s.children pid = none then
      some (aborted.elim (forked s con pid) (cgiConnectionClose (forked s con pid) con))
    else none
  | .connectionClose con interrupted => some (cgiConnectionClose s con interrupted)
  | .trigger interrupts => some (cgiTrigger s interrupts).1
  | .ends pid =>
    if s.children pid = some .running then some { s with children := Function.update s.children pid (some .ended) }
    else none

variable {s s' : State κ} {con : κ} {pid : Pid}

theorem owns_update_free {hctx : κ → Option Pid} {o : Option Pid} (ho : o = none ∨ o = some 0) (con con' : κ) (pid : Pid) :
    Owns (Function.update hctx con o) con' pid ↔ con' ≠ con ∧ Owns hctx con' pid := by
  by_cases heq : con' = con
  · subst heq
    rcases ho with rfl | rfl
    · simp [Owns]
    · simp only [Owns, Function.update_self, Option.some.injEq, ne_eq, not_true_eq_false, false_and, iff_false, not_and]
      exact fun hne hzero => hne hzero.symm
  · simp [Owns, heq]

theorem owns_update_some {hctx : κ → Option Pid} (hpid : pid ≠ 0) (con con' : κ) (pid' : Pid) :
    Owns (Function.update hctx con (some pid)) con' pid' ↔ con' = con ∧ pid' = pid ∨ con' ≠ con ∧ Owns hctx con' pid' := by
  by_cases heq : con' = con
  · subst heq
    simp only [Owns, Function.update_self, Option.some.injEq, true_and, ne_eq, not_true_eq_false, false_and, or_false]
    constructor
    · exact fun h => h.2.symm
    · rintro rfl
      exact ⟨hpid, rfl⟩
  · simp [Owns, heq]

theorem Accounted.isHandled (h : Accounted s) (hcon : s.hctx con = none ∨ s.hctx con = some 0) :
    Accounted { s with hctx := Function.update s.hctx con (some 0) } := by
  have howns : ∀ con' p, Owns (Function.update s.hctx con (some 0)) con' p ↔ Owns s.hctx con' p := by
    intro con' p
    rw [owns_update_free (.inr rfl), ← owns_update_free hcon, Function.update_eq_self]
  exact ⟨h.nodup, by simpa only [howns] using h.inj, by simpa only [howns] using h.disjoint,
    by simpa only [howns] using h.child, h.sound⟩

/-- The handler context of a connection goes. The child it had is on the list then, or it is no longer there. -/
theorem Accounted.release (h : Accounted s) (hpid : Owns s.hctx con pid) :
    Accounted { s with hctx := Function.update s.hctx con none, children := Function.update s.children pid none } ∧
    Accounted { s with hctx := Function.update s.hctx con none, cgiPid := s.cgiPid ++ [pid],
                       log := s.log ++ [.sigterm pid (s.children pid)] } := by
  have howns := @owns_update_free κ _ s.hctx none (.inl rfl) con
  have hlost : ∀ con', Owns s.hctx con' pid → con' = con := fun con' h' => h.inj con' con pid h' hpid
  have hnot := h.disjoint con pid hpid
  refine ⟨⟨h.nodup, ?_, ?_, fun p => ?_, h.sound⟩, ⟨?_, ?_, ?_, fun p => ?_, ?_⟩⟩
  · exact fun c c' p hc hc' => h.inj c c' p ((howns c p).mp hc).2 ((howns c' p).mp hc').2
  · exact fun c p hc => h.disjoint c p ((howns c p).mp hc).2
  · by_cases hp : p = pid
    · subst hp
      have hno : ¬ ∃ c, Owns (Function.update s.hctx con none) c p := fun ⟨c, hc⟩ =>
        ((howns c p).mp hc).1 (hlost c ((howns c p).mp hc).2)
      simp [hno, hnot]
    · have hsame : (∃ c, Owns (Function.update s.hctx con none) c p) ↔ ∃ c, Owns s.hctx c p := by
        refine exists_congr fun c => (howns c p).trans ⟨And.right, fun hc => ⟨?_, hc⟩⟩
        rintro rfl
        exact hp (Option.some.inj (hc.2.symm.trans hpid.2))
      simpa [hsame, Function.update_of_ne hp] using h.child p
  · exact List.nodup_append.mpr ⟨h.nodup, List.nodup_singleton pid, fun p hp q hq heq => hnot
      (List.mem_singleton.mp hq ▸ heq ▸ hp)⟩
  · exact fun c c' p hc hc' => h.inj c c' p ((howns c p).mp hc).2 ((howns c' p).mp hc').2
  · intro c p hc hp
    obtain ⟨hne, hc⟩ := (howns c p).mp hc
    rcases List.mem_append.mp hp with hp | hp
    · exact h.disjoint c p hc hp
    · rw [List.mem_singleton.mp hp] at hc
      exact hne (hlost c hc)
  · by_cases hp : p = pid
    · subst hp
      simpa using (h.child p).mpr (.inl ⟨con, hpid⟩)
    · have hsame : (∃ c, Owns (Function.update s.hctx con none) c p) ↔ ∃ c, Owns s.hctx c p := by
        refine exists_congr fun c => (howns c p).trans ⟨And.right, fun hc => ⟨?_, hc⟩⟩
        rintro rfl
        exact hp (Option.some.inj (hc.2.symm.trans hpid.2))
      simpa [hsame, hp] using h.child p
  · intro e he
    rcases List.mem_append.mp he with he | he
    · exact h.sound e he
    · rw [List.mem_singleton.mp he]
      exact (h.child pid).mpr (.inl ⟨con, hpid⟩)

theorem Accounted.connectionClose (h : Accounted s) (con : κ) (interrupted : Bool) :
    Accounted (cgiConnectionClose s con interrupted) := by
  rw [cgiConnectionClose]
  cases hcon : s.hctx con with
  | none => exact h
  | some pid =>
    simp only
    split
    · next hzero =>
      -- there was no child
      have howns : ∀ c p, Owns (Function.update s.hctx con none) c p ↔ Owns s.hctx c p := by
        intro c p
        rw [owns_update_free (.inl rfl), ← owns_update_free (.inr (hzero ▸ hcon)), Function.update_eq_self]
      exact ⟨h.nodup, by simpa only [howns] using h.inj, by simpa only [howns] using h.disjoint,
        by simpa only [howns] using h.child, h.sound⟩
    · next hne =>
      have hrelease := h.release ⟨hne, hcon⟩
      have hchild := (h.child pid).mpr (.inl ⟨con, hne, hcon⟩)
      rw [waitpid]
      cases interrupted with
      | true => exact hrelease.2
      | false =>
        cases hlife : s.children pid with
        | none => exact absurd hlife hchild
        | some life =>
          rw [hlife] at hrelease
          cases life with
          | running => exact hrelease.2
          | ended => exact hrelease.1

theorem Accounted.fork (h : Accounted s) (hcon : s.hctx con = some 0) (hne : pid ≠ 0) (hpid : s.children pid = none) :
    Accounted (forked s con pid) := by
  have howns := @owns_update_some κ _ pid s.hctx hne con
  have hnone : ¬ ((∃ c, Owns s.hctx c pid) ∨ pid ∈ s.cgiPid) := (h.child pid).not.mp (not_not.mpr hpid)
  rw [not_or, not_exists] at hnone
  refine ⟨h.nodup, ?_, ?_, fun p => ?_, h.sound⟩
  · intro c c' p hc hc'
    rcases (howns c p).mp hc with ⟨rfl, rfl⟩ | ⟨_, hold⟩
    · exact (((howns c' p).mp hc').resolve_right fun h' => hnone.1 c' h'.2).1.symm
    · rcases (howns c' p).mp hc' with ⟨rfl, rfl⟩ | ⟨_, hold'⟩
      · exact absurd hold (hnone.1 c)
      · exact h.inj c c' p hold hold'
  · intro c p hc
    rcases (howns c p).mp hc with ⟨rfl, rfl⟩ | ⟨_, hc⟩
    · exact hnone.2
    · exact h.disjoint c p hc
  · by_cases hp : p = pid
    · subst hp
      have hsome : ∃ c, Owns (Function.update s.hctx con (some p)) c p := ⟨con, (howns con p).mpr (.inl ⟨rfl, rfl⟩)⟩
      simp [forked, hsome]
    · have hsame : (∃ c, Owns (Function.update s.hctx con (some pid)) c p) ↔ ∃ c, Owns s.hctx c p := by
        refine exists_congr fun c => (howns c p).trans ⟨fun hc => (hc.resolve_left fun hc => hp hc.2).2, fun hc => .inr ⟨?_, hc⟩⟩
        rintro rfl
        exact hc.1 (Option.some.inj (hc.2.symm.trans hcon))
      simpa [forked, hsame, Function.update_of_ne hp] using h.child p

/-- **Whatever happens, every child keeps exactly one that waits for it.** -/
theorem step_accounted (s : State κ) (op : Op κ) (s' : State κ) (h : Accounted s) (hstep : step s op = some s') :
    Accounted s' := by
  cases op with
  | isHandled con =>
    obtain ⟨hcon, heq⟩ := Option.ite_none_right_eq_some.mp hstep
    cases heq
    exact h.isHandled hcon
  | createEnv con pid aborted =>
    obtain ⟨⟨hcon, hne, hpid⟩, heq⟩ := Option.ite_none_right_eq_some.mp hstep
    cases heq
    cases aborted with
    | none => exact h.fork hcon hne hpid
    | some interrupted => exact (h.fork hcon hne hpid).connectionClose con interrupted
  | connectionClose con interrupted =>
    cases hstep
    exact h.connectionClose con interrupted
  | trigger interrupts =>
    cases hstep
    exact h.trigger interrupts
  | ends pid =>
    obtain ⟨hpid, heq⟩ := Option.ite_none_right_eq_some.mp hstep
    cases heq
    exact h.ends hpid

theorem run_accounted {ops : List (Op κ)} (hrun : Run.run step (init κ) ops = some s) : Accounted s := by
  have hmeets : Run.Meets step (fun _ _ => True) (init κ) ops := Run.meets_of_forall (fun _ _ => trivial) _ _
  exact Run.run_keeps (fun s op s' h _ hstep => step_accounted s op s' h hstep) init_accounted hmeets hrun

/-- **In every run, a child that nobody has waited for belongs to exactly one handler context or entry of the list**, these
have no other pids, every signal goes to a child of the server, and the trigger never finds a child missing. -/
theorem children_accounted (ops : List (Op κ)) (s : State κ) (hrun : Run.run step (init κ) ops = some s) :
    (∀ pid, s.children pid ≠ none → ∃! o, Holds s pid o) ∧ (∀ pid o, Holds s pid o → s.children pid ≠ none) ∧
      (∀ pid life, Event.sigterm pid life ∈ s.log → life ≠ none) ∧ Event.vanished ∉ s.log :=
  have h := run_accounted hrun
  ⟨fun _ => h.existsUnique, fun _ _ => h.child_of_holds, fun _ _ he => h.sound _ he, fun he => h.sound _ he⟩

/-- Two children, one of them without its connection. -/
theorem children_accounted_sample :
    ∃ s, Run.run step (init Bool) [.isHandled true, .createEnv true 7 none, .isHandled false, .createEnv false 8 none,
      .connectionClose true false, .ends 7] = some s ∧ (∀ pid, s.children pid ≠ none → ∃! o, Holds s pid o) ∧
        (∀ pid o, Holds s pid o → s.children pid ≠ none) ∧
        (∀ pid life, Event.sigterm pid life ∈ s.log → life ≠ none) ∧ Event.vanished ∉ s.log := by
  obtain ⟨s, hrun⟩ : ∃ s, Run.run step (init Bool) [.isHandled true, .createEnv true 7 none, .isHandled false,
      .createEnv false 8 none, .connectionClose true false, .ends 7] = some s := ⟨_, rfl⟩
  exact ⟨s, hrun, children_accounted _ s hrun⟩

/-- **After any run, a trigger that is not interrupted leaves the children on the list that still run**, each once, has
waited for those that have ended, and has done nothing to the children of the connections. -/
theorem cgiTrigger_reaps (ops : List (Op κ)) (s : State κ) (hrun : Run.run step (init κ) ops = some s)
    (interrupts : List Bool) (hint : true ∉ interrupts) :
    (cgiTrigger s interrupts).2 = .goOn ∧
      (cgiTrigger s interrupts).1.cgiPid.Perm (s.cgiPid.filter fun pid => s.children pid = some .running) ∧
      (∀ pid, (cgiTrigger s interrupts).1.children pid =
        if pid ∈ s.cgiPid ∧ s.children pid = some .ended then none else s.children pid) ∧
      (cgiTrigger s interrupts).1.hctx = s.hctx := by
  have h := run_accounted hrun
  have hsweeps := h.sweeps interrupts
  have hrc := hsweeps.uninterrupted hint
  have hchildren : ∀ pid, (cgiTrigger s interrupts).1.children pid =
      if pid ∈ s.cgiPid ∧ s.children pid = some .ended then none else s.children pid := by
    intro pid
    by_cases hmem : pid ∈ s.cgiPid
    · rcases hsweeps.reaped pid hmem with hsame | ⟨hended, hnone⟩
      · have hnot : s.children pid ≠ some .ended := hsame ▸ hsweeps.goOn hrc pid hmem
        rw [hsame, if_neg fun h => hnot h.2]
      · rw [hnone, if_pos ⟨hmem, hended⟩]
    · rw [hsweeps.others pid hmem, if_neg fun h => hmem h.1]
  refine ⟨hrc, hsweeps.pids.trans (List.Perm.of_eq ?_), hchildren, hsweeps.hctx⟩
  rw [List.nil_append]
  refine List.filter_congr fun pid hmem => ?_
  have hchild := (h.child pid).mpr (.inr hmem)
  rw [hchildren pid]
  cases hlife : s.children pid with
  | none => exact absurd hlife hchild
  | some life => cases life <;> simp [hmem]

/-- The first of two children has ended when the trigger is called. -/
theorem cgiTrigger_reaps_sample :
    ∃ s, Run.run step (init Bool) [.isHandled true, .createEnv true 7 none, .isHandled false, .createEnv false 8 none,
      .connectionClose true false, .connectionClose false true, .ends 7] = some s ∧
        ((cgiTrigger s []).2 = .goOn ∧
          (cgiTrigger s []).1.cgiPid.Perm (s.cgiPid.filter fun pid => s.children pid = some .running) ∧
          (∀ pid, (cgiTrigger s []).1.children pid =
            if pid ∈ s.cgiPid ∧ s.children pid = some .ended then none else s.children pid) ∧
          (cgiTrigger s []).1.hctx = s.hctx) := by
  obtain ⟨s, hrun⟩ : ∃ s, Run.run step (init Bool) [.isHandled true, .createEnv true 7 none, .isHandled false,
      .createEnv false 8 none, .connectionClose true false, .connectionClose false true, .ends 7] = some s := ⟨_, rfl⟩
  exact ⟨s, hrun, cgiTrigger_reaps _ s hrun [] List.not_mem_nil⟩

end System

end Lighttpd.Cgi
