import Lighttpd.Scgi.Handler

/-!
# The counters of a SCGI backend are right

The list of the processes is well formed in every run. The counters are right, and the list is sorted, as long as no
step does one of the things that `Sound` excludes. `accounts_and_list` is the main result.
-/

namespace Lighttpd
namespace Scgi
namespace Account

open Backend DoublyLinked Census

variable {κ : Type} [DecidableEq κ] {ids : List κ}

/-! ## Runs -/

/-- **What the counters count**: `active_procs` the processes that run, `host->load` the handler contexts, and
`proc->load` those that have taken the process after a successful connect. -/
structure Balanced (ids : List κ) (h : ExtensionHost κ) (ctxs : List (HandlerCtx κ)) : Prop where
  active : h.activeProcs = ids.countP fun k => (h.procs k).running
  load : h.load = ctxs.length
  proc : ∀ k ∈ ids, (h.procs k).load = ctxs.countP (HandlerCtx.counted k)

/-- **The list of the host is a doubly linked list of all processes, each once.** -/
def ListOk (ids : List κ) (h : ExtensionHost κ) : Prop := ∃ l, IsList h.links l ∧ l.Perm ids

def ListSorted (ids : List κ) (h : ExtensionHost κ) : Prop :=
  ∃ l, IsList h.links l ∧ l.Perm ids ∧ l.Pairwise fun a b => (h.procs a).load ≤ (h.procs b).load

/-- `mod_scgi_set_defaults`: all processes have been started, and there are no requests. -/
structure Server.Started (ids : List κ) (s : Server κ) : Prop where
  list : IsList s.host.links ids
  numProcs : s.host.numProcs = ids.length
  active : s.host.activeProcs = ids.length
  load : s.host.load = 0
  procs : ∀ k ∈ ids, (s.host.procs k).state = .running ∧ (s.host.procs k).load = 0 ∧
    ((s.host.procs k).isLocal = false → (s.host.procs k).pid = 0)
  ctxs : s.ctxs = []

/-- **The steps that keep the counters right.** No handler context is closed while it has no process, or while it has
given its connection back and has not got another one since; no attempt to connect fails so (`FailsSafely`); and no child
has exited whose process is still in `PROC_STATE_RUNNING`. -/
def Sound (s : Server κ) : Op → Prop
  | .checkExtension => True
  | .restart _ _ => True
  | .send n env => ∀ c, s.ctxs[n]? = some c → FailsSafely env s.host c
  | .recv n env => ∀ c k, s.ctxs[n]? = some c → c.proc = some k → ¬ ExitsRunning env s.host k
  | .close n => ∀ c, s.ctxs[n]? = some c → c.proc.isSome ∧ ¬ c.Stale

/-- What is known in every run. -/
structure Server.Ok (ids : List κ) (s : Server κ) : Prop where
  host : s.host.Ok ids
  ctxs : ∀ c ∈ s.ctxs, c.Ok ids
  bounded : s.ctxs.length < 2 ^ 64

/-- What is known in a run of sound steps. -/
structure Server.Right (ids : List κ) (s : Server κ) : Prop where
  balanced : Balanced ids s.host s.ctxs
  sorted : s.host.Sorted ids

section Steps

variable {s s' : Server κ} {c : HandlerCtx κ} {n : Nat}

theorem Server.Right.counts (hright : s.Right ids) (hc : s.ctxs[n]? = some c) :
    Counts ids (s.ctxs.eraseIdx n).length (fun k => (s.ctxs.eraseIdx n).countP (HandlerCtx.counted k)) s.host
      (some c) := by
  constructor
  · exact hright.balanced.active
  · have hcount := countP_replace (p := fun _ => true) hc none
    rw [one_none, replace, List.countP_true] at hcount
    rw [hright.balanced.load]
    omega
  · intro k hk
    have hcount := countP_replace (p := HandlerCtx.counted k) hc none
    rw [one_none, replace] at hcount
    rw [hright.balanced.proc k hk]
    omega
  · exact hright.sorted

theorem Server.Ok.bounded_rest (hok : s.Ok ids) (hc : s.ctxs[n]? = some c) :
    Bounded fun k => ((s.ctxs.eraseIdx n).countP (HandlerCtx.counted k) : Int) := by
  intro k
  have hcount := countP_replace (p := fun _ => true) hc none
  rw [one_none, replace, List.countP_true, one_of_true rfl] at hcount
  have hle : (s.ctxs.eraseIdx n).countP (HandlerCtx.counted k) ≤ (s.ctxs.eraseIdx n).length := List.countP_le_length
  have hbounded := hok.bounded
  dsimp only
  constructor <;> omega

/-- **A step of one handler context.** -/
theorem Server.replaced {h' : ExtensionHost κ} {o' : Option (HandlerCtx κ)} (hok : s.Ok ids)
    (hc : s.ctxs[n]? = some c) (hhost : h'.Ok ids) (hctx : ∀ c', o' = some c' → c'.Ok ids) {sound : Prop}
    (hcounts : ∀ n m, Bounded m → sound → Counts ids n m s.host (some c) → Counts ids n m h' o') :
    Server.Ok ids { host := h', ctxs := replace s.ctxs n o' } ∧
      (sound → s.Right ids → Server.Right ids { host := h', ctxs := replace s.ctxs n o' }) := by
  have hlen : (replace s.ctxs n o').length ≤ s.ctxs.length := by
    cases o' with
    | none => exact List.length_eraseIdx_le ..
    | some c' => exact (List.length_set ..).le
  constructor
  · refine ⟨hhost, ?_, Nat.lt_of_le_of_lt hlen hok.bounded⟩
    intro c' hc'
    rcases mem_replace hc' with hc' | hc'
    · exact hok.ctxs c' hc'
    · exact hctx c' hc'
  · intro hsound hright
    have hafter := hcounts _ _ (hok.bounded_rest hc) hsound (hright.counts hc)
    refine ⟨⟨hafter.active, ?_, ?_⟩, hafter.sorted⟩
    · have hcount := countP_replace (p := fun _ => true) hc none
      have hcount' := countP_replace (p := fun _ => true) hc o'
      have hload := hafter.load
      rw [one_none, replace, List.countP_true] at hcount
      rw [List.countP_true] at hcount'
      dsimp only
      omega
    · intro k hk
      have hcount := countP_replace (p := HandlerCtx.counted k) hc none
      have hcount' := countP_replace (p := HandlerCtx.counted k) hc o'
      have hload := hafter.proc k hk
      rw [one_none, replace] at hcount
      dsimp only
      omega

/-- **What a step keeps**: the list in every case, and the counters if it is sound. -/
theorem step_keeps {op : Op} (hok : s.Ok ids) (heq : step s op = some s') :
    s'.Ok ids ∧ (Sound s op → s.Right ids → s'.Right ids) := by
  cases op with
  | checkExtension =>
    rw [step] at heq
    split at heq
    · cases heq
      exact ⟨hok, fun _ => id⟩
    · split at heq
      · rename_i hroom
        cases heq
        constructor
        · obtain ⟨l, hlists, hperm⟩ := hok.host.list
          refine ⟨⟨⟨l, ⟨hlists.list, hlists.numProcs⟩, hperm⟩, hok.host.procs⟩, ?_, ?_⟩
          · intro c hc
            rcases List.mem_append.mp hc with hc | hc
            · exact hok.ctxs c hc
            · rw [List.mem_singleton.mp hc]
              exact HandlerCtx.ok_of_init rfl nofun
          · rw [List.length_append]
            exact hroom
        · intro _ hright
          obtain ⟨l, hlists, hperm, hpair⟩ := hright.sorted
          refine ⟨⟨hright.balanced.active, ?_, ?_⟩, l, ⟨hlists.list, hlists.numProcs⟩, hperm, hpair⟩
          · have hload := hright.balanced.load
            simp only [ExtensionHost.addLoad, List.length_append, List.length_singleton]
            omega
          · intro k hk
            rw [List.countP_append]
            exact hright.balanced.proc k hk
      · cases heq
  | send n env =>
    obtain ⟨c, hc, heq⟩ := Option.bind_eq_some_iff.mp heq
    obtain ⟨h', o', hsend, hhost, hctx, hcounts⟩ :=
      scgiSendRequest_keeps env hok.host (hok.ctxs c (List.mem_of_getElem? hc))
    rw [hsend] at heq
    cases heq
    obtain ⟨hok', hright⟩ := Server.replaced hok hc hhost hctx hcounts
    exact ⟨hok', fun hsound => hright (hsound c hc)⟩
  | recv n env =>
    obtain ⟨c, hc, heq⟩ := Option.bind_eq_some_iff.mp heq
    split at heq
    · rename_i hstate
      have hconn : c.connected = true := by
        unfold HandlerCtx.connected
        rcases hstate with hstate | hstate <;> rw [hstate]
      obtain ⟨h', o', hrecv, hhost, hctx, hcounts⟩ :=
        scgiRecvResponse_keeps env hok.host (hok.ctxs c (List.mem_of_getElem? hc)) hconn
      rw [hrecv] at heq
      cases heq
      obtain ⟨hok', hright⟩ := Server.replaced hok hc hhost hctx hcounts
      exact ⟨hok', fun hsound => hright fun k => hsound c k hc⟩
    · cases heq
  | close n =>
    obtain ⟨c, hc, heq⟩ := Option.bind_eq_some_iff.mp heq
    obtain ⟨h', hclose, hhost, hcounts⟩ := connectionClose_keeps hok.host (hok.ctxs c (List.mem_of_getElem? hc))
    rw [hclose] at heq
    cases heq
    have hall : ∀ n m, Bounded m → c.proc.isSome ∧ ¬ c.Stale → Counts ids n m s.host (some c) →
        Counts ids n m h' none := fun n m hm hs => hcounts n m hm hs.1 hs.2
    have hnone : ∀ c', (none : Option (HandlerCtx κ)) = some c' → c'.Ok ids := by
      intro c' hc'
      cases hc'
    obtain ⟨hok', hright⟩ := Server.replaced hok hc hhost hnone hall
    exact ⟨hok', fun hsound => hright (hsound c hc)⟩
  | restart now restart =>
    obtain ⟨h', hrestart, hkeep⟩ := scgiRestartDeadProcs_keeps now restart hok.host
    rw [step, hrestart] at heq
    cases heq
    refine ⟨⟨hkeep.ok, hok.ctxs, hok.bounded⟩, fun _ hright => ?_⟩
    have hbefore : Counts ids s.ctxs.length (fun k => s.ctxs.countP (HandlerCtx.counted k)) s.host none := by
      refine ⟨hright.balanced.active, ?_, ?_, hright.sorted⟩
      · rw [one_none, Int.add_zero]
        exact hright.balanced.load
      · intro k hk
        rw [one_none, Int.add_zero]
        exact hright.balanced.proc k hk
    have hafter := hkeep.counts _ _ _ hbefore
    refine ⟨⟨hafter.active, ?_, ?_⟩, hafter.sorted⟩
    · have hload := hafter.load
      rw [one_none, Int.add_zero] at hload
      exact hload
    · intro k hk
      have hload := hafter.proc k hk
      rw [one_none, Int.add_zero] at hload
      exact hload

theorem Server.Started.ok (h : s.Started ids) : s.Ok ids ∧ s.Right ids := by
  have hlists : s.host.Lists ids := ⟨h.list, h.numProcs⟩
  constructor
  · refine ⟨⟨⟨ids, hlists, List.Perm.refl ids⟩, ?_⟩, ?_, ?_⟩
    · intro k hk hremote
      obtain ⟨hrun, -, hpid⟩ := h.procs k hk
      exact ⟨hpid hremote, .inl hrun⟩
    · rw [h.ctxs]
      nofun
    · rw [h.ctxs]
      exact Nat.two_pow_pos 64
  · refine ⟨⟨?_, ?_, ?_⟩, ids, hlists, List.Perm.refl ids, ?_⟩
    · rw [h.active, List.countP_eq_length.mpr]
      intro k hk
      simp [Proc.running, (h.procs k hk).1]
    · rw [h.load, h.ctxs]
      rfl
    · intro k hk
      rw [(h.procs k hk).2.1, h.ctxs]
      rfl
    · apply List.pairwise_of_forall_mem_list
      intro a ha b hb
      unfold ExtensionHost.Le
      rw [(h.procs a ha).2.1, (h.procs b hb).2.1]

theorem Server.Right.listSorted (hright : s.Right ids) (hok : s.Ok ids) : ListSorted ids s.host := by
  obtain ⟨l, hlists, hperm, hpair⟩ := hright.sorted
  refine ⟨l, hlists.list, hperm, hpair.imp_of_mem ?_⟩
  have hsize : ∀ k ∈ l, size (s.host.procs k).load = (s.host.procs k).load := by
    intro k hk
    have hload := hright.balanced.proc k (hperm.mem_iff.mp hk)
    have hle : s.ctxs.countP (HandlerCtx.counted k) ≤ s.ctxs.length := List.countP_le_length
    have hbounded := hok.bounded
    apply size_eq <;> omega
  intro a b ha hb hab
  unfold ExtensionHost.Le at hab
  rw [hsize a ha, hsize b hb] at hab
  exact hab

/-- **The list of a SCGI backend is well formed in every run; its counters are right, and the list is sorted, in every run
of sound steps.** From the start of the server on, over any processes and requests, and whatever the system and the
backend answer. -/
theorem accounts_and_list (ids : List κ) (s₀ : Server κ) (h : s₀.Started ids) (ops : List Op) (s : Server κ)
    (hrun : Run.run step s₀ ops = some s) :
    ListOk ids s.host ∧
      (Run.Meets step Sound s₀ ops → Balanced ids s.host s.ctxs ∧ ListSorted ids s.host) := by
  obtain ⟨hok₀, hright₀⟩ := h.ok
  have hok : s.Ok ids := by
    apply Run.run_keeps _ hok₀ (Run.meets_of_forall (fun _ _ => trivial) s₀ ops) hrun
    exact fun _ _ _ hok _ heq => (step_keeps hok heq).1
  constructor
  · obtain ⟨l, hlists, hperm⟩ := hok.host.list
    exact ⟨l, hlists.list, hperm⟩
  · intro hsound
    have hboth : s.Ok ids ∧ s.Right ids := by
      apply Run.run_keeps _ ⟨hok₀, hright₀⟩ hsound hrun
      intro s op s' hinv hs heq
      obtain ⟨hok', hright'⟩ := step_keeps hinv.1 heq
      exact ⟨hok', hright' hs hinv.2⟩
    exact ⟨hboth.2.balanced, hboth.2.listSorted hboth.1⟩

end Steps

/-! ## Samples -/

/-- A server with one process; it is lighttpd's own, or not. -/
def sampleServer (isLocal : Bool) : Server Unit where
  host := {
    links := ⟨some (), fun _ => none, fun _ => none⟩
    procs := fun _ => ⟨if isLocal then 7 else 0, 0, 0, isLocal, .running⟩
    numProcs := 1
    activeProcs := 1
    load := 0
    disableTime := 0 }
  ctxs := []

theorem sampleServer_started (isLocal : Bool) : (sampleServer isLocal).Started [()] where
  list := ⟨rfl, ⟨rfl, rfl, trivial⟩, List.nodup_singleton ()⟩
  numProcs := rfl
  active := rfl
  load := rfl
  procs _ _ := by
    refine ⟨rfl, rfl, fun hremote => ?_⟩
    have hlocal : isLocal = false := hremote
    subst hlocal
    rfl
  ctxs := rfl

/-- A call of `scgi_send_request` in which an attempt to connect ends so. -/
def sampleSend (attempt : Attempt) (drained : Drained) : SendEnv :=
  ⟨0, attempt, false, drained, true, ⟨fun _ => .alive, fun _ => .failed⟩⟩

/-- A server with two processes of lighttpd's own, `false` before `true`. -/
def twoProcs : Server Bool where
  host := {
    links := ⟨some false, fun k => if k then some false else none, fun k => if k then none else some true⟩
    procs := fun _ => ⟨7, 0, 0, true, .running⟩
    numProcs := 2
    activeProcs := 2
    load := 0
    disableTime := 0 }
  ctxs := []

theorem twoProcs_started : twoProcs.Started [false, true] where
  list := ⟨rfl, ⟨rfl, rfl, rfl, rfl, trivial⟩, by decide⟩
  numProcs := rfl
  active := rfl
  load := rfl
  procs _ _ := ⟨rfl, rfl, fun hremote => nomatch hremote⟩
  ctxs := rfl

/-- Two requests, each of which goes to the process with the lower load; then the second one ends. -/
def sampleRequests : List Op :=
  [.checkExtension, .send 0 (sampleSend .ok .all), .checkExtension, .send 1 (sampleSend .ok .all), .close 1]

/-- The process with the request that is left is the last one of the list. -/
theorem accounts_and_list_sample : ∃ s, Run.run step twoProcs sampleRequests = some s ∧
    (s.host.links.first, s.host.links.next true, (s.host.procs true).load, (s.host.procs false).load) =
      (some true, some false, 0, 1) ∧
    ListOk [false, true] s.host ∧ Balanced [false, true] s.host s.ctxs ∧ ListSorted [false, true] s.host := by
  have hout : (Run.run step twoProcs sampleRequests).map (fun s => (s.host.links.first, s.host.links.next true,
      (s.host.procs true).load, (s.host.procs false).load)) = some (some true, some false, 0, 1) := by
    decide
  obtain ⟨s, hrun, hs⟩ := Option.map_eq_some_iff.mp hout
  refine ⟨s, hrun, hs, ?_⟩
  obtain ⟨hlist, hsound⟩ := accounts_and_list [false, true] twoProcs twoProcs_started _ s hrun
  refine ⟨hlist, hsound ⟨trivial, fun s₁ h₁ => ?_⟩⟩
  cases h₁
  refine ⟨?_, fun s₂ h₂ => ?_⟩
  · rintro c ⟨⟩ q ⟨⟩
  cases h₂
  refine ⟨trivial, fun s₃ h₃ => ?_⟩
  cases h₃
  refine ⟨?_, fun s₄ h₄ => ?_⟩
  · rintro c ⟨⟩ q ⟨⟩
  cases h₄
  refine ⟨?_, fun _ _ => trivial⟩
  rintro c ⟨⟩
  exact ⟨rfl, fun hstale => nomatch hstale.2⟩

/-- A client goes away before a process is chosen for its request. -/
def sampleAborted : List Op := [.checkExtension, .close 0]

/-- An attempt to connect to a process of lighttpd's own fails. -/
def sampleDied : List Op := [.checkExtension, .send 0 (sampleSend .failed .all)]

/-- A connection is given back in `scgi_reconnect`, and again after the next attempt fails in `socket`. -/
def sampleStale : List Op :=
  [.checkExtension, .send 0 (sampleSend .ok .dropped), .send 0 (sampleSend .socketFailed .all)]

/-- The counters of the host and of its process, how many processes run, and how many handler contexts there are. -/
def sampleCounters (s : Server Unit) : Int × Int × Int × Nat × Nat :=
  (s.host.activeProcs, s.host.load, (s.host.procs ()).load, [()].countP fun k => (s.host.procs k).running,
    s.ctxs.length)

/-- **The counters go wrong**: `host->load` is 1 without a request, `active_procs` is 1 without a process that runs, and
the load of a process is -1. -/
theorem counters_and_list_wrong : (∀ isLocal, (sampleServer isLocal).Started [()]) ∧
    (∃ s, Run.run step (sampleServer true) sampleAborted = some s ∧ ¬ Balanced [()] s.host s.ctxs) ∧
    (∃ s, Run.run step (sampleServer true) sampleDied = some s ∧ ¬ Balanced [()] s.host s.ctxs) ∧
    ∃ s, Run.run step (sampleServer false) sampleStale = some s ∧ (s.host.procs ()).load = -1 ∧
      ¬ Balanced [()] s.host s.ctxs := by
  have haborted : (Run.run step (sampleServer true) sampleAborted).map sampleCounters = some (1, 1, 0, 1, 0) := by
    decide
  have hdied : (Run.run step (sampleServer true) sampleDied).map sampleCounters = some (1, 0, 0, 0, 0) := by
    decide
  have hstale : (Run.run step (sampleServer false) sampleStale).map sampleCounters = some (0, 0, -1, 0, 0) := by
    decide
  refine ⟨sampleServer_started, ?_, ?_, ?_⟩
  · obtain ⟨s, hrun, hs⟩ := Option.map_eq_some_iff.mp haborted
    simp only [sampleCounters, Prod.mk.injEq] at hs
    refine ⟨s, hrun, fun hb => ?_⟩
    have hload := hb.load
    omega
  · obtain ⟨s, hrun, hs⟩ := Option.map_eq_some_iff.mp hdied
    simp only [sampleCounters, Prod.mk.injEq] at hs
    refine ⟨s, hrun, fun hb => ?_⟩
    have hactive := hb.active
    omega
  · obtain ⟨s, hrun, hs⟩ := Option.map_eq_some_iff.mp hstale
    simp only [sampleCounters, Prod.mk.injEq] at hs
    refine ⟨s, hrun, hs.2.2.1, fun hb => ?_⟩
    have hload := hb.proc () (List.mem_singleton_self ())
    omega

end Account
end Scgi
end Lighttpd
