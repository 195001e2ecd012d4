import Lighttpd.Scgi.ProcList

/-!
# The processes of a SCGI backend

The list of a host is well formed (`WellFormed`), and `Counts` says what the counters of the host count when all but one
of its handler contexts are known, and that the list is sorted. A sort keeps the list, and sorts it again after a change
of a load. `scgi_restart_dead_procs` keeps all of it, and comes to an end (`scgiRestartDeadProcs_keeps`).
-/

namespace Lighttpd
namespace Scgi
namespace Account

open Backend DoublyLinked Census

variable {κ : Type} [DecidableEq κ] {ids : List κ} {h h' : ExtensionHost κ} {k : κ}

/-! ## The list and the processes of a host -/

/-- The list of the host contains every process exactly once. -/
def ExtensionHost.WellFormed (ids : List κ) (h : ExtensionHost κ) : Prop := ∃ l, h.Lists l ∧ l.Perm ids

def ExtensionHost.Sorted (ids : List κ) (h : ExtensionHost κ) : Prop :=
  ∃ l, h.Lists l ∧ l.Perm ids ∧ l.Pairwise h.Le

/-- A process that lighttpd has not started has no child, and it runs or is disabled. -/
def Proc.Ok (p : Proc) : Prop := p.isLocal = false → p.pid = 0 ∧ (p.state = .running ∨ p.state = .disabled)

/-- What is known of a host in every run. -/
structure ExtensionHost.Ok (ids : List κ) (h : ExtensionHost κ) : Prop where
  list : h.WellFormed ids
  procs : ∀ k ∈ ids, (h.procs k).Ok

omit [DecidableEq κ] in
theorem ExtensionHost.WellFormed.nodup (hwf : h.WellFormed ids) : ids.Nodup := by
  obtain ⟨l, hlists, hperm⟩ := hwf
  exact hperm.nodup_iff.mp hlists.list.nodup

omit [DecidableEq κ] in
theorem ExtensionHost.WellFormed.split (hwf : h.WellFormed ids) (hk : k ∈ ids) :
    ∃ l₁ l₂, h.Lists (l₁ ++ k :: l₂) ∧ (l₁ ++ k :: l₂).Perm ids := by
  obtain ⟨l, hlists, hperm⟩ := hwf
  obtain ⟨l₁, l₂, rfl⟩ := List.append_of_mem (hperm.mem_iff.mpr hk)
  exact ⟨l₁, l₂, hlists, hperm⟩

omit [DecidableEq κ] in
theorem insert_perm (r : κ → κ → Prop) [DecidableRel r] (x : κ) (l₁ l₂ : List κ) :
    (l₁ ++ l₂.orderedInsert r x).Perm (l₁ ++ x :: l₂) ∧ (l₁.orderedInsert r x ++ l₂).Perm (l₁ ++ x :: l₂) := by
  constructor
  · exact List.Perm.append_left l₁ (List.perm_orderedInsert r x l₂)
  · exact ((List.perm_orderedInsert r x l₁).append_right l₂).trans List.perm_middle.symm

structure LoadChanged (k : κ) (h₀ h : ExtensionHost κ) : Prop where
  links : h.links = h₀.links
  numProcs : h.numProcs = h₀.numProcs
  load : ∀ j, j ≠ k → (h.procs j).load = (h₀.procs j).load

omit [DecidableEq κ] in
theorem LoadChanged.pairwise {h₀ : ExtensionHost κ} {l : List κ} (hch : LoadChanged k h₀ h) (hk : k ∉ l)
    (hl : l.Pairwise h₀.Le) : l.Pairwise h.Le := by
  apply hl.imp_of_mem
  intro a b ha hb hab
  unfold ExtensionHost.Le at hab ⊢
  rw [hch.load a (fun heq => hk (heq ▸ ha)), hch.load b (fun heq => hk (heq ▸ hb))]
  exact hab

omit [DecidableEq κ] in
theorem LoadChanged.rest {h₀ : ExtensionHost κ} (hch : LoadChanged k h₀ h) (hsorted : h₀.Sorted ids) (hk : k ∈ ids) :
    ∃ l₁ l₂, h.Lists (l₁ ++ k :: l₂) ∧ (l₁ ++ k :: l₂).Perm ids ∧ (l₁ ++ l₂).Pairwise h.Le ∧
      (∀ a ∈ l₁, h₀.Le a k ∧ a ≠ k) ∧ ∀ b ∈ l₂, h₀.Le k b ∧ b ≠ k := by
  obtain ⟨l, hlists, hperm, hpair⟩ := hsorted
  obtain ⟨l₁, l₂, rfl⟩ := List.append_of_mem (hperm.mem_iff.mpr hk)
  obtain ⟨-, -, hk₁, hk₂, -⟩ := hlists.list.nodups
  obtain ⟨h₁, h₂, h₁₂⟩ := List.pairwise_append.mp hpair
  obtain ⟨hhead, h₂⟩ := List.pairwise_cons.mp h₂
  refine ⟨l₁, l₂, ?_, hperm, ?_, ?_, ?_⟩
  · constructor
    · rw [hch.links]
      exact hlists.list
    · rw [hch.numProcs]
      exact hlists.numProcs
  · apply hch.pairwise
    · simp [hk₁, hk₂]
    · exact List.Pairwise.sublist (List.Sublist.append_left (List.sublist_cons_self k l₂) l₁) hpair
  · intro a ha
    refine ⟨h₁₂ a ha k List.mem_cons_self, ?_⟩
    rintro rfl
    exact hk₁ ha
  · intro b hb
    refine ⟨hhead b hb, ?_⟩
    rintro rfl
    exact hk₂ hb

omit [DecidableEq κ] in
theorem ExtensionHost.Lists.of {links : Links κ} {l l' : List κ} (hlists : h.Lists l) (hlist : IsList links l')
    (hperm : l'.Perm l) : ExtensionHost.Lists { h with links := links } l' :=
  ⟨hlist, hlists.numProcs.trans hperm.length_eq.symm⟩

/-- **`scgi_proclist_sort_up` keeps the list**, and sorts it again when the load of the process has grown. -/
theorem sortUp_keeps (hwf : h.WellFormed ids) (hk : k ∈ ids) :
    ∃ links, scgiProclistSortUp h k = some { h with links := links } ∧
      ExtensionHost.WellFormed ids { h with links := links } ∧
      ∀ h₀, h₀.Sorted ids → LoadChanged k h₀ h → size (h₀.procs k).load ≤ size (h.procs k).load →
        ExtensionHost.Sorted ids { h with links := links } := by
  obtain ⟨l₁, l₂, hlists, hperm⟩ := hwf.split hk
  obtain ⟨links, heq, hlist⟩ := sortUp_spec hlists
  have hp := (insert_perm h.Le k l₁ l₂).1
  refine ⟨links, heq, ⟨_, hlists.of hlist hp, hp.trans hperm⟩, ?_⟩
  intro h₀ hsorted hch hle
  obtain ⟨m₁, m₂, hlists', hperm', hpair, hleft, -⟩ := hch.rest hsorted hk
  obtain ⟨links', heq', hlist'⟩ := sortUp_spec hlists'
  have hp' := (insert_perm h.Le k m₁ m₂).1
  rw [heq] at heq'
  rw [Option.some.inj heq']
  refine ⟨_, hlists'.of hlist' hp', hp'.trans hperm', ?_⟩
  obtain ⟨h₁, h₂, h₁₂⟩ := List.pairwise_append.mp hpair
  apply List.pairwise_append.mpr
  refine ⟨h₁, h₂.orderedInsert k m₂, ?_⟩
  intro a ha b hb
  rcases (List.mem_orderedInsert h.Le).mp hb with rfl | hb
  · have hab := (hleft a ha).1
    unfold ExtensionHost.Le at hab ⊢
    dsimp only
    rw [hch.load a (hleft a ha).2]
    omega
  · exact h₁₂ a ha b hb

/-- **`scgi_proclist_sort_down` keeps the list**, and sorts it again when the load of the process has not grown. -/
theorem sortDown_keeps (hwf : h.WellFormed ids) (hk : k ∈ ids) :
    ∃ links, scgiProclistSortDown h k = some { h with links := links } ∧
      ExtensionHost.WellFormed ids { h with links := links } ∧
      ∀ h₀, h₀.Sorted ids → LoadChanged k h₀ h → size (h.procs k).load ≤ size (h₀.procs k).load →
        ExtensionHost.Sorted ids { h with links := links } := by
  obtain ⟨l₁, l₂, hlists, hperm⟩ := hwf.split hk
  obtain ⟨links, heq, hlist⟩ := sortDown_spec hlists
  have hp := (insert_perm h.Le k l₁ l₂).2
  refine ⟨links, heq, ⟨_, hlists.of hlist hp, hp.trans hperm⟩, ?_⟩
  intro h₀ hsorted hch hle
  obtain ⟨m₁, m₂, hlists', hperm', hpair, -, hright⟩ := hch.rest hsorted hk
  obtain ⟨links', heq', hlist'⟩ := sortDown_spec hlists'
  have hp' := (insert_perm h.Le k m₁ m₂).2
  rw [heq] at heq'
  rw [Option.some.inj heq']
  refine ⟨_, hlists'.of hlist' hp', hp'.trans hperm', ?_⟩
  obtain ⟨h₁, h₂, h₁₂⟩ := List.pairwise_append.mp hpair
  apply List.pairwise_append.mpr
  refine ⟨h₁.orderedInsert k m₁, h₂, ?_⟩
  intro a ha b hb
  rcases (List.mem_orderedInsert h.Le).mp ha with rfl | ha
  · have hab := (hright b hb).1
    unfold ExtensionHost.Le at hab ⊢
    dsimp only
    rw [hch.load b (hright b hb).2]
    omega
  · exact h₁₂ a ha b hb

/-! ## What the counters count -/

/-- A connection of the handler context has been counted, and not given back. -/
def HandlerCtx.connected (c : HandlerCtx κ) : Bool :=
  match c.state with
  | .init | .connect => false
  | .prepareWrite | .write | .read => true

/-- The handler context has taken the process after a successful connect. -/
def HandlerCtx.counted (k : κ) (c : HandlerCtx κ) : Bool := c.proc = some k ∧ c.connected

/-- **The counters of the host**, where `n` is the number of the other handler contexts, and `m` for each process the
number of those that have taken it. -/
structure Counts (ids : List κ) (n : Int) (m : κ → Int) (h : ExtensionHost κ) (o : Option (HandlerCtx κ)) : Prop where
  active : h.activeProcs = ids.countP fun k => (h.procs k).running
  load : h.load = n + one (fun _ => true) o
  proc : ∀ k ∈ ids, (h.procs k).load = m k + one (HandlerCtx.counted k) o
  sorted : h.Sorted ids

/-- `h'` is `h` with another process at `k`, of the same load; `active_procs` has grown by `d`. -/
structure StateChanged (k : κ) (d : Int) (h h' : ExtensionHost κ) : Prop where
  links : h'.links = h.links
  numProcs : h'.numProcs = h.numProcs
  hostLoad : h'.load = h.load
  active : h'.activeProcs = h.activeProcs + d
  other : ∀ j, j ≠ k → h'.procs j = h.procs j
  load : (h'.procs k).load = (h.procs k).load

namespace StateChanged

variable {d : Int}

omit [DecidableEq κ] in
theorem sameLoad (hch : StateChanged k d h h') (j : κ) : (h'.procs j).load = (h.procs j).load := by
  by_cases hj : j = k
  · subst hj
    exact hch.load
  · rw [hch.other j hj]

omit [DecidableEq κ] in
theorem lists {l : List κ} (hch : StateChanged k d h h') (hlists : h.Lists l) : h'.Lists l := by
  constructor
  · rw [hch.links]
    exact hlists.list
  · rw [hch.numProcs]
    exact hlists.numProcs

omit [DecidableEq κ] in
theorem ok (hch : StateChanged k d h h') (hok : h.Ok ids) (hp : (h'.procs k).Ok) : h'.Ok ids := by
  obtain ⟨l, hlists, hperm⟩ := hok.list
  refine ⟨⟨l, hch.lists hlists, hperm⟩, ?_⟩
  intro j hj
  by_cases hjk : j = k
  · subst hjk
    exact hp
  · rw [hch.other j hjk]
    exact hok.procs j hj

omit [DecidableEq κ] in
theorem sorted (hch : StateChanged k d h h') (hsorted : h.Sorted ids) : h'.Sorted ids := by
  obtain ⟨l, hlists, hperm, hpair⟩ := hsorted
  refine ⟨l, hch.lists hlists, hperm, hpair.imp ?_⟩
  intro a b hab
  unfold ExtensionHost.Le at hab ⊢
  rw [hch.sameLoad, hch.sameLoad]
  exact hab

variable {n : Int} {m : κ → Int} {o : Option (HandlerCtx κ)}

/-- `active_procs` stays right if it has changed with the process. -/
theorem counts (hch : StateChanged k d h h') (hk : k ∈ ids)
    (hd : d = one Proc.running (some (h'.procs k)) - one Proc.running (some (h.procs k)))
    (hcounts : Counts ids n m h o) : Counts ids n m h' o := by
  have hnodup : ids.Nodup := by
    obtain ⟨l, hlists, hperm, -⟩ := hcounts.sorted
    exact hperm.nodup_iff.mp hlists.list.nodup
  constructor
  · have hcount := countP_update (p := fun k => (h.procs k).running) (q := fun k => (h'.procs k).running) hnodup hk
      (fun j hj => by rw [hch.other j hj])
    rw [hch.active, hcounts.active, hcount, hd]
    simp only [one]
    omega
  · rw [hch.hostLoad]
    exact hcounts.load
  · intro j hj
    rw [hch.sameLoad]
    exact hcounts.proc j hj
  · exact hch.sorted hcounts.sorted

end StateChanged

theorem setProc_self (h : ExtensionHost κ) (k : κ) (p : Proc) : (h.setProc k p).procs k = p := Function.update_self ..

theorem setProc_changed {p : Proc} (hload : p.load = (h.procs k).load) : StateChanged k 0 h (h.setProc k p) where
  links := rfl
  numProcs := rfl
  hostLoad := rfl
  active := (Int.add_zero _).symm
  other j hj := Function.update_of_ne hj ..
  load := by
    rw [setProc_self]
    exact hload

theorem setProc_addActive_changed {p : Proc} (hload : p.load = (h.procs k).load) (d : Int) :
    StateChanged k d h ((h.setProc k p).addActive d) where
  links := rfl
  numProcs := rfl
  hostLoad := rfl
  active := rfl
  other j hj := Function.update_of_ne hj ..
  load := by
    have hself := congrArg Proc.load (setProc_self h k p)
    exact hself.trans hload

theorem Counts.withLinks {links : Links κ} {n : Int} {m : κ → Int} {o : Option (HandlerCtx κ)}
    (hcounts : Counts ids n m h o) (hsorted : ExtensionHost.Sorted ids { h with links := links }) :
    Counts ids n m { h with links := links } o :=
  ⟨hcounts.active, hcounts.load, hcounts.proc, hsorted⟩

omit [DecidableEq κ] in
theorem LoadChanged.refl (k : κ) (h : ExtensionHost κ) : LoadChanged k h h := ⟨rfl, rfl, fun _ _ => rfl⟩

/-! ## Processes that are started again -/

section Processes

variable {n : Int} {m : κ → Int} {o : Option (HandlerCtx κ)}

/-- What is kept by a part of a step that is no handler context's: the list, and the counters if they are right. -/
structure Keeps (ids : List κ) (h h' : ExtensionHost κ) : Prop where
  ok : h'.Ok ids
  counts : ∀ n m o, Counts ids n m h o → Counts ids n m h' o

theorem Keeps.refl (hok : h.Ok ids) : Keeps ids h h := ⟨hok, fun _ _ _ hc => hc⟩

theorem Keeps.trans {h'' : ExtensionHost κ} (hk : Keeps ids h h') (hk' : Keeps ids h' h'') : Keeps ids h h'' :=
  ⟨hk'.ok, fun n m o hc => hk'.counts n m o (hk.counts n m o hc)⟩

theorem StateChanged.keeps {d : Int} (hch : StateChanged k d h h') (hok : h.Ok ids) (hk : k ∈ ids)
    (hp : (h'.procs k).Ok) (hd : d = one Proc.running (some (h'.procs k)) - one Proc.running (some (h.procs k))) :
    Keeps ids h h' :=
  ⟨hch.ok hok hp, fun _ _ _ hc => hch.counts hk hd hc⟩

theorem sortDown_same (hok : h.Ok ids) (hk : k ∈ ids) :
    ∃ h', scgiProclistSortDown h k = some h' ∧ Keeps ids h h' ∧ h'.procs = h.procs ∧ h'.numProcs = h.numProcs := by
  obtain ⟨links, heq, hwf, hsorted⟩ := sortDown_keeps hok.list hk
  refine ⟨_, heq, ⟨⟨hwf, hok.procs⟩, ?_⟩, rfl, rfl⟩
  intro n m o hc
  exact hc.withLinks (hsorted h hc.sorted (LoadChanged.refl k h) (Int.le_refl _))

theorem started {p : Proc} (hload : p.load = (h.procs k).load) (hrun : p.running = true) (hp : p.Ok) :
    StateChanged k 1 h ((h.setProc k p).addActive 1) ∧
      (((h.setProc k p).addActive 1).procs k).running = true ∧ (((h.setProc k p).addActive 1).procs k).Ok := by
  refine ⟨setProc_addActive_changed hload 1, ?_, ?_⟩
  · exact (congrArg Proc.running (setProc_self h k p)).trans hrun
  · have hself : ((h.setProc k p).addActive 1).procs k = p := setProc_self h k p
    rw [hself]
    exact hp

/-- A process that is started runs, and `active_procs` counts it. -/
theorem spawn_changed {spawn : Spawn} (heq : scgiSpawnConnection spawn h k = some h') (hp : (h.procs k).Ok) :
    StateChanged k 1 h h' ∧ (h'.procs k).running = true ∧ (h'.procs k).Ok := by
  cases spawn with
  | failed => cases heq
  | child pid =>
    cases heq
    exact started (by rfl) rfl nofun
  | inUse =>
    cases heq
    exact started (by rfl) rfl fun _ => ⟨rfl, .inl rfl⟩
  | forkFailed =>
    cases heq
    exact started (by rfl) rfl fun hremote => ⟨(hp hremote).1, .inl rfl⟩

theorem reap_changed (waited : Waited) (h : ExtensionHost κ) (k : κ) (hlocal : (h.procs k).isLocal = true) :
    StateChanged k 0 h (reap waited h k) ∧ ((reap waited h k).procs k).Ok ∧
      ((reap waited h k).procs k).running = (h.procs k).running := by
  unfold reap
  split
  · rename_i hstate
    refine ⟨setProc_changed (by rfl), ?_, ?_⟩
    · rw [setProc_self]
      intro hremote
      rw [show (h.procs k).isLocal = false from hremote] at hlocal
      cases hlocal
    · rw [setProc_self]
      simp [Proc.running, hstate.1]
  · refine ⟨⟨rfl, rfl, rfl, (Int.add_zero _).symm, fun _ _ => rfl, rfl⟩, ?_, rfl⟩
    intro hremote
    rw [hremote] at hlocal
    cases hlocal

/-! ## `scgi_restart_dead_procs` -/

/-- How many processes do not run. -/
def ExtensionHost.idle (ids : List κ) (h : ExtensionHost κ) : Nat := ids.countP fun k => !(h.procs k).running

omit [DecidableEq κ] in
theorem idle_changed {d : Int} (hch : StateChanged k d h h') (hnodup : ids.Nodup) (hk : k ∈ ids) :
    (h'.idle ids : Int) + one Proc.running (some (h'.procs k)) =
      h.idle ids + one Proc.running (some (h.procs k)) := by
  have hcount := countP_update (p := fun j => !(h.procs j).running) (q := fun j => !(h'.procs j).running) hnodup hk
    (fun j hj => by rw [hch.other j hj])
  unfold ExtensionHost.idle
  simp only [one] at hcount ⊢
  cases hrun : (h.procs k).running <;> cases hrun' : (h'.procs k).running <;>
    simp [hrun, hrun'] at hcount ⊢ <;> omega

/-- **One turn of the loop.** The process is where it was, or it runs now and did not before. -/
theorem restartProc_keeps (now : Int) (waited : Waited) (spawn : Spawn) (hok : h.Ok ids) (hk : k ∈ ids) :
    ∃ more h', restartProc now waited spawn h k = some (more, h') ∧ Keeps ids h h' ∧
      (h'.links = h.links ∧ h'.idle ids ≤ h.idle ids ∨ h'.idle ids < h.idle ids) := by
  have hp := hok.procs k hk
  have hnodup := hok.list.nodup
  unfold restartProc
  split
  · rename_i hlocal
    obtain ⟨hreap, hreapOk, hreapRun⟩ := reap_changed waited h k hlocal
    have hkeep : Keeps ids h (reap waited h k) := by
      apply hreap.keeps hok hk hreapOk
      simp [one, hreapRun]
    have hidle := idle_changed hreap hnodup hk
    simp only [one, hreapRun] at hidle
    dsimp only
    split
    · rename_i hdied
      have hstop : ((reap waited h k).procs k).running = false := by
        simp [Proc.running, hdied.1]
      split
      · exact ⟨_, _, rfl, hkeep, .inl ⟨hreap.links, by omega⟩⟩
      · rename_i h₁ hspawn
        obtain ⟨hch, hrun, hspawnOk⟩ := spawn_changed hspawn hreapOk
        have hkeep₁ : Keeps ids (reap waited h k) h₁ := by
          apply hch.keeps hkeep.ok hk hspawnOk
          simp [one, hrun, hstop]
        obtain ⟨h₂, hsort, hkeep₂, hprocs, -⟩ := sortDown_same hkeep₁.ok hk
        refine ⟨true, h₂, ?_, hkeep.trans (hkeep₁.trans hkeep₂), .inr ?_⟩
        · rw [hsort]
          rfl
        · have hidle₁ := idle_changed hch hnodup hk
          have hidle₂ : h₂.idle ids = h₁.idle ids := by
            unfold ExtensionHost.idle
            rw [hprocs]
          simp only [one, hrun, hstop, if_true, Bool.false_eq_true, if_false] at hidle₁
          omega
    · exact ⟨_, _, rfl, hkeep, .inl ⟨hreap.links, by omega⟩⟩
  · rename_i hremote
    rw [Bool.not_eq_true] at hremote
    split
    · rename_i hdisabled
      have hstop : (h.procs k).running = false := by
        simp [Proc.running, hdisabled.1]
      obtain ⟨hch, hrun, hok'⟩ := started (h := h) (k := k) (p := { h.procs k with state := .running }) rfl rfl
        (fun _ => ⟨(hp hremote).1, .inl rfl⟩)
      have hidle := idle_changed hch hnodup hk
      refine ⟨_, _, rfl, ?_, .inr ?_⟩
      · apply hch.keeps hok hk hok'
        rw [one_of_true hrun, one_of_false hstop]
        rfl
      · rw [one_of_true hrun, one_of_false hstop] at hidle
        omega
    · exact ⟨_, _, rfl, Keeps.refl hok, .inl ⟨rfl, Nat.le_refl _⟩⟩

omit [DecidableEq κ] in
theorem idle_le (h : ExtensionHost κ) (ids : List κ) : h.idle ids ≤ ids.length := List.countP_le_length

/-- **The loop ends**, and keeps what its turns keep: each turn goes on to the right, or fewer processes do not run. -/
theorem restartLoop_keeps (now : Int) (restart : Restart) {fuel turn : Nat} {l₁ l₂ : List κ} (hok : h.Ok ids)
    (hlists : h.Lists (l₁ ++ l₂)) (hperm : (l₁ ++ l₂).Perm ids)
    (hfuel : h.idle ids * (ids.length + 1) + l₂.length ≤ fuel) :
    ∃ h', restartLoop now restart fuel turn l₂.head? h = some h' ∧ Keeps ids h h' := by
  induction fuel generalizing h l₁ l₂ turn with
  | zero =>
    obtain rfl : l₂ = [] := List.eq_nil_of_length_eq_zero (by omega)
    exact ⟨h, rfl, Keeps.refl hok⟩
  | succ fuel ih =>
    cases l₂ with
    | nil => exact ⟨h, by cases fuel <;> rfl, Keeps.refl hok⟩
    | cons k l₂ =>
      have hk : k ∈ ids := hperm.mem_iff.mp (by simp)
      obtain ⟨more, h₁, hproc, hkeep, hprogress⟩ :=
        restartProc_keeps now (restart.waited turn) (restart.spawn turn) hok hk
      rw [List.head?_cons, restartLoop, hproc]
      dsimp only [bind, Option.bind]
      cases more with
      | false => exact ⟨h₁, rfl, hkeep⟩
      | true =>
        rw [if_pos rfl]
        suffices hrest : ∃ h', restartLoop now restart fuel (turn + 1) (h₁.links.next k) h₁ = some h' ∧
            Keeps ids h₁ h' by
          obtain ⟨h', hloop, hkeep'⟩ := hrest
          exact ⟨h', hloop, hkeep.trans hkeep'⟩
        -- Where the loop goes on, and that there are turns enough left for it.
        obtain ⟨m₁, m₂, hlists₁, hperm₁, hfuel₁⟩ : ∃ m₁ m₂, h₁.Lists (m₁ ++ k :: m₂) ∧ (m₁ ++ k :: m₂).Perm ids ∧
            h₁.idle ids * (ids.length + 1) + m₂.length ≤ fuel := by
          obtain ⟨m₁, m₂, hlists₁, hperm₁⟩ := hkeep.ok.list.split hk
          rw [List.length_cons] at hfuel
          rcases hprogress with ⟨hsame, hidle⟩ | hidle
          · refine ⟨l₁, l₂, ⟨?_, ?_⟩, hperm, ?_⟩
            · rw [hsame]
              exact hlists.list
            · rw [hlists₁.numProcs, hperm₁.length_eq, hperm.length_eq]
            · have hmul := Nat.mul_le_mul_right (ids.length + 1) hidle
              omega
          · refine ⟨m₁, m₂, hlists₁, hperm₁, ?_⟩
            have hlen := hperm₁.length_eq
            rw [List.length_append, List.length_cons] at hlen
            have hmul := Nat.mul_le_mul_right (ids.length + 1) (Nat.succ_le_of_lt hidle)
            rw [Nat.succ_mul] at hmul
            omega
        rw [hlists₁.list.at.2.1]
        rw [List.append_cons] at hlists₁ hperm₁
        exact ih hkeep.ok hlists₁ hperm₁ hfuel₁

/-- **`scgi_restart_dead_procs` keeps the list, and right counters.** -/
theorem scgiRestartDeadProcs_keeps (now : Int) (restart : Restart) (hok : h.Ok ids) :
    ∃ h', scgiRestartDeadProcs now restart h = some h' ∧ Keeps ids h h' := by
  obtain ⟨l, hlists, hperm⟩ := hok.list
  unfold scgiRestartDeadProcs
  rw [hlists.list.first]
  have hwhole : h.Lists ([] ++ l) := hlists
  apply restartLoop_keeps now restart hok hwhole hperm
  have hidle := Nat.mul_le_mul_right (ids.length + 1) (idle_le h ids)
  rw [hlists.numProcs, hperm.length_eq, Nat.succ_mul]
  omega

end Processes

end Account
end Scgi
end Lighttpd
