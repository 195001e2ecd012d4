import Lighttpd.Lib.Run
import Lighttpd.Proxy.Balance

/-!
# Rounds of balancing (`mod_proxy.c`)

Requests come, hosts are disabled and enabled again, and connections are closed. Round robin saves the place of the host
that it has chosen in the first host of the extension, and -1 if all are disabled.

- `checkExtensions_spec`: the handler takes a step with the hosts of the extension that matches first;
- `balance_spec`: what holds of the choice in every run, where round robin starts over behind a search without a result;
- `place_forgotten`: so it does not go on behind the host that has been used last.
-/

namespace Lighttpd.Proxy

/-! ## Runs -/

/-- What happens to the hosts of an extension: one of them is chosen for a request, disabled, or enabled again, and a
connection to one of them is closed. -/
inductive Op
  | request (balance : Balance) (path authority : Bytes)
  | disable (n : Nat)
  | enable (n : Nat)
  | close (n : Nat)

def step (hosts : List DataProxy) : Op → List DataProxy
  | .request balance path authority => (assign balance path authority hosts).2
  | .disable n => hosts.modify n fun host => { host with isDisabled := true }
  | .enable n => hosts.modify n fun host => { host with isDisabled := false }
  | .close n => hosts.modify n fun host => { host with usage := host.usage - 1 }

theorem checkExtensions_spec (balance : Balance) (con : Con) (exts : List Extension) :
    ((∀ ext ∈ exts, ext.hit con.uriPath = none) ∧ checkExtensions balance con exts = (.goOn, exts)) ∨
    ∃ pre ext post pathInfoOffset, exts = pre ++ ext :: post ∧ (∀ e ∈ pre, e.hit con.uriPath = none) ∧
      ext.hit con.uriPath = some pathInfoOffset ∧
      checkExtensions balance con exts =
        ((elect balance con.uriPath con.uriAuthority ext.value).1.elim .finished (.proxied pathInfoOffset),
          pre ++ { ext with value := step ext.value (.request balance con.uriPath con.uriAuthority) } :: post) := by
  induction exts with
  | nil => exact .inl ⟨by simp, rfl⟩
  | cons ext exts ih =>
    unfold checkExtensions
    cases hhit : ext.hit con.uriPath with
    | some pathInfoOffset => exact .inr ⟨[], ext, exts, pathInfoOffset, rfl, by simp, hhit, rfl⟩
    | none =>
      rcases ih with ⟨hall, heq⟩ | ⟨pre, e, post, pathInfoOffset, rfl, hpre, he, heq⟩
      · refine .inl ⟨List.forall_mem_cons.mpr ⟨hhit, hall⟩, ?_⟩
        rw [heq]
      · refine .inr ⟨ext :: pre, e, post, pathInfoOffset, rfl, List.forall_mem_cons.mpr ⟨hhit, hpre⟩, he, ?_⟩
        rw [heq]
        rfl

/-- The hosts, and the place of the one that has been used last in turn. -/
structure Trace where
  hosts : List DataProxy
  last : Int

/-- The place of the host that has been used last in turn; `giveUp` says what a search without a result makes of it. -/
def Trace.lastUsed (giveUp : Int → Int) (t : Trace) : Op → Int
  | .request .rr path authority =>
    if t.hosts.length < 2 then t.last else (elect .rr path authority t.hosts).1.elim (giveUp t.last) fun n => n
  | _ => t.last

def traced (giveUp : Int → Int) (t : Trace) (op : Op) : Option Trace := some ⟨step t.hosts op, t.lastUsed giveUp op⟩

def Started (hosts : List DataProxy) : Prop := ∀ host ∈ hosts, host.lastUsedNdx = 0

instance (hosts : List DataProxy) : Decidable (Started hosts) := inferInstanceAs (Decidable (∀ host ∈ hosts, _ = _))

variable {path authority : Bytes} {hosts : List DataProxy}

theorem saved_modify {f : DataProxy → DataProxy} (hf : ∀ host, (f host).lastUsedNdx = host.lastUsedNdx) (n : Nat) :
    saved (hosts.modify n f) = saved hosts := by
  cases hosts with
  | nil => rw [List.modify_nil]
  | cons first rest =>
    cases n with
    | zero => exact congrArg some (hf first)
    | succ n => rfl

theorem saved_assign (balance : Balance) :
    saved (assign balance path authority hosts).2 = saved (elect balance path authority hosts).2 := by
  unfold assign
  dsimp only
  cases (elect balance path authority hosts).1 with
  | none => rfl
  | some n =>
    refine saved_modify ?_ n
    exact fun host => rfl

theorem length_elect (balance : Balance) : (elect balance path authority hosts).2.length = hosts.length := by
  match hosts with
  | [] => rfl
  | [host] => rfl
  | first :: second :: rest => cases balance <;> rfl

theorem length_step (op : Op) : (step hosts op).length = hosts.length := by
  cases op with
  | request balance path authority =>
    unfold step assign
    dsimp only
    cases (elect balance path authority hosts).1 with
    | none => exact length_elect balance
    | some n => exact (List.length_modify ..).trans (length_elect balance)
  | disable n => exact List.length_modify ..
  | enable n => exact List.length_modify ..
  | close n => exact List.length_modify ..

theorem saved_elect {balance : Balance} (h : balance ≠ .rr ∨ hosts.length < 2) :
    saved (elect balance path authority hosts).2 = saved hosts := by
  match hosts with
  | [] => rfl
  | [host] => rfl
  | first :: second :: rest =>
    have hne := h.resolve_right (by simp)
    cases balance with
    | unset => rfl
    | fair => rfl
    | hash => rfl
    | rr => exact absurd rfl hne

/-- **Round robin saves the place of its choice.** -/
theorem saved_rr {last : Int} (h : Saved hosts last) (hlen : 2 ≤ hosts.length) :
    let place := (elect .rr path authority hosts).1.elim (-1) fun n => (n : Int)
    saved (elect .rr path authority hosts).2 = some place ∧ -1 ≤ place ∧ place < hosts.length := by
  match hosts with
  | [] => simp at hlen
  | [host] => simp at hlen
  | first :: second :: rest =>
    refine ⟨rfl, ?_⟩
    have helected : Elected (first :: second :: rest) (elect .rr path authority (first :: second :: rest)).1 :=
      (elect_rr h).1
    cases hndx : (elect .rr path authority (first :: second :: rest)).1 with
    | none => exact ⟨le_refl _, by simp only [Option.elim_none, List.length_cons]; omega⟩
    | some n =>
      rw [hndx] at helected
      obtain ⟨host, hhost, -⟩ := helected
      have hlt := (List.getElem?_eq_some_iff.mp hhost).1
      simp only [Option.elim_some]
      omega

/-- **A step keeps what is saved.** -/
theorem Saved.step {t : Trace} (h : Saved t.hosts t.last) (op : Op) :
    Saved (Proxy.step t.hosts op) (t.lastUsed (fun _ => -1) op) := by
  intro hne
  have hhosts : t.hosts ≠ [] := by
    rw [← List.length_pos_iff, length_step, List.length_pos_iff] at hne
    exact hne
  obtain ⟨hsaved, hrange⟩ := h hhosts
  rw [length_step]
  cases op with
  | request balance path authority =>
    have hstep : saved (Proxy.step t.hosts (.request balance path authority)) =
        saved (elect balance path authority t.hosts).2 := saved_assign balance
    rw [hstep]
    by_cases hturn : balance = .rr ∧ 2 ≤ t.hosts.length
    · obtain ⟨rfl, hlen⟩ := hturn
      have hlast : t.lastUsed (fun _ => -1) (.request .rr path authority) =
          (elect .rr path authority t.hosts).1.elim (-1) fun n => (n : Int) := if_neg (by omega)
      rw [hlast]
      exact saved_rr h hlen
    · have hlast : t.lastUsed (fun _ => -1) (.request balance path authority) = t.last := by
        cases balance with
        | rr => exact if_pos (by simpa using hturn)
        | _ => rfl
      rw [hlast, saved_elect (by rw [not_and_or, not_le] at hturn; exact hturn)]
      exact ⟨hsaved, hrange⟩
  | disable n =>
    refine ⟨(saved_modify (f := fun host => { host with isDisabled := true }) ?_ n).trans hsaved, hrange⟩
    exact fun host => rfl
  | enable n =>
    refine ⟨(saved_modify (f := fun host => { host with isDisabled := false }) ?_ n).trans hsaved, hrange⟩
    exact fun host => rfl
  | close n =>
    refine ⟨(saved_modify (f := fun host => { host with usage := host.usage - 1 }) ?_ n).trans hsaved, hrange⟩
    exact fun host => rfl

theorem Started.saved (h : Started hosts) : Saved hosts 0 := by
  intro hne
  obtain ⟨first, rest, rfl⟩ := List.exists_cons_of_ne_nil hne
  refine ⟨congrArg some (h first List.mem_cons_self), by decide, ?_⟩
  rw [List.length_cons]
  omega

/-- **The balancing of `mod_proxy`**, after every run of requests and of hosts that are disabled and enabled. A host has fewer
than `INT_MAX` connections. -/
theorem balance_spec (hosts : List DataProxy) (h : Started hosts) (ops : List Op) (t : Trace)
    (hrun : Run.run (traced fun _ => -1) ⟨hosts, 0⟩ ops = some t) (hfds : ∀ host ∈ t.hosts, host.usage < intMax)
    {balance : Balance} (hset : balance ≠ .unset) (path authority : Bytes) :
    Balanced balance t.last t.hosts path authority := by
  have hsaved : Saved t.hosts t.last := by
    refine Run.run_keeps (I := fun t => Saved t.hosts t.last) ?_ h.saved (Run.meets_of_forall (fun _ _ => trivial) _ ops) hrun
    rintro t op t' ht - ⟨⟩
    exact ht.step op
  exact balanced hset hsaved hfds

/-! ## A search without a result -/

def sampleHost (name : String) : DataProxy := ⟨Buffer.ofString (ascii name), false, 0, 0⟩

def sampleProxies : List DataProxy := [sampleHost "a", sampleHost "b", sampleHost "c"]

def sampleRequest : Op := .request .rr (ascii "/") (ascii "x")

/-- The second host is used; then all are disabled when there is a request, and enabled again. -/
def sampleOps : List Op :=
  [sampleRequest, .disable 0, .disable 1, .disable 2, sampleRequest, .enable 0, .enable 1, .enable 2]

theorem balance_spec_sample : ∃ t, Run.run (traced fun _ => -1) ⟨sampleProxies, 0⟩ sampleOps = some t ∧
    Balanced .rr t.last t.hosts (ascii "/") (ascii "x") := by
  refine ⟨_, rfl, balance_spec sampleProxies (by decide) sampleOps _ rfl (by decide) (by decide) _ _⟩

/-- **The place of the last host is forgotten** by a search without a result: the second host has been used last, and the
first one follows, although the third one is enabled and next in turn. -/
theorem place_forgotten : Started sampleProxies ∧ ∃ t, Run.run (traced id) ⟨sampleProxies, 0⟩ sampleOps = some t ∧
    t.last = 1 ∧ (∀ host ∈ t.hosts, enabled host = true) ∧
    (elect .rr (ascii "/") (ascii "x") t.hosts).1 = some 0 ∧ ¬ Balanced .rr t.last t.hosts (ascii "/") (ascii "x") := by
  have hrun : (Run.run (traced id) ⟨sampleProxies, 0⟩ sampleOps).map
      (fun t => (t.last, t.hosts.map enabled, (elect .rr (ascii "/") (ascii "x") t.hosts).1)) =
      some (1, [true, true, true], some 0) := by
    decide
  obtain ⟨t, hrun, heq⟩ := Option.map_eq_some_iff.mp hrun
  obtain ⟨hlast, heq⟩ := Prod.mk.inj heq
  obtain ⟨hon, helect⟩ := Prod.mk.inj heq
  obtain ⟨a, l₁, hhosts, ha, h₁⟩ := List.map_eq_cons_iff.mp hon
  obtain ⟨b, l₂, rfl, hb, h₂⟩ := List.map_eq_cons_iff.mp h₁
  obtain ⟨c, l₃, rfl, hc, h₃⟩ := List.map_eq_cons_iff.mp h₂
  obtain rfl := List.map_eq_nil_iff.mp h₃
  refine ⟨by decide, t, hrun, hlast, ?_, helect, fun h => ?_⟩
  · rw [hhosts]
    simp [ha, hb, hc]
  · have hnext := h.rr rfl 0 helect 2 c (by rw [hhosts]; rfl) hc
    rw [hlast, hhosts] at hnext
    have hturn : ¬ turn 1 3 0 ≤ turn 1 3 2 := by decide
    exact hturn hnext

end Lighttpd.Proxy
