import Lighttpd.Fcgi.Balance
import Lighttpd.Lib.Candidates

/-!
# Which host and which process gets a request (`mod_fastcgi.c`)

`fcgi_send_request` takes the next host in turn if it has no load, and else looks for the host with the least load among
those with a process that runs. `fcgi_write_request` looks for the process with the least load.

- `selectProc_eq`, `leastLoad_eq`: the two loops choose the first candidate with the least load;
- `chosen_iff`: a host with a process that runs is chosen, if and only if the next host in turn has one or has a load.
-/

namespace Lighttpd
namespace Fcgi
namespace Account

open Backend Candidates

/-! ## The loops -/

def procLoad (b : Proc × Nat) : Int := size b.1.load

/-- **The process that is chosen.** -/
theorem selectProc_eq (k : Nat) (best : Option (Proc × Nat)) (procs : List Proc) :
    selectProc k (best.map Prod.swap) procs =
      ((candidates Proc.running k procs).foldl (List.argAux fun b c => procLoad b < procLoad c) best).map Prod.swap := by
  induction procs generalizing k best with
  | nil => rfl
  | cons p procs ih =>
    unfold selectProc
    by_cases hrun : p.running = true
    · rw [if_pos hrun, candidates_cons_of_pos hrun, List.foldl_cons]
      cases best with
      | none => exact ih (k + 1) (some (p, k))
      | some b =>
        obtain ⟨q, n⟩ := b
        rw [Option.map_some, Prod.swap_prod_mk]
        dsimp only
        by_cases hlt : procLoad (p, k) < procLoad (q, n)
        · have hsize : size p.load < size q.load := hlt
          rw [if_pos hsize, argAux_of_pos (r := fun b c => procLoad b < procLoad c) hlt]
          exact ih (k + 1) (some (p, k))
        · have hsize : ¬ size p.load < size q.load := hlt
          rw [if_neg hsize, argAux_of_neg (r := fun b c => procLoad b < procLoad c) hlt]
          exact ih (k + 1) (some (q, n))
    · rw [if_neg hrun, candidates_cons_of_neg hrun]
      exact ih (k + 1) best

section Hosts

variable {ι : Type} (hosts : ι → ExtensionHost)

def active (i : ι) : Bool := (hosts i).activeProcs ≠ 0

def hostLoad (b : ι × Nat) : Int := (hosts b.1).load

/-- A load counts requests, each of which has a file descriptor. -/
def IsLoad (n : Int) : Prop := 0 ≤ n ∧ n < 2 ^ 31

/-- What the variable `used` of the loop is for the best host so far. -/
def usedOf (best : Option (ι × Nat)) : Int := best.elim (-1) (hostLoad hosts)

variable {hosts}

theorem toInt_load {n : Int} (h : IsLoad n) : toInt n = n := by
  obtain ⟨hpos, hlt⟩ := h
  exact Int.bmod_eq_of_le (by omega) (by omega)

/-- The loads are such numbers when they are the numbers of the requests. -/
theorem Balanced.isLoad {ε : Type} [DecidableEq ι] {ctxs : List (HandlerCtx ι ε)} (h : Balanced hosts ctxs)
    (hfds : ctxs.length < 2 ^ 31) (i : ι) : IsLoad (hosts i).load := by
  have hle : ctxs.countP (HandlerCtx.assigned i) ≤ ctxs.length := List.countP_le_length
  rw [h.load i]
  exact ⟨by omega, by omega⟩

/-- **The host that is chosen by its load.** -/
theorem leastLoad_eq (k : Nat) (best : Option (ι × Nat)) (rest : List ι) (hrest : ∀ i ∈ rest, IsLoad (hosts i).load)
    (hbest : ∀ b ∈ best, IsLoad (hosts b.1).load) :
    leastLoad hosts k (usedOf hosts best) (best.map Prod.snd) rest =
      ((candidates (active hosts) k rest).foldl (List.argAux fun b c => hostLoad hosts b < hostLoad hosts c) best).map
        Prod.snd := by
  induction rest generalizing k best with
  | nil => rfl
  | cons i rest ih =>
    obtain ⟨hi, hrest⟩ := List.forall_mem_cons.mp hrest
    unfold leastLoad
    by_cases hactive : (hosts i).activeProcs = 0
    · rw [if_pos hactive, candidates_cons_of_neg (by simp [active, hactive])]
      exact ih (k + 1) best hrest hbest
    · rw [if_neg hactive, candidates_cons_of_pos (by simp [active, hactive]), List.foldl_cons, toInt_load hi]
      have hself := ih (k + 1) (some (i, k)) hrest (by simpa using hi)
      cases best with
      | none => exact hself
      | some b =>
        -- a load is not the -1 that `used` starts with
        have hused : (usedOf hosts (some b) = -1 ∨ (hosts i).load < usedOf hosts (some b)) ↔
            hostLoad hosts (i, k) < hostLoad hosts b := by
          have hpos : 0 ≤ hostLoad hosts b := (hbest b rfl).1
          simp only [usedOf, Option.elim_some]
          rw [or_iff_right (by omega)]
          rfl
        by_cases hlt : hostLoad hosts (i, k) < hostLoad hosts b
        · rw [if_pos (hused.mpr hlt), argAux_of_pos (r := fun b c => hostLoad hosts b < hostLoad hosts c) hlt]
          exact hself
        · rw [if_neg (mt hused.mp hlt), argAux_of_neg (r := fun b c => hostLoad hosts b < hostLoad hosts c) hlt]
          exact ih (k + 1) (some b) hrest hbest

/-! ## The choice of a host -/

variable {ext : Extension ι}

theorem nextNdx_lt (h : ext.hosts ≠ []) : ext.nextNdx < ext.hosts.length := by
  have hpos := List.length_pos_iff.mpr h
  unfold Extension.nextNdx
  split <;> omega

theorem chooseHost_of_idle {i : ι} (hi : ext.hosts[ext.nextNdx]? = some i) (hload : ¬ 0 < (hosts i).load) :
    chooseHost hosts ext = some (ext.nextNdx, i) := by
  unfold chooseHost
  rw [hi, Option.bind_eq_bind, Option.bind_some, if_neg hload]
  rfl

theorem chooseHost_of_busy {i : ι} (hi : ext.hosts[ext.nextNdx]? = some i) (hload : 0 < (hosts i).load)
    (hloads : ∀ i ∈ ext.hosts, IsLoad (hosts i).load) :
    chooseHost hosts ext =
      ((candidates (active hosts) 0 ext.hosts).argmin (hostLoad hosts)).map Prod.swap := by
  have hleast : leastLoad hosts 0 (-1) none ext.hosts =
      ((candidates (active hosts) 0 ext.hosts).argmin (hostLoad hosts)).map Prod.snd :=
    leastLoad_eq 0 none ext.hosts hloads (by simp)
  unfold chooseHost
  rw [hi, Option.bind_eq_bind, Option.bind_some, if_pos hload, hleast]
  cases hmin : (candidates (active hosts) 0 ext.hosts).argmin (hostLoad hosts) with
  | none => rfl
  | some b =>
    obtain ⟨j, ndx⟩ := b
    obtain ⟨hj, -⟩ := mem_candidates.mp (List.argmin_mem hmin)
    simp only [Option.map_some, Option.bind_eq_bind, Option.bind_some, hj]
    rfl

/-- **What the choice of a host and of a process is for.** A host with a process that runs gets the request, if there is
one; it has the least load of them if the next host in turn has a load; and in a host, a process that runs with the
least load gets it. -/
structure Chosen (hosts : ι → ExtensionHost) (ext : Extension ι) : Prop where
  live : (∃ i ∈ ext.hosts, active hosts i = true) → ∃ ndx i, chooseHost hosts ext = some (ndx, i) ∧
    ext.hosts[ndx]? = some i ∧ active hosts i = true
  least : ∀ i, ext.hosts[ext.nextNdx]? = some i → 0 < (hosts i).load → ∀ ndx j, chooseHost hosts ext = some (ndx, j) →
    active hosts j = true ∧ ∀ k ∈ ext.hosts, active hosts k = true → (hosts j).load ≤ (hosts k).load
  process : ∀ i, (∃ p ∈ (hosts i).first, p.running = true) → ∃ k p, selectProc 0 none (hosts i).first = some (k, p) ∧
    (hosts i).first[k]? = some p ∧ p.running = true ∧
    ∀ q ∈ (hosts i).first, q.running = true → size p.load ≤ size q.load

/-- The next host in turn has a load or a process that runs, or no host has one. -/
def NextServes (hosts : ι → ExtensionHost) (ext : Extension ι) : Prop :=
  ∀ i, ext.hosts[ext.nextNdx]? = some i →
    0 < (hosts i).load ∨ active hosts i = true ∨ ∀ j ∈ ext.hosts, ¬ active hosts j = true

theorem selectProc_least {procs : List Proc} (h : ∃ p ∈ procs, p.running = true) :
    ∃ k p, selectProc 0 none procs = some (k, p) ∧ procs[k]? = some p ∧ p.running = true ∧
      ∀ q ∈ procs, q.running = true → size p.load ≤ size q.load := by
  have hselect : selectProc 0 none procs = ((candidates Proc.running 0 procs).argmin procLoad).map Prod.swap :=
    selectProc_eq 0 none procs
  obtain ⟨p, k, hmin⟩ := exists_argmin (f := procLoad) h
  obtain ⟨hp, hrun, hleast⟩ := argmin_candidates hmin
  rw [hmin] at hselect
  refine ⟨k, p, hselect, hp, hrun, fun q hq hrun => ?_⟩
  obtain ⟨m, hle⟩ := hleast q hq hrun
  exact hle

/-- **The least-load search finds a live host**, one with the least load of them. -/
theorem chooseHost_least {i : ι} (hi : ext.hosts[ext.nextNdx]? = some i) (hload : 0 < (hosts i).load)
    (hloads : ∀ i ∈ ext.hosts, IsLoad (hosts i).load) {ndx : Nat} {j : ι} (h : chooseHost hosts ext = some (ndx, j)) :
    ext.hosts[ndx]? = some j ∧ active hosts j = true ∧
      ∀ k ∈ ext.hosts, active hosts k = true → (hosts j).load ≤ (hosts k).load := by
  rw [chooseHost_of_busy hi hload hloads] at h
  obtain ⟨b, hmin, hb⟩ := Option.map_eq_some_iff.mp h
  cases hb
  obtain ⟨hj, hactive, hleast⟩ := argmin_candidates hmin
  refine ⟨hj, hactive, fun k hk hactive => ?_⟩
  obtain ⟨m, hle⟩ := hleast k hk hactive
  exact hle

/-- **A live host is chosen** whenever there is one, if and only if the next host in turn is live or has a load. -/
theorem chosen_iff (hosts : ι → ExtensionHost) (ext : Extension ι) (hloads : ∀ i ∈ ext.hosts, IsLoad (hosts i).load) :
    Chosen hosts ext ↔ NextServes hosts ext := by
  constructor
  · intro h i hi
    by_cases hload : 0 < (hosts i).load
    · exact .inl hload
    · by_cases hlive : ∃ j ∈ ext.hosts, active hosts j = true
      · obtain ⟨ndx, j, hchoose, -, hactive⟩ := h.live hlive
        rw [chooseHost_of_idle hi hload] at hchoose
        cases hchoose
        exact .inr (.inl hactive)
      · exact .inr (.inr fun j hj hactive => hlive ⟨j, hj, hactive⟩)
  · intro h
    constructor
    · rintro ⟨j, hj, hactive⟩
      obtain ⟨i, hi⟩ : ∃ i, ext.hosts[ext.nextNdx]? = some i :=
        ⟨_, List.getElem?_eq_getElem (nextNdx_lt (List.ne_nil_of_mem hj))⟩
      by_cases hload : 0 < (hosts i).load
      · obtain ⟨k, ndx, hmin⟩ := exists_argmin (f := hostLoad hosts) ⟨j, hj, hactive⟩
        have hchoose : chooseHost hosts ext = some (ndx, k) := by
          rw [chooseHost_of_busy hi hload hloads, hmin]
          rfl
        obtain ⟨hk, hactive, -⟩ := chooseHost_least hi hload hloads hchoose
        exact ⟨ndx, k, hchoose, hk, hactive⟩
      · rcases h i hi with hbusy | hnext | hnone
        · exact absurd hbusy hload
        · exact ⟨ext.nextNdx, i, chooseHost_of_idle hi hload, hi, hnext⟩
        · exact absurd hactive (hnone j hj)
    · intro i hi hload ndx j hchoose
      exact (chooseHost_least hi hload hloads hchoose).2
    · exact fun i => selectProc_least

end Hosts

/-! ## A host without processes in turn -/

/-- Two hosts without load: all processes of the first one have died, and the second one has a process that runs. -/
def sampleHosts (second : Bool) : ExtensionHost :=
  if second then ⟨[⟨8, 0, 0, true, .running⟩], 1, 0, 0, true⟩ else ⟨[⟨7, 0, 0, true, .died⟩], 0, 0, 0, true⟩

/-- The two hosts, of which the one at this place has been used last. -/
def sampleExt (lastUsedNdx : Int) : Extension Bool := ⟨[false, true], lastUsedNdx⟩

theorem chosen_iff_sample : Chosen sampleHosts (sampleExt 0) ↔ NextServes sampleHosts (sampleExt 0) := by
  apply chosen_iff sampleHosts (sampleExt 0)
  intro i _
  cases i <;> exact ⟨by decide, by decide⟩

/-- **A dead host is chosen**, although there is a live one. -/
theorem dead_host_chosen : active sampleHosts true = true ∧
    chooseHost sampleHosts (sampleExt 1) = some (0, false) ∧ active sampleHosts false = false ∧
    ¬ Chosen sampleHosts (sampleExt 1) := by
  have hchoose : chooseHost sampleHosts (sampleExt 1) = some (0, false) := by decide
  refine ⟨by decide, hchoose, by decide, fun h => ?_⟩
  obtain ⟨ndx, i, hi, -, hactive⟩ := h.live ⟨true, by decide, by decide⟩
  rw [hchoose] at hi
  cases hi
  exact absurd hactive (by decide)

end Account
end Fcgi
end Lighttpd
