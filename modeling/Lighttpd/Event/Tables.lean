import Lighttpd.Event.MainLoop
import Lighttpd.Lib.SlotTable

/-!
# The tables of events agree

- `Registered`: `fdarray`, the array of the backend and the `fde_ndx` of the owners agree;
- `Frame`: what an operation leaves as it is, apart from the descriptors it closes;
- `run_keeps_tables`: any operations keep the first and follow the second.
-/

namespace Lighttpd.Event

open Fdevents

variable {η κ : Type} {s s' s'' : State η κ} {ev : Fdevents η κ} {fd : Int}

/-- The descriptor that an element of `pollfds` is about. -/
def owner (slot : Pollfd) : Option Int := if slot.fd = -1 then none else some slot.fd

/-- The descriptor that an element of `pollfds` shows to the loop. -/
def ready (slot : Pollfd) : Option Int := if slot.revents ≠ 0 then some slot.fd else none

def index (fdeNdx : Int) : Option ℕ := if fdeNdx = -1 then none else some fdeNdx.toNat

variable {slot : Pollfd}

theorem owner_eq_some (h : owner slot = some fd) : slot.fd = fd ∧ fd ≠ -1 := by
  unfold owner at h
  split at h
  · cases h
  · next hne =>
    cases h
    exact ⟨rfl, hne⟩

theorem owner_of_fd (h : slot.fd = fd) (hfd : fd ≠ -1) : owner slot = some fd := by
  simp [owner, h, hfd]

theorem fd_of_owner_eq_none (h : owner slot = none) : slot.fd = -1 := by
  unfold owner at h
  split at h
  · assumption
  · cases h

theorem ready_isSome (slot : Pollfd) : (ready slot).isSome = decide (slot.revents ≠ 0) := by
  unfold ready
  split <;> simp_all

theorem ready_eq_some (h : ready slot = some fd) : slot.revents ≠ 0 ∧ slot.fd = fd := by
  unfold ready at h
  split at h
  · next hne =>
    cases h
    exact ⟨hne, rfl⟩
  · cases h

theorem ready_cases (slot : Pollfd) : ready slot = none ∨ ready slot = some slot.fd := by
  unfold ready
  split <;> simp

theorem ready_of_none {slot' : Pollfd} (h : ready slot = none) (hr : slot'.revents = slot.revents) :
    ready slot' = ready slot := by
  rw [h]
  unfold ready at h ⊢
  rw [hr]
  split at h
  · cases h
  · simp_all

theorem index_update (f : Int → Int) (fd n : Int) :
    index ∘ Function.update f fd n = Function.update (index ∘ f) fd (index n) := Function.comp_update ..

theorem index_of_nonneg {n : Int} (h : 0 ≤ n) : index n = some n.toNat := by
  have hne : n ≠ -1 := by omega
  simp [index, hne]

/-- **The tables agree.** -/
structure Registered (s : State η κ) : Prop where
  node : ∀ fd fdn, s.ev.fdarray fd = some fdn →
    fdn.fd = fd ∧ 0 ≤ fd ∧ fd < s.ev.maxfds ∧ s.ev.kernel.opened fd = true
  free : ∀ fd, s.ev.fdarray fd = none → s.fdeNdx fd = -1
  ndx : ∀ fd, -1 ≤ s.fdeNdx fd
  poll : s.ev.type = .poll → SlotTable owner s.ev.pollfds s.ev.unused (index ∘ s.fdeNdx)
  sysepoll : s.ev.type = .linuxSysepoll → ∀ fd, (s.ev.kernel.interest fd).isSome ↔ s.fdeNdx fd ≠ -1

/-- What the functions of the backends leave as it is. -/
structure Kept (ev ev' : Fdevents η κ) : Prop where
  type : ev'.type = ev.type
  fdarray : ev'.fdarray = ev.fdarray
  maxfds : ev'.maxfds = ev.maxfds
  epollEvents : ev'.epollEvents = ev.epollEvents
  opened : ev'.kernel.opened = ev.kernel.opened

/-- **What operations leave as it is**, that close no other descriptors than those of `closed`. -/
structure Frame (s s' : State η κ) (closed : Int → Prop) : Prop where
  type : s'.ev.type = s.ev.type
  round : s'.round = s.round
  epollEvents : s'.ev.epollEvents = s.ev.epollEvents
  serial : ∀ fd, ¬ closed fd → (s.ev.fdarray fd).isSome → State.serial s'.ev fd = State.serial s.ev fd
  scan : ∀ start fds, (∀ fd ∈ fds, (s.ev.fdarray fd).isSome ∧ ¬ closed fd) → Scan ready s.ev.pollfds start fds →
    Scan ready s'.ev.pollfds start fds

theorem serial_isSome : (State.serial ev fd).isSome = (ev.fdarray fd).isSome := by simp [State.serial]

theorem Frame.refl (s : State η κ) (closed : Int → Prop) : Frame s s closed :=
  ⟨rfl, rfl, rfl, fun _ _ _ => rfl, fun _ _ _ h => h⟩

theorem Frame.trans {closed closed' : Int → Prop} (h : Frame s s' closed) (h' : Frame s' s'' closed') :
    Frame s s'' fun fd => closed fd ∨ closed' fd := by
  have hreg : ∀ fd, ¬ closed fd → (s.ev.fdarray fd).isSome → (s'.ev.fdarray fd).isSome := by
    intro fd hc hfd
    rw [← serial_isSome, h.serial fd hc hfd, serial_isSome]
    exact hfd
  refine ⟨h'.type.trans h.type, h'.round.trans h.round, h'.epollEvents.trans h.epollEvents, fun fd hc hfd => ?_,
    fun start fds hfds hscan => ?_⟩
  · obtain ⟨hc, hc'⟩ := not_or.mp hc
    rw [h'.serial fd hc' (hreg fd hc hfd), h.serial fd hc hfd]
  · refine h'.scan start fds (fun fd hfd => ?_) (h.scan start fds (fun fd hfd => ?_) hscan)
    · obtain ⟨hsome, hc⟩ := hfds fd hfd
      exact ⟨hreg fd (not_or.mp hc).1 hsome, (not_or.mp hc).2⟩
    · obtain ⟨hsome, hc⟩ := hfds fd hfd
      exact ⟨hsome, (not_or.mp hc).1⟩

namespace Registered

theorem ne_of_isSome (h : Registered s) (hfd : (s.ev.fdarray fd).isSome) : fd ≠ -1 := by
  obtain ⟨fdn, hfdn⟩ := Option.isSome_iff_exists.mp hfd
  have hle : 0 ≤ fd := (h.node fd fdn hfdn).2.1
  omega

theorem slot?_eq (h : Registered s) {fdn : Fdnode η κ} (hfd : s.ev.fdarray fd = some fdn) :
    s.ev.slot? fd = some (some fdn) := by
  obtain ⟨-, hle, hlt, -⟩ := h.node fd fdn hfd
  simp [slot?, hle, hlt, hfd]

/-- The element of `pollfds` that the owner of a descriptor knows. -/
theorem slot_of_ndx (h : Registered s) (htype : s.ev.type = .poll) (hne : s.fdeNdx fd ≠ -1) :
    ∃ slot, s.ev.pollfds[(s.fdeNdx fd).toNat]? = some slot ∧ s.ev.pollSlot? (s.fdeNdx fd) = some slot ∧
      slot.fd = fd ∧ fd ≠ -1 := by
  have hle : 0 ≤ s.fdeNdx fd := by
    have := h.ndx fd
    omega
  obtain ⟨slot, hslot, howner⟩ := ((h.poll htype).index_iff fd _).mp (index_of_nonneg hle)
  obtain ⟨hfd, hne⟩ := owner_eq_some howner
  exact ⟨slot, hslot, by simp [pollSlot?, hle, hslot], hfd, hne⟩

end Registered

/-! ## The backends -/

/-- **`fdevent_poll_event_set`** never ends the process: the owner has an element of `pollfds`, or gets one. -/
theorem pollEventSet_spec (h : Registered s) (htype : s.ev.type = .poll) (hfd : (s.ev.fdarray fd).isSome)
    (events : BitVec 32) :
    ∃ r, s.ev.pollEventSet (s.fdeNdx fd) fd events = some r ∧ Kept s.ev r.1 ∧ 0 ≤ r.2 ∧
      SlotTable owner r.1.pollfds r.1.unused (index ∘ Function.update s.fdeNdx fd r.2) ∧
      ∀ start fds, -1 ∉ fds → Scan ready s.ev.pollfds start fds → Scan ready r.1.pollfds start fds := by
  have htable := h.poll htype
  have hfd : fd ≠ -1 := h.ne_of_isSome hfd
  unfold pollEventSet
  by_cases hne : s.fdeNdx fd = -1
  · have hindex : (index ∘ s.fdeNdx) fd = none := by simp [index, hne]
    rw [if_neg (not_not.mpr hne)]
    cases hunused : s.ev.unused with
    | cons k unused =>
      rw [hunused] at htable
      obtain ⟨slot, hslot, hnone⟩ := htable.unowned k List.mem_cons_self
      simp only [hslot]
      refine ⟨_, rfl, ⟨rfl, rfl, rfl, rfl, rfl⟩, Int.natCast_nonneg k, ?_, fun start fds hfds hscan => ?_⟩
      · rw [index_update, index_of_nonneg (Int.natCast_nonneg k)]
        exact htable.reuse (owner_of_fd rfl hfd) hindex
      · apply hscan.set hslot
        -- the stale `revents` show nothing, or the descriptor -1
        rcases ready_cases slot with hready | hready
        · exact .inl (ready_of_none hready rfl)
        · exact .inr ⟨_, hready, by rwa [fd_of_owner_eq_none hnone]⟩
    | nil =>
      rw [hunused] at htable
      refine ⟨_, rfl, ⟨rfl, rfl, rfl, rfl, rfl⟩, Int.natCast_nonneg _, ?_, fun start fds _ hscan => hscan.append⟩
      rw [index_update, index_of_nonneg (Int.natCast_nonneg _)]
      simpa [hunused] using htable.append (owner_of_fd rfl hfd) hindex
  · obtain ⟨slot, hslot, hslot?, hslotfd, -⟩ := h.slot_of_ndx htype hne
    rw [if_pos hne, hslot?]
    simp only [hslotfd, if_true]
    refine ⟨_, rfl, ⟨rfl, rfl, rfl, rfl, rfl⟩, ?_, ?_, fun start fds _ hscan =>
      hscan.set hslot (.inl (by simp [ready, hslotfd]))⟩
    · have := h.ndx fd
      simp only
      omega
    · simp only [Function.update_eq_self]
      exact htable.write hslot (by simp [owner, hslotfd])

/-- **`fdevent_linux_sysepoll_event_set`** never ends the process: the descriptor is on the interest list if its owner has
an `fde_ndx`, and only then. -/
theorem sysepollEventSet_spec (h : Registered s) (htype : s.ev.type = .linuxSysepoll) (hfd : (s.ev.fdarray fd).isSome)
    (events : BitVec 32) :
    ∃ r, s.ev.sysepollEventSet (s.fdeNdx fd) fd events = some r ∧ Kept s.ev r.1 ∧ 0 ≤ r.2 ∧
      (∀ fd', (r.1.kernel.interest fd').isSome ↔ Function.update s.fdeNdx fd r.2 fd' ≠ -1) ∧
      r.1.pollfds = s.ev.pollfds := by
  obtain ⟨fdn, hfdn⟩ := Option.isSome_iff_exists.mp hfd
  obtain ⟨-, hle, -, hopened⟩ := h.node fd fdn hfdn
  have hinterest := h.sysepoll htype
  -- the kernel adds the descriptor, or changes its entry
  let kernel : Kernel :=
    { s.ev.kernel with interest := Function.update s.ev.kernel.interest fd (some (epollEvent fd events).events) }
  have hctl : ∀ fd', (kernel.interest fd').isSome ↔ Function.update s.fdeNdx fd fd fd' ≠ -1 := by
    intro fd'
    by_cases heq : fd' = fd
    · subst heq
      have hne : fd' ≠ -1 := by omega
      simp [kernel, hne]
    · simp [kernel, Function.update_of_ne heq, hinterest fd']
  unfold sysepollEventSet
  refine ⟨({ s.ev with kernel := kernel }, fd), ?_, ⟨rfl, rfl, rfl, rfl, rfl⟩, hle, hctl, rfl⟩
  by_cases hne : s.fdeNdx fd = -1
  · have hnone : s.ev.kernel.interest fd = none := by
      by_contra hsome
      exact (hinterest fd).mp (Option.isSome_iff_ne_none.mpr hsome) hne
    have hadd : s.ev.kernel.epollCtlAdd (epollEvent fd events) = some kernel := if_pos ⟨hopened, hnone⟩
    rw [if_pos hne, hadd]
    rfl
  · have hmod : s.ev.kernel.epollCtlMod (epollEvent fd events) = some kernel := if_pos ((hinterest fd).mpr hne)
    rw [if_neg hne, hmod]
    rfl

/-- **`fdevent_poll_event_del`** never ends the process: it frees the element that the owner knows. -/
theorem pollEventDel_spec (h : Registered s) (htype : s.ev.type = .poll) (fd : Int) :
    ∃ ev', s.ev.pollEventDel (s.fdeNdx fd) fd = some (ev', -1) ∧ Kept s.ev ev' ∧
      SlotTable owner ev'.pollfds ev'.unused (index ∘ Function.update s.fdeNdx fd (-1)) ∧
      ∀ start fds, fd ∉ fds → Scan ready s.ev.pollfds start fds → Scan ready ev'.pollfds start fds := by
  have htable := h.poll htype
  unfold pollEventDel
  by_cases hne : s.fdeNdx fd = -1
  · refine ⟨s.ev, by simp [hne], ⟨rfl, rfl, rfl, rfl, rfl⟩, ?_, fun _ _ _ hscan => hscan⟩
    rwa [← hne, Function.update_eq_self]
  · have hle : 0 ≤ s.fdeNdx fd := by
      have := h.ndx fd
      omega
    obtain ⟨slot, hslot, hslot?, hslotfd, -⟩ := h.slot_of_ndx htype hne
    rw [if_neg (Int.not_lt.mpr hle), hslot?]
    simp only [hslotfd, if_true]
    refine ⟨_, rfl, ⟨rfl, rfl, rfl, rfl, rfl⟩, ?_, fun start fds hfds hscan => ?_⟩
    · rw [index_update]
      exact htable.release (index_of_nonneg hle) rfl
    · apply hscan.set hslot
      rcases ready_cases slot with hready | hready
      · exact .inl (ready_of_none hready rfl)
      · exact .inr ⟨_, hready, by rwa [hslotfd]⟩

/-- **`fdevent_linux_sysepoll_event_del`** never ends the process. -/
theorem sysepollEventDel_spec (h : Registered s) (htype : s.ev.type = .linuxSysepoll) (fd : Int) :
    ∃ ev', s.ev.sysepollEventDel (s.fdeNdx fd) fd = some (ev', -1) ∧ Kept s.ev ev' ∧
      (∀ fd', (ev'.kernel.interest fd').isSome ↔ Function.update s.fdeNdx fd (-1) fd' ≠ -1) ∧
      ev'.pollfds = s.ev.pollfds := by
  have hinterest := h.sysepoll htype
  unfold sysepollEventDel
  by_cases hne : s.fdeNdx fd = -1
  · refine ⟨s.ev, by simp [hne], ⟨rfl, rfl, rfl, rfl, rfl⟩, fun fd' => ?_, rfl⟩
    rw [hinterest fd', ← hne, Function.update_eq_self]
  · have hle : ¬ s.fdeNdx fd < 0 := by
      have := h.ndx fd
      omega
    let kernel : Kernel := { s.ev.kernel with interest := Function.update s.ev.kernel.interest fd none }
    have hdel : s.ev.kernel.epollCtlDel fd = some kernel := if_pos ((hinterest fd).mpr hne)
    rw [if_neg hle, hdel]
    refine ⟨_, rfl, ⟨rfl, rfl, rfl, rfl, rfl⟩, fun fd' => ?_, rfl⟩
    by_cases heq : fd' = fd
    · simp [kernel, heq]
    · simp [kernel, Function.update_of_ne heq, hinterest fd']

/-- **The interest of a registered descriptor can always be stored.** -/
theorem storeEvents_keeps (h : Registered s) (hfd : (s.ev.fdarray fd).isSome) (events : BitVec 32) :
    ∃ r, s.ev.storeEvents (s.fdeNdx fd) fd events = some r ∧ Registered (s.store fd r) ∧
      Frame s (s.store fd r) fun _ => False := by
  obtain ⟨r, hr, hkept, hle, hpoll, hsysepoll, hscan⟩ : ∃ r, s.ev.backendSet (s.fdeNdx fd) fd events = some r ∧
      Kept s.ev r.1 ∧ 0 ≤ r.2 ∧
      (s.ev.type = .poll → SlotTable owner r.1.pollfds r.1.unused (index ∘ Function.update s.fdeNdx fd r.2)) ∧
      (s.ev.type = .linuxSysepoll →
        ∀ fd', (r.1.kernel.interest fd').isSome ↔ Function.update s.fdeNdx fd r.2 fd' ≠ -1) ∧
      ∀ start fds, -1 ∉ fds → Scan ready s.ev.pollfds start fds → Scan ready r.1.pollfds start fds := by
    unfold backendSet
    cases htype : s.ev.type with
    | poll =>
      obtain ⟨r, hr, hkept, hle, htable, hscan⟩ := pollEventSet_spec h htype hfd events
      exact ⟨r, hr, hkept, hle, fun _ => htable, nofun, hscan⟩
    | linuxSysepoll =>
      obtain ⟨r, hr, hkept, hle, hinterest, hpollfds⟩ := sysepollEventSet_spec h htype hfd events
      exact ⟨r, hr, hkept, hle, nofun, fun _ => hinterest, fun start fds _ hscan => hpollfds ▸ hscan⟩
  have hnode : ∀ fd', (r.1.setEvents fd events).fdarray fd' =
      if fd' = fd then (s.ev.fdarray fd).map fun fdn => { fdn with events := events } else s.ev.fdarray fd' := by
    intro fd'
    simp [setEvents, Function.update_apply, hkept.fdarray]
  refine ⟨(r.1.setEvents fd events, r.2), by simp [storeEvents, hr], ⟨?_, ?_, ?_, ?_, ?_⟩, ⟨hkept.type, rfl,
    hkept.epollEvents, fun fd' _ _ => ?_, fun start fds hfds hscan' => hscan start fds ?_ hscan'⟩⟩
  · intro fd' fdn hfdn
    simp only [State.store, hnode] at hfdn
    simp only [State.store, setEvents, hkept.maxfds, hkept.opened]
    split at hfdn
    · next heq =>
      obtain ⟨fdn', hfdn', rfl⟩ := Option.map_eq_some_iff.mp hfdn
      subst heq
      exact h.node fd' fdn' hfdn'
    · exact h.node fd' fdn hfdn
  · intro fd' hnone
    simp only [State.store, hnode] at hnone ⊢
    split at hnone
    · rw [Option.map_eq_none_iff] at hnone
      simp [hnone] at hfd
    · next hne =>
      rw [Function.update_of_ne hne]
      exact h.free fd' hnone
  · intro fd'
    simp only [State.store, Function.update_apply]
    split
    · omega
    · exact h.ndx fd'
  · intro htype
    exact hpoll (hkept.type.symm.trans htype)
  · intro htype
    exact hsysepoll (hkept.type.symm.trans htype)
  · unfold State.serial
    simp only [State.store, hnode]
    split
    · next heq => simp [heq, Function.comp_def]
    · rfl
  · intro hmem
    exact h.ne_of_isSome (hfds _ hmem).1 rfl

/-- **`fdevent_event_del`** never ends the process, for a descriptor that `fdarray` has room for. -/
theorem eventDel_spec (h : Registered s) (hle : 0 ≤ fd) (hlt : fd < s.ev.maxfds) :
    ∃ ev', s.ev.eventDel (s.fdeNdx fd) fd = some (ev', -1) ∧ ev'.type = s.ev.type ∧ ev'.maxfds = s.ev.maxfds ∧
      ev'.epollEvents = s.ev.epollEvents ∧ ev'.kernel.opened = s.ev.kernel.opened ∧
      (∀ fd', fd' ≠ fd → ev'.fdarray fd' = s.ev.fdarray fd') ∧
      (s.ev.type = .poll → SlotTable owner ev'.pollfds ev'.unused (index ∘ Function.update s.fdeNdx fd (-1))) ∧
      (s.ev.type = .linuxSysepoll →
        ∀ fd', (ev'.kernel.interest fd').isSome ↔ Function.update s.fdeNdx fd (-1) fd' ≠ -1) ∧
      ∀ start fds, fd ∉ fds → Scan ready s.ev.pollfds start fds → Scan ready ev'.pollfds start fds := by
  have hne : fd ≠ -1 := by omega
  unfold eventDel
  rw [if_neg hne]
  simp only [slot?, hle, hlt, and_self, if_true]
  cases hfd : s.ev.fdarray fd with
  | none =>
    have hself : Function.update s.fdeNdx fd (-1) = s.fdeNdx := by rw [← h.free fd hfd, Function.update_eq_self]
    rw [hself]
    exact ⟨s.ev, by rw [h.free fd hfd], rfl, rfl, rfl, rfl, fun _ _ => rfl, h.poll, h.sysepoll, fun _ _ _ hscan => hscan⟩
  | some fdn =>
    obtain ⟨ev', hr, hkept, hpoll, hsysepoll, hscan⟩ : ∃ ev', s.ev.backendDel (s.fdeNdx fd) fd = some (ev', -1) ∧
        Kept s.ev ev' ∧
        (s.ev.type = .poll → SlotTable owner ev'.pollfds ev'.unused (index ∘ Function.update s.fdeNdx fd (-1))) ∧
        (s.ev.type = .linuxSysepoll →
          ∀ fd', (ev'.kernel.interest fd').isSome ↔ Function.update s.fdeNdx fd (-1) fd' ≠ -1) ∧
        ∀ start fds, fd ∉ fds → Scan ready s.ev.pollfds start fds → Scan ready ev'.pollfds start fds := by
      unfold backendDel
      cases htype : s.ev.type with
      | poll =>
        obtain ⟨ev', hr, hkept, htable, hscan⟩ := pollEventDel_spec h htype fd
        exact ⟨ev', hr, hkept, fun _ => htable, nofun, hscan⟩
      | linuxSysepoll =>
        obtain ⟨ev', hr, hkept, hinterest, hpollfds⟩ := sysepollEventDel_spec h htype fd
        exact ⟨ev', hr, hkept, nofun, fun _ => hinterest, fun start fds _ hscan => hpollfds ▸ hscan⟩
    refine ⟨ev'.setEvents fd 0, by simp [hr], hkept.type, hkept.maxfds, hkept.epollEvents, hkept.opened,
      fun fd' hfd' => ?_, hpoll, hsysepoll, hscan⟩
    simp [setEvents, Function.update_of_ne hfd', hkept.fdarray]

/-! ## The operations -/

theorem store_self (s : State η κ) (fd : Int) : s.store fd (s.ev, s.fdeNdx fd) = s := by
  simp [State.store]

theorem fdarray_of_node? {fdn : Fdnode η κ} (h : ev.node? fd = some fdn) : ev.fdarray fd = some fdn := by
  obtain ⟨-, h⟩ := Option.ite_none_right_eq_some.mp (Option.join_eq_some_iff.mp h)
  exact Option.some_inj.mp h

theorem interest_keeps (h : Registered s) {f : Fdnode η κ → Option (Fdevents η κ × Int)}
    (hf : ∀ fdn, f fdn = some (s.ev, s.fdeNdx fd) ∨ ∃ events, f fdn = s.ev.storeEvents (s.fdeNdx fd) fd events)
    (hs : (if fd = -1 then some (s.ev, s.fdeNdx fd) else (s.ev.node? fd).bind f).map (s.store fd) = some s') :
    Registered s' ∧ Frame s s' fun _ => False := by
  have hself : s.store fd (s.ev, s.fdeNdx fd) = s' → Registered s' ∧ Frame s s' fun _ => False := by
    rw [store_self]
    rintro rfl
    exact ⟨h, Frame.refl s _⟩
  obtain ⟨r, hr, hs⟩ := Option.map_eq_some_iff.mp hs
  split at hr
  · cases hr
    exact hself hs
  · obtain ⟨fdn, hfdn, hr⟩ := Option.bind_eq_some_iff.mp hr
    rcases hf fdn with hfdn' | ⟨events, hfdn'⟩
    · cases hfdn'.symm.trans hr
      exact hself hs
    · have hsome : (s.ev.fdarray fd).isSome := by rw [fdarray_of_node? hfdn, Option.isSome_some]
      obtain ⟨r', hr', hkeeps⟩ := storeEvents_keeps h hsome events
      cases hr'.symm.trans (hfdn'.symm.trans hr)
      exact hs ▸ hkeeps

theorem opened_keeps (h : Registered s) (hs : s.apply (.opened fd) = some s') :
    Registered s' ∧ Frame s s' fun _ => False := by
  obtain ⟨-, hs⟩ := Option.ite_none_right_eq_some.mp hs
  cases hs
  refine ⟨⟨fun fd' fdn hfdn => ?_, h.free, h.ndx, h.poll, h.sysepoll⟩,
    ⟨rfl, rfl, rfl, fun _ _ _ => rfl, fun _ _ _ hscan => hscan⟩⟩
  obtain ⟨hfd, hle, hlt, hopened⟩ := h.node fd' fdn hfdn
  refine ⟨hfd, hle, hlt, ?_⟩
  simp only [Function.update_apply]
  split
  · rfl
  · exact hopened

theorem register_keeps (h : Registered s) {handler : η} {ctx : κ}
    (hs : s.apply (.register fd handler ctx) = some s') : Registered s' ∧ Frame s s' fun _ => False := by
  obtain ⟨⟨hopened, hfree⟩, hs⟩ := Option.ite_none_right_eq_some.mp hs
  obtain ⟨ev, hev, rfl⟩ := Option.map_eq_some_iff.mp hs
  obtain ⟨⟨hle, hlt⟩, hev⟩ := Option.ite_none_right_eq_some.mp hev
  cases hev
  have hnone : s.ev.fdarray fd = none := Option.isNone_iff_eq_none.mp hfree
  have hself : Function.update s.fdeNdx fd (-1) = s.fdeNdx := by rw [← h.free fd hnone, Function.update_eq_self]
  refine ⟨⟨fun fd' fdn hfdn => ?_, fun fd' hnone' => ?_, ?_, ?_, ?_⟩, ⟨rfl, rfl, rfl, fun fd' _ hfd' => ?_,
    fun _ _ _ hscan => hscan⟩⟩
  · simp only [State.store, Function.update_apply] at hfdn
    split at hfdn
    · next heq =>
      cases hfdn
      subst heq
      exact ⟨rfl, hle, hlt, hopened⟩
    · exact h.node fd' fdn hfdn
  · simp only [State.store, hself]
    simp only [State.store, Function.update_apply] at hnone'
    split at hnone'
    · cases hnone'
    · exact h.free fd' hnone'
  · simp only [State.store, hself]
    exact h.ndx
  · simp only [State.store, hself]
    exact h.poll
  · simp only [State.store, hself]
    exact h.sysepoll
  · have hne : fd' ≠ fd := by
      rintro rfl
      simp [hnone] at hfd'
    simp [State.serial, State.store, Function.update_of_ne hne]

theorem lt_maxfds_of_eventDel {n : Int} {r : Fdevents η κ × Int} (hle : 0 ≤ fd) (h : ev.eventDel n fd = some r) :
    fd < ev.maxfds := by
  have hne : fd ≠ -1 := by omega
  unfold eventDel slot? at h
  rw [if_neg hne] at h
  by_contra hlt
  simp [hlt] at h

theorem close_keeps (h : Registered s) (hs : s.apply (.close fd) = some s') :
    Registered s' ∧ Frame s s' fun fd' => fd' = fd := by
  obtain ⟨-, hs⟩ := Option.ite_none_right_eq_some.mp hs
  obtain ⟨r, hr, hs⟩ := Option.bind_eq_some_iff.mp hs
  obtain ⟨ev, hev, rfl⟩ := Option.map_eq_some_iff.mp hs
  obtain ⟨⟨hle, hlt⟩, hev⟩ := Option.ite_none_right_eq_some.mp hev
  cases hev
  have hlt : fd < s.ev.maxfds := lt_maxfds_of_eventDel hle hr
  obtain ⟨ev', hr', htype, hmaxfds, hevents, hopened, hother, hpoll, hsysepoll, hscan⟩ := eventDel_spec h hle hlt
  cases hr'.symm.trans hr
  refine ⟨⟨fun fd' fdn hfdn => ?_, fun fd' hnone => ?_, fun fd' => ?_, fun ht => hpoll (htype.symm.trans ht),
    fun ht fd' => ?_⟩, ⟨htype, rfl, hevents, fun fd' hc _ => ?_, fun start fds hfds hscan' => ?_⟩⟩
  · simp only [State.store, Function.update_apply] at hfdn
    split at hfdn
    · cases hfdn
    · next hne =>
      rw [hother fd' hne] at hfdn
      obtain ⟨hfd, hle, hlt, hop⟩ := h.node fd' fdn hfdn
      refine ⟨hfd, hle, by simpa [State.store, hmaxfds] using hlt, ?_⟩
      simp [State.store, Kernel.close, Function.update_of_ne hne, hopened, hop]
  · simp only [State.store, Function.update_apply] at hnone ⊢
    split
    · rfl
    · next hne =>
      rw [if_neg hne, hother fd' hne] at hnone
      exact h.free fd' hnone
  · simp only [State.store, Function.update_apply]
    split
    · exact Int.le_refl _
    · exact h.ndx fd'
  · simp only [State.store, Kernel.close]
    by_cases heq : fd' = fd
    · simp [heq]
    · rw [Function.update_of_ne heq, hsysepoll (htype.symm.trans ht)]
  · simp [State.serial, State.store, Function.update_of_ne hc, hother fd' hc]
  · apply hscan start fds (fun hmem => (hfds fd hmem).2 rfl) hscan'

/-- **One operation.** -/
theorem apply_keeps (h : Registered s) (op : Op η κ) (hs : s.apply op = some s') :
    Registered s' ∧ Frame s s' fun fd => op = .close fd := by
  have hweaken : Frame s s' (fun _ => False) → Frame s s' fun fd => op = .close fd := fun hframe =>
    ⟨hframe.type, hframe.round, hframe.epollEvents, fun fd _ hfd => hframe.serial fd not_false hfd,
      fun start fds hfds => hframe.scan start fds fun fd hfd => ⟨(hfds fd hfd).1, not_false⟩⟩
  cases op with
  | opened fd => exact (opened_keeps h hs).imp id hweaken
  | register fd handler ctx => exact (register_keeps h hs).imp id hweaken
  | set fd events =>
    refine (interest_keeps h (fun fdn => ?_) hs).imp id hweaken
    split
    · exact .inl rfl
    · exact .inr ⟨_, rfl⟩
  | add fd event =>
    refine (interest_keeps h (fun fdn => ?_) hs).imp id hweaken
    split
    · exact .inl rfl
    · exact .inr ⟨_, rfl⟩
  | clr fd event =>
    refine (interest_keeps h (fun fdn => ?_) hs).imp id hweaken
    split
    · exact .inl rfl
    · exact .inr ⟨_, rfl⟩
  | close fd =>
    obtain ⟨hreg, hframe⟩ := close_keeps h hs
    refine ⟨hreg, hframe.type, hframe.round, hframe.epollEvents, fun fd' hc hfd => ?_, fun start fds hfds => ?_⟩
    · exact hframe.serial fd' (fun heq => hc (heq ▸ rfl)) hfd
    · exact hframe.scan start fds fun fd' hfd => ⟨(hfds fd' hfd).1, fun heq => (hfds fd' hfd).2 (heq ▸ rfl)⟩

/-- **Any operations** of a handler, or of the other code of the main loop. -/
theorem run_keeps_tables (h : Registered s) (ops : List (Op η κ)) (hs : Run.run State.apply s ops = some s') :
    Registered s' ∧ Frame s s' fun fd => .close fd ∈ ops := by
  induction ops generalizing s with
  | nil =>
    cases hs
    exact ⟨h, Frame.refl _ _⟩
  | cons op ops ih =>
    rw [Run.run_cons] at hs
    obtain ⟨s₁, hs₁, hs⟩ := Option.bind_eq_some_iff.mp hs
    obtain ⟨hreg₁, hframe₁⟩ := apply_keeps h op hs₁
    obtain ⟨hreg, hframe⟩ := ih hreg₁ hs
    refine ⟨hreg, ?_⟩
    simpa only [List.mem_cons, eq_comm] using hframe₁.trans hframe

end Lighttpd.Event
