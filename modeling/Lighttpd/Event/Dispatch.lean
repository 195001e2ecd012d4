import Lighttpd.Event.Tables

/-!
# The loop calls the handlers of registered descriptors

- `LeavesPending`: no handler closes another descriptor that has been reported and waits for its handler;
- `Round.Sound`: the invariant of a round: what waits is registered as it was when it was reported, and the loop comes to
  it next;
- `dispatch_safe`: every run whose handlers leave what waits;
- `dispatch_unsafe`: a handler of `mod_cgi` closes both descriptors of its request.
-/

namespace Lighttpd.Event

open Fdevents

variable {η κ : Type} {s s' : State η κ} {r : Round}

/-- **The handler closes no other descriptor that waits for its handler.** The first that waits is the one whose handler is
called. -/
def LeavesPending (s : State η κ) : Step η κ → Prop
  | .dispatch ops => ∀ r, s.round = some r → ∀ fd, .close fd ∈ ops → fd ∉ r.pending.tail.map Prod.fst
  | _ => True

/-- **The invariant of a round.** -/
structure Round.Sound (s : State η κ) (r : Round) : Prop where
  pos : 0 < r.n
  le : r.n ≤ r.reported.length
  live : ∀ p ∈ r.pending, (s.ev.fdarray p.1).isSome ∧ p.2 = State.serial s.ev p.1
  poll : s.ev.type = .poll → Scan ready s.ev.pollfds (nextIndex r.fdNdx) (r.pending.map Prod.fst)
  sysepoll : s.ev.type = .linuxSysepoll →
    Scan (fun e => some e.fd) s.ev.epollEvents (nextIndex r.fdNdx) (r.pending.map Prod.fst)

/-- **The invariant of the main loop.** -/
structure Sound (s : State η κ) : Prop where
  tables : Registered s
  round : ∀ r, s.round = some r → r.Sound s

theorem sound_init (type : HandlerType) (maxfds : Nat) (fresh : Nat → BitVec 16) (opened : Int → Bool) :
    Sound (State.init type maxfds fresh opened : State η κ) := by
  refine ⟨⟨nofun, fun _ _ => rfl, fun _ => Int.le_refl _, fun _ => ?_, fun _ fd => ?_⟩, nofun⟩
  · exact SlotTable.nil owner
  · simp [State.init, Fdevents.init]

/-! ## What waits -/

theorem Round.pending_cons (hpos : 0 < r.n) (hle : r.n ≤ r.reported.length) (fdNdx : Int) :
    ∃ p, p ∈ r.reported ∧ r.pending = p :: Round.pending { r with n := r.n - 1, fdNdx := fdNdx } := by
  have hlt : r.reported.length - r.n < r.reported.length := by omega
  have hnext : r.reported.length - (r.n - 1) = r.reported.length - r.n + 1 := by omega
  refine ⟨r.reported[r.reported.length - r.n], List.getElem_mem hlt, ?_⟩
  unfold Round.pending
  rw [hnext, List.drop_eq_getElem_cons hlt]

theorem nextIndex_natCast (k : ℕ) : nextIndex (k : Int) = k + 1 := by
  have hk : ¬ (k : Int) < 0 := by omega
  simp [nextIndex, hk]

/-- **The loop comes to the descriptor that waits next**, and the rest waits behind it. -/
theorem Round.Sound.next (hr : r.Sound s) : ∃ fd fdNdx,
    (fd, State.serial s.ev fd) ∈ r.reported ∧ (s.ev.fdarray fd).isSome ∧
    s.ev.eventNextFdndx r.fdNdx = fdNdx ∧ fdNdx ≠ -1 ∧ s.ev.eventGetFd fdNdx = some fd ∧
    r.pending.tail = Round.pending { r with n := r.n - 1, fdNdx := fdNdx } ∧
    (s.ev.type = .poll → Scan ready s.ev.pollfds (nextIndex fdNdx) (r.pending.tail.map Prod.fst)) ∧
    (s.ev.type = .linuxSysepoll →
      Scan (fun e => some e.fd) s.ev.epollEvents (nextIndex fdNdx) (r.pending.tail.map Prod.fst)) := by
  obtain ⟨⟨fd, o⟩, hmem, hcons⟩ := Round.pending_cons hr.pos hr.le 0
  have hlive := hr.live (fd, o) (by simp [hcons])
  obtain ⟨hsome, rfl⟩ : (s.ev.fdarray fd).isSome ∧ o = State.serial s.ev fd := hlive
  have htail : r.pending.tail.map Prod.fst = (Round.pending { r with n := r.n - 1, fdNdx := 0 }).map Prod.fst := by
    rw [hcons, List.tail_cons]
  have htail' : r.pending.tail = Round.pending { r with n := r.n - 1, fdNdx := 0 } := by rw [hcons, List.tail_cons]
  refine ⟨fd, ?_⟩
  unfold eventNextFdndx eventGetFd
  cases htype : s.ev.type with
  | poll =>
    have hscan := hr.poll htype
    rw [hcons, List.map_cons] at hscan
    have hp : ∀ slot : Pollfd, decide (slot.revents ≠ 0) = (ready slot).isSome := fun slot => (ready_isSome slot).symm
    obtain ⟨i, slot, hfind, hslot, hready, hrest⟩ := hscan.next hp
    obtain ⟨-, hfd⟩ := ready_eq_some hready
    refine ⟨↑(nextIndex r.fdNdx + i), hmem, hsome, ?_, by omega, ?_, htail', fun _ => ?_, by simp⟩
    · simp only [pollEventNextFdndx, hfind]
    · simp only [pollEventGetFd, pollSlot?, Int.natCast_nonneg, if_true, Int.toNat_natCast, hslot, Option.map_some, hfd]
    · rw [nextIndex_natCast, htail]
      exact hrest
  | linuxSysepoll =>
    have hscan := hr.sysepoll htype
    rw [hcons, List.map_cons] at hscan
    have hp : ∀ e : EpollEvent, true = (some e.fd).isSome := fun _ => rfl
    obtain ⟨i, e, hfind, he, hfd, hrest⟩ := hscan.next hp
    cases hfd
    have hi : i = 0 := by
      cases hrest' : s.ev.epollEvents.drop (nextIndex r.fdNdx) with
      | nil => simp [hrest'] at hfind
      | cons e' rest => simpa [hrest', List.findIdx?_cons, eq_comm] using hfind
    subst hi
    have hnonneg : ¬ (nextIndex r.fdNdx : Int) < 0 := by omega
    refine ⟨nextIndex r.fdNdx, hmem, hsome, rfl, by omega, ?_, htail', by simp, fun _ => ?_⟩
    · simp only [sysepollEventGetFd, hnonneg, if_false, Int.toNat_natCast]
      simpa using congrArg (Option.map EpollEvent.fd) he
    · rw [nextIndex_natCast, htail]
      exact hrest

/-- **In a sound state the call is safe.** -/
theorem Sound.safe (h : Sound s) : s.Safe := by
  intro r hr fd hfd
  obtain ⟨fd', fdNdx, hmem, hsome, hnext, hne, hget, -⟩ := (h.round r hr).next
  obtain ⟨fdn, hfdn⟩ := Option.isSome_iff_exists.mp hsome
  have hslot := h.tables.slot?_eq hfdn
  have heq : fd' = fd := by
    unfold State.nextFd at hfd
    simp only [hnext, hne, if_false] at hfd
    obtain ⟨revents, -, hfd⟩ := Option.bind_eq_some_iff.mp hfd
    exact Option.some_inj.mp (hget.symm.trans hfd)
  subst heq
  have hown := (h.tables.node fd' fdn hfdn).1
  refine ⟨fdn, hslot, ?_, ?_, ?_⟩
  · simpa [State.serial, hfdn] using hmem
  · simp [getHandler, node?, hslot, hown]
  · simp [getContext, node?, hslot, hown]

/-! ## Steps -/

/-- **A turn of the loop** whose handler closes nothing that waits. -/
theorem turn_keeps (h : Sound s) (hr : s.round = some r) {ops : List (Op η κ)}
    (hok : LeavesPending s (.dispatch ops)) (hs : s.turn r ops = some s') : Sound s' := by
  have hround := h.round r hr
  obtain ⟨fd, fdNdx, -, -, hnext, hne, hget, htail, hpoll, hsysepoll⟩ := hround.next
  unfold State.turn at hs
  simp only [hnext, hne, if_false] at hs
  obtain ⟨revents, -, hs⟩ := Option.bind_eq_some_iff.mp hs
  obtain ⟨fd', -, hs⟩ := Option.bind_eq_some_iff.mp hs
  obtain ⟨handler, -, hs⟩ := Option.bind_eq_some_iff.mp hs
  obtain ⟨context, -, hs⟩ := Option.bind_eq_some_iff.mp hs
  obtain ⟨s₁, hs₁, rfl⟩ := Option.map_eq_some_iff.mp hs
  obtain ⟨htables, hframe⟩ := run_keeps_tables h.tables ops hs₁
  refine ⟨⟨htables.node, htables.free, htables.ndx, htables.poll, htables.sysepoll⟩, fun r' hr' => ?_⟩
  obtain ⟨hpos, hr'⟩ := Option.ite_none_right_eq_some.mp hr'
  cases hr'
  have hwaits : ∀ p ∈ r.pending.tail, (s.ev.fdarray p.1).isSome ∧ p.2 = State.serial s.ev p.1 := fun p hp =>
    hround.live p (List.mem_of_mem_tail hp)
  have hleft : ∀ p ∈ r.pending.tail, .close p.1 ∉ ops := fun p hp hclose =>
    hok r hr p.1 hclose (List.mem_map_of_mem hp)
  have hfds : ∀ fd ∈ r.pending.tail.map Prod.fst, (s.ev.fdarray fd).isSome ∧ .close fd ∉ ops := by
    intro fd hfd
    obtain ⟨p, hp, rfl⟩ := List.mem_map.mp hfd
    exact ⟨(hwaits p hp).1, hleft p hp⟩
  have hle := hround.le
  refine ⟨hpos, by simp only; omega, fun p hp => ?_, fun htype => ?_, fun htype => ?_⟩
  · rw [← htail] at hp
    obtain ⟨hsome, hserial⟩ := hwaits p hp
    have hsame := hframe.serial p.1 (hleft p hp) hsome
    refine ⟨?_, hserial.trans hsame.symm⟩
    rw [← serial_isSome, hsame, serial_isSome]
    exact hsome
  · rw [← htail]
    exact hframe.scan _ _ hfds (hpoll (hframe.type.symm.trans htype))
  · rw [← htail]
    simp only [hframe.epollEvents]
    exact hsysepoll (hframe.type.symm.trans htype)

theorem isSome_of_ndx (h : Registered s) {fd : Int} (hne : s.fdeNdx fd ≠ -1) : (s.ev.fdarray fd).isSome := by
  by_contra hnone
  exact hne (h.free fd (by simpa using hnone))

/-! ## Polling -/

theorem zipWith_eq_map (slots : List Pollfd) (revents : List (BitVec 16)) :
    List.zipWith (fun slot r => { slot with revents := r }) slots revents =
      (slots.zip revents).map fun p => { p.1 with revents := p.2 } :=
  (List.map_zip_eq_zipWith (f := fun p : Pollfd × BitVec 16 => { p.1 with revents := p.2 })).symm

variable {revents : List (BitVec 16)}

theorem map_owner_zipWith {slots : List Pollfd} (h : revents.length = slots.length) :
    (List.zipWith (fun slot r => { slot with revents := r }) slots revents).map owner = slots.map owner := by
  have hfst : (slots.zip revents).map Prod.fst = slots := List.map_fst_zip (Nat.le_of_eq h.symm)
  conv_rhs => rw [← hfst]
  rw [zipWith_eq_map, List.map_map, List.map_map]
  rfl

theorem map_revents_zipWith {slots : List Pollfd} (h : revents.length = slots.length) :
    (List.zipWith (fun slot r => { slot with revents := r }) slots revents).map Pollfd.revents = revents := by
  have hsnd : (slots.zip revents).map Prod.snd = revents := List.map_snd_zip (Nat.le_of_eq h)
  conv_rhs => rw [← hsnd]
  rw [zipWith_eq_map, List.map_map]
  rfl

theorem filter_ready (slots : List Pollfd) :
    (slots.filter fun slot => slot.revents ≠ 0).map Pollfd.fd = slots.filterMap ready := by
  induction slots with
  | nil => rfl
  | cons slot slots ih =>
    rw [List.filterMap_cons, ← ih]
    by_cases hr : slot.revents = 0#16 <;> simp [ready, hr]

/-- The answer of `poll` reports as many descriptors as it counts, all of them registered. -/
theorem poll_reports (h : Registered s) (htype : s.ev.type = .poll) {ev : Fdevents η κ}
    {n : Nat} (hpoll : s.ev.pollPoll revents = some (ev, n)) :
    Registered { s with ev := ev } ∧ ev.type = .poll ∧ ev.fdarray = s.ev.fdarray ∧
      (ev.pollfds.filterMap ready).length = n ∧ State.readyFds ev n = ev.pollfds.filterMap ready ∧
      ∀ fd ∈ ev.pollfds.filterMap ready, (s.ev.fdarray fd).isSome := by
  obtain ⟨⟨hlen, hreports⟩, hpoll⟩ := Option.ite_none_right_eq_some.mp hpoll
  cases hpoll
  have htable := (h.poll htype).of_map_owner (map_owner_zipWith hlen)
  refine ⟨⟨h.node, h.free, h.ndx, fun _ => htable, h.sysepoll⟩, htype, rfl, ?_, ?_, fun fd hfd => ?_⟩
  · rw [← filter_ready, List.length_map, ← List.countP_eq_length_filter]
    conv_rhs => rw [← map_revents_zipWith hlen, List.countP_map]
    rfl
  · simp only [State.readyFds, htype]
    exact filter_ready _
  · obtain ⟨slot, hslot, hready⟩ := List.mem_filterMap.mp hfd
    obtain ⟨hne, rfl⟩ := ready_eq_some hready
    -- a ready element has a descriptor, and the table knows it
    have hfd : slot.fd ≠ -1 := by
      intro hneg
      rw [zipWith_eq_map] at hslot
      obtain ⟨p, hp, rfl⟩ := List.mem_map.mp hslot
      exact hne ((hreports p hp).1 (by rw [hneg]; decide))
    obtain ⟨i, hi⟩ := List.mem_iff_getElem?.mp hslot
    have hindex := (htable.index_iff slot.fd i).mpr ⟨slot, hi, owner_of_fd rfl hfd⟩
    apply isSome_of_ndx h
    intro hnone
    simp [index, hnone] at hindex

/-- The answer of `epoll_wait` reports descriptors of the interest list, all of them registered. -/
theorem epollWait_reports (h : Registered s) (htype : s.ev.type = .linuxSysepoll) {events : List EpollEvent}
    {ev : Fdevents η κ} {n : Nat} (hpoll : s.ev.sysepollPoll events = some (ev, n)) :
    Registered { s with ev := ev } ∧ ev.type = .linuxSysepoll ∧ ev.fdarray = s.ev.fdarray ∧ events.length = n ∧
      State.readyFds ev n = events.map EpollEvent.fd ∧ (∃ later, ev.epollEvents = events ++ later) ∧
      ∀ fd ∈ events.map EpollEvent.fd, (s.ev.fdarray fd).isSome := by
  obtain ⟨⟨-, -, hinterest⟩, hpoll⟩ := Option.ite_none_right_eq_some.mp hpoll
  cases hpoll
  refine ⟨⟨h.node, h.free, h.ndx, h.poll, h.sysepoll⟩, htype, rfl, rfl, ?_, ⟨_, rfl⟩, fun fd hfd => ?_⟩
  · simp [State.readyFds, htype]
  · obtain ⟨e, he, rfl⟩ := List.mem_map.mp hfd
    exact isSome_of_ndx h ((h.sysepoll htype e.fd).mp (hinterest e he))

/-- **A poll begins a sound round.** -/
theorem poll_keeps (h : Sound s) {answer : Answer} (hs : State.step s (.poll answer) = some s') : Sound s' := by
  obtain ⟨-, hs⟩ := Option.ite_none_right_eq_some.mp hs
  obtain ⟨⟨ev, n⟩, hpoll, rfl⟩ := Option.map_eq_some_iff.mp hs
  have hpending : ∀ reported : List (Int × Option Nat), reported.length = n →
      Round.pending { n := n, fdNdx := -1, reported := reported } = reported := by
    rintro reported rfl
    simp [Round.pending]
  have hlive : ev.fdarray = s.ev.fdarray → ∀ fds : List Int, (∀ fd ∈ fds, (s.ev.fdarray fd).isSome) →
      ∀ p ∈ fds.map fun fd => (fd, State.serial ev fd),
        (ev.fdarray p.1).isSome ∧ p.2 = State.serial ev p.1 := by
    intro harray fds hfds p hp
    obtain ⟨fd, hfd, rfl⟩ := List.mem_map.mp hp
    exact ⟨harray ▸ hfds fd hfd, rfl⟩
  have hfst : ∀ fds : List Int, (fds.map fun fd => (fd, State.serial ev fd)).map Prod.fst = fds := by
    intro fds
    simp [Function.comp_def]
  cases htype : s.ev.type with
  | poll =>
    cases answer with
    | epollWait events => simp [Fdevents.poll, htype] at hpoll
    | poll revents =>
      have hpoll : s.ev.pollPoll revents = some (ev, n) := by simpa only [Fdevents.poll, htype] using hpoll
      obtain ⟨htables, htype', harray, hlen, hready, hsome⟩ := poll_reports h.tables htype hpoll
      refine ⟨⟨htables.node, htables.free, htables.ndx, htables.poll, htables.sysepoll⟩, fun r hr => ?_⟩
      obtain ⟨hpos, hr⟩ := Option.ite_none_right_eq_some.mp hr
      cases hr
      simp only [hready]
      have hall := hpending ((ev.pollfds.filterMap ready).map fun fd => (fd, State.serial ev fd)) (by simp [hlen])
      refine ⟨hpos, by simp [hlen], ?_, fun _ => ?_, fun ht => nomatch htype'.symm.trans ht⟩
      · rw [hall]
        exact hlive harray _ hsome
      · rw [hall, hfst]
        exact Scan.all ready ev.pollfds
  | linuxSysepoll =>
    cases answer with
    | poll revents => simp [Fdevents.poll, htype] at hpoll
    | epollWait events =>
      have hpoll : s.ev.sysepollPoll events = some (ev, n) := by simpa only [Fdevents.poll, htype] using hpoll
      obtain ⟨htables, htype', harray, hlen, hready, ⟨later, hevents⟩, hsome⟩ := epollWait_reports h.tables htype hpoll
      refine ⟨⟨htables.node, htables.free, htables.ndx, htables.poll, htables.sysepoll⟩, fun r hr => ?_⟩
      obtain ⟨hpos, hr⟩ := Option.ite_none_right_eq_some.mp hr
      cases hr
      simp only [hready]
      have hall := hpending ((events.map EpollEvent.fd).map fun fd => (fd, State.serial ev fd)) (by simp [hlen])
      have hne : ev.type ≠ .poll := by simp [htype']
      refine ⟨hpos, by simp [hlen], ?_, fun ht => absurd ht hne, fun _ => ?_⟩
      · rw [hall]
        exact hlive harray _ hsome
      · rw [hall, hfst]
        exact ⟨[], events, later, hevents, rfl, by simp [List.filterMap_eq_map']⟩

/-- **One step** of the main loop. -/
theorem step_sound (s : State η κ) (op : Step η κ) (s' : State η κ) (h : Sound s) (hok : LeavesPending s op)
    (hs : State.step s op = some s') : Sound s' := by
  cases op with
  | work ops =>
    obtain ⟨hround, hs⟩ := Option.ite_none_right_eq_some.mp hs
    obtain ⟨htables, hframe⟩ := run_keeps_tables h.tables ops hs
    refine ⟨htables, fun r hr => ?_⟩
    rw [hframe.round] at hr
    simp [hr] at hround
  | poll answer => exact poll_keeps h hs
  | dispatch ops =>
    obtain ⟨r, hr, hs⟩ := Option.bind_eq_some_iff.mp hs
    exact turn_keeps h hr hok hs

/-! ## The handlers of `mod_cgi` -/

/-! ## The result -/

inductive CgiHandler where
  | cgiHandleFdevent
  | cgiHandleFdeventSend
  deriving DecidableEq, Repr

/-- A request to a CGI program: the pipe to it is registered first (`cgi_write_request`), the pipe from it then. -/
def cgiWork : Step CgiHandler HandlerCtx :=
  let hctx := { fd := 5, fdtocgi := 6 }
  .work [.opened 6, .opened 5, .register 6 .cgiHandleFdeventSend hctx, .set 6 FDEVENT_OUT,
    .register 5 .cgiHandleFdevent hctx, .set 5 FDEVENT_IN]

/-- The program has ended: it has read no more of the request body, and its response can be read. -/
def cgiEnded : HandlerType → Answer
  | .poll => .poll [POLLOUT ||| POLLERR, POLLIN ||| POLLHUP]
  | .linuxSysepoll => .epollWait [⟨EPOLLOUT ||| EPOLLERR, 6⟩, ⟨EPOLLIN ||| EPOLLHUP, 5⟩]

def cgiTurn : Step CgiHandler HandlerCtx :=
  .dispatch (cgiHandleFdeventSend { fd := 5, fdtocgi := 6 } (FDEVENT_OUT ||| FDEVENT_ERR) [] .sent)

/-- Both pipes are ready, and the first handler has sent the request body and closes its own. -/
def cgiSent : List (Step CgiHandler HandlerCtx) :=
  [cgiWork, .poll (.poll [POLLOUT, POLLIN]),
    .dispatch (cgiHandleFdeventSend { fd := 5, fdtocgi := 6 } FDEVENT_OUT [] .sent)]

/-- **The loop calls the handlers of registered descriptors**, in every run whose handlers leave what waits. -/
theorem dispatch_safe (type : HandlerType) (maxfds : Nat) (fresh : Nat → BitVec 16) (opened : Int → Bool)
    (steps : List (Step η κ)) (s : State η κ)
    (hok : Run.Meets State.step LeavesPending (State.init type maxfds fresh opened) steps)
    (hrun : Run.run State.step (State.init type maxfds fresh opened) steps = some s) : s.Safe :=
  (Run.run_keeps step_sound (sound_init type maxfds fresh opened) hok hrun).safe

theorem dispatch_safe_sample : ∃ s, Run.run State.step (State.init .poll 16 (fun _ => 0) fun _ => false) cgiSent = some s ∧
    s.round.isSome ∧ s.Safe := by
  refine ⟨_, rfl, rfl, dispatch_safe .poll 16 (fun _ => 0) (fun _ => false) cgiSent _ ?_ rfl⟩
  have hpending : (Run.run State.step (State.init .poll 16 (fun _ => 0) fun _ => false) (cgiSent.take 2)).map
      (fun s => s.round.map fun r => r.pending.tail.map Prod.fst) = some (some [5]) := rfl
  refine ⟨trivial, fun s₁ h₁ => ⟨trivial, fun s₂ h₂ => ⟨fun r hr fd hclose => ?_, fun _ _ => trivial⟩⟩⟩
  have hrun : Run.run State.step (State.init .poll 16 (fun _ => 0) fun _ => false) (cgiSent.take 2) = some s₂ := by
    simp only [cgiSent, List.take_succ_cons, List.take_zero, Run.run_cons, h₁, Option.bind_some, h₂]
    rfl
  rw [hrun] at hpending
  simp only [Option.map_some, hr, Option.some.injEq] at hpending
  rw [hpending]
  cases List.mem_singleton.mp hclose
  decide

/-- **The loop looks up the handler of descriptor -1**, or of a descriptor that is not registered. -/
theorem dispatch_unsafe :
    (∃ s, Run.run State.step (State.init .poll 16 (fun _ => 0) fun _ => false)
      [cgiWork, .poll (cgiEnded .poll), cgiTurn] = some s ∧ ¬ s.Safe) ∧
    ∃ s, Run.run State.step (State.init .linuxSysepoll 16 (fun _ => 0) fun _ => false)
      [cgiWork, .poll (cgiEnded .linuxSysepoll), cgiTurn] = some s ∧ ¬ s.Safe := by
  refine ⟨⟨_, rfl, fun h => ?_⟩, ⟨_, rfl, fun h => ?_⟩⟩
  · obtain ⟨fdn, hfdn, -⟩ := h _ rfl (-1) rfl
    cases hfdn
  · obtain ⟨fdn, hfdn, -⟩ := h _ rfl 5 rfl
    cases hfdn

end Lighttpd.Event
