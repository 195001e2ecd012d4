import Mathlib.Logic.Function.Basic

/-!
# Events on descriptors

`fdevents` and the functions of `fdevent.c`, with the two backends `fdevent_poll.c` and `fdevent_linux_sysepoll.c`.
A function is `none` where the process ends: at `SEGFAULT()`, or with an access outside of an array or through a null
pointer.
-/

namespace Lighttpd.Event

def FDEVENT_IN : BitVec 32 := 1
def FDEVENT_PRI : BitVec 32 := 2
def FDEVENT_OUT : BitVec 32 := 4
def FDEVENT_ERR : BitVec 32 := 8
def FDEVENT_HUP : BitVec 32 := 16
def FDEVENT_NVAL : BitVec 32 := 32

def POLLIN : BitVec 16 := 1
def POLLPRI : BitVec 16 := 2
def POLLOUT : BitVec 16 := 4
def POLLERR : BitVec 16 := 8
def POLLHUP : BitVec 16 := 16
def POLLNVAL : BitVec 16 := 32

def EPOLLIN : BitVec 32 := 1
def EPOLLPRI : BitVec 32 := 2
def EPOLLOUT : BitVec 32 := 4
def EPOLLERR : BitVec 32 := 8
def EPOLLHUP : BitVec 32 := 16

/-- `fdevent_handler_t`, the two backends of Linux. -/
inductive HandlerType where
  | poll
  | linuxSysepoll
  deriving DecidableEq, Repr

/-- `fdnode`. A node is allocated for each registration; `serial` tells one allocation from another. -/
structure Fdnode (η κ : Type) where
  handler : η
  ctx : κ
  fd : Int
  events : BitVec 32
  serial : Nat
  deriving DecidableEq, Repr

structure Pollfd where
  fd : Int
  events : BitVec 16
  revents : BitVec 16
  deriving DecidableEq, Repr

/-- `struct epoll_event`, with `data.fd`. -/
structure EpollEvent where
  events : BitVec 32
  fd : Int
  deriving DecidableEq, Repr

/-- What the kernel knows: the descriptors that are open, and the interest list behind `epoll_fd`. -/
structure Kernel where
  opened : Int → Bool
  interest : Int → Option (BitVec 32)

/-- `fdevents`. `pollfds` are the `used` first elements of the array, and `fresh i` is what `revents` of its element `i`
holds when the memory has just been allocated. `unused` is a stack, `serials` counts the nodes. -/
structure Fdevents (η κ : Type) where
  type : HandlerType
  fdarray : Int → Option (Fdnode η κ)
  maxfds : Nat
  epollEvents : List EpollEvent
  pollfds : List Pollfd
  unused : List Nat
  fresh : Nat → BitVec 16
  serials : Nat
  kernel : Kernel

variable {η κ : Type}

namespace Kernel

def epollCtlAdd (k : Kernel) (ep : EpollEvent) : Option Kernel :=
  if k.opened ep.fd ∧ k.interest ep.fd = none then
    some { k with interest := Function.update k.interest ep.fd (some ep.events) }
  else none

def epollCtlMod (k : Kernel) (ep : EpollEvent) : Option Kernel :=
  if (k.interest ep.fd).isSome then some { k with interest := Function.update k.interest ep.fd (some ep.events) }
  else none

def epollCtlDel (k : Kernel) (fd : Int) : Option Kernel :=
  if (k.interest fd).isSome then some { k with interest := Function.update k.interest fd none } else none

/-- `close`: the descriptor leaves the interest list, too. -/
def close (k : Kernel) (fd : Int) : Kernel :=
  { opened := Function.update k.opened fd false, interest := Function.update k.interest fd none }

end Kernel

namespace Fdevents

def init (type : HandlerType) (maxfds : Nat) (fresh : Nat → BitVec 16) (opened : Int → Bool) : Fdevents η κ where
  type := type
  fdarray := fun _ => none
  maxfds := maxfds
  epollEvents := []
  pollfds := []
  unused := []
  fresh := fresh
  serials := 0
  kernel := { opened := opened, interest := fun _ => none }

/-- `ev->fdarray[fd]` -/
def slot? (ev : Fdevents η κ) (fd : Int) : Option (Option (Fdnode η κ)) :=
  if 0 ≤ fd ∧ fd < ev.maxfds then some (ev.fdarray fd) else none

/-- `*ev->fdarray[fd]` -/
def node? (ev : Fdevents η κ) (fd : Int) : Option (Fdnode η κ) := (ev.slot? fd).join

def pollSlot? (ev : Fdevents η κ) (ndx : Int) : Option Pollfd := if 0 ≤ ndx then ev.pollfds[ndx.toNat]? else none

/-- `ev->fdarray[fd]->events = events` -/
def setEvents (ev : Fdevents η κ) (fd : Int) (events : BitVec 32) : Fdevents η κ :=
  { ev with fdarray := Function.update ev.fdarray fd ((ev.fdarray fd).map fun fdn => { fdn with events := events }) }

/-! ## The backend `poll` -/

def pollEventDel (ev : Fdevents η κ) (fdeNdx fd : Int) : Option (Fdevents η κ × Int) :=
  if fdeNdx < 0 then some (ev, -1)
  else
    match ev.pollSlot? fdeNdx with
    | none => none
    | some slot =>
      if slot.fd = fd then
        -- `revents` stays as it is: the assignment is commented out
        some ({ ev with
          pollfds := ev.pollfds.set fdeNdx.toNat { slot with fd := -1 }
          unused := fdeNdx.toNat :: ev.unused }, -1)
      else none

/-- The events that `fdevent_poll_event_set` asks for. -/
def pevents (events : BitVec 32) : BitVec 16 :=
  (if events &&& FDEVENT_IN ≠ 0 then POLLIN else 0) ||| (if events &&& FDEVENT_OUT ≠ 0 then POLLOUT else 0)

def pollEventSet (ev : Fdevents η κ) (fdeNdx fd : Int) (events : BitVec 32) : Option (Fdevents η κ × Int) :=
  if fdeNdx ≠ -1 then
    match ev.pollSlot? fdeNdx with
    | none => none
    | some slot =>
      if slot.fd = fd then
        some ({ ev with pollfds := ev.pollfds.set fdeNdx.toNat { slot with events := pevents events } }, fdeNdx)
      else none
  else
    match ev.unused with
    | k :: unused =>
      match ev.pollfds[k]? with
      | none => none
      | some slot =>
        some ({ ev with
          pollfds := ev.pollfds.set k { slot with fd := fd, events := pevents events }
          unused := unused }, k)
    | [] =>
      some ({ ev with
        pollfds := ev.pollfds ++ [{ fd := fd, events := pevents events, revents := ev.fresh ev.pollfds.length }] },
        ev.pollfds.length)

def pollEventGetRevent (ev : Fdevents η κ) (ndx : Int) : Option (BitVec 32) :=
  match ev.pollSlot? ndx with
  | none => none
  | some slot =>
    if slot.revents &&& POLLNVAL ≠ 0 then none
    else
      some ((if slot.revents &&& POLLIN ≠ 0 then FDEVENT_IN else 0) |||
        (if slot.revents &&& POLLOUT ≠ 0 then FDEVENT_OUT else 0) |||
        (if slot.revents &&& POLLERR ≠ 0 then FDEVENT_ERR else 0) |||
        (if slot.revents &&& POLLHUP ≠ 0 then FDEVENT_HUP else 0) |||
        (if slot.revents &&& POLLNVAL ≠ 0 then FDEVENT_NVAL else 0) |||
        (if slot.revents &&& POLLPRI ≠ 0 then FDEVENT_PRI else 0))

def pollEventGetFd (ev : Fdevents η κ) (ndx : Int) : Option Int := (ev.pollSlot? ndx).map Pollfd.fd

def nextIndex (ndx : Int) : Nat := if ndx < 0 then 0 else ndx.toNat + 1

def pollEventNextFdndx (ev : Fdevents η κ) (ndx : Int) : Int :=
  match (ev.pollfds.drop (nextIndex ndx)).findIdx? fun slot => slot.revents ≠ 0 with
  | some k => ↑(nextIndex ndx + k)
  | none => -1

/-! ## The backend `linux-sysepoll` -/

def sysepollEventDel (ev : Fdevents η κ) (fdeNdx fd : Int) : Option (Fdevents η κ × Int) :=
  if fdeNdx < 0 then some (ev, -1)
  else (ev.kernel.epollCtlDel fd).map fun kernel => ({ ev with kernel := kernel }, -1)

/-- The entry that `fdevent_linux_sysepoll_event_set` makes. -/
def epollEvent (fd : Int) (events : BitVec 32) : EpollEvent where
  events := (if events &&& FDEVENT_IN ≠ 0 then EPOLLIN else 0) ||| (if events &&& FDEVENT_OUT ≠ 0 then EPOLLOUT else 0) |||
    (EPOLLERR ||| EPOLLHUP)
  fd := fd

def sysepollEventSet (ev : Fdevents η κ) (fdeNdx fd : Int) (events : BitVec 32) : Option (Fdevents η κ × Int) :=
  (if fdeNdx = -1 then ev.kernel.epollCtlAdd (epollEvent fd events)
    else ev.kernel.epollCtlMod (epollEvent fd events)).map fun kernel => ({ ev with kernel := kernel }, fd)

def sysepollEventGetRevent (ev : Fdevents η κ) (ndx : Int) : Option (BitVec 32) :=
  if ndx < 0 then none
  else
    match ev.epollEvents[ndx.toNat]? with
    | none => none
    | some e =>
      some ((if e.events &&& EPOLLIN ≠ 0 then FDEVENT_IN else 0) |||
        (if e.events &&& EPOLLOUT ≠ 0 then FDEVENT_OUT else 0) |||
        (if e.events &&& EPOLLERR ≠ 0 then FDEVENT_ERR else 0) |||
        (if e.events &&& EPOLLHUP ≠ 0 then FDEVENT_HUP else 0) |||
        (if e.events &&& EPOLLPRI ≠ 0 then FDEVENT_PRI else 0))

def sysepollEventGetFd (ev : Fdevents η κ) (ndx : Int) : Option Int :=
  if ndx < 0 then none else (ev.epollEvents[ndx.toNat]?).map EpollEvent.fd

def sysepollEventNextFdndx (_ev : Fdevents η κ) (ndx : Int) : Int := nextIndex ndx

/-! ## The functions of the backend -/

def backendDel (ev : Fdevents η κ) (fdeNdx fd : Int) : Option (Fdevents η κ × Int) :=
  match ev.type with
  | .poll => ev.pollEventDel fdeNdx fd
  | .linuxSysepoll => ev.sysepollEventDel fdeNdx fd

def backendSet (ev : Fdevents η κ) (fdeNdx fd : Int) (events : BitVec 32) : Option (Fdevents η κ × Int) :=
  match ev.type with
  | .poll => ev.pollEventSet fdeNdx fd events
  | .linuxSysepoll => ev.sysepollEventSet fdeNdx fd events

def eventGetRevent (ev : Fdevents η κ) (ndx : Int) : Option (BitVec 32) :=
  match ev.type with
  | .poll => ev.pollEventGetRevent ndx
  | .linuxSysepoll => ev.sysepollEventGetRevent ndx

def eventGetFd (ev : Fdevents η κ) (ndx : Int) : Option Int :=
  match ev.type with
  | .poll => ev.pollEventGetFd ndx
  | .linuxSysepoll => ev.sysepollEventGetFd ndx

def eventNextFdndx (ev : Fdevents η κ) (ndx : Int) : Int :=
  match ev.type with
  | .poll => ev.pollEventNextFdndx ndx
  | .linuxSysepoll => ev.sysepollEventNextFdndx ndx

/-! ## Registration and interest -/

def register (ev : Fdevents η κ) (fd : Int) (handler : η) (ctx : κ) : Option (Fdevents η κ) :=
  if 0 ≤ fd ∧ fd < ev.maxfds then
    let fdn := { handler := handler, ctx := ctx, fd := fd, events := 0, serial := ev.serials }
    some { ev with fdarray := Function.update ev.fdarray fd (some fdn), serials := ev.serials + 1 }
  else none

def unregister (ev : Fdevents η κ) (fd : Int) : Option (Fdevents η κ) :=
  if 0 ≤ fd ∧ fd < ev.maxfds then some { ev with fdarray := Function.update ev.fdarray fd none } else none

/-- `fdevent_event_del`; the result is the new `*fde_ndx`, too. -/
def eventDel (ev : Fdevents η κ) (fdeNdx fd : Int) : Option (Fdevents η κ × Int) :=
  if fd = -1 then some (ev, fdeNdx)
  else
    match ev.slot? fd with
    | none => none
    | some none => some (ev, fdeNdx)
    | some (some _) => (ev.backendDel fdeNdx fd).map fun r => (r.1.setEvents fd 0, r.2)

def storeEvents (ev : Fdevents η κ) (fdeNdx fd : Int) (events : BitVec 32) : Option (Fdevents η κ × Int) :=
  (ev.backendSet fdeNdx fd events).map fun r => (r.1.setEvents fd events, r.2)

def eventSet (ev : Fdevents η κ) (fdeNdx fd : Int) (events : BitVec 32) : Option (Fdevents η κ × Int) :=
  if fd = -1 then some (ev, fdeNdx)
  else (ev.node? fd).bind fun fdn => if fdn.events = events then some (ev, fdeNdx) else ev.storeEvents fdeNdx fd events

def eventAdd (ev : Fdevents η κ) (fdeNdx fd : Int) (event : BitVec 32) : Option (Fdevents η κ × Int) :=
  if fd = -1 then some (ev, fdeNdx)
  else
    (ev.node? fd).bind fun fdn =>
      if fdn.events &&& event ≠ 0 ∨ event = 0 then some (ev, fdeNdx)
      else ev.storeEvents fdeNdx fd (fdn.events ||| event)

def eventClr (ev : Fdevents η κ) (fdeNdx fd : Int) (event : BitVec 32) : Option (Fdevents η κ × Int) :=
  if fd = -1 then some (ev, fdeNdx)
  else
    (ev.node? fd).bind fun fdn =>
      if fdn.events &&& event = 0 then some (ev, fdeNdx) else ev.storeEvents fdeNdx fd (fdn.events &&& ~~~event)

def getHandler (ev : Fdevents η κ) (fd : Int) : Option η :=
  (ev.node? fd).bind fun fdn => if fdn.fd ≠ fd then none else some fdn.handler

def getContext (ev : Fdevents η κ) (fd : Int) : Option κ :=
  (ev.node? fd).bind fun fdn => if fdn.fd ≠ fd then none else some fdn.ctx

/-! ## Polling -/

/-- What the kernel may report of an element of `pollfds`: nothing of a negative descriptor, and `POLLNVAL` only of a
descriptor that is not open. -/
def Reports (k : Kernel) (slot : Pollfd) (revents : BitVec 16) : Prop :=
  (slot.fd < 0 → revents = 0) ∧ (revents &&& POLLNVAL ≠ 0 → k.opened slot.fd = false)

instance (k : Kernel) (slot : Pollfd) (revents : BitVec 16) : Decidable (Reports k slot revents) :=
  inferInstanceAs (Decidable (_ ∧ _))

inductive Answer where
  /-- `poll`, with `revents` of each element -/
  | poll (revents : List (BitVec 16))
  /-- `epoll_wait`, with the elements it writes -/
  | epollWait (events : List EpollEvent)

/-- `fdevent_poll_poll`: the kernel writes `revents` of all elements, and returns the number of those that are not
zero. -/
def pollPoll (ev : Fdevents η κ) (revents : List (BitVec 16)) : Option (Fdevents η κ × Nat) :=
  if revents.length = ev.pollfds.length ∧ ∀ p ∈ ev.pollfds.zip revents, Reports ev.kernel p.1 p.2 then
    some ({ ev with pollfds := List.zipWith (fun slot r => { slot with revents := r }) ev.pollfds revents },
      revents.countP (· ≠ 0))
  else none

/-- `fdevent_linux_sysepoll_poll`: the kernel writes the first elements of the array, each of a different descriptor of
the interest list. -/
def sysepollPoll (ev : Fdevents η κ) (events : List EpollEvent) : Option (Fdevents η κ × Nat) :=
  if (events.map EpollEvent.fd).Nodup ∧ events.length ≤ ev.maxfds ∧ ∀ e ∈ events, (ev.kernel.interest e.fd).isSome then
    some ({ ev with epollEvents := events ++ ev.epollEvents.drop events.length }, events.length)
  else none

def poll (ev : Fdevents η κ) (answer : Answer) : Option (Fdevents η κ × Nat) :=
  match ev.type, answer with
  | .poll, .poll revents => ev.pollPoll revents
  | .linuxSysepoll, .epollWait events => ev.sysepollPoll events
  | _, _ => none

end Fdevents

end Lighttpd.Event
