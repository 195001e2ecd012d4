import Lighttpd.Event.Fdevent
import Lighttpd.Lib.Run

/-!
# The main loop

The loop of `main` that polls and calls the handlers (`server.c`), and the handlers of `mod_cgi`. What any other code does
with descriptors is a list of operations `Op`.
-/

namespace Lighttpd.Event

variable {η κ : Type}

/-! ## Operations -/

/-- What connections, server sockets and modules do with descriptors. -/
inductive Op (η κ : Type) where
  /-- The kernel makes a new descriptor (`accept`, `pipe`, `socket`, `open`). -/
  | opened (fd : Int)
  /-- The owner sets its `fde_ndx` to -1 and registers its descriptor. -/
  | register (fd : Int) (handler : η) (ctx : κ)
  | set (fd : Int) (events : BitVec 32)
  | add (fd : Int) (event : BitVec 32)
  | clr (fd : Int) (event : BitVec 32)
  /-- `fdevent_event_del`, `fdevent_unregister` and `close`, as in `connection_close` and `cgi_connection_close`. -/
  | close (fd : Int)
  deriving DecidableEq, Repr

/-- A round over the descriptors that are ready: `n` and `fd_ndx` of the loop, and what `fdevent_poll` reported: the
descriptors, each with the serial number of its registration at that moment. -/
structure Round where
  n : Nat
  fdNdx : Int
  reported : List (Int × Option Nat)

/-- What has been reported and waits for its handler. -/
def Round.pending (r : Round) : List (Int × Option Nat) := r.reported.drop (r.reported.length - r.n)

/-- `srv->ev`, the `fde_ndx` that the owner of each descriptor holds, and the round. -/
structure State (η κ : Type) where
  ev : Fdevents η κ
  fdeNdx : Int → Int
  round : Option Round

/-- A step of the main loop. -/
inductive Step (η κ : Type) where
  /-- What the loop does between two rounds: timeouts, the queue of waiting descriptors, the list of jobs. -/
  | work (ops : List (Op η κ))
  | poll (answer : Fdevents.Answer)
  /-- One turn of the loop over the ready descriptors, with what the handler does. -/
  | dispatch (ops : List (Op η κ))

namespace State

def init (type : HandlerType) (maxfds : Nat) (fresh : Nat → BitVec 16) (opened : Int → Bool) : State η κ where
  ev := Fdevents.init type maxfds fresh opened
  fdeNdx := fun _ => -1
  round := none

/-- A function of `fdevent.c` has been called by the owner of `fd`. -/
def store (s : State η κ) (fd : Int) (r : Fdevents η κ × Int) : State η κ :=
  { s with ev := r.1, fdeNdx := Function.update s.fdeNdx fd r.2 }

/-- A new descriptor is one that is not open. An owner registers a descriptor of its own that is not registered, and
closes a descriptor of its own. -/
def apply (s : State η κ) : Op η κ → Option (State η κ)
  | .opened fd =>
    if 0 ≤ fd ∧ fd < s.ev.maxfds ∧ s.ev.kernel.opened fd = false then
      some { s with
        ev := { s.ev with kernel := { s.ev.kernel with opened := Function.update s.ev.kernel.opened fd true } } }
    else none
  | .register fd handler ctx =>
    if s.ev.kernel.opened fd ∧ (s.ev.fdarray fd).isNone then
      (s.ev.register fd handler ctx).map fun ev => s.store fd (ev, -1)
    else none
  | .set fd events => (s.ev.eventSet (s.fdeNdx fd) fd events).map (s.store fd)
  | .add fd event => (s.ev.eventAdd (s.fdeNdx fd) fd event).map (s.store fd)
  | .clr fd event => (s.ev.eventClr (s.fdeNdx fd) fd event).map (s.store fd)
  | .close fd =>
    if s.ev.kernel.opened fd then
      (s.ev.eventDel (s.fdeNdx fd) fd).bind fun r =>
        (r.1.unregister fd).map fun ev => s.store fd ({ ev with kernel := ev.kernel.close fd }, r.2)
    else none

/-! ## The loop -/

/-- The descriptors that the answer reports as ready, in the order in which the loop comes to them. -/
def readyFds (ev : Fdevents η κ) (n : Nat) : List Int :=
  match ev.type with
  | .poll => (ev.pollfds.filter fun slot => slot.revents ≠ 0).map Pollfd.fd
  | .linuxSysepoll => (ev.epollEvents.take n).map EpollEvent.fd

def serial (ev : Fdevents η κ) (fd : Int) : Option Nat := (ev.fdarray fd).map Fdnode.serial

/-- One turn of the loop: the handler of the next descriptor is called. -/
def turn (s : State η κ) (r : Round) (ops : List (Op η κ)) : Option (State η κ) :=
  let fdNdx := s.ev.eventNextFdndx r.fdNdx
  if fdNdx = -1 then some { s with round := none }
  else
    (s.ev.eventGetRevent fdNdx).bind fun _revents =>
      (s.ev.eventGetFd fdNdx).bind fun fd =>
        (s.ev.getHandler fd).bind fun _handler =>
          (s.ev.getContext fd).bind fun _context =>
            (Run.run apply s ops).map fun s =>
              { s with
                round := if r.n - 1 > 0 then some { r with n := r.n - 1, fdNdx := fdNdx } else none }

def step (s : State η κ) : Step η κ → Option (State η κ)
  | .work ops => if s.round.isNone then Run.run apply s ops else none
  | .poll answer =>
    if s.round.isNone then
      (s.ev.poll answer).map fun r =>
        let reported := (readyFds r.1 r.2).map fun fd => (fd, serial r.1 fd)
        { s with ev := r.1, round := if r.2 > 0 then some { n := r.2, fdNdx := -1, reported := reported } else none }
    else none
  | .dispatch ops => s.round.bind fun r => s.turn r ops

/-- The descriptor for which `fdevent_get_handler` and `fdevent_get_context` are called next in the round. -/
def nextFd (s : State η κ) (r : Round) : Option Int :=
  let fdNdx := s.ev.eventNextFdndx r.fdNdx
  if fdNdx = -1 then none else (s.ev.eventGetRevent fdNdx).bind fun _revents => s.ev.eventGetFd fdNdx

/-- **The call is safe.** The descriptor for which the handler is looked up is registered, and its registration is the
one that was reported: the handler and the context that are called are those of this registration. -/
def Safe (s : State η κ) : Prop :=
  ∀ r, s.round = some r → ∀ fd, s.nextFd r = some fd →
    ∃ fdn, s.ev.slot? fd = some (some fdn) ∧ (fd, some fdn.serial) ∈ r.reported ∧
      s.ev.getHandler fd = some fdn.handler ∧ s.ev.getContext fd = some fdn.ctx

end State

/-! ## The handlers of `mod_cgi` -/

/-- The descriptors of a `handler_ctx` of `mod_cgi`. -/
structure HandlerCtx where
  fd : Int
  fdtocgi : Int

/-- What `cgi_demux_response` returns. -/
inductive DemuxResult where
  | notFinished
  | finished
  | comeback
  | error
  deriving DecidableEq, Repr

def cgiConnectionCloseFdtocgi (hctx : HandlerCtx) : List (Op η κ) := [.close hctx.fdtocgi]

def cgiConnectionClose (hctx : HandlerCtx) : List (Op η κ) :=
  (if hctx.fd ≠ -1 then [.close hctx.fd] else []) ++
    (if hctx.fdtocgi ≠ -1 then cgiConnectionCloseFdtocgi hctx else [])

/-- `cgi_recv_response`, with what `cgi_demux_response` does with the interest in `fd` (`interest`) and what it returns.
The second result says whether the handler goes on (`HANDLER_GO_ON`). -/
def cgiRecvResponse (hctx : HandlerCtx) (interest : List (Op η κ)) : DemuxResult → List (Op η κ) × Bool
  | .notFinished => (interest, true)
  | .finished | .comeback | .error => (interest ++ cgiConnectionClose hctx, false)

/-- The loop of `cgi_handle_fdevent` that drains the pipe, over the results of `cgi_demux_response`. -/
def drain (hctx : HandlerCtx) : List (List (Op η κ) × DemuxResult) → List (Op η κ)
  | [] => []
  | (interest, result) :: rest =>
    let r := cgiRecvResponse hctx interest result
    if r.2 then r.1 ++ drain hctx rest else r.1

def cgiHandleFdevent (hctx : HandlerCtx) (revents : BitVec 32) (fileStarted : Bool)
    (demux : List (List (Op η κ) × DemuxResult)) : List (Op η κ) :=
  let later rest :=
    if revents &&& FDEVENT_HUP ≠ 0 then if fileStarted then drain hctx rest else cgiConnectionClose hctx
    else if revents &&& FDEVENT_ERR ≠ 0 then cgiConnectionClose hctx
    else []
  if revents &&& FDEVENT_IN ≠ 0 then
    match demux with
    | [] => []
    | (interest, result) :: rest =>
      let r := cgiRecvResponse hctx interest result
      if r.2 then r.1 ++ later rest else r.1
  else later demux

/-- What `cgi_write_request` does: it fails, it has sent the whole request body and closes `fdtocgi`, or more remains. -/
inductive WriteResult where
  | failed
  | sent
  | more
  deriving DecidableEq, Repr

/-- `cgi_handle_fdevent_send`, with what `cgi_write_request` does with the interest in `fdtocgi` (`interest`). -/
def cgiHandleFdeventSend (hctx : HandlerCtx) (revents : BitVec 32) (interest : List (Op η κ)) (result : WriteResult) :
    List (Op η κ) :=
  let later (hctx : HandlerCtx) :=
    if revents &&& FDEVENT_HUP ≠ 0 then cgiConnectionCloseFdtocgi hctx
    else if revents &&& FDEVENT_ERR ≠ 0 then cgiConnectionClose hctx
    else []
  if revents &&& FDEVENT_OUT ≠ 0 then
    match result with
    | .failed => cgiConnectionClose hctx
    | .sent => cgiConnectionCloseFdtocgi hctx ++ later { hctx with fdtocgi := -1 }
    | .more => interest ++ later hctx
  else later hctx

end Lighttpd.Event
