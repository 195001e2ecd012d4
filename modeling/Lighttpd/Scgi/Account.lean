import Lighttpd.Backend.Process
import Lighttpd.Backend.Sender
import Lighttpd.Lib.Census
import Lighttpd.Lib.DoublyLinked
import Lighttpd.Lib.Run

/-!
# The counters and the list of processes of a SCGI backend (`mod_scgi.c`)

Here is one host with the handler contexts that have been given to it; a handler context never gets another host. The
host counts its requests and its processes that run, each process counts the connections to it, and the processes are
in a list that is kept sorted by this count. A process is named by a key; the links between the processes are apart
from what else is in a `scgi_proc`.
-/

namespace Lighttpd
namespace Scgi
namespace Account

open Backend DoublyLinked

inductive ProcState
  | unset
  | running
  | diedWaitForPid
  | killed
  | died
  | disabled
deriving DecidableEq, Repr

/-- `scgi_proc` without `prev` and `next`. -/
structure Proc where
  pid : Nat
  load : Int
  disableTs : Int
  isLocal : Bool
  state : ProcState
deriving DecidableEq, Repr

def Proc.running (p : Proc) : Bool := p.state == .running

structure ExtensionHost (κ : Type) where
  links : Links κ
  procs : κ → Proc
  numProcs : Nat
  activeProcs : Int
  load : Int
  disableTime : Nat

structure HandlerCtx (κ : Type) where
  proc : Option κ
  pid : Nat
  state : SendState
  gotProc : Bool
  reconnects : Nat
deriving DecidableEq, Repr

def HandlerCtx.init {κ : Type} : HandlerCtx κ := ⟨none, 0, .init, false, 0⟩

section Host

variable {κ : Type} [DecidableEq κ]

def ExtensionHost.setProc (h : ExtensionHost κ) (k : κ) (p : Proc) : ExtensionHost κ :=
  { h with procs := Function.update h.procs k p }

/-- `host->active_procs += n`. -/
def ExtensionHost.addActive (h : ExtensionHost κ) (n : Int) : ExtensionHost κ :=
  { h with activeProcs := h.activeProcs + n }

def ExtensionHost.addLoad (h : ExtensionHost κ) (n : Int) : ExtensionHost κ := { h with load := h.load + n }

def ExtensionHost.addProcLoad (h : ExtensionHost κ) (k : κ) (n : Int) : ExtensionHost κ :=
  h.setProc k { h.procs k with load := (h.procs k).load + n }

def ExtensionHost.lighter (h : ExtensionHost κ) (a b : κ) : Bool := size (h.procs a).load < size (h.procs b).load

/-! ## The list of processes -/

/-- The walk of `scgi_proclist_sort_up` from `p` on; there are no more steps than processes. -/
def walkUp (h : ExtensionHost κ) (proc : κ) : Nat → κ → Option κ
  | 0, _ => none
  | fuel + 1, p =>
    match h.links.next p with
    | some q => if h.lighter q proc then walkUp h proc fuel q else some p
    | none => some p

def walkDown (h : ExtensionHost κ) (proc : κ) : Nat → κ → Option κ
  | 0, _ => none
  | fuel + 1, p =>
    if p ≠ proc ∧ h.lighter p proc then
      match h.links.next p with
      | some q => walkDown h proc fuel q
      | none => none -- `p->load` of a null pointer
    else some p

/-- `if (host->first == proc)` in `scgi_proclist_sort_up`. -/
def dropFirst (d : Links κ) (proc : κ) : Links κ :=
  if d.first = some proc then { d.linkPrev (d.next proc) none with first := d.next proc } else d

/-- `if (proc->prev == NULL) host->first = proc` in `scgi_proclist_sort_down`. -/
def raiseFirst (d : Links κ) (proc : κ) : Links κ :=
  if d.prev proc = none then { d with first := some proc } else d

/-- **`scgi_proclist_sort_up`**. -/
def scgiProclistSortUp (h : ExtensionHost κ) (proc : κ) : Option (ExtensionHost κ) :=
  if h.links.first = some proc ∧ h.links.next proc = none then some h
  else do
    let p ← walkUp h proc h.numProcs proc
    if p = proc then return h
    else return { h with links := ((dropFirst h.links proc).unlink proc).insertAfter p proc }

/-- **`scgi_proclist_sort_down`**. -/
def scgiProclistSortDown (h : ExtensionHost κ) (proc : κ) : Option (ExtensionHost κ) :=
  if h.links.first = some proc ∧ h.links.next proc = none then some h
  else do
    let first ← h.links.first
    let p ← walkDown h proc h.numProcs first
    if p = proc then return h
    else if h.links.first = some proc then return h
    else return { h with links := raiseFirst ((h.links.unlink proc).insertBefore p proc) proc }

/-! ## Processes -/

/-- What `scgi_spawn_connection` does to the process and to `active_procs`, or that it failed. -/
def scgiSpawnConnection (spawn : Spawn) (h : ExtensionHost κ) (k : κ) : Option (ExtensionHost κ) :=
  match spawn with
  | .failed => none
  | .child pid => some ((h.setProc k { h.procs k with pid := pid, isLocal := true, state := .running }).addActive 1)
  | .inUse => some ((h.setProc k { h.procs k with pid := 0, isLocal := false, state := .running }).addActive 1)
  | .forkFailed => some ((h.setProc k { h.procs k with state := .running }).addActive 1)

def reap (waited : Waited) (h : ExtensionHost κ) (k : κ) : ExtensionHost κ :=
  if (h.procs k).state = .diedWaitForPid ∧ waited = .exited then h.setProc k { h.procs k with state := .died } else h

/-- One turn of the loop in `scgi_restart_dead_procs`; the result is first whether the loop goes on. -/
def restartProc (now : Int) (waited : Waited) (spawn : Spawn) (h : ExtensionHost κ) (k : κ) :
    Option (Bool × ExtensionHost κ) :=
  if (h.procs k).isLocal then
    let h := reap waited h k
    if (h.procs k).state = .died ∧ size (h.procs k).load = 0 then
      match scgiSpawnConnection spawn h k with
      | none => some (false, h)
      | some h => do
        let h ← scgiProclistSortDown h k
        return (true, h)
    else some (true, h)
  else if (h.procs k).state = .disabled ∧ now - (h.procs k).disableTs > h.disableTime then
    some (true, (h.setProc k { h.procs k with state := .running }).addActive 1)
  else some (true, h)

/-- The loop of `scgi_restart_dead_procs`; `n` counts its turns. A process that has been started again has been moved,
and the loop goes on behind its new place. -/
def restartLoop (now : Int) (restart : Restart) : Nat → Nat → Option κ → ExtensionHost κ → Option (ExtensionHost κ)
  | _, _, none, h => some h
  | 0, _, some _, _ => none
  | fuel + 1, n, some k, h => do
    let (more, h) ← restartProc now (restart.waited n) (restart.spawn n) h k
    if more then restartLoop now restart fuel (n + 1) (h.links.next k) h else return h

/-- **`scgi_restart_dead_procs`**. -/
def scgiRestartDeadProcs (now : Int) (restart : Restart) (h : ExtensionHost κ) : Option (ExtensionHost κ) :=
  restartLoop now restart ((h.numProcs + 1) * (h.numProcs + 1)) 0 h.links.first h

def firstRunning (h : ExtensionHost κ) : Nat → Option κ → Option κ
  | _, none => none
  | 0, some _ => none
  | fuel + 1, some k => if (h.procs k).running then some k else firstRunning h fuel (h.links.next k)

/-! ## Handler contexts -/

/-- `if (hctx->got_proc) hctx->proc->load--`. -/
def release (h : ExtensionHost κ) (c : HandlerCtx κ) (k : κ) : ExtensionHost κ :=
  if c.gotProc then h.addProcLoad k (-1) else h

/-- **`scgi_connection_close`**: `host->load` is changed only for a handler context with a process. -/
def scgiConnectionClose (h : ExtensionHost κ) (c : HandlerCtx κ) : Option (ExtensionHost κ) :=
  match c.proc with
  | some k => scgiProclistSortDown (release (h.addLoad (-1)) c k) k
  | none => some h

/-- **`scgi_reconnect`**; `got_proc` and `proc` stay as they are. -/
def scgiReconnect (h : ExtensionHost κ) (c : HandlerCtx κ) (k : κ) : Option (ExtensionHost κ × HandlerCtx κ) := do
  let h ← scgiProclistSortDown (h.addProcLoad k (-1)) k
  return (h, { c with state := .init, reconnects := c.reconnects + 1 })

/-- How an attempt to connect ends: in `socket`, with `HANDLER_WAIT_FOR_FD` or an error, or in
`scgi_establish_connection`. -/
inductive Attempt
  | waitForFd
  | socketFailed
  | delayed
  | failed
  | ok
deriving DecidableEq, Repr

/-- The answers of the system to one call of `scgi_send_request`. `soError` is for `getsockopt`, and `nothingWritten` is
`hctx->wb->bytes_out == 0`. -/
structure SendEnv where
  now : Int
  attempt : Attempt
  soError : Bool
  drained : Drained
  nothingWritten : Bool
  restart : Restart

/-- How `scgi_write_request` ends. -/
inductive Rc
  | wait
  | comeback
  | error
deriving DecidableEq, Repr

/-- Under `FCGI_STATE_WRITE`. -/
def writeQueue (env : SendEnv) (h : ExtensionHost κ) (c : HandlerCtx κ) :
    Option (Rc × ExtensionHost κ × HandlerCtx κ) :=
  match env.drained with
  | .all => some (.wait, h, { c with state := .read })
  | .some => some (.wait, h, { c with state := .write })
  | .failed => some (.error, h, { c with state := .write })
  | .dropped =>
    if env.nothingWritten ∧ c.reconnects < 5 then do
      let k ← c.proc
      let (h, c) ← scgiReconnect h { c with state := .write } k
      return (.comeback, h, c)
    else some (.error, h, { c with state := .write })

/-- A connection to the process `k` is there; `scgi_create_env` always returns. -/
def connected (env : SendEnv) (h : ExtensionHost κ) (c : HandlerCtx κ) (k : κ) :
    Option (Rc × ExtensionHost κ × HandlerCtx κ) := do
  let h ← scgiProclistSortUp (h.addProcLoad k 1) k
  writeQueue env h { c with gotProc := true, state := .write }

/-- `if (hctx->proc->is_local) hctx->pid = hctx->proc->pid`. -/
def takeProc (h : ExtensionHost κ) (c : HandlerCtx κ) (k : κ) : HandlerCtx κ :=
  { c with proc := some k, pid := if (h.procs k).isLocal then (h.procs k).pid else c.pid }

/-- Under `FCGI_STATE_INIT`, once there is a socket. -/
def connect (env : SendEnv) (h : ExtensionHost κ) (c : HandlerCtx κ) :
    Option (Rc × ExtensionHost κ × HandlerCtx κ) :=
  match firstRunning h h.numProcs h.links.first with
  | none => some (.error, h, { c with proc := none })
  | some k =>
    match env.attempt with
    | .delayed => some (.wait, h, { takeProc h c k with state := .connect })
    | .ok => connected env h (takeProc h c k) k
    | _ => some (.error, h, takeProc h c k)

/-- **`scgi_write_request`**. -/
def scgiWriteRequest (env : SendEnv) (h : ExtensionHost κ) (c : HandlerCtx κ) :
    Option (Rc × ExtensionHost κ × HandlerCtx κ) :=
  match c.state with
  | .init =>
    match env.attempt with
    | .waitForFd => some (.wait, h, c)
    | .socketFailed => some (.error, h, c)
    | _ => connect env h c
  | .connect =>
    if env.soError then some (.error, h, c)
    else do
      let k ← c.proc
      connected env h c k
  | .prepareWrite | .write => writeQueue env h c
  | .read => some (.wait, h, c)

/-- A remote process is disabled in `scgi_send_request`. -/
def disableRemote (now : Int) (h : ExtensionHost κ) (k : κ) : ExtensionHost κ :=
  if (h.procs k).isLocal = false ∧ (h.procs k).state ≠ .disabled then
    (h.setProc k { h.procs k with disableTs := now, state := .disabled }).addActive (-1)
  else h

/-- A local process is taken to have died; `active_procs` stays. -/
def markDied (h : ExtensionHost κ) (c : HandlerCtx κ) (k : κ) : ExtensionHost κ :=
  if (h.procs k).isLocal ∧ (h.procs k).state = .running ∧ c.pid = (h.procs k).pid then
    h.setProc k { h.procs k with state := .diedWaitForPid }
  else h

def onProc (f : ExtensionHost κ → κ → ExtensionHost κ) (h : ExtensionHost κ) (c : HandlerCtx κ) : ExtensionHost κ :=
  match c.proc with
  | some k => f h k
  | none => h

/-- What `scgi_send_request` does after `HANDLER_ERROR`; the handler context is freed. -/
def sendFailed (env : SendEnv) (h : ExtensionHost κ) (c : HandlerCtx κ) : Option (ExtensionHost κ) :=
  let h := onProc (disableRemote env.now) h c
  if c.state = .init ∨ c.state = .connect then do
    let h := onProc (fun h k => markDied h c k) h c
    let h ← scgiRestartDeadProcs env.now env.restart h
    scgiConnectionClose h c
  else scgiConnectionClose h c

/-- **`scgi_send_request`**. -/
def scgiSendRequest (env : SendEnv) (h : ExtensionHost κ) (c : HandlerCtx κ) :
    Option (ExtensionHost κ × Option (HandlerCtx κ)) := do
  let (rc, h, c) ← scgiWriteRequest env h c
  if rc = .error then
    let h ← sendFailed env h c
    return (h, none)
  else return (h, some c)

/-- The answers of the system to one call of `scgi_recv_response`. -/
structure RecvEnv where
  received : Received
  waited : Waited
  spawn : Spawn
  fileStarted : Bool
  nothingWritten : Bool

/-- The look at the child in `scgi_recv_response`, when the backend has closed the connection. -/
def childExited (env : RecvEnv) (h : ExtensionHost κ) (k : κ) : Option (ExtensionHost κ) :=
  if (h.procs k).pid ≠ 0 ∧ (h.procs k).state ≠ .died ∧ env.waited = .exited then
    match scgiSpawnConnection env.spawn h k with
    | none => some (h.setProc k { h.procs k with state := .died })
    | some h => scgiProclistSortDown h k
  else some h

/-- **`scgi_recv_response`**. -/
def scgiRecvResponse (env : RecvEnv) (h : ExtensionHost κ) (c : HandlerCtx κ) :
    Option (ExtensionHost κ × Option (HandlerCtx κ)) :=
  match env.received with
  | .more => some (h, some c)
  | .done => do
    let h ← scgiConnectionClose h c
    return (h, none)
  | .closed => do
    let k ← c.proc
    let h ← childExited env h k
    if env.fileStarted = false ∧ env.nothingWritten ∧ c.reconnects < 5 then
      let (h, c) ← scgiReconnect h c k
      return (h, some c)
    else
      let h ← scgiConnectionClose h c
      return (h, none)

/-! ## The module -/

/-- The host, and its handler contexts that have not been freed. -/
structure Server (κ : Type) where
  host : ExtensionHost κ
  ctxs : List (HandlerCtx κ)

/-- What happens. The number is the place of a handler context in the list. -/
inductive Op
  | checkExtension
  | send (n : Nat) (env : SendEnv)
  | recv (n : Nat) (env : RecvEnv)
  | close (n : Nat)
  | restart (now : Int) (restart : Restart)

/-- One step. `handler_ctx_init` ends the server when there is no memory, and there is none for `2 ^ 64` handler contexts;
an answer is read once the request is being sent. -/
def step (s : Server κ) : Op → Option (Server κ)
  | .checkExtension =>
    if s.host.activeProcs = 0 then some s
    else if s.ctxs.length + 1 < 2 ^ 64 then
      some { host := s.host.addLoad 1, ctxs := s.ctxs ++ [.init] }
    else none
  | .send n env => do
    let c ← s.ctxs[n]?
    let (h, o) ← scgiSendRequest env s.host c
    return { host := h, ctxs := Census.replace s.ctxs n o }
  | .recv n env => do
    let c ← s.ctxs[n]?
    if c.state = .write ∨ c.state = .read then
      let (h, o) ← scgiRecvResponse env s.host c
      return { host := h, ctxs := Census.replace s.ctxs n o }
    else none
  | .close n => do
    let c ← s.ctxs[n]?
    let h ← scgiConnectionClose s.host c
    return { host := h, ctxs := s.ctxs.eraseIdx n }
  | .restart now restart => do
    let h ← scgiRestartDeadProcs now restart s.host
    return { s with host := h }

end Host

end Account
end Scgi
end Lighttpd
