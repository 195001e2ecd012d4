import Lighttpd.Backend.Process
import Lighttpd.Backend.Sender
import Lighttpd.Base.Strtol
import Lighttpd.Lib.Census
import Lighttpd.Lib.Run

/-!
# The counters of a FastCGI backend (`mod_fastcgi.c`)

Each host counts the requests that are assigned to it and its processes that run, and each process the connections to
it. Here are the functions that change these counters or the state of a process, with everything that they look at for
it. A process is named by its place in the list of its host, which does not change; a handler context reads `proc` only
while it has a host, and then it is one of the processes of that host.
-/

namespace Lighttpd
namespace Fcgi
namespace Account

open Backend

inductive ProcState
  | unset
  | running
  | overloaded
  | diedWaitForPid
  | died
  | killed
deriving DecidableEq, Repr

structure Proc where
  pid : Nat
  load : Int
  disabledUntil : Int
  isLocal : Bool
  state : ProcState
deriving DecidableEq, Repr

/-- `fcgi_extension_host`; `binPath` says whether there is a `bin-path`. -/
structure ExtensionHost where
  first : List Proc
  activeProcs : Int
  load : Int
  disableTime : Nat
  binPath : Bool
deriving DecidableEq, Repr

structure Extension (ι : Type) where
  hosts : List ι
  lastUsedNdx : Int

structure HandlerCtx (ι ε : Type) where
  ext : ε
  host : Option ι
  proc : Option Nat
  state : SendState
  gotProc : Bool
  reconnects : Nat
deriving DecidableEq, Repr

def HandlerCtx.init {ι ε : Type} (ext : ε) : HandlerCtx ι ε := ⟨ext, none, none, .init, false, 0⟩

/-! ## Processes -/

def Proc.running (p : Proc) : Bool := p.state == .running

/-- What `fcgi_spawn_connection` does to the process and to `active_procs`, or that it failed. -/
def fcgiSpawnConnection (spawn : Spawn) (p : Proc) (active : Int) : Option (Proc × Int) :=
  match spawn with
  | .failed => none
  | .child pid => some ({ p with pid := pid, isLocal := true, state := .running }, active + 1)
  | .inUse => some ({ p with pid := 0, isLocal := false, state := .running }, active + 1)
  | .forkFailed => some ({ p with state := .running }, active + 1)

/-- A process that has been disabled is tried again after `disabled_until`. -/
def reenable (now : Int) (p : Proc) (active : Int) : Proc × Int :=
  if now ≤ p.disabledUntil then (p, active) else ({ p with state := .running }, active + 1)

/-- Under `PROC_STATE_DIED` in `fcgi_restart_dead_procs`; the result is first whether the loop goes on. -/
def restartDied (now : Int) (binPath : Bool) (spawn : Spawn) (p : Proc) (active : Int) : Bool × Proc × Int :=
  if binPath then
    if p.load ≠ 0 then (true, p, active)
    else match fcgiSpawnConnection spawn p active with
      | some (p, active) => (true, p, active)
      | none => (false, p, active)
  else (true, reenable now p active)

/-- One turn of the loop in `fcgi_restart_dead_procs`. -/
def restartProc (now : Int) (binPath : Bool) (waited : Waited) (spawn : Spawn) (p : Proc) (active : Int) :
    Option (Bool × Proc × Int) :=
  match p.state with
  | .killed | .unset => none -- `force_assert(0)`
  | .running => some (true, p, active)
  | .overloaded => some (true, reenable now p active)
  | .diedWaitForPid =>
    if p.isLocal ∧ waited = .alive then some (true, reenable now p active)
    else some (restartDied now binPath spawn { p with state := .died } active)
  | .died => some (restartDied now binPath spawn p active)

def restartLoop (now : Int) (binPath : Bool) (restart : Restart) : Nat → List Proc → Int → Option (List Proc × Int)
  | _, [], active => some ([], active)
  | k, p :: procs, active => do
    let (more, p, active) ← restartProc now binPath (restart.waited k) (restart.spawn k) p active
    if more then
      let (procs, active) ← restartLoop now binPath restart (k + 1) procs active
      return (p :: procs, active)
    else return (p :: procs, active)

/-- **`fcgi_restart_dead_procs`**. -/
def fcgiRestartDeadProcs (now : Int) (restart : Restart) (h : ExtensionHost) : Option ExtensionHost := do
  let (procs, active) ← restartLoop now h.binPath restart 0 h.first h.activeProcs
  return { h with first := procs, activeProcs := active }

def ExtensionHost.setProc (h : ExtensionHost) (k : Nat) (p : Proc) (active : Int) : ExtensionHost :=
  { h with first := h.first.set k p, activeProcs := active }

/-- `if (proc->state == PROC_STATE_RUNNING) host->active_procs--`. -/
def ExtensionHost.stopped (h : ExtensionHost) (p : Proc) : Int :=
  if p.running then h.activeProcs - 1 else h.activeProcs

def ExtensionHost.disable (now : Int) (h : ExtensionHost) (k : Nat) (p : Proc) : ExtensionHost :=
  if h.disableTime ≠ 0 ∨ p.isLocal then
    h.setProc k
      { p with disabledUntil := now + h.disableTime, state := if p.isLocal then .diedWaitForPid else .died }
      (h.stopped p)
  else h

/-- Under `CONNECTION_OVERLOADED` in `fcgi_write_request`. -/
def ExtensionHost.overload (now : Int) (h : ExtensionHost) (k : Nat) (p : Proc) : ExtensionHost :=
  if h.disableTime ≠ 0 then
    h.setProc k { p with disabledUntil := now + h.disableTime, state := .overloaded } (h.stopped p)
  else h

/-- The look at the child in `fcgi_recv_response`, when the backend has closed the connection. -/
def ExtensionHost.childExited (h : ExtensionHost) (waited : Waited) (spawn : Spawn) (k : Nat) (p : Proc) :
    ExtensionHost :=
  if p.pid ≠ 0 ∧ p.state ≠ .died ∧ waited = .exited then
    match fcgiSpawnConnection spawn p h.activeProcs with
    | some (p, active) => h.setProc k p active
    | none => h.setProc k { p with state := .died } h.activeProcs
  else h

/-- `fcgi_write_request` looks for a running process, and then for one with a lower load; `best` is what it has. -/
def selectProc : Nat → Option (Nat × Proc) → List Proc → Option (Nat × Proc)
  | _, best, [] => best
  | k, best, p :: procs =>
    if p.running then
      match best with
      | none => selectProc (k + 1) (some (k, p)) procs
      | some (n, q) =>
        selectProc (k + 1) (if size p.load < size q.load then some (k, p) else some (n, q)) procs
    else selectProc (k + 1) best procs

/-! ## Hosts and handler contexts -/

section Hosts

variable {ι ε : Type} [DecidableEq ι]

def onHost (hosts : ι → ExtensionHost) (i : ι) (f : ExtensionHost → ExtensionHost) : ι → ExtensionHost :=
  Function.update hosts i (f (hosts i))

def onProc (hosts : ι → ExtensionHost) (c : HandlerCtx ι ε) (f : ExtensionHost → Nat → Proc → ExtensionHost) :
    ι → ExtensionHost :=
  match c.host, c.proc with
  | some i, some k => onHost hosts i fun h => h.first[k]?.elim h (f h k)
  | _, _ => hosts

def fcgiProcLoadInc (hosts : ι → ExtensionHost) (c : HandlerCtx ι ε) : ι → ExtensionHost :=
  onProc hosts c fun h k p => h.setProc k { p with load := p.load + 1 } h.activeProcs

def fcgiProcLoadDec (hosts : ι → ExtensionHost) (c : HandlerCtx ι ε) : ι → ExtensionHost :=
  onProc hosts c fun h k p => h.setProc k { p with load := p.load - 1 } h.activeProcs

/-- `fcgi_host_assign`, and `hctx->proc = NULL`. -/
def fcgiHostAssign (hosts : ι → ExtensionHost) (c : HandlerCtx ι ε) (i : ι) :
    (ι → ExtensionHost) × HandlerCtx ι ε :=
  (onHost hosts i fun h => { h with load := h.load + 1 }, { c with host := some i, proc := none })

def fcgiHostReset (hosts : ι → ExtensionHost) (c : HandlerCtx ι ε) : (ι → ExtensionHost) × HandlerCtx ι ε :=
  match c.host with
  | some i => (onHost hosts i fun h => { h with load := h.load - 1 }, { c with host := none })
  | none => (hosts, c)

def fcgiHostDisable (now : Int) (hosts : ι → ExtensionHost) (c : HandlerCtx ι ε) : ι → ExtensionHost :=
  onProc hosts c (ExtensionHost.disable now)

/-- The connection of a handler context is given back, when `hctx->got_proc` is set. -/
def release (hosts : ι → ExtensionHost) (c : HandlerCtx ι ε) : ι → ExtensionHost :=
  if c.gotProc then fcgiProcLoadDec hosts c else hosts

/-- **`fcgi_connection_close`**, with `handler_ctx_free`. -/
def fcgiConnectionClose (hosts : ι → ExtensionHost) (c : HandlerCtx ι ε) : ι → ExtensionHost :=
  (fcgiHostReset (release hosts c) c).1

/-- **`fcgi_reconnect`**; `got_proc` and `proc` stay as they are. -/
def fcgiReconnect (hosts : ι → ExtensionHost) (c : HandlerCtx ι ε) : (ι → ExtensionHost) × HandlerCtx ι ε :=
  fcgiHostReset (release hosts c) { c with state := .init, reconnects := c.reconnects + 1 }

/-- How an attempt to connect ends: in `socket`, with `HANDLER_WAIT_FOR_FD` or an error, or in
`fcgi_establish_connection`. -/
inductive Attempt
  | waitForFd
  | socketFailed
  | delayed
  | overloaded
  | dead
  | ok
deriving DecidableEq, Repr

/-- The answers of the system to one call of `fcgi_send_request`. `soError` is for `getsockopt`, and `envOk` says that
`fcgi_create_env` has found nothing too long. -/
structure SendEnv where
  now : Int
  attempt : Attempt
  soError : Bool
  envOk : Bool
  drained : Drained
  restart : Restart

/-- Under `FCGI_STATE_WRITE`; the result is whether it is not `HANDLER_ERROR`. -/
def writeQueue (d : Drained) (c : HandlerCtx ι ε) : Bool × HandlerCtx ι ε :=
  match d with
  | .all => (true, { c with state := .read })
  | .some => (true, { c with state := .write })
  | .failed | .dropped => (false, { c with state := .write })

/-- Under `FCGI_STATE_PREPARE_WRITE`. -/
def prepareWrite (env : SendEnv) (hosts : ι → ExtensionHost) (c : HandlerCtx ι ε) :
    Bool × (ι → ExtensionHost) × HandlerCtx ι ε :=
  let hosts := fcgiProcLoadInc hosts c
  let c := { c with gotProc := true }
  if env.envOk then
    let (ok, c) := writeQueue env.drained { c with state := .write }
    (ok, hosts, c)
  else (false, hosts, c)

/-- The attempt to connect under `FCGI_STATE_INIT`, once a process has been chosen. -/
def connect (env : SendEnv) (hosts : ι → ExtensionHost) (c : HandlerCtx ι ε) :
    Bool × (ι → ExtensionHost) × HandlerCtx ι ε :=
  match env.attempt with
  | .waitForFd => (true, hosts, c)
  | .socketFailed => (false, hosts, c)
  | .delayed => (true, hosts, { c with state := .connect })
  | .overloaded => (false, onProc hosts c (ExtensionHost.overload env.now), c)
  | .dead => (false, fcgiHostDisable env.now hosts c, c)
  | .ok => prepareWrite env hosts { c with state := .prepareWrite, reconnects := 0 }

/-- **`fcgi_write_request`** for a handler context with the host `i`. -/
def fcgiWriteRequest (env : SendEnv) (hosts : ι → ExtensionHost) (i : ι) (c : HandlerCtx ι ε) :
    Bool × (ι → ExtensionHost) × HandlerCtx ι ε :=
  match c.state with
  | .init =>
    match selectProc 0 none (hosts i).first with
    | none => (false, hosts, { c with proc := none })
    | some (k, _) => connect env hosts { c with proc := some k }
  | .connect =>
    if env.soError then (false, fcgiHostDisable env.now hosts c, c)
    else prepareWrite env hosts { c with state := .prepareWrite }
  | .prepareWrite => prepareWrite env hosts c
  | .write =>
    let (ok, c) := writeQueue env.drained c
    (ok, hosts, c)
  | .read => (true, hosts, c)

/-- The loop of `fcgi_send_request` for the backend with the least load; `used`, which is an `int`, and `ndx` are its
variables. -/
def leastLoad (hosts : ι → ExtensionHost) : Nat → Int → Option Nat → List ι → Option Nat
  | _, _, ndx, [] => ndx
  | k, used, ndx, i :: rest =>
    if (hosts i).activeProcs = 0 then leastLoad hosts (k + 1) used ndx rest
    else if used = -1 ∨ (hosts i).load < used then leastLoad hosts (k + 1) (toInt (hosts i).load) (some k) rest
    else leastLoad hosts (k + 1) used ndx rest

/-- The place where `fcgi_send_request` looks first. -/
def Extension.nextNdx (ext : Extension ι) : Nat :=
  if ext.lastUsedNdx + 1 ≥ ext.hosts.length ∨ ext.lastUsedNdx + 1 < 0 then 0 else (ext.lastUsedNdx + 1).toNat

/-- The host that `fcgi_send_request` chooses, and its place in the extension. -/
def chooseHost (hosts : ι → ExtensionHost) (ext : Extension ι) : Option (Nat × ι) := do
  let i ← ext.hosts[ext.nextNdx]?
  if (hosts i).load > 0 then
    let ndx ← leastLoad hosts 0 (-1) none ext.hosts
    let i ← ext.hosts[ndx]?
    return (ndx, i)
  else return (ext.nextNdx, i)

/-- What follows `fcgi_write_request` in `fcgi_send_request`. -/
def sendResult (env : SendEnv) (i : ι) (r : Bool × (ι → ExtensionHost) × HandlerCtx ι ε) :
    Option ((ι → ExtensionHost) × Option (HandlerCtx ι ε)) :=
  let (ok, hosts, c) := r
  if ok then some (hosts, some c)
  else if c.state = .init ∨ c.state = .connect then do
    let h ← fcgiRestartDeadProcs env.now env.restart (hosts i)
    let hosts := Function.update hosts i h
    if c.reconnects < 5 then
      let (hosts, c) := fcgiReconnect hosts c
      return (hosts, some c)
    else return (fcgiConnectionClose hosts c, none)
  else some (fcgiConnectionClose hosts c, none)

def sendTo (env : SendEnv) (hosts : ι → ExtensionHost) (i : ι) (c : HandlerCtx ι ε) :
    Option ((ι → ExtensionHost) × Option (HandlerCtx ι ε)) :=
  sendResult env i (fcgiWriteRequest env hosts i c)

/-- The answers of the system to one call of `fcgi_recv_response`; `nothingWritten` is `hctx->wb->bytes_out == 0`. -/
structure RecvEnv where
  received : Received
  waited : Waited
  spawn : Spawn
  fileStarted : Bool
  nothingWritten : Bool

/-- **`fcgi_recv_response`**. -/
def fcgiRecvResponse (env : RecvEnv) (hosts : ι → ExtensionHost) (c : HandlerCtx ι ε) :
    (ι → ExtensionHost) × Option (HandlerCtx ι ε) :=
  match env.received with
  | .more => (hosts, some c)
  | .done => (fcgiConnectionClose hosts c, none)
  | .closed =>
    let hosts := onProc hosts c fun h k p => h.childExited env.waited env.spawn k p
    if env.fileStarted = false ∧ env.nothingWritten ∧ c.reconnects < 5 then
      let (hosts, c) := fcgiReconnect hosts c
      (hosts, some c)
    else (fcgiConnectionClose hosts c, none)

/-! ## The module -/

variable [DecidableEq ε]

/-- The extensions, the hosts and the handler contexts that have not been freed. -/
structure Server (ι ε : Type) where
  exts : ε → Extension ι
  hosts : ι → ExtensionHost
  ctxs : List (HandlerCtx ι ε)

/-- What happens. The number is the place of a handler context in the list. -/
inductive Op (ι ε : Type)
  | checkExtension (e : ε)
  | send (n : Nat) (env : SendEnv)
  | recv (n : Nat) (env : RecvEnv)
  | close (n : Nat)
  | trigger (i : ι) (now : Int) (restart : Restart)

/-- **`fcgi_send_request`**: a host is chosen if there is none. -/
def fcgiSendRequest (s : Server ι ε) (n : Nat) (env : SendEnv) (c : HandlerCtx ι ε) : Option (Server ι ε) :=
  match c.host with
  | some i => do
    let (hosts, o) ← sendTo env s.hosts i c
    return { s with hosts := hosts, ctxs := Census.replace s.ctxs n o }
  | none =>
    match chooseHost s.hosts (s.exts c.ext) with
    | none => some { s with hosts := fcgiConnectionClose s.hosts c, ctxs := Census.replace s.ctxs n none }
    | some (ndx, i) => do
      let (hosts, c) := fcgiHostAssign s.hosts c i
      let (hosts, o) ← sendTo env hosts i c
      return {
        exts := Function.update s.exts c.ext { s.exts c.ext with lastUsedNdx := ndx }
        hosts := hosts
        ctxs := Census.replace s.ctxs n o }

/-- One step. An answer is read once the request is being sent. -/
def step (s : Server ι ε) : Op ι ε → Option (Server ι ε)
  | .checkExtension e =>
    if (s.exts e).hosts.any fun i => (s.hosts i).activeProcs ≠ 0 then
      some { s with ctxs := s.ctxs ++ [.init e] }
    else some s
  | .send n env => do
    let c ← s.ctxs[n]?
    fcgiSendRequest s n env c
  | .recv n env => do
    let c ← s.ctxs[n]?
    if c.state = .write ∨ c.state = .read then
      let (hosts, o) := fcgiRecvResponse env s.hosts c
      return { s with hosts := hosts, ctxs := Census.replace s.ctxs n o }
    else none
  | .close n => do
    let c ← s.ctxs[n]?
    return { s with hosts := fcgiConnectionClose s.hosts c, ctxs := s.ctxs.eraseIdx n }
  | .trigger i now restart => do
    let h ← fcgiRestartDeadProcs now restart (s.hosts i)
    return { s with hosts := Function.update s.hosts i h }

end Hosts

end Account
end Fcgi
end Lighttpd
