import Mathlib.Algebra.Group.Nat.Defs
import Mathlib.Algebra.Group.Int.Defs
import Mathlib.Data.List.Basic

/-!
# The processes of a backend (`mod_fastcgi.c`, `mod_scgi.c`)

What the two modules ask of the system about the processes of a host: whether a child has exited, and to start a new
one. The counters that they keep (`load`, `active_procs`) are integers here, so that one can be less than zero; where a
`size_t` is compared, it is the value of `size`.
-/

namespace Lighttpd
namespace Backend

/-- What `waitpid(proc->pid, &status, WNOHANG)` says, apart from `EINTR`. -/
inductive Waited
  | alive
  | error
  | exited
deriving DecidableEq, Repr

/-- How `fcgi_spawn_connection` and `scgi_spawn_connection` end: with an error, with a new child, with the socket in use
already, or with `fork` having failed, which is no error to them. -/
inductive Spawn
  | failed
  | child (pid : Nat)
  | inUse
  | forkFailed
deriving DecidableEq, Repr

/-- The answers of the system to one call of `fcgi_restart_dead_procs` or `scgi_restart_dead_procs`, for each process in
the list. -/
structure Restart where
  waited : Nat → Waited
  spawn : Nat → Spawn

/-- How the answer of the backend is read in `fcgi_demux_response` and `scgi_demux_response`. -/
inductive Received
  | more
  | done
  | closed
deriving DecidableEq, Repr

/-- How `network_backend_write` leaves `wb`. -/
inductive Drained
  | all
  | some
  | failed
  | dropped
deriving DecidableEq, Repr

def size (n : Int) : Int := n % 2 ^ 64

end Backend
end Lighttpd
