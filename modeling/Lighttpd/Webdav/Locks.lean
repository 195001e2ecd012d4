import Lighttpd.Lib.Run
import Lighttpd.Webdav.Handler

/-!
# Locks are exclusive

A LOCK that is granted keeps the table compatible if and only if `LockOk` holds; the other requests set no lock. A request
that changes a locked resource is refused if it has no field `If`.

- `lock_compatible_iff`: one LOCK;
- `delete_refused`, `put_refused`, `propPatch_refused`, `move_refused`: a locked resource;
- `locks_respected`: every run.
-/

namespace Lighttpd.Webdav

open LockTable

/-! ## What is claimed -/

def Lock.IsExclusive (l : Lock) : Prop := l.lockscope = ascii "exclusive"

instance (l : Lock) : Decidable l.IsExclusive := inferInstanceAs (Decidable (_ = _))

/-- **No resource has an exclusive lock together with another lock.** -/
def State.Exclusive (s : State) : Prop := Compatible Lock.resource Lock.IsExclusive s.locks

/-- The resource that a request changes or removes, and its field `If`. A COPY changes another resource. -/
def Op.guarded : Op → Option (Bytes × Option Bytes)
  | .delete r => some (r.uriPath, r.hdrIf)
  | .put r => some (r.uriPath, r.hdrIf)
  | .propPatch r => some (r.uriPath, r.hdrIf)
  | .move r => if r.isMove then some (r.uriPath, r.hdrIf) else none
  | _ => none

/-- The request carries the token of a lock of the resource. -/
def Carries (s : State) (resource : Bytes) (hdrIf : Option Bytes) : Prop :=
  ∃ l ∈ s.locks, l.resource = resource ∧ ∃ value, hdrIf = some value ∧ l.locktoken <:+: value

def Answer.Succeeds (a : Answer) : Prop := ∃ status, a = .finished status ∧ 200 ≤ status ∧ status < 300

/-- **A request succeeds on a locked resource only with the token.** -/
def Protected (s : State) (op : Op) : Prop :=
  ∀ resource hdrIf, op.guarded = some (resource, hdrIf) → Locked Lock.resource s.locks resource →
    (handle s op).1.Succeeds → Carries s resource hdrIf

/-! ## When the code does it -/

/-- A LOCK is granted only if the locks of its resource allow it: it asks for nothing, the locks of the resource in
`p->uri.path` stand in its way, its token is there already, or it and the locks of its own resource are all shared. -/
def LockOk (s : State) (r : LockReq) : Prop :=
  ∀ created scope type, r.depth = 0 ∨ r.depth = -1 → r.contentLength ≠ 0 → lockWanted r = .ok (created, scope, type) →
    s.refuses scope = true ∨ (∃ l ∈ s.locks, l.locktoken = lockToken r.uuid) ∨
    ∀ l ∈ s.locks, l.resource = r.uriPath → ¬ l.IsExclusive ∧ scope ≠ ascii "exclusive"

def Op.BodyRead : Op → Prop
  | .put r => r.bytesIn ≠ 0
  | _ => False

/-- A request for a locked resource has no field `If`, and is not a PUT whose body is being read; or it carries the
token. -/
def TokenOk (s : State) (op : Op) : Prop :=
  ∀ resource hdrIf, op.guarded = some (resource, hdrIf) → Locked Lock.resource s.locks resource →
    hdrIf = none ∧ ¬ op.BodyRead ∨ Carries s resource hdrIf

def Ok (s : State) (op : Op) : Prop := (∀ r, op = .lock r → LockOk s r) ∧ TokenOk s op

/-! ## The table -/

variable {s : State}

theorem createLock_exclusive_iff (h : s.Exclusive) (l : Lock) :
    (s.createLock l).Exclusive ↔ (∃ l' ∈ s.locks, l'.locktoken = l.locktoken) ∨
      ∀ l' ∈ s.locks, l'.resource = l.resource → ¬ l'.IsExclusive ∧ ¬ l.IsExclusive := by
  unfold State.createLock
  by_cases htoken : (s.locks.any fun l' => l'.locktoken == l.locktoken) = true
  · rw [if_pos htoken]
    exact iff_of_true h (.inl (by simpa using htoken))
  · rw [if_neg htoken]
    have hno : ¬ ∃ l' ∈ s.locks, l'.locktoken = l.locktoken := by simpa using htoken
    rw [or_iff_right hno]
    exact compatible_concat.trans (and_iff_right h)

/-- **A LOCK keeps the table compatible, if and only if `LockOk` holds.** -/
theorem lock_compatible_iff (h : s.Exclusive) (r : LockReq) : (lock s r).2.Exclusive ↔ LockOk s r := by
  unfold lock LockOk
  by_cases hdepth : r.depth ≠ 0 ∧ r.depth ≠ -1
  · rw [if_pos hdepth]
    refine iff_of_true h fun _ _ _ hd => ?_
    rcases hd with hd | hd
    · exact absurd hd hdepth.1
    · exact absurd hd hdepth.2
  · have hd : r.depth = 0 ∨ r.depth = -1 := by
      rw [not_and_or, not_not, not_not] at hdepth
      exact hdepth
    rw [if_neg hdepth]
    by_cases hlength : r.contentLength ≠ 0
    · rw [if_pos hlength]
      cases hwanted : lockWanted r with
      | error a => exact iff_of_true h fun _ _ _ _ _ hw => by cases hw
      | ok wanted =>
        obtain ⟨created, scope, type⟩ := wanted
        dsimp only
        have hall : (∀ created' scope' type', r.depth = 0 ∨ r.depth = -1 → r.contentLength ≠ 0 →
            (Except.ok (created, scope, type) : Except Answer (Bool × Bytes × Bytes)) = .ok (created', scope', type') →
            s.refuses scope' = true ∨ (∃ l ∈ s.locks, l.locktoken = lockToken r.uuid) ∨
            ∀ l ∈ s.locks, l.resource = r.uriPath → ¬ l.IsExclusive ∧ scope' ≠ ascii "exclusive") ↔
            s.refuses scope = true ∨ (∃ l ∈ s.locks, l.locktoken = lockToken r.uuid) ∨
            ∀ l ∈ s.locks, l.resource = r.uriPath → ¬ l.IsExclusive ∧ scope ≠ ascii "exclusive" := by
          constructor
          · exact fun hall => hall created scope type hd hlength rfl
          · intro hone _ _ _ _ _ heq
            cases heq
            exact hone
        rw [hall]
        by_cases hrefuses : s.refuses scope = true
        · rw [if_pos hrefuses]
          exact iff_of_true h (.inl hrefuses)
        · rw [if_neg hrefuses, or_iff_right hrefuses]
          exact createLock_exclusive_iff h _
    · rw [if_neg hlength]
      refine iff_of_true ?_ fun _ _ _ _ hl => absurd hl hlength
      cases r.hdrIf with
      | none => exact h
      | some token =>
        dsimp only
        split <;> exact h

theorem unlock_exclusive (h : s.Exclusive) (field : Option Bytes) : (unlock s field).2.Exclusive := by
  unfold unlock
  split
  · exact h
  · split
    · exact h
    · exact h.of_sublist (List.filter_sublist ..)

theorem move_locks (s : State) (r : MoveReq) : (move s r).2.locks = s.locks := by
  unfold move
  split
  · rfl
  · split
    · rfl
    · split
      · rfl
      · rfl
      · split
        · rfl
        · split
          · rfl
          · dsimp only
            split <;> rfl

/-- **One step keeps the table compatible.** -/
theorem handle_exclusive (h : s.Exclusive) {op : Op} (hok : Ok s op) : (handle s op).2.Exclusive := by
  cases op with
  | lock r => exact (lock_compatible_iff h r).mpr (hok.1 r rfl)
  | unlock field => exact unlock_exclusive h field
  | delete r => exact h
  | put r => exact h
  | propPatch r => exact h
  | move r =>
    show Compatible _ _ (move s r).2.locks
    rw [move_locks]
    exact h
  | restart => exact h

/-! ## A locked resource -/

theorem hasLock_of_locked {resource : Bytes} (h : Locked Lock.resource s.locks resource) :
    hasLock s none (some resource) = false := by
  obtain ⟨l, hl, hr⟩ := h
  have hmem : l ∈ s.readLockByUri (some resource) := List.mem_filter.mpr ⟨hl, by simp [hr]⟩
  exact List.isEmpty_eq_false_iff.mpr (List.ne_nil_of_mem hmem)

theorem not_succeeds {status : Nat} (h : 300 ≤ status) : ¬ (Answer.finished status).Succeeds := by
  rintro ⟨status', heq, -, hlt⟩
  cases heq
  omega

theorem delete_refused {r : DeleteReq} (hif : r.hdrIf = none) (h : Locked Lock.resource s.locks r.uriPath) :
    ¬ (delete s r).Succeeds := by
  unfold delete
  rw [hif, hasLock_of_locked h]
  split <;> exact not_succeeds (by decide)

theorem put_refused {r : PutReq} (hif : r.hdrIf = none) (hbody : r.bytesIn = 0)
    (h : Locked Lock.resource s.locks r.uriPath) : ¬ (put s r).Succeeds := by
  unfold put
  rw [hif, hasLock_of_locked h, if_pos (c := r.bytesIn = 0 ∧ _) ⟨hbody, rfl⟩]
  split <;> exact not_succeeds (by decide)

theorem propPatch_refused {r : PropPatchReq} (hif : r.hdrIf = none) (h : Locked Lock.resource s.locks r.uriPath) :
    ¬ (propPatch s r).Succeeds := by
  unfold propPatch
  rw [hif, hasLock_of_locked h]
  split <;> exact not_succeeds (by decide)

theorem move_refused {r : MoveReq} (hmove : r.isMove = true) (hif : r.hdrIf = none)
    (h : Locked Lock.resource s.locks r.uriPath) : ¬ (move s r).1.Succeeds := by
  unfold move
  rw [hif, hasLock_of_locked h, if_pos (c := r.isMove = true ∧ _) ⟨hmove, rfl⟩]
  split <;> exact not_succeeds (by decide)

/-- **A request on a locked resource** without the token does not succeed. -/
theorem protected_of_tokenOk {op : Op} (h : TokenOk s op) : Protected s op := by
  intro resource hdrIf hguarded hlocked hsucceeds
  rcases h resource hdrIf hguarded hlocked with ⟨hif, hbody⟩ | hcarries
  · exfalso
    cases op with
    | delete r =>
      cases hguarded
      exact delete_refused hif hlocked hsucceeds
    | put r =>
      cases hguarded
      exact put_refused hif (not_not.mp hbody) hlocked hsucceeds
    | propPatch r =>
      cases hguarded
      exact propPatch_refused hif hlocked hsucceeds
    | move r =>
      dsimp only [Op.guarded] at hguarded
      split at hguarded
      · rename_i hmove
        cases hguarded
        exact move_refused hmove hif hlocked hsucceeds
      · cases hguarded
    | lock r => cases hguarded
    | unlock field => cases hguarded
    | restart => cases hguarded
  · exact hcarries

/-! ## Runs -/

theorem init_exclusive : State.init.Exclusive := compatible_nil

/-- **Locks are exclusive in every run whose requests meet the conditions**: no resource has an exclusive lock together with
another one, and a request for a locked resource succeeds only with the token. One step more keeps the locks exclusive, if
and only if it is not a LOCK that is wrongly granted. -/
theorem locks_respected (ops : List Op) {s : State} (hok : Run.Meets step Ok State.init ops)
    (hrun : Run.run step State.init ops = some s) :
    s.Exclusive ∧ (∀ op, TokenOk s op → Protected s op) ∧ ∀ r, (handle s (.lock r)).2.Exclusive ↔ LockOk s r := by
  have hexclusive : s.Exclusive := by
    have hstep : ∀ s op s', State.Exclusive s → Ok s op → step s op = some s' → State.Exclusive s' := by
      intro s op s' h hop hstep
      cases hstep
      exact handle_exclusive h hop
    exact Run.run_keeps hstep init_exclusive hok hrun
  exact ⟨hexclusive, fun op h => protected_of_tokenOk h, fun r => lock_compatible_iff hexclusive r⟩

def lockA (scope uuid : String) : LockReq :=
  ⟨ascii "/a", none, 0, 1, true, .ok false, true,
    some (ascii "lockinfo", [(ascii "lockscope", [ascii scope]), (ascii "locktype", [ascii "write"])]), ascii uuid⟩

/-- A DELETE of the file `/a`, with a token. -/
def deleteA (uuid : String) : DeleteReq :=
  ⟨ascii "/a", some (ascii ("(<opaquelocktoken:" ++ uuid ++ ">)")), false, false,
    ⟨⟨fun _ => none, fun _ => []⟩, true, true⟩, some (.file [])⟩

/-- Two clients share a lock, and the second one deletes the file. -/
def sampleShared : List Op := [.lock (lockA "shared" "1"), .lock (lockA "shared" "2"), .delete (deleteA "2")]

theorem locks_respected_sample : ∃ s, Run.run step State.init sampleShared = some s ∧ s.locks.length = 2 ∧
    (handle s (.delete (deleteA "2"))).1 = .finished 204 ∧ s.Exclusive ∧ (∀ op, TokenOk s op → Protected s op) ∧
    ∀ r, (handle s (.lock r)).2.Exclusive ↔ LockOk s r := by
  have hwanted : ∀ uuid created scope type, lockWanted (lockA "shared" uuid) = .ok (created, scope, type) →
      scope = ascii "shared" := by
    intro uuid created scope type h
    cases h
    rfl
  have hok : Run.Meets step Ok State.init sampleShared := by
    refine ⟨⟨fun r hr => ?_, fun _ _ h => by cases h⟩, fun s₁ h₁ => ?_⟩
    · exact fun _ _ _ _ _ _ => .inr (.inr fun l hl => by cases hl)
    cases h₁
    refine ⟨⟨fun r hr => ?_, fun _ _ h => by cases h⟩, fun s₂ h₂ => ?_⟩
    · cases hr
      intro created scope type _ _ h
      rw [hwanted _ _ _ _ h]
      exact .inr (.inr (by decide))
    cases h₂
    refine ⟨⟨nofun, fun resource hdrIf hguarded _ => .inr ?_⟩, fun _ _ => trivial⟩
    cases hguarded
    exact ⟨_, List.mem_of_getElem? (i := 1) rfl, rfl, _, rfl, by decide⟩
  exact ⟨_, rfl, by decide, by decide, locks_respected sampleShared hok rfl⟩

/-- **Two clients get an exclusive lock of one resource, and a third one deletes it.** -/
theorem locks_not_exclusive :
    (¬ ∀ ops s, Run.run step State.init ops = some s → s.Exclusive) ∧
    ¬ ∀ ops s, Run.run step State.init ops = some s → ∀ op, Protected s op := by
  constructor
  · intro h
    have hexclusive := h [.lock (lockA "exclusive" "1"), .lock (lockA "exclusive" "2")] _ rfl
    revert hexclusive
    unfold State.Exclusive Compatible
    decide
  · intro h
    have hprotected := h [.lock (lockA "exclusive" "1")] _ rfl (.delete (deleteA "0")) _ _ rfl
      ⟨_, List.mem_singleton.mpr rfl, rfl⟩ ⟨204, by decide, by decide, by decide⟩
    obtain ⟨l, hl, -, value, hvalue, hinfix⟩ := hprotected
    cases hvalue
    cases List.mem_singleton.mp hl
    revert hinfix
    decide

end Lighttpd.Webdav
