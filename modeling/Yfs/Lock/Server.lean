import Yfs.Lock.Client
import Mathlib.Data.Finset.Max

/-!
# The server's record of a lock

`lock_server_cache` keeps one `server_lock` for each lock id.  Client ids are the
elements of a linear order: `clients_queue` is a `std::set` of strings, and its
`begin()` is the least.  An empty string is `none`.

Each of the two methods has one section under the server's mutex, and perhaps a call to a client
after it.  The section is a function here, and its second result says which call follows.
-/

namespace Yfs.Lock

/-- `server_states_t`. -/
inductive ServerState where
  | none | locked | revoking | retrying
  deriving DecidableEq, Repr

/-- `server_lock`. -/
structure ServerLock (C : Type*) where
  serverState : ServerState
  clientHolding : Option C
  clientRetrying : Option C
  clientsQueue : Finset C

/-- What follows the section of `lock_server_cache::acquire`: a return, a revoke call to
`client_holding` and then `RETRY`, or a revoke call to the caller and then `OK`. -/
inductive Answer where
  | reply (status : Status)
  | revokeHolding
  | revokeCaller
  deriving DecidableEq, Repr

/-- The status the answer ends with. -/
def Answer.status : Answer → Status
  | .reply status => status
  | .revokeHolding => .RETRY
  | .revokeCaller => .OK

namespace ServerLock

variable {C : Type*}

/-- The record `acquire` makes for a new lock id. -/
def zero : ServerLock C := ⟨.none, .none, .none, ∅⟩

variable [LinearOrder C]

/-- The section of `lock_server_cache::acquire`. -/
def acquire (id : C) (lock : ServerLock C) : ServerLock C × Answer :=
  match lock.serverState with
  | .none => ({ lock with clientHolding := some id, serverState := .locked }, .reply .OK)
  -- the caller waits, and the holder is asked for the lock
  | .locked =>
      ({ lock with serverState := .revoking, clientsQueue := insert id lock.clientsQueue },
        .revokeHolding)
  | .revoking => ({ lock with clientsQueue := insert id lock.clientsQueue }, .reply .RETRY)
  | .retrying =>
      if some id = lock.clientRetrying then
        let granted :=
          { lock with clientHolding := some id, clientRetrying := .none, serverState := .locked }
        -- others wait still, so the lock is revoked as soon as it is given
        if lock.clientsQueue.Nonempty then
          ({ granted with serverState := .revoking }, .revokeCaller)
        else (granted, .reply .OK)
      else ({ lock with clientsQueue := insert id lock.clientsQueue }, .reply .RETRY)

/-- The section of `lock_server_cache::release`, with the client to send the retry
to. -/
def release (lock : ServerLock C) : ServerLock C × Option C :=
  let cleared := { lock with clientHolding := .none }
  if waiting : lock.clientsQueue.Nonempty then
    -- the queue is a `std::set`, so its first element is the least id
    let next := lock.clientsQueue.min' waiting
    ({ cleared with
        clientsQueue := lock.clientsQueue.erase next
        clientRetrying := some next
        serverState := .retrying }, some next)
  else ({ cleared with serverState := .none }, .none)

/-! ## Case by case -/

variable {lock : ServerLock C} {id : C}

theorem acquire_none (state : lock.serverState = .none) : lock.acquire id =
    ({ lock with clientHolding := some id, serverState := .locked }, .reply .OK) := by
  rw [acquire, state]

theorem acquire_locked (state : lock.serverState = .locked) : lock.acquire id =
    ({ lock with serverState := .revoking, clientsQueue := insert id lock.clientsQueue },
      .revokeHolding) := by
  rw [acquire, state]

theorem acquire_revoking (state : lock.serverState = .revoking) : lock.acquire id =
    ({ lock with clientsQueue := insert id lock.clientsQueue }, .reply .RETRY) := by
  simp only [acquire, state]

theorem acquire_retrying_other (state : lock.serverState = .retrying)
    (other : some id ≠ lock.clientRetrying) : lock.acquire id =
    ({ lock with clientsQueue := insert id lock.clientsQueue }, .reply .RETRY) := by
  simp only [acquire, state, if_neg other]

theorem acquire_retrying_last (state : lock.serverState = .retrying)
    (mine : some id = lock.clientRetrying) (last : lock.clientsQueue = ∅) : lock.acquire id =
    ({ lock with clientHolding := some id, clientRetrying := .none, serverState := .locked },
      .reply .OK) := by
  simp only [acquire, state, if_pos mine, last, Finset.not_nonempty_empty, if_false]

theorem acquire_retrying_more (state : lock.serverState = .retrying)
    (mine : some id = lock.clientRetrying) (more : lock.clientsQueue.Nonempty) :
    lock.acquire id =
      ({ lock with clientHolding := some id, clientRetrying := .none, serverState := .revoking },
        .revokeCaller) := by
  simp only [acquire, state, if_pos mine, if_pos more]

theorem release_empty (last : lock.clientsQueue = ∅) : lock.release =
    ({ lock with clientHolding := .none, serverState := .none }, .none) := by
  simp [release, last]

/-- The next client is one that waits. -/
theorem release_nonempty (more : lock.clientsQueue.Nonempty) : ∃ next ∈ lock.clientsQueue,
    lock.release =
      ({ serverState := .retrying
         clientHolding := .none
         clientRetrying := some next
         clientsQueue := lock.clientsQueue.erase next }, some next) := by
  refine ⟨_, lock.clientsQueue.min'_mem more, ?_⟩
  rw [release, dif_pos more]

end ServerLock

end Yfs.Lock
