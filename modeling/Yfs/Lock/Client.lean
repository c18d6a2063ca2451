import Mathlib.Data.List.Basic

/-!
# The client's record of a lock

`lock_client_cache` keeps one `client_cached_lock` for each lock id, and every
method works on it in sections under `threads_mutex`, with the calls to the server
and the condition waits between the sections.  A section is a function on the
record here; what the thread does next is its second result.

A record that does not exist yet is the zero record that `acquire` makes.

The sections are written as the code has them, in the code's words, and nothing is assumed of the
record they find: `Lock.Refinement` has the shapes that it really takes.  Condition variables are
not in the record.  Who waits where is known from the threads (`Lock.System`), and a section that
signals says so in its result.
-/

namespace Yfs.Lock

/-- `client_states_t`. -/
inductive ClientState where
  | none | free | locked | acquiring | releasing
  deriving DecidableEq, Repr

/-- `server_response_t`.  Nothing assigns `RETRY`. -/
inductive ServerResponse where
  | empty | revoke | retry | RETRY
  deriving DecidableEq, Repr

/-- The values of `lock_protocol::status` that an acquire call comes back with. -/
inductive Status where
  | OK | RETRY
  deriving DecidableEq, Repr

/-- `client_cached_lock`.  A condition variable in the queue stands for the thread
that waits on it. -/
structure ClientLock (T : Type*) where
  clientState : ClientState
  serverResponse : ServerResponse
  threadsQueue : List T
  deriving DecidableEq

/-- The three calls of `pthread_cond_wait`: for the thread's turn in the queue, for a
release in progress to end, for the server's retry. -/
inductive WaitAt where
  | turn | released | retried
  deriving DecidableEq, Repr

/-- How a section of `acquire` or `rpc_acquire` ends: with the acquire call to the server, in a
wait, with `OK`, or with `NOENT` and the mutex still locked.

The second half of a section is what the caller does next; where the code returns `NOENT` it has
not unlocked the mutex, which nobody will unlock from then on. -/
inductive Outcome where
  | call
  | wait (place : WaitAt)
  | ok
  | noent
  deriving DecidableEq, Repr

namespace ClientLock

variable {T : Type*}

/-- `new client_cached_lock()`. -/
def zero : ClientLock T := ⟨.none, .empty, []⟩

/-! ## Acquiring -/

/-- `rpc_acquire` up to its call. -/
def rpcAcquire (lock : ClientLock T) : ClientLock T × Outcome :=
  ({ lock with clientState := .acquiring }, .call)

/-- `acquire` up to its return, wait or call. -/
def acquire (t : T) (lock : ClientLock T) : ClientLock T × Outcome :=
  let pushed := { lock with threadsQueue := lock.threadsQueue ++ [t] }
  if lock.threadsQueue.isEmpty then
    match lock.clientState with
    | .none => rpcAcquire pushed
    | .free => ({ pushed with clientState := .locked }, .ok)
    | .releasing => (pushed, .wait .released)
    -- the default of the `switch`: the mutex stays locked
    | _ => (pushed, .noent)
  else (pushed, .wait .turn)

/-- The test of `rpc_acquire`'s loop. -/
def whileAcquiring (lock : ClientLock T) : ClientLock T × Outcome :=
  (lock, if lock.clientState = .acquiring then .call else .noent)

/-- `rpc_acquire` after its call. -/
def rpcReturned (status : Status) (lock : ClientLock T) : ClientLock T × Outcome :=
  match status with
  | .OK => ({ lock with clientState := .locked }, .ok)
  | .RETRY =>
      -- the server may have called back before its `RETRY` came
      if lock.serverResponse ≠ .retry then (lock, .wait .retried)
      else whileAcquiring { lock with serverResponse := .empty }

/-- What follows each wait. -/
def wake (place : WaitAt) (lock : ClientLock T) : ClientLock T × Outcome :=
  match place with
  -- a thread that gets its turn may find the lock there or have to ask for it
  | .turn =>
      match lock.clientState with
      | .none => rpcAcquire lock
      | .free | .locked => ({ lock with clientState := .locked }, .ok)
      | _ => (lock, .noent)
  | .released => rpcAcquire lock
  | .retried => whileAcquiring { lock with serverResponse := .empty }

/-! ## Releasing -/

/-- The end of `release`: the front leaves the queue and the next thread, if any, is
signalled. -/
def popFront (stillCached : Bool) (lock : ClientLock T) : ClientLock T × Option T :=
  match lock.threadsQueue.tail with
  | [] => ({ lock with threadsQueue := [] }, .none)
  -- the state is set for the thread that is signalled, if the lock is still here
  | t :: rest =>
      ({ lock with
          threadsQueue := t :: rest
          clientState := if stillCached then .locked else lock.clientState }, some t)

/-- `release` up to its end or its call: `.inl` is the release to the server, `.inr`
the local one with the thread it signals. -/
def release (lock : ClientLock T) : ClientLock T × (Unit ⊕ Option T) :=
  if lock.serverResponse = .revoke ∧ lock.threadsQueue.length ≤ 1 then
    ({ lock with clientState := .releasing }, .inl ())
  else
    -- the lock stays, also when it is revoked and other threads wait
    let popped := popFront true { lock with clientState := .free }
    (popped.1, .inr popped.2)

/-- `release` after its call. -/
def releaseDone (lock : ClientLock T) : ClientLock T × Option T :=
  popFront false { lock with clientState := .none, serverResponse := .empty }

/-! ## The server's callbacks -/

/-- `revoke_handler` up to its end or its call; the flag says that it releases. -/
def revokeHandler (lock : ClientLock T) : ClientLock T × Bool :=
  if lock.clientState = .free ∧ lock.threadsQueue.length ≤ 1 then
    -- nobody uses the lock: it is given back at once
    ({ lock with clientState := .releasing }, true)
  else ({ lock with serverResponse := .revoke }, false)

/-- `revoke_handler` after its call. -/
def revokeDone (lock : ClientLock T) : ClientLock T × Option T :=
  -- `server_response` is left as it is
  ({ lock with clientState := .none }, lock.threadsQueue.head?)

/-- `retry_handler`. -/
def retryHandler (lock : ClientLock T) : ClientLock T × Option T :=
  ({ lock with serverResponse := .retry }, lock.threadsQueue.head?)

end ClientLock

end Yfs.Lock
