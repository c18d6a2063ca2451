import Yfs.Lock.Server
import Yfs.Lib.Transition

/-!
# The caching lock protocol

Any number of clients, any number of threads in each, and one lock server.  A step
is one section under a mutex, or the server reading a field between two sections.
The calls in flight are part of the calling thread's program counter, together with
what runs on its behalf at the server and, for a revoke, at another client:

* an acquire call is `calling` until the server's section, then perhaps a revoke call
  (`readHolding`, `revoking`, `releasing (.handler ..)`), then `replied`;
* a release call, made by a thread or by a revoke handler, is `releasing _ .call`
  until the server's section, then perhaps a retry call, then `releasing _ .done`.

A call runs its handler once and returns the handler's result.  A condition wait
returns when it was signalled, and at any time when `spurious` is set.

Locks with different ids share only the threads and the client's mutex: a thread
starts a call when it is in no other, and after an `acquire` that returned `NOENT`,
with the mutex still locked, no section of that client runs any more.
-/

namespace Yfs.Lock

/-- How far a release has got: before the `sync`, before the server's section, before
the retry call to `next`, before the client's last section. -/
inductive ReleaseAt (C : Type*) where
  | sync
  | call
  | retry (next : C)
  | done
  deriving DecidableEq

/-- Who runs a release: a thread for its own client, or the revoke handler of client
`holder`, which the server called for an acquire that will end with `status`. -/
inductive Releaser (C : Type*) where
  | thread
  | handler (holder : C) (status : Status)
  deriving DecidableEq

/-- Where a thread is with respect to one lock. -/
inductive Pc (C : Type*) where
  | idle
  | waiting (place : WaitAt) (signalled : Bool)
  | calling
  | readHolding
  | revoking (holder : C) (status : Status)
  | releasing (who : Releaser C) (place : ReleaseAt C)
  | replied (status : Status)
  | holding
  | noent
  deriving DecidableEq

/-- What a thread does after a section of `acquire`. -/
def Outcome.pc {C : Type*} : Outcome → Pc C
  | .call => .calling
  | .wait place => .waiting place false
  | .ok => .holding
  | .noent => .noent

/-- What the server does for `caller` after the section of its `acquire`. -/
def Answer.pc {C : Type*} (caller : C) : Answer → Pc C
  | .reply status => .replied status
  | .revokeHolding => .readHolding
  | .revokeCaller => .revoking caller .OK

/-- `pthread_cond_signal` wakes a thread that waits and is lost otherwise. -/
def Pc.signal {C : Type*} : Pc C → Pc C
  | .waiting place _ => .waiting place true
  | pc => pc

/-- One lock, everywhere.  `answered` is history: the clients whose acquire was answered `RETRY`
and that were not granted the lock since.

There is one such state for each lock id.  What the locks share, the threads and the mutex of a
client, is in the conditions of `SystemStep`. -/
structure LockState (C T : Type*) where
  client : C → ClientLock T
  server : ServerLock C
  pc : C → T → Pc C
  answered : C → Bool

namespace LockState

variable {C T : Type*}

/-- Nobody has used the lock yet. -/
def initial : LockState C T where
  client := fun _ => .zero
  server := .zero
  pc := fun _ _ => .idle
  answered := fun _ => false

section SetClient

variable [DecidableEq C] {s : LockState C T} {b c : C} {lock : ClientLock T}

def setClient (s : LockState C T) (c : C) (lock : ClientLock T) : LockState C T :=
  { s with client := fun b => if b = c then lock else s.client b }

@[simp] theorem setClient_pc : (s.setClient c lock).pc = s.pc := rfl

@[simp] theorem setClient_server : (s.setClient c lock).server = s.server := rfl

@[simp] theorem setClient_answered : (s.setClient c lock).answered = s.answered := rfl

@[simp] theorem setClient_client_self : (s.setClient c lock).client c = lock := by
  simp [setClient]

@[simp] theorem setClient_client_of_ne (ne : b ≠ c) :
    (s.setClient c lock).client b = s.client b := by
  simp [setClient, ne]

end SetClient

variable [DecidableEq C] [DecidableEq T] {s : LockState C T} {b c : C} {t : T} {pc : Pc C}
  {lock : ClientLock T}

def setPc (s : LockState C T) (c : C) (t : T) (pc : Pc C) : LockState C T :=
  { s with pc := fun b u => if b = c ∧ u = t then pc else s.pc b u }

@[simp] theorem setPc_client : (s.setPc c t pc).client = s.client := rfl

@[simp] theorem setPc_server : (s.setPc c t pc).server = s.server := rfl

@[simp] theorem setPc_answered : (s.setPc c t pc).answered = s.answered := rfl

@[simp] theorem setPc_pc_self : (s.setPc c t pc).pc c = Function.update (s.pc c) t pc := by
  funext u
  simp [setPc, Function.update_apply]

@[simp] theorem setPc_pc_of_ne (ne : b ≠ c) : (s.setPc c t pc).pc b = s.pc b := by
  funext u
  simp [setPc, ne]

/-- A client's section that ends with a signal to the front of its queue. -/
def signalled (s : LockState C T) (c : C) (result : ClientLock T × Option T) : LockState C T :=
  match result.2 with
  | none => s.setClient c result.1
  | some t => (s.setClient c result.1).setPc c t (s.pc c t).signal

@[simp] theorem signalled_none : s.signalled c (lock, none) = s.setClient c lock := rfl

@[simp] theorem signalled_some : s.signalled c (lock, some t) =
    (s.setClient c lock).setPc c t (s.pc c t).signal := rfl

@[simp] theorem signalled_server (result : ClientLock T × Option T) :
    (s.signalled c result).server = s.server := by
  obtain ⟨lock, none | t⟩ := result <;> rfl

@[simp] theorem signalled_answered (result : ClientLock T × Option T) :
    (s.signalled c result).answered = s.answered := by
  obtain ⟨lock, none | t⟩ := result <;> rfl

/-- A section of `acquire`. -/
def acquiring (s : LockState C T) (c : C) (t : T) (result : ClientLock T × Outcome) :
    LockState C T :=
  (s.setClient c result.1).setPc c t result.2.pc

end LockState

/-- What a step does, as far as threads and mutexes are concerned. -/
inductive Label (C T : Type*) where
  | acquire (c : C) (t : T)
  | release (c : C) (t : T)
  | client (c : C)
  | synced (c : C)
  | server

variable {C T : Type*}

/-- The client whose `threads_mutex` the step takes. -/
def Label.mutex : Label C T → Option C
  | .acquire c _ | .release c _ | .client c => some c
  | .synced _ | .server => none

/-- The thread that makes a new call. -/
def Label.caller : Label C T → Option (C × T)
  | .acquire c t | .release c t => some (c, t)
  | _ => none

/-- The client that a release is for. -/
def Releaser.client (caller : C) : Releaser C → C
  | .thread => caller
  | .handler holder _ => holder

section Steps

variable [LinearOrder C] [DecidableEq T]

/-- The server's section for an acquire call of client `c`. -/
def LockState.served (s : LockState C T) (c : C) (t : T) : LockState C T :=
  { s with
    server := (s.server.acquire c).1
    answered := fun b =>
      if b = c then decide ((s.server.acquire c).2.status = Status.RETRY) else s.answered b
  }.setPc c t ((s.server.acquire c).2.pc c)

open LockState

/-- One step of one lock.

Each constructor is a section of the code under one mutex, named after what lets the thread run
it, and its result is computed by the function that stands for that section.  With `spurious` a
condition wait may return at any time. -/
inductive Step (spurious : Bool) : Label C T → LockState C T → LockState C T → Prop where
  /-- `acquire` is called. -/
  | acquire {s : LockState C T} {c : C} {t : T} (idle : s.pc c t = .idle) :
      Step spurious (.acquire c t) s (s.acquiring c t ((s.client c).acquire t))
  /-- A condition wait returns. -/
  | wake {s : LockState C T} {c : C} {t : T} {place : WaitAt} {signalled : Bool}
      (waits : s.pc c t = .waiting place signalled) (wakes : signalled = true ∨ spurious = true) :
      Step spurious (.client c) s (s.acquiring c t ((s.client c).wake place))
  /-- The server's section for an acquire call. -/
  | serverAcquire {s : LockState C T} {c : C} {t : T} (calls : s.pc c t = .calling) :
      Step spurious .server s (s.served c t)
  /-- The server reads `client_holding` for the revoke call, its mutex unlocked. -/
  | readHolding {s : LockState C T} {c : C} {t : T} {holder : C} (reads : s.pc c t = .readHolding)
      (holds : s.server.clientHolding = some holder) :
      Step spurious .server s (s.setPc c t (.revoking holder .RETRY))
  /-- `revoke_handler` runs at the holder, up to its end or its call. -/
  | revoke {s : LockState C T} {c : C} {t : T} {holder : C} {status : Status}
      (revokes : s.pc c t = .revoking holder status) :
      Step spurious (.client holder) s
        ((s.setClient holder (s.client holder).revokeHandler.1).setPc c t
          (if (s.client holder).revokeHandler.2 then .releasing (.handler holder status) .sync
            else .replied status))
  /-- The `sync` of a release has returned. -/
  | synced {s : LockState C T} {c : C} {t : T} {who : Releaser C}
      (releases : s.pc c t = .releasing who .sync) :
      Step spurious (.synced (who.client c)) s (s.setPc c t (.releasing who .call))
  /-- The server's section for a release call. -/
  | serverRelease {s : LockState C T} {c : C} {t : T} {who : Releaser C}
      (releases : s.pc c t = .releasing who .call) :
      Step spurious .server s
        ({ s with server := s.server.release.1 }.setPc c t
          (.releasing who (s.server.release.2.elim .done .retry)))
  /-- `retry_handler` runs at the next client. -/
  | retry {s : LockState C T} {c : C} {t : T} {who : Releaser C} {next : C}
      (retries : s.pc c t = .releasing who (.retry next)) :
      Step spurious (.client next) s
        ((s.signalled next (s.client next).retryHandler).setPc c t (.releasing who .done))
  /-- The last section of `revoke_handler`. -/
  | revokeDone {s : LockState C T} {c : C} {t : T} {holder : C} {status : Status}
      (done : s.pc c t = .releasing (.handler holder status) .done) :
      Step spurious (.client holder) s
        ((s.signalled holder (s.client holder).revokeDone).setPc c t (.replied status))
  /-- The reply to an acquire call arrives. -/
  | replied {s : LockState C T} {c : C} {t : T} {status : Status}
      (replies : s.pc c t = .replied status) :
      Step spurious (.client c) s (s.acquiring c t ((s.client c).rpcReturned status))
  /-- `release` is called for a revoked lock that no other thread waits for. -/
  | release {s : LockState C T} {c : C} {t : T} (holds : s.pc c t = .holding)
      (leaves : (s.client c).release.2 = .inl ()) :
      Step spurious (.release c t) s
        ((s.setClient c (s.client c).release.1).setPc c t (.releasing .thread .sync))
  /-- `release` is called and the lock stays at the client. -/
  | releaseLocal {s : LockState C T} {c : C} {t : T} {next : Option T}
      (holds : s.pc c t = .holding) (stays : (s.client c).release.2 = .inr next) :
      Step spurious (.release c t) s
        ((s.setPc c t .idle).signalled c ((s.client c).release.1, next))
  /-- The last section of `release`. -/
  | releaseDone {s : LockState C T} {c : C} {t : T} (done : s.pc c t = .releasing .thread .done) :
      Step spurious (.client c) s
        ((s.setPc c t .idle).signalled c (s.client c).releaseDone)

/-! ## All locks together -/

variable {L : Type*}

/-- A thread is inside a call on the lock. -/
def Pc.Busy (pc : Pc C) : Prop := pc ≠ .idle ∧ pc ≠ .holding ∧ pc ≠ .noent

/-- One step on one lock: the mutex it takes is not left locked, and a thread that makes a call is
in no other.

The two conditions are all that the locks have to do with each other.  A thread in a call does
nothing else, but it may hold other locks meanwhile; and a client whose mutex was never unlocked
runs no section on any lock. -/
def SystemStep (spurious : Bool) (s s' : L → LockState C T) : Prop :=
  ∃ lid label, Step spurious label (s lid) (s' lid) ∧ (∀ l, l ≠ lid → s' l = s l) ∧
    (∀ c, label.mutex = some c → ∀ l t, (s l).pc c t ≠ .noent) ∧
    ∀ c t, label.caller = some (c, t) → ∀ l, ¬ ((s l).pc c t).Busy

/-- The states of the protocol, lock by lock. -/
def Reach (spurious : Bool) : (L → LockState C T) → Prop :=
  Transition.Reachable (fun s => ∀ l, s l = .initial) (SystemStep spurious)

/-- The states of a single lock. -/
def ReachLock (spurious : Bool) : LockState C T → Prop :=
  Transition.Reachable (fun s => s = .initial) fun s s' => ∃ label, Step spurious label s s'

/-- Each lock of the system runs on its own. -/
theorem Reach.lock {spurious : Bool} {s : L → LockState C T} (reach : Reach spurious s) (lid : L) :
    ReachLock spurious (s lid) := by
  induction reach with
  | init start => exact .init (start lid)
  | step _ step ih =>
      obtain ⟨l, label, step, others, -, -⟩ := step
      by_cases h : lid = l
      · subst h
        exact .step ih ⟨label, step⟩
      · rw [others lid h]
        exact ih

end Steps

end Yfs.Lock
