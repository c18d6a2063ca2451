import Yfs.Lock.Custody

/-!
# The fallback branches of the caching client

`acquire` has `default` branches and `rpc_acquire` a last line that return `NOENT` with
`threads_mutex` locked.  When condition waits return only after a signal they are never
reached: the shape of a client's record and queue, which `Lock.Refinement` has for every
reachable state, leaves no room for them.

This is about waits that return when they were signalled only.  With spurious wake-ups a thread may
take the lock out of its turn (`Lock.SpuriousWakes`), and the shapes no longer hold.

* `Pc.Requests` — the places of a thread between its acquire call and the server's answer.
* `FallbacksDead` — what holds of one client and one lock.
* `fallbacks_dead` — it holds in every reachable state.
-/

namespace Yfs.Lock

variable {C T L : Type*}

/-- The thread is inside `rpc_acquire`: its call is on its way, answered, or to be repeated
after the server's retry. -/
def Pc.Requests (pc : Pc C) : Prop :=
  pc = .calling ∨ pc.status.isSome ∨ ∃ signalled, pc = .waiting .retried signalled

/-- **The fallback branches are dead** at a client: no thread has taken one, no section that may
run now takes one, and the state of the record tells about the front of the queue what the code
relies on.

The sections are asked only where they may run: `acquire` for a thread that is idle, a wake-up for
one that was signalled, the reply for one whose call has come back. -/
structure FallbacksDead (s : LockState C T) (c : C) : Prop where
  never : ∀ t, s.pc c t ≠ .noent
  acquire : ∀ t, s.pc c t = .idle → ((s.client c).acquire t).2 ≠ .noent
  wake : ∀ t place, s.pc c t = .waiting place true → ((s.client c).wake place).2 ≠ .noent
  replied : ∀ t status, s.pc c t = .replied status →
    ((s.client c).rpcReturned status).2 ≠ .noent
  free : (s.client c).clientState = .free → (s.client c).threadsQueue = []
  locked : (s.client c).clientState = .locked → ∃ t rest, (s.client c).threadsQueue = t :: rest ∧
    (s.pc c t = .holding ∨ s.pc c t = .waiting .turn true)
  acquiring : (s.client c).clientState = .acquiring → ∃ t rest,
    (s.client c).threadsQueue = t :: rest ∧ (s.pc c t).Requests
  release : ∀ t, s.pc c t = .holding → ∃ rest, (s.client c).threadsQueue = t :: rest
  releasing : ∀ t place, s.pc c t = .releasing .thread place →
    ∃ rest, (s.client c).threadsQueue = t :: rest

namespace Shape

variable {lock : ClientLock T} {pc : T → Pc C} {phase : Phase} {handled : Bool} {t : T}

/-- A lock that is free at its client has no thread in its queue. -/
theorem queue_of_free (shape : Shape lock pc phase handled) (free : lock.clientState = .free) :
    lock.threadsQueue = [] := by
  cases shape with
  | empty queue _ _ => exact queue
  | front u rest _ _ _ _ client =>
      rw [free] at client
      cases client

/-- The front of a locked lock uses it, or was handed it and told so. -/
theorem front_of_locked (shape : Shape lock pc phase handled)
    (locked : lock.clientState = .locked) : ∃ t rest, lock.threadsQueue = t :: rest ∧
      (pc t = .holding ∨ pc t = .waiting .turn true) := by
  cases shape with
  | empty _ _ client =>
      rw [locked] at client
      cases client
  | front u rest queue _ _ _ client =>
      refine ⟨u, rest, queue, ?_⟩
      rw [locked] at client
      generalize lock.serverResponse = response at client
      generalize pc u = place at client ⊢
      cases client with
      | passed => exact .inr rfl
      | passedNoted => exact .inr rfl
      | holding => exact .inl rfl
      | holdingNoted => exact .inl rfl

/-- The front of a lock that is being acquired is in `rpc_acquire`. -/
theorem front_of_acquiring (shape : Shape lock pc phase handled)
    (acquiring : lock.clientState = .acquiring) : ∃ t rest, lock.threadsQueue = t :: rest ∧
      (pc t).Requests := by
  cases shape with
  | empty _ _ client =>
      rw [acquiring] at client
      cases client
  | front u rest queue _ _ _ client =>
      refine ⟨u, rest, queue, ?_⟩
      rw [acquiring] at client
      generalize lock.serverResponse = response at client
      generalize pc u = place at client ⊢
      have answered : ∀ {status}, place.status = some status → place.Requests := fun status =>
        .inr (.inl (Option.isSome_iff_exists.mpr ⟨_, status⟩))
      cases client with
      | calling => exact .inl rfl
      | asked status => exact answered status
      | nudged status => exact answered status
      | waiting => exact .inr (.inr ⟨false, rfl⟩)
      | signalled => exact .inr (.inr ⟨true, rfl⟩)
      | granted status => exact answered status
      | grantedNoted status => exact answered status

end Shape

section Runs

variable [LinearOrder C] [DecidableEq T] {s : LockState C T} {c : C}

/-- A section of `acquire` that can run does not end in `NOENT`. -/
theorem ReachLock.acquiring_ok (reach : ReachLock false s) {label : Label C T} {t : T}
    {result : ClientLock T × Outcome} (step : Step false label s (s.acquiring c t result)) :
    result.2 ≠ .noent := by
  intro noent
  have next : ReachLock false (s.acquiring c t result) := .step reach ⟨label, step⟩
  refine next.not_noent (c := c) (t := t) ?_
  rw [LockState.acquiring, LockState.setPc_pc_self, Function.update_self, noent]
  rfl

/-- **The fallback branches of the caching client are dead**, for any number of clients and
threads and in every state that they reach.

`Shape` says of every state of the record who is at the front of the queue, and where that thread
is; each fallback needs a state and a place that do not go together. -/
theorem fallbacks_dead {s : L → LockState C T} (reach : Reach false s) (lid : L) (c : C) :
    FallbacksDead (s lid) c := by
  have here := reach.lock lid
  obtain ⟨p, follows, -⟩ := reach_follows here
  have shape := follows.shape c
  constructor
  case never => exact fun t => here.not_noent
  case acquire => exact fun t idle => here.acquiring_ok (.acquire idle)
  case wake => exact fun t place waits => here.acquiring_ok (.wake waits (.inl rfl))
  case replied => exact fun t status replies => here.acquiring_ok (.replied replies)
  case free => exact shape.queue_of_free
  case locked => exact shape.front_of_locked
  case acquiring => exact shape.front_of_acquiring
  case release =>
      intro t holds
      obtain ⟨rest, queue, -⟩ := shape.of_active (t := t) (by simp [holds]) (by simp [holds])
      exact ⟨rest, queue⟩
  case releasing =>
      intro t place releases
      obtain ⟨rest, queue, -⟩ := shape.of_active (t := t) (by simp [releases]) (by simp [releases])
      exact ⟨rest, queue⟩

/-- Client 0 gets its `OK` while client 1 asks for the lock. -/
theorem fallbacks_dead_contended : ∃ s : Unit → LockState ℕ Unit, Reach false s ∧
    (s ()).pc 0 () = .replied .OK ∧ (((s ()).client 0).rpcReturned .OK).2 ≠ .noent := by
  obtain ⟨s, reach, replied, -⟩ := contended
  exact ⟨s, reach, replied, (fallbacks_dead reach () 0).replied () .OK replied⟩

end Runs

end Yfs.Lock
