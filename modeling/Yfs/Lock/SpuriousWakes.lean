import Yfs.Lock.Custody

/-!
# Condition waits that return without a signal

POSIX lets `pthread_cond_wait` return at any time.  Of the three waits in `acquire` two are
followed by `rpc_acquire`, which asks the server again; after the third, for the thread's turn
in the queue, the code takes the lock if it finds it `locked`, also when another thread has it.

That is the only way in which two threads of a client get the lock at once.  While no thread
takes its turn without a signal the queue decides who runs: all threads but the first wait for
their turn, whatever the record, the server and the other two waits do.

The invariant is about the queue alone and does not use the agreement with the server, which is lost
when a thread runs out of turn at some other place.  It is kept by every section because sections
only append to the queue, take its front off, or leave it.

* `two_threads_hold` — a wait that returns too early lets two threads in.
* `Queued` — the invariant of queue and threads.
* `SignalledReach` — the runs in which turns are taken on a signal only.
* `threads_exclude` — in such a run at most one thread of a client has returned from `acquire`.
-/

namespace Yfs.Lock

variable {C T L : Type*}

/-- `acquire` has returned and `release` was not called: with `OK`, or with `NOENT`. -/
def Pc.Returned (pc : Pc C) : Prop := pc = .holding ∨ pc = .noent

/-! ## Queue and threads -/

/-- The thread is inside `acquire` or `release`, or has the lock, and does not wait for its
turn. -/
def Pc.Active (pc : Pc C) : Prop := pc ≠ .idle ∧ pc ≠ .waiting .turn false

theorem Outcome.pc_ne_idle (outcome : Outcome) : (outcome.pc : Pc C) ≠ .idle := by
  cases outcome <;> simp [Outcome.pc]

theorem Answer.pc_ne_idle (answer : Answer) (caller : C) : answer.pc caller ≠ .idle := by
  cases answer <;> simp [Answer.pc]

/-- **The queue of a client and its threads**: those in the queue are those that use the lock, and
all but the first wait for their turn.

Nothing is said of the record and of the server.  That is why the invariant survives wake-ups
without a signal at the other two waits, after which record and server may no longer agree. -/
structure Queued (queue : List T) (pc : T → Pc C) : Prop where
  nodup : queue.Nodup
  mem_iff : ∀ t, t ∈ queue ↔ pc t ≠ .idle
  turns : ∀ t ∈ queue.tail, pc t = .waiting .turn false

namespace Queued

variable {queue : List T} {pc : T → Pc C} {t : T}

theorem nil : Queued ([] : List T) (fun _ => (.idle : Pc C)) :=
  ⟨.nil, by simp, by simp⟩

/-- A thread that does not wait for its turn is the first. -/
theorem first (queued : Queued queue pc) (active : (pc t).Active) : ∃ rest, queue = t :: rest := by
  have mem := (queued.mem_iff t).mpr active.1
  cases queue with
  | nil => cases mem
  | cons u rest =>
      rcases List.mem_cons.mp mem with rfl | mem
      · exact ⟨rest, rfl⟩
      · exact absurd (queued.turns t mem) active.2

/-- Two such threads are one. -/
theorem unique {u : T} (queued : Queued queue pc) (active : (pc t).Active)
    (active' : (pc u).Active) : t = u := by
  obtain ⟨rest, eq⟩ := queued.first active
  obtain ⟨rest', eq'⟩ := queued.first active'
  rw [eq] at eq'
  exact (List.cons.inj eq').1

variable [DecidableEq T]

/-- The first thread goes on. -/
theorem moveFirst {rest : List T} {new : Pc C} (queued : Queued (t :: rest) pc)
    (busy : new ≠ .idle) : Queued (t :: rest) (Function.update pc t new) := by
  refine ⟨queued.nodup, fun u => ?_, fun u mem => ?_⟩
  · by_cases eq : u = t
    · subst eq
      simp [busy]
    · rw [Function.update_of_ne eq]
      exact queued.mem_iff u
  · have ne : u ≠ t := by
      rintro rfl
      exact (List.nodup_cons.mp queued.nodup).1 mem
    rw [Function.update_of_ne ne]
    exact queued.turns u mem

theorem move {new : Pc C} (queued : Queued queue pc) (active : (pc t).Active) (busy : new ≠ .idle) :
    Queued queue (Function.update pc t new) := by
  obtain ⟨rest, rfl⟩ := queued.first active
  exact queued.moveFirst busy

/-- The first thread is signalled. -/
theorem signal {rest : List T} (queued : Queued (t :: rest) pc) :
    Queued (t :: rest) (Function.update pc t (pc t).signal) := by
  have busy : pc t ≠ .idle := (queued.mem_iff t).mp List.mem_cons_self
  refine queued.moveFirst ?_
  cases place : pc t with
  | idle => exact absurd place busy
  | _ => simp [Pc.signal]

/-- A thread comes to an empty queue. -/
theorem alone {new : Pc C} (queued : Queued [] pc) (busy : new ≠ .idle) :
    Queued [t] (Function.update pc t new) := by
  refine ⟨List.nodup_singleton t, fun u => ?_, nofun⟩
  by_cases eq : u = t
  · subst eq
    simp [busy]
  · have out := queued.mem_iff u
    simpa [eq] using out

/-- A thread queues up behind another. -/
theorem push {u : T} {rest : List T} (queued : Queued (u :: rest) pc) (idle : pc t = .idle) :
    Queued (u :: rest ++ [t]) (Function.update pc t (.waiting .turn false)) := by
  have new : t ∉ u :: rest := fun mem => (queued.mem_iff t).mp mem idle
  refine ⟨?_, fun v => ?_, fun v mem => ?_⟩
  · rw [List.nodup_append]
    refine ⟨queued.nodup, List.nodup_singleton t, ?_⟩
    rintro v mem _ last rfl
    rw [List.mem_singleton.mp last] at mem
    exact new mem
  · by_cases eq : v = t
    · subst eq
      simp
    · rw [Function.update_of_ne eq, ← queued.mem_iff v]
      simp [eq]
  · rw [List.cons_append, List.tail_cons] at mem
    rcases List.mem_append.mp mem with before | last
    · have ne : v ≠ t := by
        rintro rfl
        exact new (List.mem_cons_of_mem _ before)
      rw [Function.update_of_ne ne]
      exact queued.turns v before
    · rw [List.mem_singleton.mp last, Function.update_self]

/-- The first thread leaves. -/
theorem pop {rest : List T} (queued : Queued (t :: rest) pc) :
    Queued rest (Function.update pc t .idle) := by
  obtain ⟨out, nodup⟩ := List.nodup_cons.mp queued.nodup
  refine ⟨nodup, fun u => ?_, fun u mem => ?_⟩
  · by_cases eq : u = t
    · subst eq
      simp [out]
    · rw [Function.update_of_ne eq, ← queued.mem_iff u]
      simp [eq]
  · have behind := List.mem_of_mem_tail mem
    have ne : u ≠ t := by
      rintro rfl
      exact out behind
    rw [Function.update_of_ne ne]
    exact queued.turns u behind

end Queued

/-! ## All clients -/

/-- The front leaves and the next thread is the one to signal. -/
theorem popFront_eq {lock : ClientLock T} {t : T} {rest : List T} (stillCached : Bool)
    (queue : lock.threadsQueue = t :: rest) :
    (lock.popFront stillCached).1.threadsQueue = rest ∧
      (lock.popFront stillCached).2 = rest.head? := by
  cases rest with
  | nil => simp [ClientLock.popFront, queue]
  | cons u rest => simp [ClientLock.popFront, queue]

/-- Sections of `acquire` after its first one leave the queue alone. -/
theorem wake_queue (lock : ClientLock T) (place : WaitAt) :
    (lock.wake place).1.threadsQueue = lock.threadsQueue := by
  cases place with
  | turn =>
      unfold ClientLock.wake
      cases lock.clientState <;> rfl
  | released => rfl
  | retried => rfl

theorem rpcReturned_queue (lock : ClientLock T) (status : Status) :
    (lock.rpcReturned status).1.threadsQueue = lock.threadsQueue := by
  cases status with
  | OK => rfl
  | RETRY =>
      unfold ClientLock.rpcReturned
      dsimp only
      split <;> rfl

/-- Every client is so. -/
def AllQueued (s : LockState C T) : Prop := ∀ c, Queued (s.client c).threadsQueue (s.pc c)

namespace AllQueued

variable [LinearOrder C] {s : LockState C T} {c : C} {t : T}

/-- A record changes, its queue apart. -/
theorem setClient {lock : ClientLock T} (all : AllQueued s)
    (queue : lock.threadsQueue = (s.client c).threadsQueue) : AllQueued (s.setClient c lock) := by
  intro b
  by_cases eq : b = c
  · subst eq
    rw [LockState.setClient_client_self, queue]
    exact all b
  · rw [LockState.setClient_client_of_ne eq]
    exact all b

variable [DecidableEq T]

/-- The first thread of a client goes on. -/
theorem setPc {pc : Pc C} (all : AllQueued s) (active : (s.pc c t).Active) (busy : pc ≠ .idle) :
    AllQueued (s.setPc c t pc) := by
  intro b
  by_cases eq : b = c
  · subst eq
    rw [LockState.setPc_pc_self]
    exact (all b).move active busy
  · rw [LockState.setPc_pc_of_ne eq]
    exact all b

/-- A section ends with a signal to the first thread. -/
theorem signalled {result : ClientLock T × Option T}
    (others : ∀ b, b ≠ c → Queued (s.client b).threadsQueue (s.pc b))
    (here : Queued result.1.threadsQueue (s.pc c))
    (front : result.2 = result.1.threadsQueue.head?) : AllQueued (s.signalled c result) := by
  obtain ⟨lock, next⟩ := result
  dsimp only at here front
  subst front
  intro b
  by_cases eq : b = c
  · subst eq
    cases queue : lock.threadsQueue with
    | nil =>
        rw [queue] at here
        rw [List.head?_nil, LockState.signalled_none, LockState.setClient_client_self, queue]
        exact here
    | cons u rest =>
        rw [queue] at here
        rw [List.head?_cons, LockState.signalled_some, LockState.setPc_client,
          LockState.setClient_client_self, queue, LockState.setPc_pc_self]
        exact here.signal
  · cases queue : lock.threadsQueue with
    | nil =>
        rw [List.head?_nil, LockState.signalled_none, LockState.setClient_client_of_ne eq]
        exact others b eq
    | cons u rest =>
        rw [List.head?_cons, LockState.signalled_some, LockState.setPc_client,
          LockState.setClient_client_of_ne eq, LockState.setPc_pc_of_ne eq]
        exact others b eq

/-- The first thread leaves its client, and the next one is signalled. -/
theorem leave (all : AllQueued s) (active : (s.pc c t).Active) (lock : ClientLock T)
    (queue : lock.threadsQueue = (s.client c).threadsQueue) (stillCached : Bool) :
    AllQueued ((s.setPc c t .idle).signalled c (lock.popFront stillCached)) := by
  obtain ⟨rest, first⟩ := (all c).first active
  obtain ⟨left, next⟩ := popFront_eq stillCached (queue.trans first)
  refine signalled ?_ ?_ ?_
  · intro b ne
    rw [LockState.setPc_client, LockState.setPc_pc_of_ne ne]
    exact all b
  · rw [left, LockState.setPc_pc_self]
    have here := all c
    rw [first] at here
    exact here.pop
  · rw [left, next]

/-- A section of `acquire` by the first thread. -/
theorem acquiring {result : ClientLock T × Outcome} (all : AllQueued s)
    (active : (s.pc c t).Active) (queue : result.1.threadsQueue = (s.client c).threadsQueue) :
    AllQueued (s.acquiring c t result) := by
  exact setPc (all.setClient queue) active result.2.pc_ne_idle

/-- A thread calls `acquire`. -/
theorem acquire (all : AllQueued s) (idle : s.pc c t = .idle) :
    AllQueued (s.acquiring c t ((s.client c).acquire t)) := by
  have here := all c
  intro b
  by_cases eq : b = c
  · subst eq
    rw [LockState.acquiring, LockState.setPc_client, LockState.setClient_client_self,
      LockState.setPc_pc_self, LockState.setClient_pc]
    cases queue : (s.client b).threadsQueue with
    | nil =>
        rw [queue] at here
        have pushed : ((s.client b).acquire t).1.threadsQueue = [t] := by
          unfold ClientLock.acquire
          rw [queue]
          cases (s.client b).clientState <;> rfl
        rw [pushed]
        exact here.alone ((s.client b).acquire t).2.pc_ne_idle
    | cons u rest =>
        rw [queue] at here
        have waits : (s.client b).acquire t =
            ({ s.client b with threadsQueue := u :: rest ++ [t] }, .wait .turn) := by
          unfold ClientLock.acquire
          rw [queue]
          rfl
        rw [waits]
        exact here.push idle
  · rw [LockState.acquiring, LockState.setPc_client, LockState.setClient_client_of_ne eq,
      LockState.setPc_pc_of_ne eq, LockState.setClient_pc]
    exact all b

/-- A wait returns: it was not the wait for the turn, or it was signalled. -/
theorem wake {place : WaitAt} {signalled : Bool} (all : AllQueued s)
    (waits : s.pc c t = .waiting place signalled)
    (turns : place = .turn → signalled = true) :
    AllQueued (s.acquiring c t ((s.client c).wake place)) := by
  refine all.acquiring ⟨?_, ?_⟩ (wake_queue _ place)
  · rw [waits]
    exact nofun
  · rw [waits]
    rintro ⟨⟩
    exact absurd (turns rfl) nofun

/-- A handler's section, which signals the first thread of its client, and the rest of the call
that it was part of. -/
theorem handled {h : C} {result : ClientLock T × Option T} {who : Releaser C} {place : ReleaseAt C}
    {pc : Pc C} (all : AllQueued s) (releases : s.pc c t = .releasing who place)
    (queue : result.1.threadsQueue = (s.client h).threadsQueue)
    (front : result.2 = (s.client h).threadsQueue.head?) (busy : pc ≠ .idle) :
    AllQueued ((s.signalled h result).setPc c t pc) := by
  have signals : AllQueued (s.signalled h result) := by
    refine signalled (fun b _ => all b) ?_ ?_
    · rw [queue]
      exact all h
    · rw [queue, front]
  refine signals.setPc ?_ busy
  rw [LockState.signalled_pc_of_still (by rw [releases]; rfl), releases]
  exact ⟨nofun, nofun⟩

/-- **One step**, in which no thread takes its turn without a signal. -/
theorem step {s' : LockState C T} {label : Label C T} (all : AllQueued s)
    (step : Step true label s s')
    (turns : ∀ c t, s.pc c t = .waiting .turn false →
      ∃ signalled, s'.pc c t = .waiting .turn signalled) : AllQueued s' := by
  cases step with
  | acquire idle => exact all.acquire idle
  | @wake _ c t place signalled waits _ =>
      -- the other two waits may end at any time: their threads are in the queue all the same
      refine all.wake waits ?_
      rintro rfl
      by_contra unsignalled
      rw [Bool.not_eq_true] at unsignalled
      subst unsignalled
      -- after the wait for its turn the thread never waits for it again
      obtain ⟨signalled, still⟩ := turns c t waits
      rw [LockState.acquiring, LockState.setPc_pc_self, Function.update_self] at still
      unfold ClientLock.wake at still
      cases state : (s.client c).clientState <;> rw [state] at still <;> cases still
  | @serverAcquire _ c t calls =>
      have same : AllQueued { s with
          server := (s.server.acquire c).1
          answered := fun b =>
            if b = c then decide ((s.server.acquire c).2.status = Status.RETRY)
            else s.answered b } := all
      refine same.setPc ?_ ?_
      · show (s.pc c t).Active
        rw [calls]
        simp [Pc.Active]
      · exact (s.server.acquire c).2.pc_ne_idle c
  | readHolding reads _ =>
      refine all.setPc ?_ (by simp)
      rw [reads]
      simp [Pc.Active]
  | @revoke _ c t holder status revokes =>
      refine setPc (all.setClient ?_) ?_ ?_
      · unfold ClientLock.revokeHandler
        split <;> rfl
      · show (s.pc c t).Active
        rw [revokes]
        simp [Pc.Active]
      · split <;> simp
  | synced releases =>
      refine all.setPc ?_ (by simp)
      rw [releases]
      simp [Pc.Active]
  | @serverRelease _ c t who releases =>
      have same : AllQueued { s with server := s.server.release.1 } := all
      refine same.setPc ?_ (by simp)
      show (s.pc c t).Active
      rw [releases]
      simp [Pc.Active]
  | retry retries => exact all.handled retries rfl rfl (by simp)
  | revokeDone done => exact all.handled done rfl rfl (by simp)
  | @replied _ c t status replies =>
      refine all.acquiring ?_ (rpcReturned_queue _ status)
      rw [replies]
      simp [Pc.Active]
  | @release _ c t holds leaves =>
      refine setPc (all.setClient ?_) ?_ (by simp)
      · unfold ClientLock.release at leaves ⊢
        split at leaves
        next revoked => rw [if_pos revoked]
        next => cases leaves
      · show (s.pc c t).Active
        rw [holds]
        simp [Pc.Active]
  | @releaseLocal _ c t next holds stays =>
      have active : (s.pc c t).Active := by
        rw [holds]
        simp [Pc.Active]
      unfold ClientLock.release at stays ⊢
      split at stays
      next => cases stays
      next unrevoked =>
        obtain rfl := Sum.inr.inj stays
        rw [if_neg unrevoked]
        exact all.leave active { s.client c with clientState := .free } rfl true
  | @releaseDone _ c t done =>
      have active : (s.pc c t).Active := by
        rw [done]
        simp [Pc.Active]
      exact all.leave active
        { s.client c with clientState := .none, serverResponse := .empty } rfl false

end AllQueued

/-! ## Runs -/

variable [LinearOrder C] [DecidableEq T]

/-- No thread that waits for its turn goes on without a signal. -/
def TurnsOnSignal (s s' : L → LockState C T) : Prop :=
  ∀ lid c t, (s lid).pc c t = .waiting .turn false →
    ∃ signalled, (s' lid).pc c t = .waiting .turn signalled

/-- **The runs with waits that may return at any time**, those for the turn apart. -/
def SignalledReach : (L → LockState C T) → Prop :=
  Transition.Reachable (fun s => ∀ l, s l = .initial)
    fun s s' => SystemStep true s s' ∧ TurnsOnSignal s s'

theorem SignalledReach.allQueued {s : L → LockState C T} (reach : SignalledReach s) (lid : L) :
    AllQueued (s lid) := by
  refine Transition.Reachable.invariant (I := fun s => AllQueued (s lid)) ?_ ?_ reach
  · intro s start c
    rw [start lid]
    exact Queued.nil
  · rintro s s' - all ⟨⟨l, label, step, others, -, -⟩, turns⟩
    by_cases eq : lid = l
    · subst eq
      exact all.step step (turns lid)
    · rw [others lid eq]
      exact all

/-- **Threads of one client exclude each other** when waits return at any time, if only no thread
takes its turn without a signal: at most one has returned from `acquire` and not called `release`.

Protocol and server play no part in the proof: threads exclude each other by their places in the
queue of their client, and only a thread that leaves the queue lets the next one go. -/
theorem threads_exclude {s : L → LockState C T} (reach : SignalledReach s) (lid : L) (c : C)
    {t u : T} (returned : ((s lid).pc c t).Returned) (returned' : ((s lid).pc c u).Returned) :
    t = u := by
  have active : ∀ {pc : Pc C}, pc.Returned → pc.Active := by
    rintro pc (rfl | rfl)
    · exact ⟨nofun, nofun⟩
    · exact ⟨nofun, nofun⟩
  exact (reach.allQueued lid c).unique (active returned) (active returned')

/-! ## Two threads -/

/-- A step of the only lock, by threads that are in no call when they make one. -/
theorem systemStep_single {s s' : LockState ℕ ℕ} {label : Label ℕ ℕ} (step : Step true label s s')
    (unlocked : ∀ c t, s.pc c t ≠ .noent)
    (idle : ∀ c t, label.caller = some (c, t) → s.pc c t = .idle) :
    SystemStep true (fun _ : Unit => s) fun _ => s' :=
  ⟨(), label, step, fun _ ne => absurd rfl ne, fun c _ _ t => unlocked c t,
    fun c t calls _ busy => busy.1 (idle c t calls)⟩

/-- Where no thread is, none is after a thread has gone elsewhere. -/
theorem setPc_pc_ne {s : LockState ℕ ℕ} {c t : ℕ} {pc place : Pc ℕ}
    (nobody : ∀ c t, s.pc c t ≠ place) (elsewhere : pc ≠ place) :
    ∀ b u, (s.setPc c t pc).pc b u ≠ place := by
  intro b u
  rw [LockState.setPc_pc_apply]
  split
  · exact elsewhere
  · exact nobody b u

/-- Thread 0 has got the lock and thread 1 waits for its turn, in a run in which no wait returns. -/
theorem holding_and_waiting : ∃ s : LockState ℕ ℕ, SignalledReach (fun _ : Unit => s) ∧
    Reach true (fun _ : Unit => s) ∧ s.pc 0 0 = .holding ∧ s.pc 0 1 = .waiting .turn false ∧
    (s.client 0).clientState = .locked ∧ ∀ c t, s.pc c t ≠ .noent := by
  let s₀ : LockState ℕ ℕ := .initial
  let s₁ := s₀.acquiring 0 0 ((s₀.client 0).acquire 0)
  let s₂ := s₁.served 0 0
  let s₃ := s₂.acquiring 0 0 ((s₂.client 0).rpcReturned .OK)
  let s₄ := s₃.acquiring 0 1 ((s₃.client 0).acquire 1)
  have quiet₁ : ∀ c t, s₁.pc c t ≠ .noent := setPc_pc_ne (s := s₀) nofun nofun
  have quiet₂ : ∀ c t, s₂.pc c t ≠ .noent := setPc_pc_ne quiet₁ nofun
  have quiet₃ : ∀ c t, s₃.pc c t ≠ .noent := setPc_pc_ne quiet₂ nofun
  have quiet₄ : ∀ c t, s₄.pc c t ≠ .noent := setPc_pc_ne quiet₃ nofun
  have step₁ : SystemStep true (fun _ : Unit => s₀) fun _ => s₁ :=
    systemStep_single (.acquire rfl) nofun (by rintro c t ⟨⟩; rfl)
  have step₂ : SystemStep true (fun _ : Unit => s₁) fun _ => s₂ :=
    systemStep_single (.serverAcquire rfl) quiet₁ nofun
  have step₃ : SystemStep true (fun _ : Unit => s₂) fun _ => s₃ :=
    systemStep_single (.replied rfl) quiet₂ nofun
  have step₄ : SystemStep true (fun _ : Unit => s₃) fun _ => s₄ :=
    systemStep_single (.acquire rfl) quiet₃ (by rintro c t ⟨⟩; rfl)
  -- nobody waits for a turn before thread 1 does
  have turns₁ : ∀ c t, s₁.pc c t ≠ .waiting .turn false := setPc_pc_ne (s := s₀) nofun nofun
  have turns₂ : ∀ c t, s₂.pc c t ≠ .waiting .turn false := setPc_pc_ne turns₁ nofun
  have turns₃ : ∀ c t, s₃.pc c t ≠ .waiting .turn false := setPc_pc_ne turns₂ nofun
  have noTurns : ∀ {s s' : LockState ℕ ℕ}, (∀ c t, s.pc c t ≠ .waiting .turn false) →
      TurnsOnSignal (fun _ : Unit => s) fun _ => s' := fun none _ c t waits =>
    absurd waits (none c t)
  have start : ∀ l : Unit, (fun _ : Unit => s₀) l = .initial := fun _ => rfl
  refine ⟨s₄, ?_, ?_, rfl, rfl, rfl, quiet₄⟩
  · exact .step (.step (.step (.step (.init start) ⟨step₁, noTurns nofun⟩)
      ⟨step₂, noTurns turns₁⟩) ⟨step₃, noTurns turns₂⟩) ⟨step₄, noTurns turns₃⟩
  · exact .step (.step (.step (.step (.init start) step₁) step₂) step₃) step₄

/-- Thread 1 waits while thread 0 has the lock. -/
theorem threads_exclude_two : ∃ s : LockState ℕ ℕ, SignalledReach (fun _ : Unit => s) ∧
    s.pc 0 0 = .holding ∧ s.pc 0 1 = .waiting .turn false ∧
    ∀ u, (s.pc 0 u).Returned → 0 = u := by
  obtain ⟨s, reach, -, holds, waits, -, -⟩ := holding_and_waiting
  exact ⟨s, reach, holds, waits, fun u returned =>
    threads_exclude reach () 0 (.inl holds) returned⟩

/-- **Two threads of a client hold the lock**: thread 1 waits for its turn, its wait returns
without a signal, and it finds the lock `locked`. -/
theorem two_threads_hold : ∃ s : Unit → LockState ℕ ℕ, Reach true s ∧
    (s ()).pc 0 0 = .holding ∧ (s ()).pc 0 1 = .holding := by
  obtain ⟨s, -, reach, holds, waits, locked, quiet⟩ := holding_and_waiting
  have wakes : (s.client 0).wake .turn = ({ s.client 0 with clientState := .locked }, .ok) := by
    simp [ClientLock.wake, locked]
  have step : SystemStep true (fun _ : Unit => s)
      fun _ => s.acquiring 0 1 ((s.client 0).wake .turn) :=
    systemStep_single (.wake waits (.inr rfl)) quiet (by rintro _ _ ⟨⟩)
  refine ⟨_, .step reach step, ?_, ?_⟩
  · rw [wakes, LockState.acquiring, LockState.setPc_pc_apply, if_neg (by decide)]
    exact holds
  · rw [wakes, LockState.acquiring, LockState.setPc_pc_apply, if_pos ⟨rfl, rfl⟩]
    rfl

end Yfs.Lock
