import Yfs.Client.System
import Yfs.Lock.Custody

/-!
# Threads and their locks

What the clients' threads do agrees with where the locks see them, in every state that
the whole system reaches: each lock is in a state that it reaches on its own, a thread
that is inside a call of a lock is in that call, and a thread that is in no call rests at
every lock.

This is the bridge between the two halves of the state.  The locks are modelled on their own
(`Lock.System`), where a thread is a program counter, and the clients run programs; both say
where a thread is.  With the agreement every result on the lock protocol holds in the whole
system.

* `Placed` — the agreement.
* `Reach.placed` — it holds in every reachable state.
* `Reach.unsynced` — the `sync` of a release is whole before the release comes to it.
-/

namespace Yfs.Client

open Storage Lock

variable {C T Op Res σ : Type}

/-- The call that a thread is in, with its lock. -/
def Thread.call : Thread Op Res → Option (CallKind × ℕ)
  | .idle | .run _ _ => none
  | .acquiring _ lid _ => some (.acquire, lid)
  | .releasing _ lid _ => some (.release, lid)

/-! ## Reading an updated state -/

namespace State

variable {s : State C T Op Res σ} {b c : C} {t u : T} {lid l eid e : ℕ} {lock : LockState C T}
  {event : Event C T Op Res} {note : Option Note}

@[simp] theorem record_locks : (s.record event).locks = s.locks := rfl
@[simp] theorem record_cache : (s.record event).cache = s.cache := rfl
@[simp] theorem record_server : (s.record event).server = s.server := rfl
@[simp] theorem record_thread : (s.record event).thread = s.thread := rfl
@[simp] theorem record_sync : (s.record event).sync = s.sync := rfl
@[simp] theorem record_history : (s.record event).history = s.history ++ [event] := rfl

@[simp] theorem recordNote_locks : (s.recordNote c t note).locks = s.locks := by
  cases note <;> rfl
@[simp] theorem recordNote_cache : (s.recordNote c t note).cache = s.cache := by
  cases note <;> rfl
@[simp] theorem recordNote_server : (s.recordNote c t note).server = s.server := by
  cases note <;> rfl
@[simp] theorem recordNote_thread : (s.recordNote c t note).thread = s.thread := by
  cases note <;> rfl
@[simp] theorem recordNote_sync : (s.recordNote c t note).sync = s.sync := by
  cases note <;> rfl

@[simp] theorem setLock_cache : (s.setLock lid lock).cache = s.cache := rfl
@[simp] theorem setLock_server : (s.setLock lid lock).server = s.server := rfl
@[simp] theorem setLock_thread : (s.setLock lid lock).thread = s.thread := rfl
@[simp] theorem setLock_sync : (s.setLock lid lock).sync = s.sync := rfl
@[simp] theorem setLock_history : (s.setLock lid lock).history = s.history := rfl
@[simp] theorem setLock_locks_self : (s.setLock lid lock).locks lid = lock := by
  simp [setLock]
@[simp] theorem setLock_locks_of_ne (ne : l ≠ lid) :
    (s.setLock lid lock).locks l = s.locks l := by
  simp [setLock, Function.update_of_ne ne]

section SetEntry

variable [DecidableEq C] {entry : Entry}

@[simp] theorem setEntry_locks : (s.setEntry c eid entry).locks = s.locks := rfl
@[simp] theorem setEntry_server : (s.setEntry c eid entry).server = s.server := rfl
@[simp] theorem setEntry_thread : (s.setEntry c eid entry).thread = s.thread := rfl
@[simp] theorem setEntry_sync : (s.setEntry c eid entry).sync = s.sync := rfl
@[simp] theorem setEntry_history : (s.setEntry c eid entry).history = s.history := rfl
@[simp] theorem setEntry_cache_self : (s.setEntry c eid entry).cache c eid = entry := by
  simp [setEntry]
theorem setEntry_cache_of_ne (ne : ¬ (b = c ∧ e = eid)) :
    (s.setEntry c eid entry).cache b e = s.cache b e := by
  simp [setEntry, ne]

end SetEntry

variable [DecidableEq C] [DecidableEq T] {thread : Thread Op Res} {prog : Prog Unit}

@[simp] theorem setThread_locks : (s.setThread c t thread).locks = s.locks := rfl
@[simp] theorem setThread_cache : (s.setThread c t thread).cache = s.cache := rfl
@[simp] theorem setThread_server : (s.setThread c t thread).server = s.server := rfl
@[simp] theorem setThread_sync : (s.setThread c t thread).sync = s.sync := rfl
@[simp] theorem setThread_history : (s.setThread c t thread).history = s.history := rfl
@[simp] theorem setThread_thread_self : (s.setThread c t thread).thread c t = thread := by
  simp [setThread]
theorem setThread_thread_of_ne (ne : ¬ (b = c ∧ u = t)) :
    (s.setThread c t thread).thread b u = s.thread b u := by
  simp [setThread, ne]

@[simp] theorem setSync_locks : (s.setSync lid c t prog).locks = s.locks := rfl
@[simp] theorem setSync_cache : (s.setSync lid c t prog).cache = s.cache := rfl
@[simp] theorem setSync_server : (s.setSync lid c t prog).server = s.server := rfl
@[simp] theorem setSync_thread : (s.setSync lid c t prog).thread = s.thread := rfl
@[simp] theorem setSync_history : (s.setSync lid c t prog).history = s.history := rfl
@[simp] theorem setSync_sync_self : (s.setSync lid c t prog).sync lid c t = prog := by
  simp [setSync]
theorem setSync_sync_of_ne (ne : ¬ (l = lid ∧ b = c ∧ u = t)) :
    (s.setSync lid c t prog).sync l b u = s.sync l b u := by
  simp [setSync, ne]

end State

/-! ## The agreement -/

/-- Where a call ends: with the lock or without it. -/
def Pc.afterCall : CallKind → Pc C
  | .acquire => .holding
  | .release => .idle

/-- A thread in `call` is at `pc` of lock `lid`: in the call or at its end when the call is
for that lock, and at rest otherwise. -/
def Agrees (call : Option (CallKind × ℕ)) (lid : ℕ) (pc : Pc C) : Prop :=
  match call with
  | none => pc.call = none
  | some (kind, l) =>
      if l = lid then pc.call = some kind ∨ pc = Pc.afterCall kind else pc.call = none

/-- A thread moves on inside its call, or to its end. -/
theorem Agrees.moves {call : Option (CallKind × ℕ)} {lid : ℕ} {pc pc' : Pc C} {kind : CallKind}
    (agrees : Agrees call lid pc) (old : pc.call = some kind)
    (new : pc'.call = some kind ∨ pc' = Pc.afterCall kind) : Agrees call lid pc' := by
  match call, agrees with
  | none, agrees =>
      rw [Agrees, old] at agrees
      cases agrees
  | some (kind', l), agrees =>
      unfold Agrees at agrees ⊢
      simp only at agrees ⊢
      split at agrees
      next same =>
          rw [if_pos same]
          rw [old] at agrees
          rcases agrees with eq | eq
          · cases eq
            exact new
          · cases kind' <;> rw [eq] at old <;> cases old
      next other =>
          rw [old] at agrees
          cases agrees

/-- A step of a lock keeps the agreement. -/
theorem Agrees.goes {call : Option (CallKind × ℕ)} {lid : ℕ} {pc pc' : Pc C}
    (agrees : Agrees call lid pc) (goes : pc.Goes pc') (notNoent : pc' ≠ .noent) :
    Agrees call lid pc' := by
  cases goes with
  | stays => exact agrees
  | acquires old new => exact agrees.moves old (new.imp_right fun h => h.resolve_right notNoent)
  | releases old new => exact agrees.moves old new

variable [LinearOrder C] [DecidableEq T] {m : Machine C T Op Res σ} {start : σ → Prop}
  {s s' : State C T Op Res σ}

/-- **Threads are where their locks see them.**

A thread in a call is inside one lock only, that of the call, and rests at all others. -/
structure Placed (s : State C T Op Res σ) : Prop where
  lock : ∀ lid, ReachLock false (s.locks lid)
  thread : ∀ c t lid, Agrees (s.thread c t).call lid ((s.locks lid).pc c t)

namespace Placed

theorem initial (server : σ) : Placed (.initial server : State C T Op Res σ) where
  lock _ := .init rfl
  thread _ _ _ := rfl

/-- A thread that is in no call rests. -/
theorem rests {c : C} {t : T} (placed : Placed s) (old : (s.thread c t).call = none) (lid : ℕ) :
    ((s.locks lid).pc c t).call = none := by
  have agrees := placed.thread c t lid
  rw [old] at agrees
  exact agrees

/-- A thread that gets a lock, and makes no new call, is in its `acquire`. -/
theorem acquires {c : C} {t : T} {lid : ℕ} {pc : Pc C} (placed : Placed s)
    (goes : ((s.locks lid).pc c t).Goes pc) (free : (s.locks lid).pc c t ≠ .holding)
    (holds : pc = .holding) : ∃ op next, s.thread c t = .acquiring op lid next := by
  have agrees := placed.thread c t lid
  have old : ((s.locks lid).pc c t).call = some .acquire := by
    cases goes with
    | stays => exact absurd holds free
    | acquires old _ => exact old
    | releases _ new => rcases new with new | new <;> rw [holds] at new <;> cases new
  cases here : s.thread c t with
  | acquiring op l next =>
      rw [here] at agrees
      by_cases same : l = lid
      · subst same
        exact ⟨op, next, rfl⟩
      · simp [Agrees, Thread.call, same, old] at agrees
  | releasing op l next =>
      rw [here] at agrees
      by_cases same : l = lid
      · subst same
        simp only [Agrees, Thread.call, if_true, old, Pc.afterCall] at agrees
        rcases agrees with eq | eq
        · cases eq
        · rw [eq] at old
          cases old
      · simp [Agrees, Thread.call, same, old] at agrees
  | idle =>
      rw [here] at agrees
      simp [Agrees, Thread.call, old] at agrees
  | run op prog =>
      rw [here] at agrees
      simp [Agrees, Thread.call, old] at agrees

/-- The state of one thread changes, to one that rests where the thread does. -/
theorem setThread {c : C} {t : T} {thread : Thread Op Res} (placed : Placed s)
    (locks : s'.locks = s.locks) (threads : s'.thread = (s.setThread c t thread).thread)
    (new : thread.call = none) (rests : ∀ lid, ((s.locks lid).pc c t).call = none) :
    Placed s' := by
  refine ⟨fun lid => by rw [locks]; exact placed.lock lid, fun b u lid => ?_⟩
  rw [threads, locks]
  by_cases eq : b = c ∧ u = t
  · obtain ⟨rfl, rfl⟩ := eq
    rw [State.setThread_thread_self, new]
    exact rests lid
  · rw [State.setThread_thread_of_ne eq]
    exact placed.thread b u lid

/-- A call has ended at its lock. -/
theorem ended {c : C} {t : T} {kind : CallKind} {lid : ℕ} (placed : Placed s)
    (call : (s.thread c t).call = some (kind, lid))
    (done : ((s.locks lid).pc c t).call = none) (l : ℕ) : ((s.locks l).pc c t).call = none := by
  have agrees := placed.thread c t l
  rw [call] at agrees
  unfold Agrees at agrees
  simp only at agrees
  split at agrees
  next eq =>
      subst eq
      exact done
  next ne => exact agrees

/-- A lock moves and no thread makes a call. -/
theorem setLock {lid : ℕ} {label : Label C T} {lock : LockState C T} (placed : Placed s)
    (step : Lock.Step false label (s.locks lid) lock) (other : label.caller = none) :
    Placed (s.setLock lid lock) := by
  have reach : ReachLock false lock := .step (placed.lock lid) ⟨label, step⟩
  refine ⟨fun l => ?_, fun b u l => ?_⟩ <;> by_cases same : l = lid
  · subst same
    rw [State.setLock_locks_self]
    exact reach
  · rw [State.setLock_locks_of_ne same]
    exact placed.lock l
  · subst same
    rw [State.setLock_locks_self]
    exact (placed.thread b u l).goes (step.goes (by simp [other])) reach.not_noent
  · rw [State.setLock_locks_of_ne same]
    exact placed.thread b u l

/-- A thread makes a call. -/
theorem calls {lid : ℕ} {c : C} {t : T} {label : Label C T} {lock : LockState C T}
    {kind : CallKind} {thread : Thread Op Res} (placed : Placed s)
    (step : Lock.Step false label (s.locks lid) lock) (caller : label.caller = some (c, t))
    (old : (s.thread c t).call = none) (call : thread.call = some (kind, lid))
    (new : (lock.pc c t).call = some kind ∨ lock.pc c t = Pc.afterCall kind) :
    Placed ((s.setLock lid lock).setThread c t thread) := by
  have reach : ReachLock false lock := .step (placed.lock lid) ⟨label, step⟩
  refine ⟨fun l => ?_, fun b u l => ?_⟩ <;> rw [State.setThread_locks] <;>
    by_cases same : l = lid
  · subst same
    rw [State.setLock_locks_self]
    exact reach
  · rw [State.setLock_locks_of_ne same]
    exact placed.lock l
  · subst same
    rw [State.setLock_locks_self]
    by_cases here : b = c ∧ u = t
    · obtain ⟨rfl, rfl⟩ := here
      rw [State.setThread_thread_self, call]
      simpa [Agrees] using new
    · rw [State.setThread_thread_of_ne here]
      refine (placed.thread b u l).goes (step.goes ?_) reach.not_noent
      rw [caller]
      rintro eq
      cases eq
      exact here ⟨rfl, rfl⟩
  · rw [State.setLock_locks_of_ne same]
    by_cases here : b = c ∧ u = t
    · obtain ⟨rfl, rfl⟩ := here
      rw [State.setThread_thread_self, call]
      simpa [Agrees, Ne.symm same] using placed.rests old l
    · rw [State.setThread_thread_of_ne here]
      exact placed.thread b u l

/-- **Every step keeps the agreement.** -/
theorem step (placed : Placed s) (step : Step m s s') : Placed s' := by
  have run : ∀ {c : C} {t : T} {thread : Thread Op Res} {s' : State C T Op Res σ},
      (s.thread c t).call = none → s'.locks = s.locks →
      s'.thread = (s.setThread c t thread).thread → thread.call = none → Placed s' :=
    fun old locks threads new => placed.setThread locks threads new (placed.rests old)
  have same : ∀ {s' : State C T Op Res σ}, s'.locks = s.locks → s'.thread = s.thread →
      Placed s' := by
    intro s' locks threads
    exact ⟨fun lid => by rw [locks]; exact placed.lock lid,
      fun c t lid => by rw [locks, threads]; exact placed.thread c t lid⟩
  cases step with
  | invoke idle may => exact run (by rw [idle]; rfl) rfl rfl rfl
  | @acquire c t op lid next lock here step mutex =>
      have reach : ReachLock false lock := .step (placed.lock lid) ⟨_, step⟩
      exact placed.calls step rfl (by rw [here]; rfl) rfl
        (step.acquire_pc.2.imp_right fun h => h.resolve_right reach.not_noent)
  | acquired here done =>
      refine placed.setThread rfl rfl rfl (placed.ended (by rw [here]; rfl) ?_)
      rcases done with eq | eq <;> rw [eq] <;> rfl
  | @release c t op lid next lock here step mutex =>
      have called : Placed ((s.setLock lid lock).setThread c t (.releasing op lid next)) :=
        placed.calls step rfl (by rw [here]; rfl) rfl step.release_pc.2
      exact ⟨called.lock, called.thread⟩
  | released here done =>
      exact placed.setThread rfl rfl rfl
        (placed.ended (by rw [here]; rfl) (by rw [done]; rfl))
  | call here serves may => exact run (by rw [here]; rfl) rfl rfl rfl
  | @entry c t op eid update note next here may =>
      exact run (by rw [here]; rfl) (by simp) (by
        simp only [State.recordNote_thread]
        rfl) rfl
  | time here => exact run (by rw [here]; rfl) rfl rfl rfl
  | memory here => exact run (by rw [here]; rfl) rfl rfl rfl
  | returned here => exact run (by rw [here]; rfl) rfl rfl rfl
  | lock step inside other mutex => exact placed.setLock step inside
  | syncCall runs here serves may => exact same rfl rfl
  | syncEntry runs here => exact same rfl rfl
  | synced runs here =>
      have moved := placed.setLock (.synced runs) rfl
      exact ⟨moved.lock, moved.thread⟩

end Placed

/-- **In every reachable state threads are where their locks see them.** -/
theorem Reach.placed (reach : Reach m start s) : Placed s := by
  refine Transition.Reachable.invariant ?_ (fun s s' _ placed step => placed.step step) reach
  rintro s ⟨server, -, rfl⟩
  exact .initial server

/-! ## Syncs -/

/-- A release that is at its `sync` stays there until the `sync` is over. -/
theorem syncing_stays {label : Label C T} {lock lock' : LockState C T} {c : C} {t : T}
    {who : Releaser C} (reach : ReachLock false lock) (step : Lock.Step false label lock lock')
    (notSynced : ∀ c, label ≠ .synced c) (syncs : lock.pc c t = .releasing who .sync) :
    lock'.pc c t = .releasing who .sync := by
  obtain ⟨k, custody⟩ := reach.custody_exists
  obtain ⟨k', custody', move⟩ := reach.moves custody step
  obtain rfl := (custody.syncing c t who).mp syncs
  cases move with
  | stay => exact (custody'.syncing c t who).mpr rfl
  | synced => exact absurd rfl (notSynced _)

/-- Where no release is at its `sync`, none has begun. -/
def Unsynced (s : State C T Op Res σ) : Prop :=
  ∀ lid c t, (∀ who, (s.locks lid).pc c t ≠ .releasing who .sync) →
    s.sync lid c t = ExtentClient.sync lid

theorem Unsynced.setLock {lid : ℕ} {label : Label C T} {lock : LockState C T}
    (unsynced : Unsynced s) (placed : Placed s)
    (step : Lock.Step false label (s.locks lid) lock) (notSynced : ∀ c, label ≠ .synced c) :
    Unsynced (s.setLock lid lock) := by
  intro l c t still
  refine unsynced l c t fun who syncs => ?_
  by_cases same : l = lid
  · subst same
    rw [State.setLock_locks_self] at still
    exact still who (syncing_stays (placed.lock l) step notSynced syncs)
  · rw [State.setLock_locks_of_ne same] at still
    exact still who syncs

theorem Unsynced.step (unsynced : Unsynced s) (placed : Placed s) (step : Step m s s') :
    Unsynced s' := by
  have going : ∀ {lid : ℕ} {c : C} {t : T} {who : Releaser C} {prog : Prog Unit},
      (s.locks lid).pc c t = .releasing who .sync → ∀ l b u,
      (∀ who, (s.locks l).pc b u ≠ .releasing who .sync) →
      (s.setSync lid c t prog).sync l b u = ExtentClient.sync l := by
    intro lid c t who prog syncs l b u still
    rw [State.setSync_sync_of_ne]
    · exact unsynced l b u still
    · rintro ⟨rfl, rfl, rfl⟩
      exact still who syncs
  cases step with
  | acquire here step mutex => exact unsynced.setLock placed step nofun
  | release here step mutex => exact unsynced.setLock placed step nofun
  | lock step inside other mutex => exact unsynced.setLock placed step other
  | syncCall runs here serves may => exact going runs
  | syncEntry runs here => exact going runs
  | @synced lid c t who runs here =>
      intro l b u still
      by_cases same : l = lid ∧ b = c ∧ u = t
      · obtain ⟨rfl, rfl, rfl⟩ := same
        rw [State.setSync_sync_self]
      · rw [State.setSync_sync_of_ne same]
        refine unsynced l b u fun who' syncs => ?_
        by_cases eq : l = lid
        · subst eq
          refine still who' ?_
          rw [State.setSync_locks, State.setLock_locks_self]
          have ne : ¬ (b = c ∧ u = t) := fun eq => same ⟨rfl, eq⟩
          rw [LockState.setPc_pc_apply, if_neg ne]
          exact syncs
        · refine still who' ?_
          rw [State.setSync_locks, State.setLock_locks_of_ne eq]
          exact syncs
  | entry here may =>
      intro l b u still
      simp only [State.recordNote_locks, State.recordNote_sync] at still ⊢
      exact unsynced l b u still
  | _ => exact unsynced

/-- **In every reachable state only releases at their `sync` have begun one.** -/
theorem Reach.unsynced (reach : Reach m start s) : Unsynced s := by
  refine Transition.Reachable.invariant ?_
    (fun s s' before unsynced step => unsynced.step (Reach.placed before) step) reach
  rintro s ⟨server, -, rfl⟩ lid c t -
  rfl

end Yfs.Client
