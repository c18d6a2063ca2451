import Mathlib.Data.DFinsupp.WellFounded
import Mathlib.SetTheory.Ordinal.Family
import Yfs.Client.Threads
import Yfs.Lib.Termination
import Yfs.Lock.Drain

/-!
# Operations come to an end

If no new operation is invoked, any number of clients take only finitely many steps, whatever the
extent server answers.  A program may go on for longer the more a directory holds, so its height
is an ordinal.

The height of a program is an ordinal because the tree branches over everything that an action
may return, and a directory of any size may come back; each branch is finite, but there is no
bound for all of them.  Steps inside the locks lower another rank (`Lock.Drain`), and between
two steps of programs only finitely many of them are possible.

* `Prog.height`, `Thread.height` — how long a program, and the thread that runs it, may go on.
* `Step.sorts` — a step starts an operation, or moves a thread on in its program, or it is inside a
  lock.
* `Reach.terminates` — there is no run without end that starts no operation.
-/

namespace Yfs.Client

open Storage Lock Transition

variable {C T Op Res σ α : Type}

/-! ## Heights -/

/-- **How long a program may go on**, over all replies, entries and times. -/
noncomputable def Prog.height : Prog α → Ordinal.{0}
  | .ret _ => 1
  | .acquire _ next | .release _ next => next.height + 1 + 1
  | .call _ next => ⨆ reply, (next reply).height + 1
  | .entry _ _ _ next => ⨆ entry, (next entry).height + 1
  | .time next => ⨆ now, (next now).height + 1
  | .memory next => ⨆ bytes, (next bytes).height + 1
  | .exit => 0

/-- How long a thread may go on. -/
noncomputable def Thread.height : Thread Op Res → Ordinal.{0}
  | .idle => 0
  | .run _ prog => prog.height
  | .acquiring _ _ next | .releasing _ _ next => next.height + 1

/-- What a thread does next in its program. -/
inductive Thread.Goes : Thread Op Res → Thread Op Res → Prop
  | acquire (op : Op) (lid : ℕ) (next : Prog Res) :
      Goes (.run op (.acquire lid next)) (.acquiring op lid next)
  | acquired (op : Op) (lid : ℕ) (next : Prog Res) : Goes (.acquiring op lid next) (.run op next)
  | release (op : Op) (lid : ℕ) (next : Prog Res) :
      Goes (.run op (.release lid next)) (.releasing op lid next)
  | released (op : Op) (lid : ℕ) (next : Prog Res) : Goes (.releasing op lid next) (.run op next)
  | call (op : Op) (req : Request) (next : Reply → Prog Res) (reply : Reply) :
      Goes (.run op (.call req next)) (.run op (next reply))
  | entry (op : Op) (eid : ℕ) (update : Entry → Entry) (note : Entry → Option Note)
      (next : Entry → Prog Res) (entry : Entry) :
      Goes (.run op (.entry eid update note next)) (.run op (next entry))
  | time (op : Op) (next : ℕ → Prog Res) (now : ℕ) :
      Goes (.run op (.time next)) (.run op (next now))
  | memory (op : Op) (next : (ℕ → UInt8) → Prog Res) (bytes : ℕ → UInt8) :
      Goes (.run op (.memory next)) (.run op (next bytes))
  | returned (op : Op) (res : Res) : Goes (.run op (.ret res)) .idle

/-- **Every action lowers the height.** -/
theorem Thread.Goes.height_lt {thread thread' : Thread Op Res} (goes : thread.Goes thread') :
    thread'.height < thread.height := by
  cases goes with
  | acquire op lid next => exact lt_add_one _
  | acquired op lid next => exact lt_add_one _
  | release op lid next => exact lt_add_one _
  | released op lid next => exact lt_add_one _
  | call op req next reply => exact Ordinal.lt_iSup_add_one (fun reply => (next reply).height) reply
  | entry op eid update note next entry =>
      exact Ordinal.lt_iSup_add_one (fun entry => (next entry).height) entry
  | time op next now => exact Ordinal.lt_iSup_add_one (fun now => (next now).height) now
  | memory op next bytes => exact Ordinal.lt_iSup_add_one (fun bytes => (next bytes).height) bytes
  | returned op res => exact zero_lt_one

/-! ## Three sorts of steps -/

section Steps

variable [LinearOrder C] [DecidableEq T] {m : Machine C T Op Res σ} {start : σ → Prop}
  {s s' : State C T Op Res σ}

/-- A step inside a lock: the lock moves on, or the `sync` of a release does.

These are the steps that go on while a thread waits in `acquire` or `release`: they end, because
the lock protocol ends (`Lock.Drain`) and what is left of a `sync` gets shorter. -/
inductive Inside (s s' : State C T Op Res σ) : Prop
  | lock (lid : ℕ) (label : Label C T) (step : Lock.Step false label (s.locks lid) (s'.locks lid))
      (inside : label.caller = none) (others : ∀ l, l ≠ lid → s'.locks l = s.locks l)
  | sync (lid : ℕ) (c : C) (t : T) (who : Releaser C)
      (runs : (s.locks lid).pc c t = .releasing who .sync)
      (lower : (s'.sync lid c t).height < (s.sync lid c t).height)
      (others : ∀ l b u, ¬ (l = lid ∧ b = c ∧ u = t) → s'.sync l b u = s.sync l b u)
      (locks : s'.locks = s.locks)

/-- What a step does to the threads.

Every step is of one of these kinds, so a run without new invocations is a run of programs that
get shorter, with a bounded number of steps inside the locks. -/
inductive Sorted (m : Machine C T Op Res σ) (s s' : State C T Op Res σ) : Prop
  /-- It starts an operation. -/
  | starts (c : C) (t : T) (op : Op) (may : m.mayInvoke c op)
      (runs : s'.thread c t = .run op (m.prog op))
      (history : s'.history = s.history ++ [.invoked c t op])
      (others : ∀ b u, ¬ (b = c ∧ u = t) → s'.thread b u = s.thread b u)
  /-- A thread moves on in its program. -/
  | goes (c : C) (t : T) (goes : (s.thread c t).Goes (s'.thread c t))
      (others : ∀ b u, ¬ (b = c ∧ u = t) → s'.thread b u = s.thread b u)
  /-- It is inside a lock. -/
  | inside (same : s'.thread = s.thread) (inside : Inside s s')

/-- **Every step starts an operation, or moves a thread on, or is inside a lock.** -/
theorem Step.sorts (step : Step m s s') : Sorted m s s' := by
  have goes : ∀ {c : C} {t : T} {thread thread' : Thread Op Res} {s' : State C T Op Res σ},
      s.thread c t = thread → s'.thread = (s.setThread c t thread').thread → thread.Goes thread' →
      Sorted m s s' := by
    intro c t thread thread' s' here threads goes
    refine .goes c t ?_ fun b u ne => ?_
    · rw [threads, State.setThread_thread_self, here]
      exact goes
    · rw [threads, State.setThread_thread_of_ne ne]
  cases step with
  | @invoke c t op idle may =>
      exact .starts c t op may State.setThread_thread_self rfl fun b u ne =>
        State.setThread_thread_of_ne ne
  | acquire here step mutex => exact goes here rfl (.acquire ..)
  | acquired here done => exact goes here rfl (.acquired ..)
  | release here step mutex => exact goes here rfl (.release ..)
  | released here done => exact goes here rfl (.released ..)
  | call here serves may => exact goes here rfl (.call ..)
  | entry here may => exact goes here (by simp only [State.recordNote_thread]; rfl) (.entry ..)
  | time here => exact goes here rfl (.time ..)
  | memory here => exact goes here rfl (.memory ..)
  | returned here => exact goes here rfl (.returned ..)
  | @lock lid label lock step inside other mutex =>
      refine .inside rfl (.lock lid label ?_ inside fun l ne => ?_)
      · rwa [State.setLock_locks_self]
      · rw [State.setLock_locks_of_ne ne]
  | @syncCall lid c t who req next reply server runs here serves may =>
      refine .inside rfl (.sync lid c t who runs ?_ (fun l b u ne => ?_) rfl)
      · rw [State.setSync_sync_self, here]
        exact Ordinal.lt_iSup_add_one (fun reply => (next reply).height) reply
      · rw [State.setSync_sync_of_ne ne]
  | @syncEntry lid c t who eid update note next runs here =>
      refine .inside rfl (.sync lid c t who runs ?_ (fun l b u ne => ?_) rfl)
      · rw [State.setSync_sync_self, here]
        exact Ordinal.lt_iSup_add_one (fun entry => (next entry).height) _
      · rw [State.setSync_sync_of_ne ne, State.setEntry_sync]
  | @synced lid c t who runs here =>
      refine .inside rfl (.lock lid (.synced (who.client c)) ?_ rfl fun l ne => ?_)
      · rw [State.setSync_locks, State.setLock_locks_self]
        exact .synced runs
      · rw [State.setSync_locks, State.setLock_locks_of_ne ne]

/-- **The rule of syncs**: what holds of a whole `sync`, and of what is left after each action,
holds of what is left at any time. -/
theorem Step.syncs {P : ℕ → Prog Unit → Prop} (whole : ∀ eid, P eid (ExtentClient.sync eid))
    (call : ∀ eid req next reply, P eid (.call req next) → P eid (next reply))
    (entry : ∀ eid id update note next x, P eid (.entry id update note next) → P eid (next x))
    (step : Step m s s') (inv : ∀ lid c t, P lid (s.sync lid c t)) (lid : ℕ) (c : C) (t : T) :
    P lid (s'.sync lid c t) := by
  have one : ∀ {lid c t} {prog : Prog Unit}, P lid prog →
      ∀ l b u, P l ((s.setSync lid c t prog).sync l b u) := by
    intro lid c t prog rest l b u
    by_cases here : l = lid ∧ b = c ∧ u = t
    · obtain ⟨rfl, rfl, rfl⟩ := here
      rw [State.setSync_sync_self]
      exact rest
    · rw [State.setSync_sync_of_ne here]
      exact inv l b u
  cases step with
  | entry here may =>
      rw [State.recordNote_sync]
      exact inv lid c t
  | @syncCall l b u who req next reply server runs here serves may =>
      have rest := inv l b u
      rw [here] at rest
      exact one (call l req next reply rest) lid c t
  | @syncEntry l b u who eid update note next runs here =>
      have rest := inv l b u
      rw [here] at rest
      exact one (entry l eid update note next _ rest) lid c t
  | @synced l b u who runs here => exact one (whole l) lid c t
  | _ => exact inv lid c t

/-! ## Finitely many threads -/

/-- The threads that run an operation are among `users`. -/
def RunsIn (users : Finset (C × T)) (s : State C T Op Res σ) : Prop :=
  ∀ c t, (c, t) ∉ users → s.thread c t = .idle

/-- The threads that use a lock are among `calls`. -/
def LocksIn (calls : Finset (ℕ × C × T)) (s : State C T Op Res σ) : Prop :=
  ∀ lid c t, (lid, c, t) ∉ calls → (s.locks lid).pc c t = .idle

/-- Only a new operation needs a new thread. -/
theorem RunsIn.step {users : Finset (C × T)} (runs : RunsIn users s) (step : Step m s s')
    (continues : ∀ c t op, s'.history ≠ s.history ++ [.invoked c t op]) : RunsIn users s' := by
  intro b u out
  have idle := runs b u out
  cases step.sorts with
  | starts c t op may runs history others => exact absurd history (continues c t op)
  | goes c t goes others =>
      by_cases here : b = c ∧ u = t
      · obtain ⟨rfl, rfl⟩ := here
        rw [idle] at goes
        cases goes
      · rw [others b u here, idle]
  | inside same inside => rw [same, idle]

/-- A step inside a lock brings no thread to it. -/
theorem LocksIn.inside {calls : Finset (ℕ × C × T)} (locks : LocksIn calls s)
    (inside : Inside s s') :
    LocksIn calls s' := by
  intro l b u out
  have idle := locks l b u out
  cases inside with
  | lock lid label step inside others =>
      by_cases here : l = lid
      · subst here
        refine step.idle ?_ idle
        rintro rfl
        cases inside
      · rw [others l here, idle]
  | sync lid c t who runs lower others same => rw [same, idle]

/-- A step moves one lock at most. -/
theorem Step.moves_lock (step : Step m s s') : s'.locks = s.locks ∨
    ∃ lid label, Lock.Step false label (s.locks lid) (s'.locks lid) ∧
      ∀ l, l ≠ lid → s'.locks l = s.locks l := by
  have moves : ∀ {lid : ℕ} {label : Label C T} {lock : LockState C T} {s' : State C T Op Res σ},
      Lock.Step false label (s.locks lid) lock → s'.locks = (s.setLock lid lock).locks →
      s'.locks = s.locks ∨ ∃ lid label, Lock.Step false label (s.locks lid) (s'.locks lid) ∧
        ∀ l, l ≠ lid → s'.locks l = s.locks l := by
    intro lid label lock s' step locks
    refine Or.inr ⟨lid, label, ?_, fun l ne => ?_⟩
    · rwa [locks, State.setLock_locks_self]
    · rw [locks, State.setLock_locks_of_ne ne]
  cases step with
  | acquire here step mutex => exact moves step rfl
  | release here step mutex => exact moves step rfl
  | lock step inside other mutex => exact moves step rfl
  | synced runs here => exact moves (.synced runs) rfl
  | entry here may => exact Or.inl (State.recordNote_locks ..)
  | _ => exact Or.inl rfl

/-- **In every reachable state finitely many threads run and finitely many use a lock.** -/
theorem Reach.finite (reach : Reach m start s) :
    (∃ users, RunsIn users s) ∧ ∃ calls, LocksIn calls s := by
  classical
  refine Reachable.invariant (I := fun s => (∃ users, RunsIn users s) ∧ ∃ calls, LocksIn calls s)
    ?_ ?_ reach
  · rintro s ⟨server, -, rfl⟩
    exact ⟨⟨∅, fun _ _ _ => rfl⟩, ∅, fun _ _ _ _ => rfl⟩
  · rintro s s' - ⟨⟨users, runs⟩, calls, locks⟩ step
    constructor
    · have more : ∀ c t, (∀ b u, ¬ (b = c ∧ u = t) → s'.thread b u = s.thread b u) →
          ∃ users, RunsIn users s' := by
        intro c t others
        refine ⟨insert (c, t) users, fun b u out => ?_⟩
        rw [Finset.mem_insert, not_or] at out
        rw [others b u fun eq => out.1 (Prod.ext eq.1 eq.2)]
        exact runs b u out.2
      cases step.sorts with
      | starts c t op may runs history others => exact more c t others
      | goes c t goes others => exact more c t others
      | inside same inside => exact ⟨users, fun b u out => by rw [same, runs b u out]⟩
    · rcases step.moves_lock with same | ⟨lid, label, step, others⟩
      · exact ⟨calls, fun l b u out => by rw [same, locks l b u out]⟩
      · by_cases acquires : ∃ c t, label = .acquire c t
        · obtain ⟨c, t, rfl⟩ := acquires
          refine ⟨insert (lid, c, t) calls, fun l b u out => ?_⟩
          rw [Finset.mem_insert, not_or] at out
          by_cases here : l = lid
          · subst here
            refine step.idle ?_ (locks l b u out.2)
            rintro ⟨⟩
            exact out.1 rfl
          · rw [others l here, locks l b u out.2]
        · refine ⟨calls, fun l b u out => ?_⟩
          by_cases here : l = lid
          · subst here
            exact step.idle (fun eq => acquires ⟨b, u, eq⟩) (locks l b u out)
          · rw [others l here, locks l b u out]

/-! ## The end -/

/-- The steps that start no operation. -/
def Continues (m : Machine C T Op Res σ) (s s' : State C T Op Res σ) : Prop :=
  Step m s s' ∧ ∀ c t op, s'.history ≠ s.history ++ [.invoked c t op]

/-- Inside locks there are finitely many steps. -/
theorem inside_terminates (placed : Placed s) {calls : Finset (ℕ × C × T)}
    (locks : LocksIn calls s) :
    Terminates Inside s := by
  -- ranks of the locks first, then what is left of the `sync`s, which a step of a lock may raise
  refine terminates_of_rank (I := fun s => (∀ lid, ReachLock false (s.locks lid)) ∧ LocksIn calls s)
    (fun s => toLex (fun i : calls => (s.locks i.1.1).rank i.1.2,
      fun i : calls => (s.sync i.1.1 i.1.2.1 i.1.2.2).height)) ?_ ?_ ⟨placed.lock, locks⟩
  · rintro s s' ⟨reach, locks⟩ inside
    refine ⟨fun l => ?_, locks.inside inside⟩
    cases inside with
    | lock lid label step inside others =>
        by_cases here : l = lid
        · subst here
          exact .step (reach l) ⟨label, step⟩
        · rw [others l here]
          exact reach l
    | sync lid c t who runs lower others same =>
        rw [same]
        exact reach l
  · rintro s s' ⟨reach, locks⟩ inside
    rw [Prod.Lex.toLex_lt_toLex]
    have busy : ∀ {lid c t}, (s.locks lid).pc c t ≠ .idle → (lid, c, t) ∈ calls :=
      fun busy => not_not.mp (mt (locks _ _ _) busy)
    cases inside with
    | lock lid label step inside others =>
        left
        obtain ⟨p, follows, agreed⟩ := reach_follows (reach lid)
        have noAcquire : ∀ c t, label ≠ .acquire c t := by
          rintro c t rfl
          cases inside
        obtain ⟨le, ⟨c, t⟩, lt⟩ := Pi.lt_def.mp (step.rank_lt follows agreed noAcquire)
        have here : (lid, c, t) ∈ calls := by
          refine busy fun idle => ?_
          have zero : (s.locks lid).rank (c, t) = 0 := by
            rw [LockState.rank, idle]
            rfl
          omega
        refine Pi.lt_def.mpr ⟨fun i => ?_, ⟨_, here⟩, lt⟩
        by_cases at_ : i.1.1 = lid
        · obtain ⟨⟨l, j⟩, mem⟩ := i
          obtain rfl : l = lid := at_
          exact le j
        · exact (congrArg (LockState.rank · i.1.2) (others _ at_)).le
    | sync lid c t who runs lower others same =>
        right
        refine ⟨by rw [same],
          Pi.lt_def.mpr ⟨fun i => ?_, ⟨(lid, c, t), busy (by simp [runs])⟩, lower⟩⟩
        by_cases at_ : i.1.1 = lid ∧ i.1.2.1 = c ∧ i.1.2.2 = t
        · obtain ⟨⟨l, b, u⟩, mem⟩ := i
          obtain ⟨rfl, rfl, rfl⟩ := at_
          exact lower.le
        · exact (congrArg Prog.height (others _ _ _ at_)).le

/-- **Without new operations every run comes to an end**, whatever the operations, the server and
the order of the steps. -/
theorem Reach.terminates (reach : Reach m start s) : Terminates (Continues m) s := by
  obtain ⟨⟨users, runs⟩, -⟩ := reach.finite
  refine terminates_of_layers (I := fun s => Reach m start s ∧ RunsIn users s)
    (fun s (i : users) => (s.thread i.1.1 i.1.2).height) Inside ?_ ?_ ?_
    ⟨reach, runs⟩
  · rintro s s' ⟨reach, runs⟩ ⟨step, continues⟩
    exact ⟨reach.step step, runs.step step continues⟩
  · rintro s s' ⟨reach, runs⟩ ⟨step, continues⟩
    cases step.sorts with
    | starts c t op may runs history others => exact absurd history (continues c t op)
    | goes c t goes others =>
        left
        have here : (c, t) ∈ users := by
          by_contra out
          rw [runs c t out] at goes
          cases goes
        refine Pi.lt_def.mpr ⟨fun i => ?_, ⟨_, here⟩, goes.height_lt⟩
        by_cases at_ : i.1.1 = c ∧ i.1.2 = t
        · obtain ⟨⟨b, u⟩, mem⟩ := i
          obtain ⟨rfl, rfl⟩ := at_
          exact goes.height_lt.le
        · exact (congrArg Thread.height (others _ _ at_)).le
    | inside same inside =>
        right
        refine ⟨?_, inside⟩
        funext i
        rw [same]
  · rintro s ⟨reach, -⟩
    obtain ⟨-, calls, locks⟩ := reach.finite
    exact inside_terminates reach.placed locks

end Steps

end Yfs.Client
