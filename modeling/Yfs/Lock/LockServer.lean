import Mathlib.Logic.Function.Basic
import Yfs.Lib.Monitor

/-!
# The lock server without caching

`lock_server.cc`: `acquire` waits at the server, at a condition variable for each lock, until the
lock is free, and `release` frees it and signals.  A lock and its condition come into being
with the first `acquire`; nobody checks who releases.

The server is an instance of `Lib.Monitor`: its methods are rounds under one mutex, and `acquire`
that finds the lock taken waits at the condition of that lock and runs a further round.  The two
results are about every run of it, with wake-ups from nowhere.  Exclusion needs that clients release
what they own, since the server does not check; that no wake-up is lost does not need it.

* `acquire`, `acquireAgain`, `release`, `stat` — the code, round by round.
* `Owns` — who has a lock, by the calls that have returned.
* `lock_server_excludes` — while clients release only what they own, at most one thread owns a
  lock, `locked` says whether, and the server neither complains nor crashes.
* `lock_server_loses_no_wakeup` — when a lock is free that somebody sleeps for, somebody is awake
  and gets it.
-/

namespace Yfs.Lock

open Transition

namespace LockServer

variable {T : Type}

/-! ## The code -/

/-- What the server prints with `error`. -/
inductive Complaint where
  | lockLocked (lid : ℕ)
  | unlockFree (lid : ℕ)
  deriving DecidableEq, Repr

/-- `lock_server`: which locks have a condition variable, `locked`, `nacquire`, and the complaints
that were printed. -/
structure Server where
  conditions : ℕ → Bool
  locked : ℕ → Option Bool
  nacquire : ℤ
  complaints : List Complaint

/-- The constructor. -/
def Server.initial : Server := ⟨fun _ => false, fun _ => none, 0, []⟩

namespace Server

variable (s : Server) (lid : ℕ)

/-- `lock`. -/
def lock : Server :=
  { s with
    locked := Function.update s.locked lid (some true)
    complaints :=
      if s.locked lid = some true then s.complaints ++ [.lockLocked lid] else s.complaints }

/-- `unlock`. -/
def unlock : Server :=
  { s with
    locked := Function.update s.locked lid (some false)
    complaints :=
      if s.locked lid = some true then s.complaints else s.complaints ++ [.unlockFree lid] }

/-- `conditions[lid] = init`. -/
def addCondition : Server := { s with conditions := Function.update s.conditions lid true }

theorem lock_locked : (s.lock lid).locked = Function.update s.locked lid (some true) := rfl
theorem unlock_locked : (s.unlock lid).locked = Function.update s.locked lid (some false) := rfl
theorem addCondition_locked : (s.addCondition lid).locked = s.locked := rfl

end Server

/-- The calls of a client. -/
inductive Op where
  | acquire (lid : ℕ)
  | release (lid : ℕ)
  | stat (lid : ℕ)
  deriving DecidableEq, Repr

/-- The status and `r`. -/
abbrev Res := ℤ × ℤ

/-- `OK`, which is also what `pthread_mutex_unlock` returns. -/
def ok : ℤ := 0

/-- `acquire`, as far as the first wait.  To wait at a condition that is not there is to follow a
null pointer. -/
def acquire (lid : ℕ) (s : Server) : Round Server ℕ Res :=
  if s.locked lid = none then .returns ((s.addCondition lid).lock lid) (ok, ok) none
  else if s.locked lid ≠ some true then .returns (s.lock lid) (ok, ok) none
  else if s.conditions lid then .waits lid
  else .crashes

/-- The loop of `acquire`, after a wait. -/
def acquireAgain (lid : ℕ) (s : Server) : Round Server ℕ Res :=
  if s.locked lid = some true then (if s.conditions lid then .waits lid else .crashes)
  else .returns (s.lock lid) (ok, ok) none

/-- `release`. -/
def release (lid : ℕ) (s : Server) : Round Server ℕ Res :=
  if s.conditions lid then .returns (s.unlock lid) (ok, ok) (some lid) else .crashes

/-- `stat`. -/
def stat (s : Server) : Round Server ℕ Res := .returns s (ok, s.nacquire) none

end LockServer

open LockServer

/-- `lock_server`. -/
def lockServer : Monitor Server ℕ Op Res where
  first
    | .acquire lid, s => acquire lid s
    | .release lid, s => release lid s
    | .stat _, s => stat s
  again
    | .acquire lid, _, s => acquireAgain lid s
    | .release lid, _, s => release lid s
    | .stat _, _, s => stat s

namespace LockServer

variable {T : Type}

/-! ## Who has a lock -/

/-- The calls that have returned. -/
abbrev Log (T : Type) := List (T × Op × Res)

/-- What a call of the thread does to its having the lock. -/
def after (lid : ℕ) (owns : Bool) : Op → Bool
  | .acquire l => if l = lid then true else owns
  | .release l => if l = lid then false else owns
  | .stat _ => owns

variable [DecidableEq T]

/-- **The thread has acquired the lock and not released it.** -/
def owns (log : Log T) (t : T) (lid : ℕ) : Bool :=
  log.foldl (fun owns entry => if entry.1 = t then after lid owns entry.2.1 else owns) false

theorem owns_append (log : Log T) (entry : T × Op × Res) (t : T) (lid : ℕ) :
    owns (log ++ [entry]) t lid =
      if entry.1 = t then after lid (owns log t lid) entry.2.1 else owns log t lid := by
  rw [owns, List.foldl_append]
  rfl

/-- Clients release only what they own. -/
def mayCall (log : Log T) (t : T) : Op → Prop
  | .release lid => owns log t lid = true
  | _ => True

theorem mayCall_acquire (log : Log T) (t : T) (lid : ℕ) : mayCall log t (.acquire lid) := trivial

/-- The runs of any number of threads of any clients. -/
def Reach : Monitor.State Server ℕ Op Res T → Prop :=
  Monitor.Reach lockServer mayCall Server.initial

/-! ## Mutual exclusion -/

/-- A lock that is there has a condition. -/
def Server.Conditioned (s : Server) : Prop := ∀ lid, s.locked lid ≠ none → s.conditions lid = true

/-- **Server and log agree.**

A log entry for `acquire` or `release` is made when the call returns, and so is the change of
`locked`, in the same round; that is why the two can be compared at every moment. -/
structure Agrees (s : Server) (log : Log T) : Prop where
  conditioned : s.Conditioned
  quiet : s.complaints = []
  owned : ∀ lid, s.locked lid = some true ↔ ∃ t, owns log t lid = true
  unique : ∀ lid t u, owns log t lid = true → owns log u lid = true → t = u
  granted : ∀ entry ∈ log, entry.2.2.1 = ok

namespace Agrees

variable {s : Server} {log : Log T} {t : T} {lid : ℕ}

/-- A condition comes into being. -/
theorem addCondition (agrees : Agrees s log) (lid : ℕ) : Agrees (s.addCondition lid) log := by
  refine ⟨fun l there => ?_, agrees.quiet, agrees.owned, agrees.unique, agrees.granted⟩
  show Function.update s.conditions lid true l = true
  by_cases same : l = lid
  · subst same
    exact Function.update_self ..
  · rw [Function.update_of_ne same]
    exact agrees.conditioned l there

/-- No thread owns a lock that is free. -/
theorem not_owns (agrees : Agrees s log) (free : s.locked lid ≠ some true) (t : T) :
    owns log t lid ≠ true :=
  fun mine => free ((agrees.owned lid).mpr ⟨t, mine⟩)

omit [DecidableEq T] in
theorem granted_append {log : Log T} (granted : ∀ entry ∈ log, entry.2.2.1 = ok) {op : Op} {r : ℤ} :
    ∀ entry ∈ log ++ [(t, op, (ok, r))], entry.2.2.1 = ok := by
  intro entry mem
  rcases List.mem_append.mp mem with mem | mem
  · exact granted entry mem
  · rw [List.mem_singleton.mp mem]

/-- **A lock that is free is acquired.** -/
theorem acquired (agrees : Agrees s log) (there : s.conditions lid = true)
    (free : s.locked lid ≠ some true) {r : ℤ} :
    Agrees (s.lock lid) (log ++ [(t, .acquire lid, (ok, r))]) := by
  have nobody := agrees.not_owns free
  have owns_iff : ∀ u l, owns (log ++ [(t, .acquire lid, (ok, r))]) u l = true ↔
      owns log u l = true ∨ (u = t ∧ l = lid) := by
    intro u l
    rw [owns_append]
    by_cases mine : t = u
    · subst mine
      by_cases same : lid = l
      · simp [after, same]
      · simp [after, same, Ne.symm same]
    · simp [mine, Ne.symm mine]
  refine ⟨fun l live => ?_, ?_, fun l => ?_, fun l u w one two => ?_, granted_append agrees.granted⟩
  · by_cases same : l = lid
    · subst same
      exact there
    · refine agrees.conditioned l ?_
      rwa [Server.lock_locked, Function.update_of_ne same] at live
  · show (if s.locked lid = some true then _ else s.complaints) = []
    rw [if_neg free]
    exact agrees.quiet
  · simp only [owns_iff, Server.lock_locked]
    by_cases same : l = lid
    · subst same
      rw [Function.update_self]
      exact ⟨fun _ => ⟨t, Or.inr ⟨rfl, rfl⟩⟩, fun _ => rfl⟩
    · rw [Function.update_of_ne same, agrees.owned]
      simp [same]
  · rcases (owns_iff u l).mp one with old | ⟨rfl, rfl⟩
    · rcases (owns_iff w l).mp two with old' | ⟨-, rfl⟩
      · exact agrees.unique l u w old old'
      · exact absurd old (nobody u)
    · rcases (owns_iff w l).mp two with old' | ⟨rfl, -⟩
      · exact absurd old' (nobody w)
      · rfl

/-- **A lock is released** by the thread that owns it. -/
theorem released (agrees : Agrees s log) (mine : owns log t lid = true) {r : ℤ} :
    Agrees (s.unlock lid) (log ++ [(t, .release lid, (ok, r))]) := by
  have locked : s.locked lid = some true := (agrees.owned lid).mpr ⟨t, mine⟩
  have owns_iff : ∀ u l, owns (log ++ [(t, .release lid, (ok, r))]) u l = true ↔
      owns log u l = true ∧ l ≠ lid := by
    intro u l
    rw [owns_append]
    by_cases me : t = u
    · subst me
      by_cases same : lid = l
      · simp [after, same]
      · simp [after, same, Ne.symm same]
    · rw [if_neg me]
      refine ⟨fun theirs => ⟨theirs, ?_⟩, And.left⟩
      rintro rfl
      exact me (agrees.unique l t u mine theirs)
  refine ⟨fun l live => ?_, ?_, fun l => ?_, fun l u w one two => ?_, granted_append agrees.granted⟩
  · refine agrees.conditioned l ?_
    by_cases same : l = lid
    · subst same
      simp [locked]
    · rwa [Server.unlock_locked, Function.update_of_ne same] at live
  · show (if s.locked lid = some true then s.complaints else _) = []
    rw [if_pos locked]
    exact agrees.quiet
  · simp only [owns_iff, Server.unlock_locked]
    by_cases same : l = lid
    · subst same
      simp
    · rw [Function.update_of_ne same, agrees.owned]
      simp [same]
  · exact agrees.unique l u w ((owns_iff u l).mp one).1 ((owns_iff w l).mp two).1

/-- A call that touches no lock. -/
theorem asked (agrees : Agrees s log) {r : ℤ} : Agrees s (log ++ [(t, .stat lid, (ok, r))]) := by
  have same : ∀ u l, owns (log ++ [(t, .stat lid, (ok, r))]) u l = owns log u l := by
    intro u l
    rw [owns_append]
    by_cases me : t = u
    · simp [me, after]
    · simp [me]
  refine ⟨agrees.conditioned, agrees.quiet, fun l => ?_, fun l u w => ?_,
    granted_append agrees.granted⟩
  · simp only [same]
    exact agrees.owned l
  · simp only [same]
    exact agrees.unique l u w

/-- A new server. -/
theorem initial : Agrees Server.initial ([] : Log T) := by
  refine ⟨fun lid there => absurd rfl there, rfl, fun lid => ?_, ?_, ?_⟩
  · simp [Server.initial, owns]
  · rintro lid t u ⟨⟩
  · rintro entry ⟨⟩

end Agrees

section Rounds

variable {s : Server} {log : Log T} {t : T}

/-- A call waits for its lock, which is there. -/
def WaitsAt (op : Op) (lid : ℕ) (s : Server) : Prop := op = .acquire lid ∧ s.locked lid ≠ none

/-- A lock that is there stays. -/
theorem waitsAt_lock {op : Op} {l : ℕ} (lid : ℕ) (waits : WaitsAt op l s) :
    WaitsAt op l (s.lock lid) := by
  refine ⟨waits.1, ?_⟩
  rw [Server.lock_locked]
  by_cases same : l = lid
  · subst same
    simp
  · rw [Function.update_of_ne same]
    exact waits.2

theorem waitsAt_unlock {op : Op} {l : ℕ} (lid : ℕ) (waits : WaitsAt op l s) :
    WaitsAt op l (s.unlock lid) := by
  refine ⟨waits.1, ?_⟩
  rw [Server.unlock_locked]
  by_cases same : l = lid
  · subst same
    simp
  · rw [Function.update_of_ne same]
    exact waits.2

/-- A first round keeps the agreement. -/
theorem keeps_first (agrees : Agrees s log) (op : Op) (permitted : mayCall log t op) :
    Monitor.Keeps Agrees WaitsAt log t op s (lockServer.first op s) := by
  cases op with
  | acquire lid =>
      show Monitor.Keeps Agrees WaitsAt log t (.acquire lid) s (acquire lid s)
      rw [acquire]
      by_cases new : s.locked lid = none
      · rw [if_pos new]
        have free : (s.addCondition lid).locked lid ≠ some true := by
          rw [Server.addCondition_locked, new]
          simp
        exact ⟨(agrees.addCondition lid).acquired (Function.update_self ..) free,
          fun _ _ => waitsAt_lock (s := s.addCondition lid) lid⟩
      · have there := agrees.conditioned lid new
        rw [if_neg new]
        by_cases free : s.locked lid ≠ some true
        · rw [if_pos free]
          exact ⟨agrees.acquired there free, fun _ _ => waitsAt_lock lid⟩
        · rw [if_neg free, if_pos there]
          exact ⟨rfl, new⟩
  | release lid =>
      have locked : s.locked lid = some true := (agrees.owned lid).mpr ⟨t, permitted⟩
      have there := agrees.conditioned lid (by simp [locked])
      show Monitor.Keeps Agrees WaitsAt log t (.release lid) s (release lid s)
      rw [release, if_pos there]
      exact ⟨agrees.released permitted, fun _ _ => waitsAt_unlock lid⟩
  | stat lid => exact ⟨agrees.asked, fun _ _ => id⟩

/-- And so does a round after a wait. -/
theorem keeps_again (agrees : Agrees s log) {op : Op} {lid : ℕ} (waits : WaitsAt op lid s) :
    Monitor.Keeps Agrees WaitsAt log t op s (lockServer.again op lid s) := by
  obtain ⟨rfl, live⟩ := waits
  have there := agrees.conditioned lid live
  show Monitor.Keeps Agrees WaitsAt log t (.acquire lid) s (acquireAgain lid s)
  rw [acquireAgain]
  by_cases locked : s.locked lid = some true
  · rw [if_pos locked, if_pos there]
    exact ⟨rfl, live⟩
  · rw [if_neg locked]
    exact ⟨agrees.acquired there locked, fun _ _ => waitsAt_lock lid⟩

/-- Another thread's call does not matter to what a thread owns. -/
theorem stable_mayCall : Monitor.Stable (mayCall : Log T → T → Op → Prop) := by
  intro log t u op entry other permitted
  cases op with
  | release lid =>
      show owns (log ++ [(u, entry)]) t lid = true
      rw [owns_append, if_neg other]
      exact permitted
  | acquire lid => trivial
  | stat lid => trivial

theorem reach_serial {s : Monitor.State Server ℕ Op Res T} (reach : Reach s) :
    Monitor.Serial mayCall WaitsAt Agrees s :=
  Monitor.Reach.serial stable_mayCall .initial
    (fun agrees permitted => keeps_first agrees _ permitted)
    (fun agrees _ waits => keeps_again agrees waits) reach

end Rounds

/-- **The lock server excludes.** In every state that any number of threads of any clients reach,
in any order and with any wake-ups, while they release only what they own: at most one thread owns
a lock, `locked` is true exactly when one does, every call that has returned was granted, and the
server has printed no error and followed no null pointer.

The log is the history of the calls that have returned, in the order in which they did, and `owns`
replays it.  Wake-ups may be spurious, and a signal may wake any thread that sleeps at the
variable. -/
theorem lock_server_excludes {s : Monitor.State Server ℕ Op Res T} (reach : Reach s) :
    (∀ lid t u, owns s.log t lid = true → owns s.log u lid = true → t = u) ∧
      (∀ lid, s.data.locked lid = some true ↔ ∃ t, owns s.log t lid = true) ∧
      (∀ entry ∈ s.log, entry.2.2.1 = ok) ∧ s.data.complaints = [] ∧ s.crashed = false := by
  have serial := reach_serial reach
  exact ⟨serial.holds.unique, serial.holds.owned, serial.holds.granted, serial.holds.quiet,
    serial.runs⟩

/-- Thread 0 has had lock 5, threads 1 and 2 want it, and thread 1 was woken. -/
theorem exists_contended : ∃ s : Monitor.State Server ℕ Op Res ℕ, Reach s ∧ s.crashed = false ∧
    s.log = [(0, .acquire 5, (ok, ok)), (0, .release 5, (ok, ok))] ∧
    s.data.locked 5 = some false ∧ s.place 1 = .waiting (.acquire 5) 5 ∧ (s.cond 5).woken = {1} ∧
    (s.cond 5).sleeping = {2} := by
  have start : Reach (.initial .initial : Monitor.State Server ℕ Op Res ℕ) := .init rfl
  have call₀ := start.step (.call 0 (Op.acquire 5) rfl (mayCall_acquire ..))
  have got := call₀.step (.first (t := 0) rfl rfl .returns)
  have call₁ := got.step (.call 1 (.acquire 5) rfl (mayCall_acquire ..))
  have sleep₁ := call₁.step (.first (t := 1) rfl rfl .waits)
  have call₂ := sleep₁.step (.call 2 (.acquire 5) rfl (mayCall_acquire ..))
  have sleep₂ := call₂.step (.first (t := 2) rfl rfl .waits)
  have gives := sleep₂.step (.call 0 (Op.release 5) rfl rfl)
  have gave := gives.step (.first (t := 0) rfl rfl (.signals (.wakes (t := 1) (by decide))))
  exact ⟨_, gave, rfl, rfl, rfl, rfl, by decide, by decide⟩

/-- Thread 1 gets the lock. -/
theorem lock_server_excludes_contended : ∃ s : Monitor.State Server ℕ Op Res ℕ,
    Reach s ∧ owns s.log 1 5 = true ∧
      (∀ lid t u, owns s.log t lid = true → owns s.log u lid = true → t = u) ∧
      (∀ lid, s.data.locked lid = some true ↔ ∃ t, owns s.log t lid = true) ∧
      (∀ entry ∈ s.log, entry.2.2.1 = ok) ∧ s.data.complaints = [] ∧ s.crashed = false := by
  obtain ⟨s, reach, runs, log, free, place, awake, -⟩ := exists_contended
  have returns :
      lockServer.again (.acquire 5) 5 s.data = .returns (s.data.lock 5) (ok, ok) none := by
    show acquireAgain 5 s.data = _
    rw [acquireAgain, if_neg (by simp [free])]
  have mem : 1 ∈ (s.cond 5).woken := by
    rw [awake]
    exact Finset.mem_singleton_self 1
  have step := reach.step (.again runs place mem (by rw [returns]; exact .returns))
  refine ⟨_, step, ?_, lock_server_excludes step⟩
  show owns (s.log ++ [(1, .acquire 5, (ok, ok))]) 1 5 = true
  rw [log]
  decide

/-! ## Wake-ups -/

/-- There is one thing for those who wait: the lock, if it is free. -/
def avail (lid : ℕ) (s : Server) : ℕ := if s.locked lid = some true then 0 else 1

theorem avail_le (lid : ℕ) (s : Server) : avail lid s ≤ 1 := by
  rw [avail]
  split
  · exact Nat.zero_le 1
  · exact Nat.le_refl 1

theorem avail_lock (s : Server) (lid l : ℕ) :
    avail l (s.lock lid) = if l = lid then 0 else avail l s := by
  by_cases same : l = lid
  · subst same
    rw [if_pos rfl, avail, Server.lock_locked, if_pos (Function.update_self ..)]
  · rw [if_neg same, avail, avail, Server.lock_locked, Function.update_of_ne same]

theorem avail_unlock_of_ne (s : Server) {lid l : ℕ} (other : l ≠ lid) :
    avail l (s.unlock lid) = avail l s := by
  rw [avail, avail, Server.unlock_locked, Function.update_of_ne other]

section Rounds

variable {s : Server} {lid : ℕ} {left : ℕ → ℕ}

/-- A lock is taken that is there. -/
theorem within_lock {old : Server} (same : old.locked = s.locked) (conditioned : s.Conditioned)
    (there : s.conditions lid = true) (enough : ∀ l, l ≠ lid → avail l s ≤ left l) {op : Op}
    {r : Res} :
    Monitor.Within Server.Conditioned WaitsAt avail left op old (.returns (s.lock lid) r none) := by
  refine ⟨fun l live => ?_, fun op' l waits => ?_, fun l => ?_⟩
  · by_cases same : l = lid
    · subst same
      exact there
    · rw [Server.lock_locked, Function.update_of_ne same] at live
      exact conditioned l live
  · refine waitsAt_lock lid ⟨waits.1, ?_⟩
    rw [← same]
    exact waits.2
  · rw [avail_lock]
    by_cases same : l = lid
    · rw [if_pos same]
      exact Nat.zero_le _
    · rw [if_neg same]
      exact Nat.le_add_right_of_le (enough l same)

/-- The rounds keep the account, whoever releases. -/
theorem accounts : Monitor.Accounts lockServer Server.Conditioned WaitsAt avail where
  first op s conditioned := by
    cases op with
    | acquire lid =>
        show Monitor.Within _ _ _ _ (Op.acquire lid) s (acquire lid s)
        rw [acquire]
        by_cases new : s.locked lid = none
        · rw [if_pos new]
          have conditioned' : (s.addCondition lid).Conditioned := by
            intro l live
            show Function.update s.conditions lid true l = true
            by_cases same : l = lid
            · subst same
              exact Function.update_self ..
            · rw [Function.update_of_ne same]
              exact conditioned l live
          exact within_lock (s.addCondition_locked lid).symm conditioned' (Function.update_self ..)
            fun _ _ => Nat.le_refl _
        · have there := conditioned lid new
          rw [if_neg new]
          -- the lock is there: the call returns with it, or the thread goes to sleep
          by_cases free : s.locked lid ≠ some true
          · rw [if_pos free]
            exact within_lock rfl conditioned there fun _ _ => Nat.le_refl _
          · rw [if_neg free, if_pos there]
            exact ⟨⟨rfl, new⟩, if_pos (not_not.mp free), fun _ => Nat.le_refl _⟩
    | release lid =>
        show Monitor.Within _ _ _ _ (Op.release lid) s (release lid s)
        rw [release]
        by_cases there : s.conditions lid = true
        · rw [if_pos there]
          -- a release frees one lock and wakes one thread there
          refine ⟨fun l live => ?_, fun _ _ => waitsAt_unlock lid, fun l => ?_⟩
          · by_cases same : l = lid
            · subst same
              exact there
            · rw [Server.unlock_locked, Function.update_of_ne same] at live
              exact conditioned l live
          · by_cases same : l = lid
            · subst same
              rw [if_pos rfl]
              exact Nat.le_add_left_of_le (avail_le l _)
            · rw [avail_unlock_of_ne s same]
              exact Nat.le_add_right _ _
        · rw [if_neg there]
          trivial
    | stat lid => exact ⟨conditioned, fun _ _ => id, fun _ => Nat.le_add_right _ _⟩
  again op lid s conditioned waits := by
    obtain ⟨rfl, live⟩ := waits
    have there := conditioned lid live
    show Monitor.Within _ _ _ _ (Op.acquire lid) s (acquireAgain lid s)
    rw [acquireAgain]
    -- a thread that wakes too late goes to sleep again, and nothing was there for it
    by_cases locked : s.locked lid = some true
    · have nothing : avail lid s = 0 := if_pos locked
      rw [if_pos locked, if_pos there]
      refine ⟨⟨rfl, live⟩, nothing, fun l => ?_⟩
      by_cases same : lid = l
      · subst same
        rw [nothing]
        exact Nat.zero_le _
      · simp [same]
    · rw [if_neg locked]
      refine within_lock rfl conditioned there fun l other => ?_
      simp [Ne.symm other]
  safe op lid s conditioned waits := by
    obtain ⟨rfl, live⟩ := waits
    show acquireAgain lid s ≠ .crashes
    rw [acquireAgain]
    by_cases locked : s.locked lid = some true
    · rw [if_pos locked, if_pos (conditioned lid live)]
      rintro ⟨⟩
    · rw [if_neg locked]
      rintro ⟨⟩

end Rounds

/-- **No wake-up is lost**, whatever clients call and whoever releases: in every state that a run
reaches in which the server has not crashed, when a lock is free and a thread sleeps in
`acquire` for it, then a thread that waits for it is awake and gets it with its next round. -/
theorem lock_server_loses_no_wakeup {may : Log T → T → Op → Prop}
    {s : Monitor.State Server ℕ Op Res T}
    (reach : Monitor.Reach lockServer may Server.initial s) (runs : s.crashed = false) {lid : ℕ}
    (free : s.data.locked lid ≠ some true) (sleeps : (s.cond lid).sleeping.Nonempty) :
    ∃ t, t ∈ (s.cond lid).woken ∧ s.place t = .waiting (.acquire lid) lid ∧
      acquireAgain lid s.data = .returns (s.data.lock lid) (ok, ok) none := by
  have conditioned : Server.initial.Conditioned := fun l there => absurd rfl there
  have some : 0 < avail lid s.data := by
    rw [avail, if_neg free]
    exact Nat.one_pos
  obtain ⟨t, op, -, -, -, awake, place, -⟩ := accounts.goes_on conditioned reach runs some sleeps
  obtain ⟨rfl, -⟩ := (accounts.accounted conditioned reach runs).waits t op lid place
  refine ⟨t, awake, place, ?_⟩
  rw [acquireAgain, if_neg free]

/-- Thread 2 sleeps, and thread 1 gets the lock. -/
theorem lock_server_loses_no_wakeup_contended : ∃ s : Monitor.State Server ℕ Op Res ℕ,
    Reach s ∧ s.data.locked 5 = some false ∧ 2 ∈ (s.cond 5).sleeping ∧
      ∃ t, t ∈ (s.cond 5).woken ∧ s.place t = .waiting (.acquire 5) 5 ∧
        acquireAgain 5 s.data = .returns (s.data.lock 5) (ok, ok) none := by
  obtain ⟨s, reach, runs, -, free, -, -, asleep⟩ := exists_contended
  have mem : 2 ∈ (s.cond 5).sleeping := by
    rw [asleep]
    exact Finset.mem_singleton_self 2
  exact ⟨s, reach, free, mem, lock_server_loses_no_wakeup reach runs (by simp [free]) ⟨2, mem⟩⟩

end LockServer

end Yfs.Lock
