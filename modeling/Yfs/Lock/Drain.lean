import Yfs.Lib.Termination
import Yfs.Lock.Fallbacks

/-!
# The protocol drains

Threads that take one lock at a time cannot bring the caching lock protocol to a standstill, nor
keep it busy without new calls of `acquire`: as long as none is made and the holders release, the
protocol comes to its end in a bounded number of steps, and on the way everybody who waited has
held the lock.

The proof is by ranks, one for each thread and lock.  A rank counts the sections that the thread has
still to run until it is idle, if nothing goes against it; the numbers are chosen so that each
section lowers the rank of the thread that runs it, and so that no section raises the rank of
another.  Three things happen to a thread from outside.  A signal takes one off the rank of a thread
that waits, so the rank of a wait without a signal is one higher.  A thread whose call was answered
`RETRY` has to call again, and is ranked for that second call from the start; that the second call
is granted, and does not lead to a third, is where the agreement of the protocol comes in: the
server keeps the lock for the client that it has called back.  And a revoke handler works for a
client that is not its own, so what is left of a release counts for the thread that made the call.

Threads take one lock at a time here.  A thread that holds one lock and waits for another would be
idle at neither, and two such threads may wait for each other for ever.

* `Pc.rank` — how much a thread still has to do; a second acquire call is one that the server
  grants.
* `Step.rank_lt` — every step but a new acquire lowers a rank and raises none.
* `Orderly`, `Draining` — steps of threads that take one lock at a time, and those without a new
  acquire.
* `locks_drain` — what follows for every run.
-/

namespace Yfs.Lock

open Transition

variable {C T L : Type*}

/-! ## Ranks -/

/-- What is left of a release. -/
def ReleaseAt.rank : ReleaseAt C → ℕ
  | .done => 1
  | .retry _ => 2
  | .call => 3
  | .sync => 4

/-- What is left of an acquire call once its reply is there: after `RETRY` another call. -/
def Status.rank : Status → ℕ
  | .OK => 6
  | .RETRY => 15

/-- What is left of the call in which a release is run. -/
def Releaser.rank : Releaser C → ℕ
  | .thread => 0
  | .handler _ status => status.rank

/-- What is left after a wait; the call after `retried` is granted.

A thread that waits for a release to end, or for its turn, may have to make the first call of its
client, and is ranked above all the calls. -/
def WaitAt.rank : WaitAt → ℕ
  | .retried => 13
  | .released => 23
  | .turn => 25

/-- **What a thread still has to do** for the lock; `next` says that its client is the one that
the server keeps the lock for, so that an acquire call will be granted.

The numbers are read from the end.  A thread that has the lock has 5 to go: its release, with a
`sync` and a call to the server, is worth 4 and the step to it one more.  An `OK` on its way is
one above that.  A call that is granted leads to the `OK` or, if the server wants the lock back at
once, first through a revoke, which is worth 5 more; and a call that is not granted leads to
`RETRY`, a wait, and a call that is granted.  The waits before the call come last. -/
def Pc.rank (next : Bool) : Pc C → ℕ
  | .idle | .noent => 0
  | .holding => 5
  | .replied status => status.rank
  | .releasing who place => who.rank + place.rank
  | .revoking _ status => status.rank + 5
  | .readHolding => 21
  | .calling => if next then 12 else 22
  | .waiting place signalled => place.rank + if signalled then 0 else 1

/-- A signal lowers the rank of a thread that waits. -/
theorem Pc.rank_signal_le (pc : Pc C) (next : Bool) : pc.signal.rank next ≤ pc.rank next := by
  cases pc with
  | waiting place signalled => exact Nat.add_le_add_left (Nat.zero_le _) _
  | _ => exact Nat.le_refl _

/-- A thread whose client is next has no more to do than another. -/
theorem Pc.rank_mono {next next' : Bool} (pc : Pc C)
    (more : pc = .calling → next = true → next' = true) :
    pc.rank next' ≤ pc.rank next := by
  cases pc with
  | calling =>
      cases next with
      | true => rw [more rfl rfl]
      | false => cases next' <;> simp [Pc.rank]
  | _ => exact Nat.le_refl _

/-- The server's section leaves less to do. -/
theorem Pc.rank_answer_lt (answer : Answer) (c : C) (next : Bool) :
    (answer.pc c).rank next < 22 := by
  cases answer with
  | reply status => cases status <;> simp [Answer.pc, Pc.rank, Status.rank]
  | revokeHolding => simp [Answer.pc, Pc.rank]
  | revokeCaller => simp [Answer.pc, Pc.rank, Status.rank]

/-- And after the last call even less. -/
theorem Pc.rank_granted_lt {answer : Answer} (granted : answer.status = .OK) (c : C) (next : Bool) :
    (answer.pc c).rank next < 12 := by
  cases answer with
  | reply status =>
      obtain rfl : status = .OK := granted
      simp [Answer.pc, Pc.rank, Status.rank]
  | revokeHolding => cases granted
  | revokeCaller => simp [Answer.pc, Pc.rank, Status.rank]

namespace LockState

variable [DecidableEq C] {s s' : LockState C T}

/-- The rank of each thread. -/
def rank (s : LockState C T) (i : C × T) : ℕ :=
  (s.pc i.1 i.2).rank (decide (s.server.clientRetrying = some i.1))

/-- One thread moves on and others may be signalled; no call that would be granted is put off. -/
theorem rank_lt {c : C} {t : T}
    (next : ∀ b u, ¬ (b = c ∧ u = t) → s.pc b u = .calling → s.server.clientRetrying = some b →
      s'.server.clientRetrying = some b)
    (others : ∀ b u, ¬ (b = c ∧ u = t) → s'.pc b u = s.pc b u ∨ s'.pc b u = (s.pc b u).signal)
    (own : s'.rank (c, t) < s.rank (c, t)) : s'.rank < s.rank := by
  refine Pi.lt_def.mpr ⟨?_, (c, t), own⟩
  rintro ⟨b, u⟩
  by_cases same : b = c ∧ u = t
  · obtain ⟨rfl, rfl⟩ := same
    exact own.le
  · have granted :
        (s.pc b u).rank (decide (s'.server.clientRetrying = some b)) ≤ s.rank (b, u) := by
      refine Pc.rank_mono _ fun calls retrying => ?_
      exact decide_eq_true (next b u same calls (of_decide_eq_true retrying))
    rcases others b u same with eq | eq
    · rw [rank, eq]
      exact granted
    · rw [rank, eq]
      exact (Pc.rank_signal_le _ _).trans granted

variable [DecidableEq T] {b c : C} {t u : T}

/-- A section that signals. -/
theorem signalled_pc (result : ClientLock T × Option T) :
    (s.signalled c result).pc b u = s.pc b u ∨
      (s.signalled c result).pc b u = (s.pc b u).signal := by
  obtain ⟨lock, none | v⟩ := result
  · exact Or.inl rfl
  · rw [signalled_some, setPc_pc_apply]
    split
    next eq =>
        obtain ⟨rfl, rfl⟩ := eq
        exact Or.inr rfl
    next ne => exact Or.inl rfl

/-- Only one thread moves. -/
theorem rank_setPc_lt {pc : Pc C} (server : s'.server.clientRetrying = s.server.clientRetrying)
    (others : ∀ b u, s'.pc b u = s.pc b u ∨ s'.pc b u = (s.pc b u).signal)
    (own : pc.rank (decide (s.server.clientRetrying = some c)) < s.rank (c, t)) :
    (s'.setPc c t pc).rank < s.rank := by
  refine rank_lt (c := c) (t := t) (fun b u _ _ next => server.trans next) (fun b u ne => ?_) ?_
  · rw [setPc_pc_apply, if_neg ne]
    exact others b u
  · rw [rank, setPc_pc_apply, if_pos ⟨rfl, rfl⟩, setPc_server, server]
    exact own

/-- The thread leaves, and others may be signalled. -/
theorem rank_idle_lt {result : ClientLock T × Option T} (busy : 0 < s.rank (c, t)) :
    ((s.setPc c t .idle).signalled b result).rank < s.rank := by
  refine rank_lt (c := c) (t := t) (fun d u _ _ next => ?_) (fun d u ne => ?_) ?_
  · rw [signalled_server]
    exact next
  · have same : (s.setPc c t .idle).pc d u = s.pc d u := by rw [setPc_pc_apply, if_neg ne]
    rcases signalled_pc (s := s.setPc c t .idle) (b := d) (u := u) (c := b) result with eq | eq
    · exact Or.inl (eq.trans same)
    · exact Or.inr (eq.trans (congrArg _ same))
  · have idle : (s.setPc c t .idle).pc c t = .idle := by rw [setPc_pc_apply, if_pos ⟨rfl, rfl⟩]
    rw [rank, signalled_pc_of_still (by rw [idle]; rfl), idle]
    exact busy

end LockState

/-! ## Steps -/

section Steps

variable [LinearOrder C] [DecidableEq T] {s s' : LockState C T} {p : Protocol C (C × T)} {c : C}
  {t : T}

open LockState

omit [LinearOrder C] [DecidableEq T] in
/-- A client that knows of the retry is the one that the server keeps the lock for. -/
theorem Agreed.next_of_nudged (agreed : Agreed p) (phase : p.phase c = .asked true) :
    p.server.clientRetrying = some c := by
  have other : ¬ Waits p c := by
    rw [Agreed.waits_iff, phase]
    simp
  cases agreed with
  | vacant state holding retrying queue revoke retry others => exact absurd (others c) other
  | locked h state holding retrying queue revoke retry phase others =>
      by_cases same : c = h
      · subst same
        grind
      · exact absurd (others c same) other
  | revoking h state holding retrying queue retry phase others =>
      by_cases same : c = h
      · subst same
        grind
      · exact absurd (others c same) other
  | retrying r state holding retrying queue revoke phase others =>
      by_cases same : c = r
      · rw [same, retrying]
      · exact absurd (others c same) other

omit [DecidableEq T] in
/-- The server grants the lock to the client that it keeps it for. -/
theorem Agreed.granted_of_next (agreed : Agreed p) (next : p.server.clientRetrying = some c) :
    (p.server.acquire c).2.status = .OK := by
  cases agreed with
  | retrying r state holding retrying queue revoke phase others =>
      obtain rfl : r = c := Option.some.inj (retrying.symm.trans next)
      by_cases more : p.server.clientsQueue.Nonempty
      · rw [ServerLock.acquire_retrying_more state retrying.symm more]
        rfl
      · rw [ServerLock.acquire_retrying_last state retrying.symm
          (Finset.not_nonempty_iff_eq_empty.mp more)]
        rfl
  | vacant state holding retrying queue revoke retry others =>
      rw [retrying] at next
      cases next
  | locked h state holding retrying queue revoke retry phase others =>
      rw [retrying] at next
      cases next
  | revoking h state holding retrying queue retry phase others =>
      rw [retrying] at next
      cases next

omit [DecidableEq T] in
/-- Another client's call does not take the lock from the client that it is kept for. -/
theorem Agreed.next_acquire {b : C} (agreed : Agreed p) (next : p.server.clientRetrying = some b)
    (other : b ≠ c) : (p.server.acquire c).1.clientRetrying = some b := by
  cases agreed with
  | retrying r state holding retrying queue revoke phase others =>
      obtain rfl : r = b := Option.some.inj (retrying.symm.trans next)
      rw [ServerLock.acquire_retrying_other state]
      · exact next
      · rw [next]
        exact fun eq => other (Option.some.inj eq).symm
  | vacant state holding retrying queue revoke retry others =>
      rw [retrying] at next
      cases next
  | locked h state holding retrying queue revoke retry phase others =>
      rw [retrying] at next
      cases next
  | revoking h state holding retrying queue retry phase others =>
      rw [retrying] at next
      cases next

omit [LinearOrder C] [DecidableEq T] in
/-- The server keeps the lock for nobody while a client has it. -/
theorem Agreed.not_next_of_holding {h : C} (agreed : Agreed p)
    (holds : p.server.clientHolding = some h) : p.server.clientRetrying = none := by
  cases agreed with
  | vacant state holding retrying queue revoke retry others => exact retrying
  | locked h state holding retrying queue revoke retry phase others => exact retrying
  | revoking h state holding retrying queue retry phase others => exact retrying
  | retrying r state holding retrying queue revoke phase others =>
      rw [holding] at holds
      cases holds

omit [LinearOrder C] in
/-- A call that is repeated after `RETRY` will be granted. -/
theorem Follows.next_of_retries (follows : Follows s p) (agreed : Agreed p)
    (retries : s.pc c t = .waiting .retried true ∨
      s.pc c t = .replied .RETRY ∧ (s.client c).serverResponse = .retry) :
    s.server.clientRetrying = some c := by
  have active : s.pc c t ≠ .idle ∧ s.pc c t ≠ .waiting .turn false := by
    rcases retries with waits | ⟨replies, -⟩
    · simp [waits]
    · simp [replies]
  obtain ⟨state, response, rest, record, client, -⟩ := follows.front active.1 active.2
  rw [← follows.server]
  refine agreed.next_of_nudged ?_
  generalize p.phase c = phase at client ⊢
  generalize (p.handler c).isSome = handled at client
  rcases retries with waits | ⟨replies, noted⟩
  · rw [waits] at client
    cases client with
    | signalled => rfl
    | asked status => cases status
    | nudged status => cases status
    | granted status => cases status
    | grantedNoted status => cases status
  · obtain rfl : response = .retry := by rw [← noted, record]
    rw [replies] at client
    cases client with
    | nudged status => rfl

/-- **A wait that returns leaves less to do.** -/
theorem Follows.rank_wake_lt {place : WaitAt} (follows : Follows s p) (agreed : Agreed p)
    (waits : s.pc c t = .waiting place true) :
    (((s.client c).wake place).2.pc : Pc C).rank (decide (s.server.clientRetrying = some c)) <
      s.rank (c, t) := by
  rw [LockState.rank, waits]
  cases place with
  | turn =>
      rw [ClientLock.wake]
      cases (s.client c).clientState with
      | none =>
          simp only [ClientLock.rpcAcquire, Outcome.pc, Pc.rank, WaitAt.rank]
          split <;> omega
      | _ => simp [Outcome.pc, Pc.rank, WaitAt.rank]
  | released =>
      simp only [ClientLock.wake, ClientLock.rpcAcquire, Outcome.pc, Pc.rank, WaitAt.rank]
      split <;> omega
  | retried =>
      have next := follows.next_of_retries agreed (Or.inl waits)
      by_cases acquiring : (s.client c).clientState = .acquiring <;>
        simp [ClientLock.wake, ClientLock.whileAcquiring, acquiring, Outcome.pc, Pc.rank,
          WaitAt.rank, next]

/-- **A reply leaves less to do.** -/
theorem Follows.rank_replied_lt {status : Status} (follows : Follows s p) (agreed : Agreed p)
    (replies : s.pc c t = .replied status) :
    (((s.client c).rpcReturned status).2.pc : Pc C).rank
      (decide (s.server.clientRetrying = some c)) < s.rank (c, t) := by
  rw [LockState.rank, replies]
  cases status with
  | OK => simp [ClientLock.rpcReturned, Outcome.pc, Pc.rank, Status.rank]
  | RETRY =>
      by_cases noted : (s.client c).serverResponse = .retry
      · have next := follows.next_of_retries agreed (Or.inr ⟨replies, noted⟩)
        by_cases acquiring : (s.client c).clientState = .acquiring <;>
          simp [ClientLock.rpcReturned, ClientLock.whileAcquiring, acquiring, Outcome.pc, Pc.rank,
            Status.rank, noted, next]
      · simp [ClientLock.rpcReturned, Outcome.pc, Pc.rank, Status.rank, WaitAt.rank, noted]

omit [LinearOrder C] [DecidableEq T] in
/-- One thread of a client calls at a time. -/
theorem Follows.calling_unique {u : T} (follows : Follows s p) (calls : s.pc c t = .calling)
    (calls' : s.pc c u = .calling) : u = t := by
  obtain ⟨rest, queue, -⟩ :=
    (follows.shape c).of_active (t := t) (by simp [calls]) (by simp [calls])
  obtain ⟨rest', queue', -⟩ := (follows.shape c).of_active (t := u) (by simp [calls'])
    (by simp [calls'])
  rw [queue] at queue'
  exact (List.cons.inj queue').1.symm

/-- **The server's section for an acquire call.** -/
theorem Follows.rank_served_lt (follows : Follows s p) (agreed : Agreed p)
    (calls : s.pc c t = .calling) : (s.served c t).rank < s.rank := by
  have server := follows.server
  refine rank_lt (c := c) (t := t) (fun b u ne calls' next => ?_) (fun b u ne => ?_) ?_
  · have other : b ≠ c := by
      rintro rfl
      exact ne ⟨rfl, follows.calling_unique calls calls'⟩
    rw [served, setPc_server]
    rw [← server] at next ⊢
    exact agreed.next_acquire next other
  · rw [served, setPc_pc_apply, if_neg ne]
    exact Or.inl rfl
  · rw [LockState.rank, served, setPc_pc_apply, if_pos ⟨rfl, rfl⟩, LockState.rank, calls]
    by_cases next : s.server.clientRetrying = some c
    · rw [decide_eq_true next]
      rw [← server] at next ⊢
      exact Pc.rank_granted_lt (agreed.granted_of_next next) c _
    · rw [decide_eq_false next]
      exact Pc.rank_answer_lt _ c _

/-- **The server's section for a release.** -/
theorem Follows.rank_released_lt {who : Releaser C} (follows : Follows s p) (agreed : Agreed p)
    (releases : s.pc c t = .releasing who .call) :
    ({ s with server := s.server.release.1 }.setPc c t
          (.releasing who (s.server.release.2.elim .done .retry))).rank < s.rank := by
  have giving : p.phase (who.client c) = .giving := by
    cases who with
    | thread => exact (follows.shape c).of_giving_thread releases trivial
    | handler h status => exact (follows.calls c t).early h status .call releases trivial
  have nobody : s.server.clientRetrying = none := by
    rw [← follows.server]
    exact agreed.not_next_of_holding (agreed.has_iff.mp (Or.inr (Or.inr giving)))
  refine rank_lt (c := c) (t := t) (fun b u _ _ next => ?_) (fun b u ne => ?_) ?_
  · rw [nobody] at next
    cases next
  · rw [setPc_pc_apply, if_neg ne]
    exact Or.inl rfl
  · rw [LockState.rank, setPc_pc_apply, if_pos ⟨rfl, rfl⟩, LockState.rank, releases]
    refine Nat.add_lt_add_left ?_ _
    cases s.server.release.2 <;> simp [ReleaseAt.rank]

/-- **Every step but a new acquire lowers a rank and raises none.** -/
theorem Step.rank_lt {label : Label C T} (step : Step false label s s') (follows : Follows s p)
    (agreed : Agreed p) (noAcquire : ∀ c t, label ≠ .acquire c t) : s'.rank < s.rank := by
  have stays : ∀ b u, s.pc b u = s.pc b u ∨ s.pc b u = (s.pc b u).signal := fun _ _ => Or.inl rfl
  cases step with
  | acquire idle => exact absurd rfl (noAcquire _ _)
  | @wake _ c t place signalled waits wakes =>
      obtain rfl : signalled = true := wakes.resolve_right (by simp)
      exact rank_setPc_lt rfl stays (follows.rank_wake_lt agreed waits)
  | serverAcquire calls => exact follows.rank_served_lt agreed calls
  | @readHolding _ c t holder reads holds =>
      refine rank_setPc_lt rfl stays ?_
      simp [LockState.rank, reads, Pc.rank, Status.rank]
  | @revoke _ c t holder status revokes =>
      refine rank_setPc_lt rfl stays ?_
      rw [LockState.rank, revokes]
      split <;> simp [Pc.rank, Releaser.rank, ReleaseAt.rank]
  | @synced _ c t who releases =>
      refine rank_setPc_lt rfl stays ?_
      simp [LockState.rank, releases, Pc.rank, ReleaseAt.rank]
  | serverRelease releases => exact follows.rank_released_lt agreed releases
  | @retry _ c t who next retries =>
      refine rank_setPc_lt (congrArg _ (signalled_server _)) (fun b u => signalled_pc _) ?_
      simp [LockState.rank, retries, Pc.rank, ReleaseAt.rank]
  | @revokeDone _ c t holder status done =>
      refine rank_setPc_lt (congrArg _ (signalled_server _)) (fun b u => signalled_pc _) ?_
      simp [LockState.rank, done, Pc.rank, Releaser.rank, ReleaseAt.rank]
  | replied replies => exact rank_setPc_lt rfl stays (follows.rank_replied_lt agreed replies)
  | @release _ c t holds leaves =>
      refine rank_setPc_lt rfl stays ?_
      simp [LockState.rank, holds, Pc.rank, Releaser.rank, ReleaseAt.rank]
  | @releaseLocal _ c t next holds local' =>
      refine rank_idle_lt ?_
      simp [LockState.rank, holds, Pc.rank]
  | @releaseDone _ c t done =>
      refine rank_idle_lt ?_
      simp [LockState.rank, done, Pc.rank, Releaser.rank, ReleaseAt.rank]

/-- A thread that is in no call on the lock enters one by its own acquire only. -/
theorem Step.idle {label : Label C T} (step : Step false label s s')
    (noAcquire : label ≠ .acquire c t)
    (idle : s.pc c t = .idle) : s'.pc c t = .idle := by
  by_cases releases : label = .release c t
  · subst releases
    rw [step.release_pc.1] at idle
    cases idle
  · have other : label.caller ≠ some (c, t) := by
      cases label with
      | acquire b u =>
          rintro ⟨⟩
          exact noAcquire rfl
      | release b u =>
          rintro ⟨⟩
          exact releases rfl
      | _ => rintro ⟨⟩
    have goes := step.goes other
    rw [idle] at goes
    generalize s'.pc c t = pc at goes ⊢
    cases goes with
    | stays => rfl
    | acquires old new => cases old
    | releases old new => cases old

/-- A thread leaves its acquire call with the lock. -/
theorem Step.holds_of_call {label : Label C T} (reach : ReachLock false s)
    (step : Step false label s s')
    (call : (s.pc c t).call = some .acquire) :
    (s'.pc c t).call = some .acquire ∨ s'.pc c t = .holding := by
  have other : label.caller ≠ some (c, t) := by
    intro caller
    cases label with
    | acquire b u =>
        obtain ⟨rfl, rfl⟩ := Prod.mk.inj (Option.some.inj caller)
        rw [step.acquire_pc.1] at call
        cases call
    | release b u =>
        obtain ⟨rfl, rfl⟩ := Prod.mk.inj (Option.some.inj caller)
        rw [step.release_pc.1] at call
        cases call
    | _ => cases caller
  have noent : s'.pc c t ≠ .noent := ReachLock.not_noent (.step reach ⟨label, step⟩)
  have goes := step.goes other
  generalize s'.pc c t = pc' at goes noent ⊢
  generalize s.pc c t = pc at goes call
  cases goes with
  | stays => exact Or.inl call
  | acquires old new => exact new.imp_right fun done => done.resolve_right noent
  | releases old new =>
      rw [old] at call
      cases call

/-- The holder can release. -/
theorem exists_release (holds : s.pc c t = .holding) : ∃ s', Step false (.release c t) s s' := by
  cases out : (s.client c).release.2 with
  | inl _ => exact ⟨_, .release holds out⟩
  | inr next => exact ⟨_, .releaseLocal holds out⟩

/-- **While a thread is in a call or holds the lock, something moves on.** -/
theorem ReachLock.exists_step (reach : ReachLock false s) (busy : s.pc c t ≠ .idle) :
    (∃ b u s', s.pc b u = .holding ∧ Step false (.release b u) s s') ∨
      ∃ label s', label.caller = none ∧ Step false label s s' := by
  obtain ⟨p, follows, agreed⟩ := reach_follows reach
  obtain ⟨b, u, acts⟩ : ∃ b u, (s.pc b u).Acts := by
    by_cases waits : ∃ place, s.pc c t = .waiting place false
    · obtain ⟨place, waits⟩ := waits
      exact follows.acts agreed waits
    · exact ⟨c, t, busy, reach.not_noent, fun place eq => waits ⟨place, eq⟩⟩
  rcases follows.moves agreed acts with holds | ⟨label, s', step, caller, -⟩
  · obtain ⟨s', step⟩ := exists_release holds
    exact Or.inl ⟨b, u, s', holds, step⟩
  · exact Or.inr ⟨label, s', caller, step⟩

end Steps

/-! ## All locks -/

section System

variable [LinearOrder C] [DecidableEq T] {s s' : L → LockState C T}

/-- A step on lock `lid`, as in `SystemStep`. -/
structure SystemMove (lid : L) (label : Label C T) (s s' : L → LockState C T) : Prop where
  step : Step false label (s lid) (s' lid)
  others : ∀ l, l ≠ lid → s' l = s l
  mutex : ∀ c, label.mutex = some c → ∀ l t, (s l).pc c t ≠ .noent
  caller : ∀ c t, label.caller = some (c, t) → ∀ l, ¬ ((s l).pc c t).Busy

/-- Steps of threads that take one lock at a time. -/
def Orderly (s s' : L → LockState C T) : Prop :=
  ∃ lid label, SystemMove lid label s s' ∧
    ∀ c t, label = .acquire c t → ∀ l, (s l).pc c t = .idle

/-- Steps that are no new call of `acquire`. -/
def Draining (s s' : L → LockState C T) : Prop :=
  ∃ lid label, SystemMove lid label s s' ∧ ∀ c t, label ≠ .acquire c t

/-- The states of threads that take one lock at a time. -/
def ReachOrderly : (L → LockState C T) → Prop :=
  Reachable (fun s => ∀ l, s l = .initial) Orderly

theorem Draining.orderly (draining : Draining s s') : Orderly s s' := by
  obtain ⟨lid, label, move, noAcquire⟩ := draining
  exact ⟨lid, label, move, fun c t eq => absurd eq (noAcquire c t)⟩

/-- **What holds of these states**: a thread uses one lock, and finitely many threads use any.

Finiteness is an invariant and not an assumption: nobody uses a lock at first, and a step adds at
most one user.  Without it the sum of the ranks would not be defined. -/
structure InOrder (s : L → LockState C T) : Prop where
  reach : Reach false s
  single : ∀ c t l l', (s l).pc c t ≠ .idle → (s l').pc c t ≠ .idle → l = l'
  finite : ∃ users : Finset (L × C × T), ∀ l c t, (l, c, t) ∉ users → (s l).pc c t = .idle

theorem InOrder.initial (start : ∀ l, s l = .initial) : InOrder s where
  reach := .init start
  single c t l l' busy := absurd (by rw [start l]; rfl) busy
  finite := ⟨∅, fun l c t _ => by rw [start l]; rfl⟩

/-- A thread that uses no lock before the step uses none after it, unless it calls `acquire`. -/
theorem SystemMove.idle {lid l : L} {label : Label C T} {c : C} {t : T}
    (move : SystemMove lid label s s')
    (noAcquire : l = lid → label ≠ .acquire c t) (idle : (s l).pc c t = .idle) :
    (s' l).pc c t = .idle := by
  by_cases here : l = lid
  · subst here
    exact move.step.idle (noAcquire rfl) idle
  · rw [move.others l here]
    exact idle

theorem InOrder.step (inOrder : InOrder s) (orderly : Orderly s s') : InOrder s' := by
  classical
  obtain ⟨lid, label, move, alone⟩ := orderly
  refine ⟨inOrder.reach.step ⟨lid, label, move.step, move.others, move.mutex, move.caller⟩,
    fun c t l l' busy busy' => ?_, ?_⟩
  · by_cases acquires : label = .acquire c t
    · -- it used no lock before
      have here : ∀ k, (s' k).pc c t ≠ .idle → k = lid := by
        intro k used
        by_contra other
        exact used (move.idle (fun eq => absurd eq other) (alone c t acquires k))
      rw [here l busy, here l' busy']
    · exact inOrder.single c t l l' (mt (move.idle fun _ => acquires) busy)
        (mt (move.idle fun _ => acquires) busy')
  · obtain ⟨users, others⟩ := inOrder.finite
    by_cases acquires : ∃ c t, label = .acquire c t
    · obtain ⟨b, u, rfl⟩ := acquires
      refine ⟨insert (lid, b, u) users, fun l c t out => ?_⟩
      rw [Finset.mem_insert, not_or] at out
      refine move.idle ?_ (others l c t out.2)
      rintro rfl ⟨⟩
      exact out.1 rfl
    · exact ⟨users, fun l c t out => move.idle (fun _ eq => acquires ⟨c, t, eq⟩) (others l c t out)⟩

theorem ReachOrderly.inOrder (reach : ReachOrderly s) : InOrder s :=
  reach.invariant (fun _ => .initial) fun _ _ _ inOrder => inOrder.step

/-- The rank of each thread at each lock. -/
def systemRank (s : L → LockState C T) (i : L × C × T) : ℕ := (s i.1).rank i.2

/-- **A step without a new acquire.** -/
theorem InOrder.rank_lt (inOrder : InOrder s) (draining : Draining s s') :
    systemRank s' < systemRank s := by
  obtain ⟨lid, label, move, noAcquire⟩ := draining
  obtain ⟨p, follows, agreed⟩ := reach_follows (inOrder.reach.lock lid)
  obtain ⟨le, i, lt⟩ := Pi.lt_def.mp (move.step.rank_lt follows agreed noAcquire)
  refine Pi.lt_def.mpr ⟨?_, (lid, i), lt⟩
  rintro ⟨l, j⟩
  by_cases here : l = lid
  · subst here
    exact le j
  · exact (congrArg (LockState.rank · j) (move.others l here)).le

/-- **While a lock is in use, the system moves on** without a new acquire. -/
theorem InOrder.exists_draining (inOrder : InOrder s) {l : L} {c : C} {t : T}
    (busy : (s l).pc c t ≠ .idle) : ∃ s', Draining s s' := by
  classical
  have noent : ∀ b l t, (s l).pc b t ≠ .noent := fun b l t => (inOrder.reach.lock l).not_noent
  have move : ∀ {label x}, Step false label (s l) x →
      (∀ b u, label.caller = some (b, u) → ∀ k, ¬ ((s k).pc b u).Busy) →
      SystemMove l label s (Function.update s l x) := by
    intro label x step caller
    refine ⟨?_, fun k ne => Function.update_of_ne ne .., fun b _ => noent b, caller⟩
    rwa [Function.update_self]
  rcases (inOrder.reach.lock l).exists_step busy with
    ⟨b, u, x, holds, step⟩ | ⟨label, x, noCaller, step⟩
  · -- the holder waits at no other lock
    refine ⟨_, l, _, move step ?_, by rintro c t ⟨⟩⟩
    rintro _ _ ⟨⟩ k waits
    have same : k = l := inOrder.single b u k l waits.1 (by rw [holds]; simp)
    rw [same, holds] at waits
    exact waits.2.1 rfl
  · refine ⟨_, l, label, move step fun b u eq => ?_, ?_⟩
    · rw [noCaller] at eq
      cases eq
    · rintro b u rfl
      cases noCaller

/-- **The protocol drains.** The threads take one lock at a time.  From every state that they
reach, the runs in which `acquire` is not called again are bounded, and where such a run cannot go
on no thread is in a call or holds a lock, and every thread that was in a call of `acquire` at the
beginning has held the lock in between.

The bound is the sum of the ranks of the threads at the beginning.  Nobody is left in a call at
the end, as such a thread, or the one that it waits for, has a step. -/
theorem locks_drain (reach : ReachOrderly s) : ∃ n, ∀ k s', Run Draining k s s' → k ≤ n ∧
    ((∀ s'', ¬ Draining s' s'') → ∀ l c t, (s' l).pc c t = .idle ∧
      (((s l).pc c t).call = some .acquire → ∃ i j m, Run Draining i s m ∧ Run Draining j m s' ∧
        (m l).pc c t = .holding)) := by
  have inOrder := reach.inOrder
  obtain ⟨users, others⟩ := inOrder.finite
  have keep : ∀ x y : L → LockState C T, InOrder x → Draining x y → InOrder y :=
    fun _ _ inOrder draining => inOrder.step draining.orderly
  refine ⟨∑ i ∈ users, systemRank s i, fun k s' run => ⟨?_, fun stuck l c t => ?_⟩⟩
  · refine le_trans (Nat.le_add_right _ _) (run.length_le systemRank keep
      (fun _ _ inOrder draining => inOrder.rank_lt draining) ?_ inOrder)
    rintro ⟨l, c, t⟩ out
    rw [systemRank, LockState.rank, others l c t out]
    rfl
  -- where no step is possible nobody is in a call: a busy thread always has a step
  · have idle : (s' l).pc c t = .idle := by
      by_contra busy
      obtain ⟨s'', draining⟩ := (run.keeps keep inOrder).exists_draining busy
      exact stuck s'' draining
    refine ⟨idle, fun call => run.passes (P := fun x => ((x l).pc c t).call = some .acquire)
      (Q := fun x => (x l).pc c t = .holding) keep ?_ inOrder call (by rw [idle]; simp [Pc.call])⟩
    rintro x y inOrder call ⟨lid, label, move, -⟩
    by_cases here : l = lid
    · subst here
      exact move.step.holds_of_call (inOrder.reach.lock l) call
    · rw [move.others l here]
      exact Or.inl call

/-- A run in which client 1 asks for the lock that client 0 is granted. -/
theorem contended_orderly : ∃ s : Unit → LockState ℕ Unit, ReachOrderly s ∧
    (s ()).pc 0 () = .replied .OK ∧ (s ()).pc 1 () = .readHolding := by
  let s₀ : LockState ℕ Unit := .initial
  let s₁ := s₀.acquiring 0 () ((s₀.client 0).acquire ())
  let s₂ := s₁.served 0 ()
  let s₃ := s₂.acquiring 1 () ((s₂.client 1).acquire ())
  let s₄ := s₃.served 1 ()
  have acquires : ∀ {c : ℕ} {s s' : LockState ℕ Unit}, ReachOrderly (fun _ : Unit => s) →
      Step false (.acquire c ()) s s' → (∀ t, s.pc c t = .idle) →
      ReachOrderly fun _ : Unit => s' := by
    intro c s s' reach step idle
    refine reach.step ⟨(), _, ⟨step, fun l ne => absurd rfl ne, ?_, ?_⟩, ?_⟩
    · rintro _ ⟨⟩ l t
      rw [idle t]
      rintro ⟨⟩
    · rintro _ _ ⟨⟩ l busy
      exact busy.1 (idle ())
    · rintro _ _ ⟨⟩ l
      exact idle ()
  have serves :
      ∀ {s s' : LockState ℕ Unit}, ReachOrderly (fun _ : Unit => s) → Step false .server s s' →
        ReachOrderly fun _ : Unit => s' := by
    intro s s' reach step
    exact reach.step ⟨(), _, ⟨step, fun l ne => absurd rfl ne, by rintro c ⟨⟩, by rintro c t ⟨⟩⟩,
      by rintro c t ⟨⟩⟩
  have reach₀ : ReachOrderly fun _ : Unit => s₀ := .init fun _ => rfl
  have reach₁ := acquires reach₀ (.acquire (c := 0) (t := ()) rfl) fun _ => rfl
  have reach₂ := serves reach₁ (.serverAcquire (c := 0) (t := ()) rfl)
  have reach₃ := acquires reach₂ (.acquire (c := 1) (t := ()) rfl) fun _ => rfl
  have reach₄ := serves reach₃ (.serverAcquire (c := 1) (t := ()) rfl)
  exact ⟨fun _ => s₄, reach₄, rfl, rfl⟩

/-- While client 0 is granted the lock and client 1 waits, the protocol drains. -/
theorem locks_drain_contended : ∃ s : Unit → LockState ℕ Unit, ReachOrderly s ∧
    (s ()).pc 1 () = .readHolding ∧ ∃ n, ∀ k s', Run Draining k s s' → k ≤ n ∧
      ((∀ s'', ¬ Draining s' s'') → ∀ l c t, (s' l).pc c t = .idle ∧
        (((s l).pc c t).call = some .acquire → ∃ i j m, Run Draining i s m ∧
          Run Draining j m s' ∧ (m l).pc c t = .holding)) := by
  obtain ⟨s, reach, -, waits⟩ := contended_orderly
  exact ⟨s, reach, waits, locks_drain reach⟩

end System

end Yfs.Lock
