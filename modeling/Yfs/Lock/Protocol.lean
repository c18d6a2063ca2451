import Yfs.Lock.System
import Mathlib.Logic.Function.Basic

/-!
# The protocol without its threads

What the server and the clients have to agree on, with a client's queue, its state
and its server response reduced to one `Phase`.  Revoke and retry calls that have
not been executed are tokens: there is at most one of each, and `Agreed` says, for
each state of the server, where the lock is, who waits for it, and who has to act.

The reduction is what makes the invariant small.  A client with any number of threads is in one of
seven phases, and a call is no more than the fact that it is on its way.  The server's record is
taken over as it is, with its two methods, because the
decisions that matter are made there.

The states of the server are the cases of `Agreed`, and each says of the client that has the lock,
of the client that the server has called next, and of all the others, in which phases they may be.
A step of the protocol is then checked case by case; there is nothing to be guessed in between.

* `Agreed.step` — every step of the protocol keeps the agreement.
-/

namespace Yfs.Lock

/-- Where a client stands with respect to the lock. -/
inductive Phase where
  /-- It neither has the lock nor has asked for it. -/
  | out
  /-- Its acquire call is on its way. -/
  | asking
  /-- It was answered `RETRY`; `nudged` once the server's retry has come. -/
  | asked (nudged : Bool)
  /-- It was answered `OK` and does not know it yet; `noted` once a revoke has come. -/
  | granted (noted : Bool)
  /-- It has the lock; `noted` once a revoke has come. -/
  | held (noted : Bool)
  /-- It is giving the lock back and the server has not seen it. -/
  | giving
  /-- The server has the lock back and the client does not know it yet. -/
  | gave
  deriving DecidableEq, Repr

/-- The client plays no part at the server. -/
@[grind] def Phase.Away (phase : Phase) : Prop := phase = .out ∨ phase = .asking ∨ phase = .gave

/-- The phase after the server's answer. -/
def Answer.phase (answer : Answer) : Phase :=
  match answer.status with
  | .OK => .granted false
  | .RETRY => .asked false

/-- The answer includes a revoke call. -/
def Answer.Revokes : Answer → Prop
  | .reply _ => False
  | .revokeHolding | .revokeCaller => True

instance (answer : Answer) : Decidable answer.Revokes := by
  cases answer <;> unfold Answer.Revokes <;> infer_instance

/-- The protocol's state.  `revoke` and `retry` are the calls of the server not executed yet,
`handler c` is the revoke handler that runs a release at `c`; each is named by the client's call
(`I`) that it is made for.

Only the existence of a call and its target matter, so a revoke and a retry are each at most one
token.  That there is never a second one is a part of the agreement. -/
structure Protocol (C I : Type*) where
  phase : C → Phase
  server : ServerLock C
  revoke : Option I
  retry : Option I
  handler : C → Option I

variable {C I : Type*}

/-! ## Steps -/

namespace Protocol

def initial : Protocol C I := ⟨fun _ => .out, .zero, none, none, fun _ => none⟩

variable [LinearOrder C]

/-- The protocol's steps. -/
inductive Step : Protocol C I → Protocol C I → Prop where
  -- a thread at the front of the queue calls `acquire` of the server
  | ask {p : Protocol C I} (c : C) (phase : p.phase c = .out ∨ p.phase c = .asked true) :
      Step p { p with phase := Function.update p.phase c .asking }
  -- the server answers; it may have to ask the holder for the lock first
  | answer {p : Protocol C I} (c : C) (i : I) (phase : p.phase c = .asking) :
      Step p { p with
        phase := Function.update p.phase c (p.server.acquire c).2.phase
        server := (p.server.acquire c).1
        revoke := if (p.server.acquire c).2.Revokes then some i else p.revoke }
  -- the client learns that it has the lock
  | receive {p : Protocol C I} (c : C) (noted : Bool) (phase : p.phase c = .granted noted) :
      Step p { p with phase := Function.update p.phase c (.held noted) }
  -- a revoke reaches a client that does not know yet, one that uses the lock, and one that does
  -- not
  | noteGranted {p : Protocol C I} (h : C) (holding : p.server.clientHolding = some h)
      (sent : p.revoke ≠ none) (phase : p.phase h = .granted false) :
      Step p { p with
        phase := Function.update p.phase h (.granted true)
        revoke := none }
  | noteHeld {p : Protocol C I} (h : C) (holding : p.server.clientHolding = some h)
      (sent : p.revoke ≠ none) (phase : p.phase h = .held false) :
      Step p { p with
        phase := Function.update p.phase h (.held true)
        revoke := none }
  | reclaim {p : Protocol C I} (h : C) (i : I) (holding : p.server.clientHolding = some h)
      (sent : p.revoke ≠ none) (phase : p.phase h = .held false) :
      Step p { p with
        phase := Function.update p.phase h .giving
        revoke := none
        handler := Function.update p.handler h (some i) }
  -- the last thread releases a lock that the server wants back
  | give {p : Protocol C I} (c : C) (phase : p.phase c = .held true) :
      Step p { p with phase := Function.update p.phase c .giving }
  -- the server learns of the release, and may call another client back
  | release {p : Protocol C I} (c : C) (i : I) (phase : p.phase c = .giving) :
      Step p { p with
        phase := Function.update p.phase c .gave
        server := p.server.release.1
        retry := p.server.release.2.elim p.retry fun _ => some i }
  | nudge {p : Protocol C I} (r : C) (retrying : p.server.clientRetrying = some r)
      (sent : p.retry ≠ none) :
      Step p { p with
        phase := Function.update p.phase r (.asked true)
        retry := none }
  | settle {p : Protocol C I} (c : C) (phase : p.phase c = .gave) :
      Step p { p with
        phase := Function.update p.phase c .out
        handler := Function.update p.handler c none }

end Protocol

/-! ## Agreement -/

variable {p p' : Protocol C I}

/-- A client waits in `clients_queue` or plays no part. -/
@[grind] def Waits (p : Protocol C I) (c : C) : Prop :=
  c ∈ p.server.clientsQueue ∧ p.phase c = .asked false ∨
    c ∉ p.server.clientsQueue ∧ (p.phase c).Away

/-- **The server, the clients and the calls between them agree.** -/
inductive Agreed (p : Protocol C I) : Prop where
  /-- Nobody has the lock and nobody waits. -/
  | vacant (state : p.server.serverState = .none) (holding : p.server.clientHolding = none)
      (retrying : p.server.clientRetrying = none) (queue : p.server.clientsQueue = ∅)
      (revoke : p.revoke = none) (retry : p.retry = none) (others : ∀ c, Waits p c)
  /-- Client `h` has the lock and nobody waits. -/
  | locked (h : C) (state : p.server.serverState = .locked)
      (holding : p.server.clientHolding = some h) (retrying : p.server.clientRetrying = none)
      (queue : p.server.clientsQueue = ∅) (revoke : p.revoke = none) (retry : p.retry = none)
      (phase : p.phase h = .granted false ∨ p.phase h = .held false)
      (others : ∀ c, c ≠ h → Waits p c)
  /-- Client `h` has the lock, others wait, and the revoke is on its way to `h`, or `h`
  knows of it, or is giving the lock back. -/
  | revoking (h : C) (state : p.server.serverState = .revoking)
      (holding : p.server.clientHolding = some h) (retrying : p.server.clientRetrying = none)
      (queue : h ∉ p.server.clientsQueue ∧ p.server.clientsQueue.Nonempty)
      (retry : p.retry = none)
      (phase : p.revoke ≠ none ∧ (p.phase h = .granted false ∨ p.phase h = .held false) ∨
        p.revoke = none ∧
          (p.phase h = .granted true ∨ p.phase h = .held true ∨ p.phase h = .giving))
      (others : ∀ c, c ≠ h → Waits p c)
  /-- The lock waits for client `r`, and the retry is on its way to `r`, or `r` knows of
  it, or is asking again. -/
  | retrying (r : C) (state : p.server.serverState = .retrying)
      (holding : p.server.clientHolding = none) (retrying : p.server.clientRetrying = some r)
      (queue : r ∉ p.server.clientsQueue) (revoke : p.revoke = none)
      (phase : p.retry ≠ none ∧ p.phase r = .asked false ∨
        p.retry = none ∧ (p.phase r = .asked true ∨ p.phase r = .asking))
      (others : ∀ c, c ≠ r → Waits p c)

namespace Agreed

theorem initial : Agreed (Protocol.initial : Protocol C I) :=
  .vacant rfl rfl rfl rfl rfl rfl fun c => Or.inr ⟨Finset.notMem_empty c, Or.inl rfl⟩

/-- What is known of a client from its phase alone: one that waits or plays no part is
in none of the other phases. -/
theorem waits_iff {c : C} : Waits p c ↔
    c ∈ p.server.clientsQueue ∧ p.phase c = .asked false ∨
      c ∉ p.server.clientsQueue ∧
        (p.phase c = .out ∨ p.phase c = .asking ∨ p.phase c = .gave) :=
  Iff.rfl

/-- A revoke that is not executed yet finds its holder with the lock. -/
theorem revoke_spec {h : C} (agreed : Agreed p) (sent : p.revoke ≠ none)
    (holding : p.server.clientHolding = some h) :
    p.phase h = .granted false ∨ p.phase h = .held false := by
  cases agreed with
  | vacant state holding' retrying queue revoke retry others => exact absurd revoke sent
  | locked h' state holding' retrying queue revoke retry phase others => exact absurd revoke sent
  | revoking h' state holding' retrying queue retry phase others => grind
  | retrying r state holding' retrying queue revoke phase others => exact absurd revoke sent

/-- A retry that is not executed yet finds its client waiting. -/
theorem retry_spec {r : C} (agreed : Agreed p) (sent : p.retry ≠ none)
    (retrying : p.server.clientRetrying = some r) : p.phase r = .asked false := by
  cases agreed with
  | vacant state holding retrying' queue revoke retry others => exact absurd retry sent
  | locked h state holding retrying' queue revoke retry phase others => exact absurd retry sent
  | revoking h state holding retrying' queue retry phase others => exact absurd retry sent
  | retrying r' state holding retrying' queue revoke phase others => grind

variable [LinearOrder C]

theorem ask {c : C} (agreed : Agreed p) (phase : p.phase c = .out ∨ p.phase c = .asked true) :
    Agreed { p with phase := Function.update p.phase c .asking } := by
  cases agreed with
  | vacant state holding retrying queue revoke retry others =>
      simp only [waits_iff] at others
      exact .vacant state holding retrying queue revoke retry
        (by grind [Function.update_apply])
  | locked h state holding retrying queue revoke retry phase others =>
      simp only [waits_iff] at others
      exact .locked h state holding retrying queue revoke retry (by grind)
        (by grind [Function.update_apply])
  | revoking h state holding retrying queue retry phase others =>
      simp only [waits_iff] at others
      exact .revoking h state holding retrying queue retry (by grind)
        (by grind [Function.update_apply])
  | retrying r state holding retrying queue revoke phase others =>
      simp only [waits_iff] at others
      exact .retrying r state holding retrying queue revoke (by grind)
        (by grind [Function.update_apply])

theorem answer {c : C} (agreed : Agreed p) (i : I) (phase : p.phase c = .asking) :
    Agreed { p with
      phase := Function.update p.phase c (p.server.acquire c).2.phase
      server := (p.server.acquire c).1
      revoke := if (p.server.acquire c).2.Revokes then some i else p.revoke } := by
  have granted : ∀ a : Answer, a.status = .OK → a.phase = .granted false := by
    intro a ok
    rw [Answer.phase, ok]
  have refused : ∀ a : Answer, a.status = .RETRY → a.phase = .asked false := by
    intro a ok
    rw [Answer.phase, ok]
  cases agreed with
  | vacant state holding retrying queue revoke retry others =>
      simp only [waits_iff] at others
      rw [ServerLock.acquire_none state]
      exact .locked c rfl rfl retrying queue revoke retry (by grind [Answer.status])
        (by grind [Function.update_apply])
  | locked h state holding retrying queue revoke retry phase others =>
      simp only [waits_iff] at others
      rw [ServerLock.acquire_locked state]
      exact .revoking h rfl holding retrying ⟨by grind, Finset.insert_nonempty _ _⟩ retry
        (by grind [Answer.Revokes]) (by grind [Function.update_apply, Answer.status])
  | revoking h state holding retrying queue retry phase others =>
      simp only [waits_iff] at others
      rw [ServerLock.acquire_revoking state]
      exact .revoking h state holding retrying ⟨by grind, Finset.insert_nonempty _ _⟩ retry
        (by grind [Answer.Revokes]) (by grind [Function.update_apply, Answer.status])
  | retrying r state holding retrying queue revoke phase others =>
      simp only [waits_iff] at others
      -- the client that was called back gets the lock; any other one queues up
      by_cases mine : c = r
      · subst mine
        by_cases more : p.server.clientsQueue.Nonempty
        · rw [ServerLock.acquire_retrying_more state retrying.symm more]
          exact .revoking c rfl rfl rfl ⟨queue, more⟩ (by grind)
            (by grind [Answer.Revokes, Answer.status]) (by grind [Function.update_apply])
        · have last := Finset.not_nonempty_iff_eq_empty.mp more
          rw [ServerLock.acquire_retrying_last state retrying.symm last]
          exact .locked c rfl rfl rfl last (by grind [Answer.Revokes]) (by grind)
            (by grind [Answer.status]) (by grind [Function.update_apply])
      · rw [ServerLock.acquire_retrying_other state (by grind)]
        exact .retrying r state holding retrying (by grind) (by grind [Answer.Revokes])
          (by grind) (by grind [Function.update_apply, Answer.status])

theorem receive {c : C} {noted : Bool} (agreed : Agreed p) (phase : p.phase c = .granted noted) :
    Agreed { p with phase := Function.update p.phase c (.held noted) } := by
  cases agreed with
  | vacant state holding retrying queue revoke retry others =>
      simp only [waits_iff] at others
      grind
  | locked h state holding retrying queue revoke retry phase others =>
      simp only [waits_iff] at others
      exact .locked h state holding retrying queue revoke retry (by grind)
        (by grind [Function.update_apply])
  | revoking h state holding retrying queue retry phase others =>
      simp only [waits_iff] at others
      exact .revoking h state holding retrying queue retry (by grind)
        (by grind [Function.update_apply])
  | retrying r state holding retrying queue revoke phase others =>
      simp only [waits_iff] at others
      grind

/-- The revoke is executed at the holder, which notes it or gives the lock back. -/
theorem executed {h : C} {φ : Phase} {handler : C → Option I} (agreed : Agreed p)
    (holding : p.server.clientHolding = some h) (sent : p.revoke ≠ none)
    (next : φ = .granted true ∨ φ = .held true ∨ φ = .giving) :
    Agreed { p with
      phase := Function.update p.phase h φ
      revoke := none
      handler := handler } := by
  cases agreed with
  | vacant state holding' retrying queue revoke retry others => exact absurd revoke sent
  | locked h' state holding' retrying queue revoke retry phase others => exact absurd revoke sent
  | revoking h' state holding' retrying queue retry phase others =>
      have same : h' = h := Option.some.inj (holding'.symm.trans holding)
      subst same
      simp only [waits_iff] at others
      exact .revoking h' state holding' retrying queue retry (by grind)
        (by grind [Function.update_apply])
  | retrying r state holding' retrying queue revoke phase others => exact absurd revoke sent

theorem give {c : C} (agreed : Agreed p) (phase : p.phase c = .held true) :
    Agreed { p with phase := Function.update p.phase c .giving } := by
  cases agreed with
  | vacant state holding retrying queue revoke retry others =>
      simp only [waits_iff] at others
      grind
  | locked h state holding retrying queue revoke retry phase others =>
      simp only [waits_iff] at others
      grind
  | revoking h state holding retrying queue retry phase others =>
      simp only [waits_iff] at others
      exact .revoking h state holding retrying queue retry (by grind)
        (by grind [Function.update_apply])
  | retrying r state holding retrying queue revoke phase others =>
      simp only [waits_iff] at others
      grind

theorem release {c : C} (agreed : Agreed p) (i : I) (phase : p.phase c = .giving) :
    Agreed { p with
      phase := Function.update p.phase c .gave
      server := p.server.release.1
      retry := p.server.release.2.elim p.retry fun _ => some i } := by
  cases agreed with
  | vacant state holding retrying queue revoke retry others =>
      simp only [waits_iff] at others
      grind
  | locked h state holding retrying queue revoke retry phase others =>
      simp only [waits_iff] at others
      grind
  | revoking h state holding retrying queue retry phase others =>
      simp only [waits_iff] at others
      obtain ⟨notMem, more⟩ := queue
      obtain ⟨next, mem, out⟩ := ServerLock.release_nonempty more
      rw [out]
      exact .retrying next rfl rfl rfl (by grind) (by grind) (by grind)
        (by grind [Function.update_apply])
  | retrying r state holding retrying queue revoke phase others =>
      simp only [waits_iff] at others
      grind

theorem nudge {r : C} (agreed : Agreed p) (retrying : p.server.clientRetrying = some r)
    (sent : p.retry ≠ none) :
    Agreed { p with
      phase := Function.update p.phase r (.asked true)
      retry := none } := by
  cases agreed with
  | vacant state holding retrying' queue revoke retry others => exact absurd retry sent
  | locked h state holding retrying' queue revoke retry phase others => exact absurd retry sent
  | revoking h state holding retrying' queue retry phase others => exact absurd retry sent
  | retrying r' state holding retrying' queue revoke phase others =>
      have same : r' = r := Option.some.inj (retrying'.symm.trans retrying)
      subst same
      simp only [waits_iff] at others
      exact .retrying r' state holding retrying' queue revoke (by grind)
        (by grind [Function.update_apply])

theorem settle {c : C} {handler : C → Option I} (agreed : Agreed p) (phase : p.phase c = .gave) :
    Agreed { p with
      phase := Function.update p.phase c .out
      handler := handler } := by
  cases agreed with
  | vacant state holding retrying queue revoke retry others =>
      simp only [waits_iff] at others
      exact .vacant state holding retrying queue revoke retry
        (by grind [Function.update_apply])
  | locked h state holding retrying queue revoke retry phase others =>
      simp only [waits_iff] at others
      exact .locked h state holding retrying queue revoke retry (by grind)
        (by grind [Function.update_apply])
  | revoking h state holding retrying queue retry phase others =>
      simp only [waits_iff] at others
      exact .revoking h state holding retrying queue retry (by grind)
        (by grind [Function.update_apply])
  | retrying r state holding retrying queue revoke phase others =>
      simp only [waits_iff] at others
      exact .retrying r state holding retrying queue revoke (by grind)
        (by grind [Function.update_apply])

/-- **Every step of the protocol keeps the agreement.** -/
theorem step (agreed : Agreed p) (step : Protocol.Step p p') : Agreed p' := by
  cases step with
  | ask c phase => exact agreed.ask phase
  | answer c i phase => exact agreed.answer i phase
  | receive c noted phase => exact agreed.receive phase
  | noteGranted h holding sent phase => exact agreed.executed holding sent (Or.inl rfl)
  | noteHeld h holding sent phase => exact agreed.executed holding sent (Or.inr (Or.inl rfl))
  | reclaim h i holding sent phase => exact agreed.executed holding sent (Or.inr (Or.inr rfl))
  | give c phase => exact agreed.give phase
  | release c i phase => exact agreed.release i phase
  | nudge r retrying sent => exact agreed.nudge retrying sent
  | settle c phase => exact agreed.settle phase

/-! ## What the server's sections find -/

/-- The server's section for an acquire call neither hides a revoke or retry call that is
not executed yet nor makes a second one. -/
theorem acquire_spec {c : C} (agreed : Agreed p) (phase : p.phase c = .asking) :
    ((p.server.acquire c).2.Revokes → p.revoke = none) ∧
    (p.revoke ≠ none → (p.server.acquire c).1.clientHolding = p.server.clientHolding) ∧
    (p.retry ≠ none → (p.server.acquire c).1.clientRetrying = p.server.clientRetrying) ∧
    ((p.server.acquire c).2 = .revokeCaller → (p.server.acquire c).1.clientHolding = some c) ∧
    ∀ b, (b ∈ (p.server.acquire c).1.clientsQueue ∨
        (p.server.acquire c).1.clientRetrying = some b) ↔
      if b = c then (p.server.acquire c).2.status = .RETRY
      else b ∈ p.server.clientsQueue ∨ p.server.clientRetrying = some b := by
  cases agreed with
  | vacant state holding retrying queue revoke retry others =>
      rw [ServerLock.acquire_none state]
      simp [revoke, retry, queue, retrying, Answer.Revokes, Answer.status]
  | locked h state holding retrying queue revoke retry phase others =>
      rw [ServerLock.acquire_locked state]
      simp [revoke, queue, retrying, Answer.status]
  | revoking h state holding retrying queue retry phase others =>
      rw [ServerLock.acquire_revoking state]
      simp [retrying, Answer.Revokes, Answer.status]
      grind
  | retrying r state holding retrying queue revoke phase' others =>
      by_cases mine : c = r
      · subst mine
        have retry : p.retry = none := by grind
        by_cases more : p.server.clientsQueue.Nonempty
        · rw [ServerLock.acquire_retrying_more state retrying.symm more]
          simp [revoke, retry, retrying, Answer.status]
          grind
        · have last := Finset.not_nonempty_iff_eq_empty.mp more
          rw [ServerLock.acquire_retrying_last state retrying.symm last]
          simp [revoke, retry, retrying, last, Answer.Revokes, Answer.status]
          grind
      · rw [ServerLock.acquire_retrying_other state (by grind)]
        simp [revoke, retrying, Answer.Revokes, Answer.status]
        grind

/-- A release finds the lock revoked, with no revoke or retry call left, and goes on with
a client that waits. -/
theorem release_spec {c : C} (agreed : Agreed p) (phase : p.phase c = .giving) :
    p.revoke = none ∧ p.retry = none ∧ p.server.clientHolding = some c ∧
    p.server.clientRetrying = none ∧ ∃ next ∈ p.server.clientsQueue, p.server.release =
      ({ serverState := .retrying
         clientHolding := none
         clientRetrying := some next
         clientsQueue := p.server.clientsQueue.erase next }, some next) := by
  cases agreed with
  | vacant state holding retrying queue revoke retry others =>
      simp only [waits_iff] at others
      grind
  | locked h state holding retrying queue revoke retry phase others =>
      simp only [waits_iff] at others
      grind
  | revoking h state holding retrying queue retry phase' others =>
      simp only [waits_iff] at others
      have same : c = h := by grind
      subst same
      exact ⟨by grind, retry, holding, retrying, ServerLock.release_nonempty queue.2⟩
  | retrying r state holding retrying queue revoke phase others =>
      simp only [waits_iff] at others
      grind

end Agreed

end Yfs.Lock
