import Yfs.Lock.Refinement

/-!
# Mutual exclusion, and nobody is forgotten

The two results on the caching lock protocol, read off the agreement of the protocol
in every reachable state:

Both are about every interleaving of the sections under the mutexes, of any number of clients and of
threads in each, and neither asks that anything ever happens: they are about states, and what comes
of them in the end is `Lock.Drain`.

* `at_most_one_owner` — at most one client owns a lock, the one the server has written
  down;
* `nobody_forgotten` — whoever waits for a lock, the revoke or the retry that it waits
  for is on its way or known to the client it is meant for, and some thread moves on.

Both are for waits that return only when signalled.
-/

namespace Yfs.Lock

variable {C T L : Type*}

/-! ## Reading a client's shape -/

namespace Shape

variable {lock : ClientLock T} {pc : T → Pc C} {phase : Phase} {handled : Bool}

theorem of_cached (shape : Shape lock pc phase handled)
    (state : lock.clientState = .free ∨ lock.clientState = .locked) :
    ∃ noted, phase = .held noted := by
  obtain ⟨s, response, queue⟩ := lock
  cases shape with
  | empty queue idle client =>
      simp only at state client
      cases client <;> simp_all
  | front u rest queue nodup turns idle client =>
      simp only at state client
      generalize pc u = here at client
      cases client <;> simp_all

/-- A thread whose acquire was answered `OK`. -/
theorem of_ok {t : T} (shape : Shape lock pc phase handled) (status : (pc t).status = some .OK) :
    ∃ noted, phase = .granted noted := by
  obtain ⟨rest, -, -, -, -, client⟩ := shape.of_active (t := t)
    (by intro eq; rw [eq] at status; cases status)
    (by intro eq; rw [eq] at status; cases status)
  generalize lock.clientState = state at client
  generalize lock.serverResponse = response at client
  generalize pc t = here at client status
  cases client <;> simp_all [Pc.status]

/-- A thread that is giving the lock back. -/
theorem of_giving_thread {t : T} {place : ReleaseAt C} (shape : Shape lock pc phase handled)
    (releases : pc t = .releasing .thread place) (early : place.Early) : phase = .giving := by
  obtain ⟨rest, -, -, -, -, client⟩ := shape.of_active (t := t) (by rw [releases]; simp)
    (by rw [releases]; simp)
  rw [releases] at client
  generalize lock.clientState = state at client
  generalize lock.serverResponse = response at client
  cases client <;> simp_all [Pc.status, ReleaseAt.Early]

/-- A client that was granted the lock and does not know it yet. -/
theorem granted {noted : Bool} (shape : Shape lock pc (.granted noted) handled) :
    lock.clientState = .acquiring ∧ (noted = true → lock.serverResponse = .revoke) ∧
      ∃ t, (pc t).status = some .OK := by
  obtain ⟨state, response, queue⟩ := lock
  cases shape with
  | empty queue idle client => cases client
  | front u rest queue nodup turns idle client =>
      simp only at client ⊢
      generalize place : pc u = here at client
      cases client with
      | granted status => exact ⟨rfl, by simp, u, by rw [place, status]⟩
      | grantedNoted status => exact ⟨rfl, fun _ => rfl, u, by rw [place, status]⟩

/-- A client that has the lock; once a revoke is noted, a thread uses it. -/
theorem held {noted : Bool} (shape : Shape lock pc (.held noted) handled) :
    (lock.clientState = .free ∨ lock.clientState = .locked) ∧
      (noted = true → lock.clientState = .locked ∧ lock.serverResponse = .revoke ∧
        ∃ t, pc t = .holding ∨ pc t = .waiting .turn true) := by
  obtain ⟨state, response, queue⟩ := lock
  cases shape with
  | empty queue idle client =>
      simp only at client ⊢
      cases client with
      | free => exact ⟨Or.inl rfl, by simp⟩
  | front u rest queue nodup turns idle client =>
      simp only at client ⊢
      generalize place : pc u = here at client
      cases client with
      | passed => exact ⟨Or.inr rfl, by simp⟩
      | holding => exact ⟨Or.inr rfl, by simp⟩
      | passedNoted => exact ⟨Or.inr rfl, fun _ => ⟨rfl, rfl, u, Or.inr place⟩⟩
      | holdingNoted => exact ⟨Or.inr rfl, fun _ => ⟨rfl, rfl, u, Or.inl place⟩⟩

/-- A client that is giving the lock back. -/
theorem giving (shape : Shape lock pc .giving handled) :
    lock.clientState = .releasing ∧ (handled = true ∨
      ∃ t place, pc t = .releasing .thread place ∧ place.Early) := by
  obtain ⟨state, response, queue⟩ := lock
  cases shape with
  | empty queue idle client =>
      simp only at client ⊢
      cases client with
      | giving => exact ⟨rfl, Or.inl rfl⟩
  | front u rest queue nodup turns idle client =>
      simp only at client ⊢
      generalize place : pc u = here at client
      cases client with
      | sync => exact ⟨rfl, Or.inr ⟨u, _, place, trivial⟩⟩
      | call => exact ⟨rfl, Or.inr ⟨u, _, place, trivial⟩⟩
      | giving => exact ⟨rfl, Or.inl rfl⟩

/-- A client that knows of the retry. -/
theorem nudged (shape : Shape lock pc (.asked true) handled) :
    lock.serverResponse = .retry ∧ ∃ t rest, lock.threadsQueue = t :: rest ∧
      (pc t = .waiting .retried true ∨ (pc t).status = some .RETRY) := by
  obtain ⟨state, response, queue⟩ := lock
  cases shape with
  | empty queue idle client => cases client
  | front u rest queue nodup turns idle client =>
      simp only at client ⊢
      generalize place : pc u = here at client
      cases client with
      | nudged status => exact ⟨rfl, u, rest, queue, Or.inr (by rw [place, status])⟩
      | signalled => exact ⟨rfl, u, rest, queue, Or.inl place⟩

/-- A client whose acquire call is on its way. -/
theorem asking (shape : Shape lock pc .asking handled) : ∃ t, pc t = .calling := by
  obtain ⟨state, response, queue⟩ := lock
  cases shape with
  | empty queue idle client => cases client
  | front u rest queue nodup turns idle client =>
      simp only at client
      generalize place : pc u = here at client
      cases client with
      | calling => exact ⟨u, place⟩

end Shape

/-! ## At most one owner -/

/-- A client owns the lock: it has it in its cache, or it is giving it back and the
server has not seen the release, or the server has answered its acquire with `OK`. -/
def Owns (s : LockState C T) (c : C) : Prop :=
  (s.client c).clientState = .free ∨ (s.client c).clientState = .locked ∨
    ((s.client c).clientState = .releasing ∧ ∃ b t who place, s.pc b t = .releasing who place ∧
      who.client b = c ∧ place.Early) ∨
    ∃ t, (s.pc c t).status = some .OK

/-- The phases in which a client has the lock. -/
def Phase.Has (phase : Phase) : Prop :=
  (∃ noted, phase = .granted noted) ∨ (∃ noted, phase = .held noted) ∨ phase = .giving

section Follows

variable {s : LockState C T} {p : Protocol C (C × T)} {c : C}

theorem Follows.owns_iff (follows : Follows s p) : Owns s c ↔ (p.phase c).Has := by
  have shape := follows.shape c
  constructor
  · rintro (free | locked | ⟨-, b, t, who, place, releases, rfl, early⟩ | ⟨t, status⟩)
    · exact Or.inr (Or.inl (shape.of_cached (Or.inl free)))
    · exact Or.inr (Or.inl (shape.of_cached (Or.inr locked)))
    · cases who with
      | thread => exact Or.inr (Or.inr (shape.of_giving_thread releases early))
      | handler h status =>
          exact Or.inr (Or.inr ((follows.calls b t).early h status place releases early))
    · exact Or.inl (shape.of_ok status)
  · rintro (⟨noted, phase⟩ | ⟨noted, phase⟩ | phase)
    · rw [phase] at shape
      exact Or.inr (Or.inr (Or.inr shape.granted.2.2))
    · rw [phase] at shape
      exact shape.held.1.imp id Or.inl
    · have phaseEq := phase
      rw [phase] at shape
      obtain ⟨state, handled | ⟨t, place, releases, early⟩⟩ := shape.giving
      · obtain ⟨⟨b, t⟩, token⟩ := Option.isSome_iff_exists.mp handled
        have call := follows.calls b t
        have handles := (call.handler c).mpr token
        refine Or.inr (Or.inr (Or.inl ⟨state, b, t, ?_⟩))
        cases here : s.pc b t with
        | releasing who place =>
            rw [here] at handles call
            cases who with
            | thread => cases handles
            | handler h status =>
                cases handles
                refine ⟨.handler c status, place, rfl, rfl, ?_⟩
                by_contra late
                rw [call.late c status place rfl late] at phaseEq
                cases phaseEq
        | _ =>
            rw [here] at handles
            cases handles
      · exact Or.inr (Or.inr (Or.inl ⟨state, c, t, .thread, place, releases, rfl, early⟩))

/-- The client that has the lock is the one the server has written down. -/
theorem Agreed.has_iff (agreed : Agreed p) :
    (p.phase c).Has ↔ p.server.clientHolding = some c := by
  unfold Phase.Has
  cases agreed with
  | vacant state holding retrying queue revoke retry others =>
      simp only [Agreed.waits_iff] at others
      grind
  | locked h state holding retrying queue revoke retry phase others =>
      simp only [Agreed.waits_iff] at others
      grind
  | revoking h state holding retrying queue retry phase others =>
      simp only [Agreed.waits_iff] at others
      grind
  | retrying r state holding retrying queue revoke phase others =>
      simp only [Agreed.waits_iff] at others
      grind

end Follows

/-! ## Somebody acts -/

/-- A thread that neither rests nor waits for a signal. -/
def Pc.Acts (pc : Pc C) : Prop :=
  pc ≠ .idle ∧ pc ≠ .noent ∧ ∀ place, pc ≠ .waiting place false

section Acts

variable {s : LockState C T} {p : Protocol C (C × T)} {c : C} {t : T}

/-- A call of the server is somewhere. -/
theorem Follows.revoke_call (follows : Follows s p) (sent : p.revoke ≠ none) :
    ∃ b t, s.pc b t = .readHolding ∨
      ∃ h status, s.pc b t = .revoking h status ∧ s.server.clientHolding = some h := by
  obtain ⟨⟨b, t⟩, token⟩ := Option.ne_none_iff_exists'.mp sent
  have call := follows.calls b t
  have revokes := call.revoke.mpr token
  refine ⟨b, t, ?_⟩
  cases here : s.pc b t with
  | readHolding => exact Or.inl rfl
  | revoking h status =>
      rw [here] at call
      exact Or.inr ⟨h, status, rfl, by rw [← follows.server]; exact call.holding h status rfl⟩
  | _ =>
      rw [here] at revokes
      exact revokes.elim

theorem Follows.retry_call {r : C} (follows : Follows s p) (sent : p.retry ≠ none)
    (retrying : p.server.clientRetrying = some r) :
    ∃ b t who, s.pc b t = .releasing who (.retry r) := by
  obtain ⟨⟨b, t⟩, token⟩ := Option.ne_none_iff_exists'.mp sent
  have call := follows.calls b t
  have retries := call.retry.mpr token
  refine ⟨b, t, ?_⟩
  cases here : s.pc b t with
  | releasing who place =>
      rw [here] at call retries
      cases place with
      | retry next =>
          have := call.retrying who next rfl
          rw [retrying] at this
          cases this
          exact ⟨who, rfl⟩
      | _ => exact retries.elim
  | _ =>
      rw [here] at retries
      exact retries.elim

theorem Follows.handler_call (follows : Follows s p) (handled : (p.handler c).isSome = true) :
    ∃ b t status place, s.pc b t = .releasing (.handler c status) place := by
  obtain ⟨⟨b, t⟩, token⟩ := Option.isSome_iff_exists.mp handled
  have handles := ((follows.calls b t).handler c).mpr token
  refine ⟨b, t, ?_⟩
  cases here : s.pc b t with
  | releasing who place =>
      rw [here] at handles
      cases who with
      | thread => cases handles
      | handler h status =>
          cases handles
          exact ⟨status, place, rfl⟩
  | _ =>
      rw [here] at handles
      cases handles

/-- A client that waits for a retry has somebody acting for it. -/
theorem Follows.asked_acts (follows : Follows s p) (agreed : Agreed p)
    (phase : p.phase c = .asked false) : ∃ b u, (s.pc b u).Acts := by
  have acts : ∀ {pc : Pc C} {status}, pc.status = some status → pc.Acts := by
    intro pc status eq
    refine ⟨?_, ?_, fun place => ?_⟩ <;> rintro rfl <;> cases eq
  cases agreed with
  | vacant state holding retrying queue revoke retry others =>
      simp only [Agreed.waits_iff] at others
      grind
  | locked h state holding retrying queue revoke retry phase others =>
      simp only [Agreed.waits_iff] at others
      grind
  | revoking h state holding retrying queue retry phase others =>
      rcases phase with ⟨sent, -⟩ | ⟨-, phase | phase | phase⟩
      · obtain ⟨b, t, reads | ⟨h, status, revokes, -⟩⟩ := follows.revoke_call sent
        · exact ⟨b, t, acts (by rw [reads]; rfl)⟩
        · exact ⟨b, t, acts (by rw [revokes]; rfl)⟩
      · have shape := follows.shape h
        rw [phase] at shape
        obtain ⟨-, -, t, status⟩ := shape.granted
        exact ⟨h, t, acts status⟩
      · have shape := follows.shape h
        rw [phase] at shape
        obtain ⟨-, -, t, holds | waits⟩ := shape.held.2 rfl
        · exact ⟨h, t, by rw [holds]; simp [Pc.Acts]⟩
        · exact ⟨h, t, by rw [waits]; simp [Pc.Acts]⟩
      · have shape := follows.shape h
        rw [phase] at shape
        obtain ⟨-, handled | ⟨t, place, releases, -⟩⟩ := shape.giving
        · obtain ⟨b, t, status, place, releases⟩ := follows.handler_call handled
          exact ⟨b, t, by rw [releases]; simp [Pc.Acts]⟩
        · exact ⟨h, t, by rw [releases]; simp [Pc.Acts]⟩
  | retrying r state holding retrying queue revoke phase others =>
      rcases phase with ⟨sent, -⟩ | ⟨-, phase | phase⟩
      · obtain ⟨b, t, who, retries⟩ := follows.retry_call sent retrying
        exact ⟨b, t, by rw [retries]; simp [Pc.Acts]⟩
      · have shape := follows.shape r
        rw [phase] at shape
        obtain ⟨-, t, rest, -, waits | status⟩ := shape.nudged
        · exact ⟨r, t, by rw [waits]; simp [Pc.Acts]⟩
        · exact ⟨r, t, acts status⟩
      · have shape := follows.shape r
        rw [phase] at shape
        obtain ⟨t, calls⟩ := shape.asking
        exact ⟨r, t, by rw [calls]; simp [Pc.Acts]⟩

/-- **While a thread waits, another acts.** -/
theorem Follows.acts (follows : Follows s p) (agreed : Agreed p) {place : WaitAt}
    (waits : s.pc c t = .waiting place false) : ∃ b u, (s.pc b u).Acts := by
  have shape := follows.shape c
  generalize phaseEq : p.phase c = phase at shape
  generalize handledEq : (p.handler c).isSome = handled at shape
  cases shape with
  | empty queue idle client =>
      rw [idle t] at waits
      cases waits
  | front u rest queue nodup turns idle client =>
      generalize here : s.pc c u = pc at client
      generalize (s.client c).clientState = state at client
      generalize (s.client c).serverResponse = response at client
      by_cases acts : pc.Acts
      · exact ⟨c, u, by rwa [here]⟩
      · cases client with
        | asked status => exact follows.asked_acts agreed phaseEq
        | waiting => exact follows.asked_acts agreed phaseEq
        | giving =>
            obtain ⟨b, t, status, place, releases⟩ := follows.handler_call handledEq
            exact ⟨b, t, by rw [releases]; simp [Pc.Acts]⟩
        | gave =>
            obtain ⟨b, t, status, place, releases⟩ := follows.handler_call handledEq
            exact ⟨b, t, by rw [releases]; simp [Pc.Acts]⟩
        | nudged status | granted status | grantedNoted status =>
            refine absurd ⟨?_, ?_, fun place => ?_⟩ acts <;> rintro rfl <;> cases status
        | _ => exact absurd (by simp [Pc.Acts]) acts

end Acts

/-! ## The results -/

variable [LinearOrder C] [DecidableEq T]

/-- **Mutual exclusion.** In every reachable state of the protocol and for every lock, a client
that owns the lock is the server's `client_holding`; so at most one does.

The code follows a protocol in which a client is in one of a few phases, and there the server
knows who has the lock.  Nothing is assumed of the clients but that a thread releases what it has
acquired. -/
theorem at_most_one_owner {s : L → LockState C T} (reach : Reach false s) (lid : L) :
    (∀ c, Owns (s lid) c → (s lid).server.clientHolding = some c) ∧
      ∀ c c', Owns (s lid) c → Owns (s lid) c' → c = c' := by
  obtain ⟨p, follows, agreed⟩ := reach_follows (reach.lock lid)
  have holds : ∀ c, Owns (s lid) c → (s lid).server.clientHolding = some c := by
    intro c owns
    rw [← follows.server]
    exact agreed.has_iff.mp (follows.owns_iff.mp owns)
  refine ⟨holds, fun c c' owns owns' => ?_⟩
  exact Option.some.inj ((holds c owns).symm.trans (holds c' owns'))

/-- A run in which client 0 is granted the lock and, before it knows, client 1 asks for
it. -/
theorem contended : ∃ s : Unit → LockState ℕ Unit, Reach false s ∧
    (s ()).pc 0 () = .replied .OK ∧ (s ()).server.serverState = .revoking := by
  let s₀ : LockState ℕ Unit := .initial
  let s₁ := s₀.acquiring 0 () ((s₀.client 0).acquire ())
  let s₂ := s₁.served 0 ()
  let s₃ := s₂.acquiring 1 () ((s₂.client 1).acquire ())
  let s₄ := s₃.served 1 ()
  have step : ∀ {label} {s s' : LockState ℕ Unit}, Reach false (fun _ : Unit => s) →
      Step false label s s' → (∀ c, label.mutex = some c → s.pc c () ≠ .noent) →
      (∀ c t, label.caller = some (c, t) → s.pc c t = .idle) →
      Reach false fun _ : Unit => s' := by
    intro label s s' reach step mutex caller
    refine reach.step ⟨(), label, step, fun l ne => absurd rfl ne, fun c eq l t => mutex c eq,
      fun c t eq l busy => busy.1 (caller c t eq)⟩
  have calls : ∀ c d : ℕ, (Label.acquire c () : Label ℕ Unit).mutex = some d → d = c := by
    rintro c d ⟨⟩
    rfl
  have reach₀ : Reach false fun _ : Unit => s₀ := .init fun _ => rfl
  have reach₁ : Reach false fun _ : Unit => s₁ :=
    step reach₀ (.acquire (c := 0) (t := ()) rfl) (fun c _ => by simp [s₀, LockState.initial])
      (fun c t _ => rfl)
  have reach₂ : Reach false fun _ : Unit => s₂ :=
    step reach₁ (.serverAcquire (c := 0) (t := ()) rfl) (by rintro c ⟨⟩) (by rintro c t ⟨⟩)
  have reach₃ : Reach false fun _ : Unit => s₃ := by
    refine step reach₂ (.acquire (c := 1) (t := ()) rfl) (fun c eq => ?_) ?_
    · rw [calls 1 c eq]
      rintro ⟨⟩
    · rintro c t ⟨⟩
      rfl
  have reach₄ : Reach false fun _ : Unit => s₄ :=
    step reach₃ (.serverAcquire (c := 1) (t := ()) rfl) (by rintro c ⟨⟩) (by rintro c t ⟨⟩)
  exact ⟨fun _ => s₄, reach₄, rfl, rfl⟩

/-- Client 0 owns the lock, the server knows, and client 1 does not own it. -/
theorem at_most_one_owner_contended : ∃ s : Unit → LockState ℕ Unit, Reach false s ∧
    Owns (s ()) 0 ∧ (s ()).server.clientHolding = some 0 ∧ ¬ Owns (s ()) 1 := by
  obtain ⟨s, reach, replied, -⟩ := contended
  have owns : Owns (s ()) 0 := Or.inr (Or.inr (Or.inr ⟨(), by rw [replied]; rfl⟩))
  refine ⟨s, reach, owns, (at_most_one_owner reach ()).1 0 owns, fun other => ?_⟩
  exact absurd ((at_most_one_owner reach ()).2 0 1 owns other) (by decide)

/-- **No waiter and no revoke is lost**: what holds of the server's record, of the clients and of
the calls between them.

The fields follow the states of the server.  When it is not waiting for a client, nobody waits for
it; when it revokes, the holder will learn of it or has done so; when it calls a client back, that
client will call again.  The last field is about the threads: whoever sleeps, somebody else can go
on. -/
structure NobodyForgotten (s : LockState C T) : Prop where
  /-- Without a revoke or retry under way nobody waits at the server. -/
  queue : s.server.serverState = .none ∨ s.server.serverState = .locked →
    s.server.clientsQueue = ∅
  /-- A client that was answered `RETRY` waits at the server or is the next. -/
  answered : ∀ c, s.answered c = true →
    c ∈ s.server.clientsQueue ∨ s.server.clientRetrying = some c
  /-- The revoke has not been executed, or the holder knows of it, or is releasing. -/
  revoking : s.server.serverState = .revoking → ∃ h, s.server.clientHolding = some h ∧
    ((∃ b t, s.pc b t = .readHolding ∨ ∃ status, s.pc b t = .revoking h status) ∨
      ((s.client h).serverResponse = .revoke ∧
        ((s.client h).clientState = .acquiring ∧ (∃ t, (s.pc h t).status = some .OK) ∨
          (s.client h).clientState = .locked)) ∨
      (s.client h).clientState = .releasing)
  /-- The retry has not been executed, or its client knows of it and its front thread is
  signalled or not waiting yet, or the next acquire call is on its way. -/
  retrying : s.server.serverState = .retrying → ∃ r, s.server.clientRetrying = some r ∧
    ((∃ b t who, s.pc b t = .releasing who (.retry r)) ∨
      ((s.client r).serverResponse = .retry ∧ ∃ t rest, (s.client r).threadsQueue = t :: rest ∧
        (s.pc r t = .waiting .retried true ∨ ∀ place signalled,
          s.pc r t ≠ .waiting place signalled)) ∨
      ∃ t, s.pc r t = .calling)
  /-- While a thread waits without a signal, another holds the lock or takes a step. -/
  obliged : ∀ c t place, s.pc c t = .waiting place false → ∃ b u, s.pc b u = .holding ∨
    ∃ label s', Step false label s s' ∧ label.caller = none ∧ s'.pc b u ≠ s.pc b u

/-- A thread that acts holds the lock or can take a step. -/
theorem Follows.moves {s : LockState C T} {p : Protocol C (C × T)} {b : C} {u : T}
    (follows : Follows s p) (agreed : Agreed p) (acts : (s.pc b u).Acts) :
    s.pc b u = .holding ∨
      ∃ label s', Step false label s s' ∧ label.caller = none ∧ s'.pc b u ≠ s.pc b u := by
  cases here : s.pc b u with
  | idle => exact absurd here acts.1
  | noent => exact absurd here acts.2.1
  | holding => exact Or.inl rfl
  | waiting place signalled =>
      -- who acts and waits was signalled
      have woken : signalled = true := by
        by_contra no
        exact acts.2.2 place (by rw [here, Bool.not_eq_true _ |>.mp no])
      refine Or.inr ⟨_, _, .wake here (Or.inl woken), rfl, ?_⟩
      obtain ⟨state, response, rest, record, client, -⟩ :=
        follows.front acts.1 (by rw [here, woken]; simp)
      rw [here, woken] at client
      rw [record]
      generalize p.phase b = phase at client
      generalize (p.handler b).isSome = handled at client
      cases client <;>
        simp_all [LockState.acquiring, ClientLock.wake, ClientLock.rpcAcquire,
          ClientLock.whileAcquiring, Outcome.pc, Pc.status]
  | calling =>
      refine Or.inr ⟨_, _, .serverAcquire here, rfl, ?_⟩
      rw [LockState.served, LockState.setPc_pc_self, Function.update_self]
      cases (s.server.acquire b).2 <;> simp [Answer.pc]
  | readHolding =>
      -- the thread was told to revoke, so somebody has the lock
      have token := ((follows.calls b u).revoke.mp (by rw [here]; trivial))
      obtain ⟨h, holding⟩ : ∃ h, s.server.clientHolding = some h := by
        rw [← follows.server]
        cases agreed with
        | vacant state holding retrying queue revoke retry others =>
            rw [revoke] at token
            cases token
        | locked h state holding retrying queue revoke retry phase others => exact ⟨h, holding⟩
        | revoking h state holding retrying queue retry phase others => exact ⟨h, holding⟩
        | retrying r state holding retrying queue revoke phase others =>
            rw [revoke] at token
            cases token
      refine Or.inr ⟨_, _, .readHolding here holding, rfl, ?_⟩
      simp
  | revoking h status =>
      refine Or.inr ⟨_, _, .revoke here, rfl, ?_⟩
      rw [LockState.setPc_pc_self, Function.update_self]
      split <;> simp
  | replied status =>
      refine Or.inr ⟨_, _, .replied here, rfl, ?_⟩
      rw [LockState.acquiring, LockState.setPc_pc_self, Function.update_self]
      cases ((s.client b).rpcReturned status).2 <;> simp [Outcome.pc]
  | releasing who place =>
      cases place with
      | sync =>
          refine Or.inr ⟨_, _, .synced here, rfl, ?_⟩
          simp
      | call =>
          refine Or.inr ⟨_, _, .serverRelease here, rfl, ?_⟩
          rw [LockState.setPc_pc_self, Function.update_self]
          cases s.server.release.2 <;> simp
      | retry next =>
          refine Or.inr ⟨_, _, .retry here, rfl, ?_⟩
          simp
      | done =>
          cases who with
          | thread =>
              refine Or.inr ⟨_, _, .releaseDone here, rfl, ?_⟩
              obtain ⟨lock, none | v⟩ := (s.client b).releaseDone
              · simp
              · rw [LockState.signalled_some, LockState.setPc_pc_self]
                by_cases same : u = v
                · subst same
                  simp [Pc.signal]
                · simp [same]
          | handler h status =>
              refine Or.inr ⟨_, _, .revokeDone here, rfl, ?_⟩
              simp

/-- **No waiter and no revoke is ever lost**, in any reachable state of the protocol and for any
lock.

The clauses about the server are read off its agreement with the clients, one of its states after
the other.  The last clause needs the queues of the clients as well. -/
theorem nobody_forgotten {s : L → LockState C T} (reach : Reach false s) (lid : L) :
    NobodyForgotten (s lid) := by
  obtain ⟨p, follows, agreed⟩ := reach_follows (reach.lock lid)
  have server := follows.server
  refine ⟨fun state => ?_, fun c => (follows.answered c).mp, fun state => ?_, fun state => ?_,
    fun c t place waits => ?_⟩
  · rw [← server] at state ⊢
    cases agreed with
    | vacant state' holding retrying queue revoke retry others => exact queue
    | locked h state' holding retrying queue revoke retry phase others => exact queue
    | revoking h state' holding retrying queue retry phase others => simp [state'] at state
    | retrying r state' holding retrying queue revoke phase others => simp [state'] at state
  · rw [← server] at state
    cases agreed with
    | vacant state' holding retrying queue revoke retry others => simp [state'] at state
    | locked h state' holding retrying queue revoke retry phase others => simp [state'] at state
    | retrying r state' holding retrying queue revoke phase others => simp [state'] at state
    | revoking h state' holding retrying queue retry phase others =>
        refine ⟨h, by rw [← server, holding], ?_⟩
        have shape := follows.shape h
        -- the revoke is under way, or has come to a client in one of three states
        rcases phase with ⟨sent, -⟩ | ⟨-, phase | phase | phase⟩
        · obtain ⟨b, t, reads | ⟨h', status, revokes, holding'⟩⟩ := follows.revoke_call sent
          · exact Or.inl ⟨b, t, Or.inl reads⟩
          · rw [← server, holding] at holding'
            cases holding'
            exact Or.inl ⟨b, t, Or.inr ⟨status, revokes⟩⟩
        · rw [phase] at shape
          obtain ⟨acquiring, noted, ok⟩ := shape.granted
          exact Or.inr (Or.inl ⟨noted rfl, Or.inl ⟨acquiring, ok⟩⟩)
        · rw [phase] at shape
          obtain ⟨locked, noted, -⟩ := shape.held.2 rfl
          exact Or.inr (Or.inl ⟨noted, Or.inr locked⟩)
        · rw [phase] at shape
          exact Or.inr (Or.inr shape.giving.1)
  · rw [← server] at state
    cases agreed with
    | vacant state' holding retrying queue revoke retry others => simp [state'] at state
    | locked h state' holding retrying queue revoke retry phase others => simp [state'] at state
    | revoking h state' holding retrying queue retry phase others => simp [state'] at state
    | retrying r state' holding retrying queue revoke phase others =>
        refine ⟨r, by rw [← server, retrying], ?_⟩
        have shape := follows.shape r
        -- the retry is under way, or its client will ask, or has asked
        rcases phase with ⟨sent, -⟩ | ⟨-, phase | phase⟩
        · exact Or.inl (follows.retry_call sent retrying)
        · rw [phase] at shape
          obtain ⟨noted, t, rest, queue, waits | status⟩ := shape.nudged
          · exact Or.inr (Or.inl ⟨noted, t, rest, queue, Or.inl waits⟩)
          · refine Or.inr (Or.inl ⟨noted, t, rest, queue, Or.inr fun place signalled eq => ?_⟩)
            rw [eq] at status
            cases status
        · rw [phase] at shape
          exact Or.inr (Or.inr shape.asking)
  · obtain ⟨b, u, acts⟩ := follows.acts agreed waits
    exact ⟨b, u, follows.moves agreed acts⟩

/-- With client 1 waiting, the revoke to client 0 is on its way. -/
theorem nobody_forgotten_contended : ∃ s : Unit → LockState ℕ Unit, Reach false s ∧
    (s ()).server.serverState = .revoking ∧ NobodyForgotten (s ()) := by
  obtain ⟨s, reach, -, revoking⟩ := contended
  exact ⟨s, reach, revoking, nobody_forgotten reach ()⟩

end Yfs.Lock
