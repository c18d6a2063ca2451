import Yfs.Lock.Protocol

/-!
# The code follows the protocol

A client's record, queue and threads always have one of a few shapes, and each shape
is a phase of the protocol (`Shape`, `Front`).  `Follows s p` ties the code's state
to the protocol's: the shapes of all clients, and for each call of the server the
token that stands for it (`Calls`).

The simulation is from the code to the protocol: the code makes a step, and the protocol makes one
or none.  That is the direction for invariants.  A client record is not determined by its phase,
since threads that have only joined the queue change it and not the phase.

Most of the work is in the shapes.  The queue of a client is empty, or it has a thread at the front
for which the record stands, and all the others wait for their turn; so a step of a thread that is
not at the front changes nothing that the protocol sees.

* `follows_step` — every step of the code is a step of the protocol or none.
* `reach_follows` — so the agreement of the protocol holds in every reachable state.
-/

namespace Yfs.Lock

variable {C T : Type*}

/-! ## The shape of a client -/

/-- The status an acquire call will come back with, once the server has decided. -/
def Pc.status : Pc C → Option Status
  | .readHolding => some .RETRY
  | .revoking _ status | .releasing (.handler _ status) _ | .replied status => some status
  | _ => none

/-- A client without waiting threads: its state, its server response, its phase, and
whether a revoke handler releases the lock there. -/
inductive Idle : ClientState → ServerResponse → Phase → Bool → Prop where
  | none : Idle .none .empty .out false
  | free : Idle .free .empty (.held false) false
  | giving : Idle .releasing .empty .giving true
  | gave : Idle .releasing .empty .gave true

/-- A client with waiting threads, by the place of the thread at the front.

The record of a client follows the thread at the front of its queue; each constructor is one place
of that thread, with what `client_state` and `server_response` are then and the phase that stands
for it.  Places of the front that are missing here do not occur. -/
inductive Front : ClientState → ServerResponse → Pc C → Phase → Bool → Prop where
  | turn : Front .none .empty (.waiting .turn true) .out false
  | released : Front .none .empty (.waiting .released true) .out false
  | calling : Front .acquiring .empty .calling .asking false
  | asked {pc : Pc C} (status : pc.status = some .RETRY) :
      Front .acquiring .empty pc (.asked false) false
  | nudged {pc : Pc C} (status : pc.status = some .RETRY) :
      Front .acquiring .retry pc (.asked true) false
  | waiting : Front .acquiring .empty (.waiting .retried false) (.asked false) false
  | signalled : Front .acquiring .retry (.waiting .retried true) (.asked true) false
  | granted {pc : Pc C} (status : pc.status = some .OK) :
      Front .acquiring .empty pc (.granted false) false
  | grantedNoted {pc : Pc C} (status : pc.status = some .OK) :
      Front .acquiring .revoke pc (.granted true) false
  | passed : Front .locked .empty (.waiting .turn true) (.held false) false
  | passedNoted : Front .locked .revoke (.waiting .turn true) (.held true) false
  | holding : Front .locked .empty .holding (.held false) false
  | holdingNoted : Front .locked .revoke .holding (.held true) false
  | sync : Front .releasing .revoke (.releasing .thread .sync) .giving false
  | call : Front .releasing .revoke (.releasing .thread .call) .giving false
  | retry {next : C} : Front .releasing .revoke (.releasing .thread (.retry next)) .gave false
  | done : Front .releasing .revoke (.releasing .thread .done) .gave false
  | giving : Front .releasing .empty (.waiting .released false) .giving true
  | gave : Front .releasing .empty (.waiting .released false) .gave true

/-- **The shape of a client**: the threads in the queue are those that use the lock, and all but
the front wait for their turn.

A new thread joins at the end and waits for its turn, so it changes the queue and neither the
record nor the phase.  Without any thread in the queue the record may still be that of a client
with the lock, or of one whose revoke handler is giving it back. -/
inductive Shape (lock : ClientLock T) (pc : T → Pc C) (phase : Phase) (handled : Bool) : Prop where
  | empty (queue : lock.threadsQueue = []) (idle : ∀ u, pc u = .idle)
      (client : Idle lock.clientState lock.serverResponse phase handled)
  | front (t : T) (rest : List T) (queue : lock.threadsQueue = t :: rest)
      (nodup : (t :: rest).Nodup) (turns : ∀ u ∈ rest, pc u = .waiting .turn false)
      (idle : ∀ u, u ≠ t → u ∉ rest → pc u = .idle)
      (client : Front lock.clientState lock.serverResponse (pc t) phase handled)

/-! ## The calls of the server -/

/-- A revoke call that has not been executed. -/
def Pc.Revokes : Pc C → Prop
  | .readHolding | .revoking _ _ => True
  | _ => False

/-- A retry call that has not been executed. -/
def Pc.Retries : Pc C → Prop
  | .releasing _ (.retry _) => True
  | _ => False

/-- The client whose revoke handler runs a release. -/
def Pc.handles : Pc C → Option C
  | .releasing (.handler holder _) _ => some holder
  | _ => none

/-- The server has not seen the release. -/
def ReleaseAt.Early : ReleaseAt C → Prop
  | .sync | .call => True
  | .retry _ | .done => False

/-- **The calls in flight are the protocol's tokens**, and go where the server's record says: what
holds of the call `i` of a thread at `pc`.

The server makes its calls within a call of a client, so a token is found at the place of that
client's thread; a revoke handler that runs a release does so there, too, in the name of another
client. -/
structure CallAt (pc : Pc C) (i : C × T) (p : Protocol C (C × T)) : Prop where
  revoke : pc.Revokes ↔ p.revoke = some i
  holding : ∀ h status, pc = .revoking h status → p.server.clientHolding = some h
  retry : pc.Retries ↔ p.retry = some i
  retrying : ∀ who next, pc = .releasing who (.retry next) → p.server.clientRetrying = some next
  handler : ∀ h, pc.handles = some h ↔ p.handler h = some i
  early : ∀ h status place, pc = .releasing (.handler h status) place → place.Early →
    p.phase h = .giving
  late : ∀ h status place, pc = .releasing (.handler h status) place → ¬ place.Early →
    p.phase h = .gave

/-- **The code's state and the protocol's.**

The server's record is the same on both sides.  `answered` is history of the code only, and is
tied to the queue of the server here. -/
structure Follows (s : LockState C T) (p : Protocol C (C × T)) : Prop where
  server : p.server = s.server
  shape : ∀ c, Shape (s.client c) (s.pc c) (p.phase c) (p.handler c).isSome
  calls : ∀ b t, CallAt (s.pc b t) (b, t) p
  answered : ∀ c, s.answered c = true ↔
    c ∈ s.server.clientsQueue ∨ s.server.clientRetrying = some c

theorem Follows.initial : Follows (.initial : LockState C T) .initial where
  server := rfl
  shape c := .empty rfl (fun _ => rfl) .none
  calls b t := by
    constructor <;> simp [LockState.initial, Protocol.initial, Pc.Revokes, Pc.Retries, Pc.handles]
  answered c := by simp [LockState.initial, ServerLock.zero]

namespace Shape

variable {lock lock' : ClientLock T} {pc : T → Pc C} {phase phase' : Phase} {handled : Bool} {t : T}

/-- A thread that uses the lock and does not wait for its turn is at the front. -/
theorem of_active (shape : Shape lock pc phase handled) (active : pc t ≠ .idle)
    (noTurn : pc t ≠ .waiting .turn false) :
    ∃ rest, lock.threadsQueue = t :: rest ∧ (t :: rest).Nodup ∧
      (∀ u ∈ rest, pc u = .waiting .turn false) ∧ (∀ u, u ≠ t → u ∉ rest → pc u = .idle) ∧
      Front lock.clientState lock.serverResponse (pc t) phase handled := by
  cases shape with
  | empty queue idle client => exact absurd (idle t) active
  | front u rest queue nodup turns idle client =>
      by_cases same : t = u
      · subst same
        exact ⟨rest, queue, nodup, turns, idle, client⟩
      · by_cases mem : t ∈ rest
        · exact absurd (turns t mem) noTurn
        · exact absurd (idle t same mem) active

/-- A revoke finds the client waiting for its `OK`. -/
theorem revoke_granted (shape : Shape lock pc (.granted false) handled) :
    handled = false ∧ lock.revokeHandler.2 = false ∧
      Shape lock.revokeHandler.1 pc (.granted true) false := by
  obtain ⟨state, response, queue⟩ := lock
  cases shape with
  | empty queue idle client => cases client
  | front u rest queue nodup turns idle client =>
      simp only at client
      generalize place : pc u = here at client
      cases client with
      | granted status =>
          refine ⟨rfl, rfl, .front u rest queue nodup turns idle ?_⟩
          rw [place]
          exact .grantedNoted status

/-- A revoke finds the client with the lock: a free lock is released, a used one noted. -/
theorem revoke_held (shape : Shape lock pc (.held false) handled) :
    handled = false ∧ (lock.revokeHandler.2 = false ∧
        Shape lock.revokeHandler.1 pc (.held true) false ∨
      lock.revokeHandler.2 = true ∧ Shape lock.revokeHandler.1 pc .giving true) := by
  obtain ⟨state, response, queue⟩ := lock
  cases shape with
  | empty queue idle client =>
      simp only at queue client
      subst queue
      cases client with
      | free => exact ⟨rfl, Or.inr ⟨rfl, .empty rfl idle .giving⟩⟩
  | front u rest queue nodup turns idle client =>
      simp only at client
      generalize place : pc u = here at client
      cases client with
      | passed =>
          refine ⟨rfl, Or.inl ⟨rfl, .front u rest queue nodup turns idle ?_⟩⟩
          rw [place]
          exact .passedNoted
      | holding =>
          refine ⟨rfl, Or.inl ⟨rfl, .front u rest queue nodup turns idle ?_⟩⟩
          rw [place]
          exact .holdingNoted

/-- The server sees a release that a revoke handler runs. -/
theorem given (shape : Shape lock pc .giving true) : Shape lock pc .gave true := by
  obtain ⟨state, response, queue⟩ := lock
  cases shape with
  | empty queue idle client =>
      simp only at client
      cases client with
      | giving => exact .empty queue idle .gave
  | front u rest queue nodup turns idle client =>
      simp only at client
      generalize place : pc u = here at client
      cases client with
      | giving =>
          refine .front u rest queue nodup turns idle ?_
          rw [place]
          exact .gave

variable [DecidableEq T]

/-- Only the front and the record change. -/
theorem setFront {rest : List T} {new : Pc C} (nodup : (t :: rest).Nodup)
    (turns : ∀ u ∈ rest, pc u = .waiting .turn false)
    (idle : ∀ u, u ≠ t → u ∉ rest → pc u = .idle) (queue : lock'.threadsQueue = t :: rest)
    (client : Front lock'.clientState lock'.serverResponse new phase' handled) :
    Shape lock' (Function.update pc t new) phase' handled := by
  refine .front t rest queue nodup (fun u mem => ?_) (fun u ne notMem => ?_) ?_
  · rw [Function.update_of_ne (by rintro rfl; exact (List.nodup_cons.mp nodup).1 mem)]
    exact turns u mem
  · rw [Function.update_of_ne ne]
    exact idle u ne notMem
  · rw [Function.update_self]
    exact client

/-- The front of the queue moves on and the record stays. -/
theorem advance {new : Pc C} (shape : Shape lock pc phase handled) (active : pc t ≠ .idle)
    (noTurn : pc t ≠ .waiting .turn false)
    (client : Front lock.clientState lock.serverResponse (pc t) phase handled →
      Front lock.clientState lock.serverResponse new phase handled) :
    Shape lock (Function.update pc t new) phase handled := by
  obtain ⟨rest, queue, nodup, turns, idle, front⟩ := shape.of_active active noTurn
  exact setFront nodup turns idle queue (client front)

/-- A retry finds the client waiting, and signals its front. -/
theorem retried (shape : Shape lock pc (.asked false) handled) :
    handled = false ∧ ∃ u, lock.retryHandler.2 = some u ∧
      Shape lock.retryHandler.1 (Function.update pc u (pc u).signal) (.asked true) handled := by
  obtain ⟨state, response, queue⟩ := lock
  cases shape with
  | empty queue idle client => cases client
  | front u rest queue nodup turns idle client =>
      simp only at client queue
      subst queue
      generalize place : pc u = here at client
      cases client with
      | asked status =>
          refine ⟨rfl, u, rfl, setFront nodup turns idle rfl ?_⟩
          have same : here.signal = here := by
            cases here <;> simp_all [Pc.status, Pc.signal]
          rw [place, same]
          exact .nudged status
      | waiting =>
          refine ⟨rfl, u, rfl, setFront nodup turns idle rfl ?_⟩
          rw [place]
          exact .signalled

/-- The release that a revoke handler ran is over. -/
theorem settled (shape : Shape lock pc .gave true) :
    lock.revokeDone.2 = none ∧ Shape lock.revokeDone.1 pc .out false ∨
      ∃ u, lock.revokeDone.2 = some u ∧ pc u = .waiting .released false ∧
        Shape lock.revokeDone.1 (Function.update pc u (pc u).signal) .out false := by
  obtain ⟨state, response, queue⟩ := lock
  cases shape with
  | empty queue idle client =>
      simp only at client queue
      subst queue
      cases client with
      | gave => exact Or.inl ⟨rfl, .empty rfl idle .none⟩
  | front u rest queue nodup turns idle client =>
      simp only at client queue
      subst queue
      generalize place : pc u = here at client
      cases client with
      | gave =>
          refine Or.inr ⟨u, rfl, place, setFront nodup turns idle rfl ?_⟩
          rw [place]
          exact .released

end Shape

/-- A call whose answer is known moves on with the same answer. -/
theorem Front.status {state : ClientState} {response : ServerResponse} {pc new : Pc C}
    {phase : Phase} {handled : Bool} {status : Status} (old : pc.status = some status)
    (next : new.status = some status) (front : Front state response pc phase handled) :
    Front state response new phase handled := by
  cases front with
  | asked h => exact .asked (by rw [next, ← old, h])
  | nudged h => exact .nudged (by rw [next, ← old, h])
  | granted h => exact .granted (by rw [next, ← old, h])
  | grantedNoted h => exact .grantedNoted (by rw [next, ← old, h])
  | _ => cases old

/-- A release that the server has seen moves to its end. -/
theorem Front.retried {who : Releaser C} {next : C} {state : ClientState}
    {response : ServerResponse}
    {phase : Phase} {handled : Bool}
    (front : Front state response (.releasing who (.retry next)) phase handled) :
    Front state response (.releasing who .done) phase handled := by
  cases who with
  | thread =>
      cases front with
      | asked status => cases status
      | nudged status => cases status
      | granted status => cases status
      | grantedNoted status => cases status
      | retry => exact .done
  | handler h status => exact front.status rfl rfl

/-! ## The calls after a step -/

/-- The place of a thread that no call of the server is at. -/
def Pc.Silent (pc : Pc C) : Prop := ¬ pc.Revokes ∧ ¬ pc.Retries ∧ pc.handles = none

namespace CallAt

variable {pc : Pc C} {i : C × T} {p p' : Protocol C (C × T)}

/-- A silent thread has no token. -/
theorem silent_iff (silent : pc.Silent) : CallAt pc i p ↔
    p.revoke ≠ some i ∧ p.retry ≠ some i ∧ ∀ h, p.handler h ≠ some i := by
  obtain ⟨noRevoke, noRetry, noHandler⟩ := silent
  constructor
  · intro call
    refine ⟨fun eq => noRevoke (call.revoke.mpr eq), fun eq => noRetry (call.retry.mpr eq),
      fun h eq => ?_⟩
    rw [(call.handler h).mpr eq] at noHandler
    cases noHandler
  · rintro ⟨revoke, retry, handler⟩
    refine ⟨iff_of_false noRevoke revoke, ?_, iff_of_false noRetry retry, ?_,
      fun h => iff_of_false (by rw [noHandler]; simp) (handler h), ?_, ?_⟩
    · rintro h status rfl
      exact absurd trivial noRevoke
    · rintro who next rfl
      exact absurd trivial noRetry
    · rintro h status place rfl
      cases noHandler
    · rintro h status place rfl
      cases noHandler

/-- A call keeps its token when the protocol takes a step for another. -/
theorem keep (call : CallAt pc i p) (revoke : p'.revoke = some i ↔ p.revoke = some i)
    (retry : p'.retry = some i ↔ p.retry = some i)
    (handler : ∀ h, p'.handler h = some i ↔ p.handler h = some i)
    (holding : p.revoke = some i → p'.server.clientHolding = p.server.clientHolding)
    (retrying : p.retry = some i → p'.server.clientRetrying = p.server.clientRetrying)
    (phase : ∀ h, p.handler h = some i → p'.phase h = p.phase h) : CallAt pc i p' := by
  refine ⟨call.revoke.trans revoke.symm, ?_, call.retry.trans retry.symm, ?_,
    fun h => (call.handler h).trans (handler h).symm, ?_, ?_⟩
  · rintro h status rfl
    rw [holding (call.revoke.mp trivial)]
    exact call.holding h status rfl
  · rintro who next rfl
    rw [retrying (call.retry.mp trivial)]
    exact call.retrying who next rfl
  · rintro h status place rfl early
    rw [phase h ((call.handler h).mp rfl)]
    exact call.early h status place rfl early
  · rintro h status place rfl late
    rw [phase h ((call.handler h).mp rfl)]
    exact call.late h status place rfl late

/-- A signal moves no call. -/
theorem signal (call : CallAt pc i p) : CallAt pc.signal i p := by
  cases pc with
  | waiting place signalled =>
      have silent : ∀ b, (Pc.waiting place b : Pc C).Silent := by
        simp [Pc.Silent, Pc.Revokes, Pc.Retries, Pc.handles]
      exact (silent_iff (silent true)).mpr ((silent_iff (silent signalled)).mp call)
  | _ => exact call

end CallAt

/-! ## Steps inside a client -/

section Steps

variable [LinearOrder C] {s s' : LockState C T} {p : Protocol C (C × T)} {c : C} {t : T}

namespace Follows

/-- A step of one client's threads on the client's record. -/
theorem inside {phase : Phase} (follows : Follows s p)
    (client : ∀ b, b ≠ c → s'.client b = s.client b) (pcs : ∀ b, b ≠ c → s'.pc b = s.pc b)
    (server : s'.server = s.server) (answered : s'.answered = s.answered)
    (silent : ∀ t, s'.pc c t = s.pc c t ∨ (s.pc c t).Silent ∧ (s'.pc c t).Silent)
    (unhandled : (p.handler c).isSome → phase = p.phase c)
    (shape : Shape (s'.client c) (s'.pc c) phase (p.handler c).isSome) :
    Follows s' { p with phase := Function.update p.phase c phase } where
  server := follows.server.trans server.symm
  shape b := by
    by_cases h : b = c
    · subst h
      simpa using shape
    · simpa [h, client b h, pcs b h] using follows.shape b
  calls b t := by
    have kept : CallAt (s.pc b t) (b, t) { p with phase := Function.update p.phase c phase } := by
      refine (follows.calls b t).keep Iff.rfl Iff.rfl (fun _ => Iff.rfl) (fun _ => rfl)
        (fun _ => rfl) fun h handled => ?_
      by_cases same : h = c
      · subst same
        simpa using unhandled (by rw [handled]; rfl)
      · simp [same]
    by_cases h : b = c
    · subst h
      rcases silent t with eq | ⟨old, new⟩
      · rwa [eq]
      · exact (CallAt.silent_iff new).mpr ((CallAt.silent_iff old).mp kept)
    · rwa [pcs b h]
  answered b := by
    rw [answered, server]
    exact follows.answered b

/-- The protocol's state does not change. -/
theorem stays (follows : Follows s { p with phase := Function.update p.phase c (p.phase c) }) :
    Follows s p := by
  rwa [Function.update_eq_self] at follows

/-- The record of one client changes, with its phase and its handler. -/
theorem shape_setClient {phase : C → Phase} {handler : C → Option (C × T)} {h : C}
    {lock : ClientLock T} {new : Phase} {runs : Option (C × T)}
    (shapes : ∀ b, Shape (s.client b) (s.pc b) (phase b) (handler b).isSome)
    (shape : Shape lock (s.pc h) new runs.isSome) (b : C) :
    Shape ((s.setClient h lock).client b) ((s.setClient h lock).pc b)
      (Function.update phase h new b) (Function.update handler h runs b).isSome := by
  by_cases eq : b = h
  · subst eq
    simpa using shape
  · simpa [eq] using shapes b

variable [DecidableEq T]

/-- A section of `acquire`, for a thread at a silent place. -/
theorem acquiring {phase : Phase} {result : ClientLock T × Outcome} (follows : Follows s p)
    (silent : (s.pc c t).Silent) (unhandled : (p.handler c).isSome → phase = p.phase c)
    (shape : Shape result.1 (Function.update (s.pc c) t result.2.pc) phase
      (p.handler c).isSome) :
    Follows (s.acquiring c t result) { p with phase := Function.update p.phase c phase } := by
  refine follows.inside (fun b ne => ?_) (fun b ne => ?_) rfl rfl (fun u => ?_) unhandled ?_
  · simp [LockState.acquiring, ne]
  · simp [LockState.acquiring, ne]
  · simp only [LockState.acquiring, LockState.setPc_pc_self, LockState.setClient_pc]
    by_cases h : u = t
    · subst h
      rw [Function.update_self]
      refine Or.inr ⟨silent, ?_⟩
      cases result.2 <;> simp [Outcome.pc, Pc.Silent, Pc.Revokes, Pc.Retries, Pc.handles]
    · rw [Function.update_of_ne h]
      exact Or.inl rfl
  · simpa [LockState.acquiring] using shape

/-- **`acquire`.** -/
theorem acquire (follows : Follows s p) (idle : s.pc c t = .idle) :
    ∃ p', (p' = p ∨ Protocol.Step p p') ∧
      Follows (s.acquiring c t ((s.client c).acquire t)) p' := by
  have silent : (s.pc c t).Silent := by
    rw [idle]
    simp [Pc.Silent, Pc.Revokes, Pc.Retries, Pc.handles]
  have shape := follows.shape c
  generalize phaseEq : p.phase c = phase at shape
  generalize handledEq : (p.handler c).isSome = handled at shape
  cases shape with
  -- the first thread of the queue: what it does next depends on what the client has
  | empty queue idles client =>
      have only : ∀ lock : ClientLock T, lock.threadsQueue = [t] → ∀ phase new,
          Front lock.clientState lock.serverResponse new phase handled →
          Shape lock (Function.update (s.pc c) t new) phase handled :=
        fun lock eq phase new front => Shape.setFront (List.nodup_singleton t)
          (fun u mem => absurd mem List.not_mem_nil) (fun u _ _ => idles u) eq front
      generalize stateEq : (s.client c).clientState = state at client
      generalize responseEq : (s.client c).serverResponse = response at client
      cases client with
      | none =>
          refine ⟨_, Or.inr (.ask c (Or.inl phaseEq)), follows.acquiring silent ?_ ?_⟩
          · simp [handledEq]
          · simp only [ClientLock.acquire, queue, stateEq, List.isEmpty_nil, if_true,
              ClientLock.rpcAcquire, handledEq]
            refine only _ rfl _ _ ?_
            simp only [responseEq]
            exact .calling
      | free =>
          refine ⟨p, Or.inl rfl, stays (follows.acquiring silent (fun _ => rfl) ?_)⟩
          simp only [ClientLock.acquire, queue, stateEq, List.isEmpty_nil, if_true,
            handledEq, phaseEq]
          refine only _ rfl _ _ ?_
          simp only [responseEq]
          exact .holding
      | giving =>
          refine ⟨p, Or.inl rfl, stays (follows.acquiring silent (fun _ => rfl) ?_)⟩
          simp only [ClientLock.acquire, queue, stateEq, List.isEmpty_nil, if_true,
            handledEq, phaseEq]
          refine only _ rfl _ _ ?_
          simp only [responseEq]
          exact .giving
      | gave =>
          refine ⟨p, Or.inl rfl, stays (follows.acquiring silent (fun _ => rfl) ?_)⟩
          simp only [ClientLock.acquire, queue, stateEq, List.isEmpty_nil, if_true,
            handledEq, phaseEq]
          refine only _ rfl _ _ ?_
          simp only [responseEq]
          exact .gave
  -- a thread that joins behind others and waits for its turn; the protocol does not see it
  | front u rest queue nodup turns idles client =>
      have notFront : t ≠ u := by
        rintro rfl
        rw [idle] at client
        generalize (s.client c).clientState = state at client
        generalize (s.client c).serverResponse = response at client
        cases client <;> simp_all [Pc.status]
      have notMem : t ∉ rest := by
        intro mem
        have := turns t mem
        rw [idle] at this
        cases this
      refine ⟨p, Or.inl rfl, stays (follows.acquiring silent (fun _ => rfl) ?_)⟩
      simp only [ClientLock.acquire, queue, List.isEmpty_cons, phaseEq, handledEq]
      refine .front u (rest ++ [t]) rfl ?_ (fun v mem => ?_) (fun v ne notMem' => ?_) ?_
      · rw [← List.cons_append, List.nodup_append]
        refine ⟨nodup, List.nodup_singleton t, fun v mem w mem' eq => ?_⟩
        rw [List.mem_singleton] at mem'
        subst mem'
        subst eq
        rcases List.mem_cons.mp mem with rfl | mem
        · exact notFront rfl
        · exact notMem mem
      · by_cases h : v = t
        · subst h
          rw [Function.update_self]
          rfl
        · rw [Function.update_of_ne h]
          rcases List.mem_append.mp mem with mem | mem
          · exact turns v mem
          · exact absurd (List.mem_singleton.mp mem) h
      · have ne' : v ≠ t := by
          rintro rfl
          exact notMem' (List.mem_append_right _ (List.mem_singleton_self _))
        rw [Function.update_of_ne ne']
        exact idles v ne fun mem => notMem' (List.mem_append_left _ mem)
      · rw [Function.update_of_ne (Ne.symm notFront)]
        exact client

omit [LinearOrder C] in
/-- A thread at the front of its queue, with the client's record taken apart. -/
theorem front (follows : Follows s p) (active : s.pc c t ≠ .idle)
    (noTurn : s.pc c t ≠ .waiting .turn false) :
    ∃ state response rest, s.client c = ⟨state, response, t :: rest⟩ ∧
      Front state response (s.pc c t) (p.phase c) (p.handler c).isSome ∧
      ∀ lock phase new, lock.threadsQueue = t :: rest →
        Front lock.clientState lock.serverResponse new phase (p.handler c).isSome →
        Shape lock (Function.update (s.pc c) t new) phase (p.handler c).isSome := by
  obtain ⟨rest, queue, nodup, turns, idle, front⟩ := (follows.shape c).of_active active noTurn
  refine ⟨_, _, rest, ?_, front, fun lock phase new eq client =>
    Shape.setFront nodup turns idle eq client⟩
  rw [← queue]

/-- **A signalled wait returns.** -/
theorem wake {place : WaitAt} (follows : Follows s p) (waits : s.pc c t = .waiting place true) :
    ∃ p', (p' = p ∨ Protocol.Step p p') ∧
      Follows (s.acquiring c t ((s.client c).wake place)) p' := by
  have silent : (s.pc c t).Silent := by
    rw [waits]
    simp [Pc.Silent, Pc.Revokes, Pc.Retries, Pc.handles]
  obtain ⟨state, response, rest, record, client, shape⟩ :=
    follows.front (by rw [waits]; simp) (by rw [waits]; simp)
  rw [waits] at client
  generalize phaseEq : p.phase c = phase at client
  generalize handledEq : (p.handler c).isSome = handled at client shape
  have asks : ∀ {place}, (p.phase c = .out ∨ p.phase c = .asked true) → handled = false →
      (s.client c).wake place = (⟨.acquiring, .empty, t :: rest⟩, .call) →
      ∃ p', (p' = p ∨ Protocol.Step p p') ∧
        Follows (s.acquiring c t ((s.client c).wake place)) p' := by
    intro place phase none out
    refine ⟨_, Or.inr (.ask c phase), follows.acquiring silent ?_ ?_⟩
    · simp [handledEq, none]
    · rw [out, handledEq]
      subst none
      exact shape _ _ _ rfl .calling
  have holds : p.phase c = phase → (s.client c).wake place = (⟨.locked, response, t :: rest⟩, .ok) →
      Front .locked response (.holding : Pc C) phase handled →
      ∃ p', (p' = p ∨ Protocol.Step p p') ∧
        Follows (s.acquiring c t ((s.client c).wake place)) p' := by
    intro eq out front
    refine ⟨p, Or.inl rfl, stays (follows.acquiring silent (fun _ => rfl) ?_)⟩
    rw [out, handledEq, eq]
    exact shape _ _ _ rfl front
  cases client with
  | turn => exact asks (Or.inl phaseEq) rfl (by rw [record]; rfl)
  | released => exact asks (Or.inl phaseEq) rfl (by rw [record]; rfl)
  | signalled => exact asks (Or.inr phaseEq) rfl (by rw [record]; rfl)
  | passed => exact holds phaseEq (by rw [record]; rfl) .holding
  | passedNoted => exact holds phaseEq (by rw [record]; rfl) .holdingNoted
  | asked status => cases status
  | nudged status => cases status
  | granted status => cases status
  | grantedNoted status => cases status

/-- **The reply to an acquire call arrives.** -/
theorem replied {status : Status} (follows : Follows s p) (replies : s.pc c t = .replied status) :
    ∃ p', (p' = p ∨ Protocol.Step p p') ∧
      Follows (s.acquiring c t ((s.client c).rpcReturned status)) p' := by
  have silent : (s.pc c t).Silent := by
    rw [replies]
    simp [Pc.Silent, Pc.Revokes, Pc.Retries, Pc.handles]
  obtain ⟨state, response, rest, record, client, shape⟩ :=
    follows.front (by rw [replies]; simp) (by rw [replies]; simp)
  rw [replies] at client
  generalize phaseEq : p.phase c = phase at client
  generalize handledEq : (p.handler c).isSome = handled at client shape
  cases client with
  | asked retry =>
      cases retry
      refine ⟨p, Or.inl rfl, stays (follows.acquiring silent (fun _ => rfl) ?_)⟩
      rw [handledEq, phaseEq, record]
      exact shape _ _ _ rfl .waiting
  | nudged retry =>
      cases retry
      refine ⟨_, Or.inr (.ask c (Or.inr phaseEq)), follows.acquiring silent ?_ ?_⟩
      · simp [handledEq]
      · rw [handledEq, record]
        exact shape _ _ _ rfl .calling
  | granted ok =>
      cases ok
      refine ⟨_, Or.inr (.receive c false phaseEq), follows.acquiring silent ?_ ?_⟩
      · simp [handledEq]
      · rw [handledEq, record]
        exact shape _ _ _ rfl .holding
  | grantedNoted ok =>
      cases ok
      refine ⟨_, Or.inr (.receive c true phaseEq), follows.acquiring silent ?_ ?_⟩
      · simp [handledEq]
      · rw [handledEq, record]
        exact shape _ _ _ rfl .holdingNoted

/-- **`release`** of a revoked lock that no other thread waits for. -/
theorem release (follows : Follows s p) (holds : s.pc c t = .holding)
    (leaves : (s.client c).release.2 = .inl ()) :
    ∃ p', (p' = p ∨ Protocol.Step p p') ∧
      Follows ((s.setClient c (s.client c).release.1).setPc c t (.releasing .thread .sync)) p' := by
  obtain ⟨state, response, rest, record, client, shape⟩ :=
    follows.front (by rw [holds]; simp) (by rw [holds]; simp)
  rw [holds] at client
  generalize phaseEq : p.phase c = phase at client
  generalize handledEq : (p.handler c).isSome = handled at client shape
  cases client with
  | asked status => cases status
  | nudged status => cases status
  | granted status => cases status
  | grantedNoted status => cases status
  | holding =>
      rw [record] at leaves
      cases leaves
  | holdingNoted =>
      have revoked : rest.length = 0 := by
        by_contra more
        have : ¬ (t :: rest).length ≤ 1 := by
          rw [List.length_cons]
          omega
        rw [record, ClientLock.release, if_neg fun both => this both.2] at leaves
        cases leaves
      have none : rest = [] := List.length_eq_zero_iff.mp revoked
      subst none
      refine ⟨_, Or.inr (.give c phaseEq), follows.inside (fun b ne => ?_) (fun b ne => ?_) rfl rfl
        (fun u => ?_) ?_ ?_⟩
      · simp [ne]
      · simp [ne]
      · simp only [LockState.setPc_pc_self, LockState.setClient_pc]
        by_cases h : u = t
        · subst h
          rw [Function.update_self, holds]
          exact Or.inr (by simp [Pc.Silent, Pc.Revokes, Pc.Retries, Pc.handles])
        · rw [Function.update_of_ne h]
          exact Or.inl rfl
      · simp [handledEq]
      · simp only [LockState.setPc_pc_self, LockState.setClient_pc, LockState.setPc_client,
          LockState.setClient_client_self, handledEq, record]
        exact shape _ _ _ rfl .sync

/-- The end of `release`: the front leaves and the next thread gets its turn. -/
theorem popped {phase : Phase} {stillCached : Bool} {lock : ClientLock T} (follows : Follows s p)
    (active : s.pc c t ≠ .idle) (noTurn : s.pc c t ≠ .waiting .turn false)
    (silent : (s.pc c t).Silent) (queue : lock.threadsQueue = (s.client c).threadsQueue)
    (unhandled : (p.handler c).isSome → phase = p.phase c)
    (last : (s.client c).threadsQueue = [t] →
      Idle lock.clientState lock.serverResponse phase (p.handler c).isSome)
    (more : Front (if stillCached then .locked else lock.clientState) lock.serverResponse
      (.waiting .turn true : Pc C) phase (p.handler c).isSome) :
    Follows ((s.setPc c t .idle).signalled c (lock.popFront stillCached))
      { p with phase := Function.update p.phase c phase } := by
  have idleSilent : (Pc.idle : Pc C).Silent := by
    simp [Pc.Silent, Pc.Revokes, Pc.Retries, Pc.handles]
  have waitSilent : ∀ {signalled}, (Pc.waiting .turn signalled : Pc C).Silent := by
    simp [Pc.Silent, Pc.Revokes, Pc.Retries, Pc.handles]
  obtain ⟨rest, queueEq, nodup, turns, idle, -⟩ := (follows.shape c).of_active active noTurn
  cases rest with
  -- nobody waits: the client keeps the lock cached, or has nothing
  | nil =>
      have out : lock.popFront stillCached = ({ lock with threadsQueue := [] }, none) := by
        rw [ClientLock.popFront, queue, queueEq]
        rfl
      rw [out, LockState.signalled_none]
      refine follows.inside (fun b ne => by simp [ne]) (fun b ne => by simp [ne]) rfl rfl
        (fun v => ?_) unhandled (.empty (by simp) (fun v => ?_) (by simpa using last queueEq))
      · by_cases h : v = t
        · subst h
          simpa using Or.inr ⟨silent, idleSilent⟩
        · simp [h]
      · by_cases h : v = t
        · simp [h]
        · simpa [h] using idle v h List.not_mem_nil
  -- the next thread is signalled and is at the front from now on
  | cons u rest =>
      have ne : u ≠ t := by
        rintro rfl
        simp at nodup
      have out : lock.popFront stillCached = ({ lock with
          threadsQueue := u :: rest
          clientState := if stillCached then .locked else lock.clientState }, some u) := by
        rw [ClientLock.popFront, queue, queueEq]
        rfl
      -- it waits for its turn, so the signal reaches it
      have signal : (((s.setPc c t .idle).pc c) u).signal = .waiting .turn true := by
        rw [LockState.setPc_pc_self, Function.update_of_ne ne, turns u (by simp)]
        rfl
      have pcs : ((s.setPc c t .idle).signalled c (lock.popFront stillCached)).pc c =
          Function.update (Function.update (s.pc c) t .idle) u (.waiting .turn true) := by
        rw [out, LockState.signalled_some, signal]
        simp
      refine follows.inside (fun b ne => by simp [out, ne]) (fun b ne => by simp [out, ne])
        (by rw [out]; rfl) (by rw [out]; rfl) (fun v => ?_) unhandled ?_
      · rw [pcs]
        by_cases hu : v = u
        · subst hu
          rw [Function.update_self, turns v (by simp)]
          exact Or.inr ⟨waitSilent, waitSilent⟩
        · rw [Function.update_of_ne hu]
          by_cases ht : v = t
          · subst ht
            rw [Function.update_self]
            exact Or.inr ⟨silent, idleSilent⟩
          · rw [Function.update_of_ne ht]
            exact Or.inl rfl
      · rw [pcs]
        rw [List.nodup_cons] at nodup
        refine Shape.setFront nodup.2 (fun v mem => ?_) (fun v neU notMem => ?_) ?_ ?_
        · rw [Function.update_of_ne (by rintro rfl; exact nodup.1 (List.mem_cons_of_mem _ mem))]
          exact turns v (List.mem_cons_of_mem _ mem)
        · by_cases ht : v = t
          · rw [ht, Function.update_self]
          · rw [Function.update_of_ne ht]
            exact idle v ht (by simp [neU, notMem])
        · simp [out]
        · simpa [out] using more

/-- **`release`** of a lock that stays at the client. -/
theorem releaseLocal {next : Option T} (follows : Follows s p) (holds : s.pc c t = .holding)
    (stays' : (s.client c).release.2 = .inr next) :
    Follows ((s.setPc c t .idle).signalled c ((s.client c).release.1, next)) p := by
  obtain ⟨state, response, rest, record, client, -⟩ :=
    follows.front (by rw [holds]; simp) (by rw [holds]; simp)
  -- the release is not one that gives the lock up
  have kept : ¬ ((s.client c).serverResponse = .revoke ∧ (s.client c).threadsQueue.length ≤ 1) := by
    intro both
    rw [ClientLock.release, if_pos both] at stays'
    cases stays'
  have out : ((s.client c).release.1, next) =
      ClientLock.popFront true { s.client c with clientState := .free } := by
    rw [ClientLock.release, if_neg kept] at stays' ⊢
    cases stays'
    rfl
  rw [holds] at client
  rw [out]
  generalize phaseEq : p.phase c = phase at client
  generalize handledEq : (p.handler c).isSome = handled at client
  refine stays (c := c) (popped follows (by rw [holds]; simp) (by rw [holds]; simp) ?_ rfl
    (fun _ => rfl) (fun queue => ?_) ?_)
  · rw [holds]
    simp [Pc.Silent, Pc.Revokes, Pc.Retries, Pc.handles]
  · rw [handledEq, phaseEq]
    simp only [record] at kept queue ⊢
    -- of the places where a thread has the lock; the others are not `holding`
    cases client with
    | asked status => cases status
    | nudged status => cases status
    | granted status => cases status
    | grantedNoted status => cases status
    | holding => exact .free
    | holdingNoted => exact absurd ⟨rfl, by rw [queue]; simp⟩ kept
  · rw [handledEq, phaseEq]
    simp only [record, if_true]
    cases client with
    | asked status => cases status
    | nudged status => cases status
    | granted status => cases status
    | grantedNoted status => cases status
    | holding => exact .passed
    | holdingNoted => exact .passedNoted

/-- **The last section of `release`.** -/
theorem releaseDone (follows : Follows s p) (done : s.pc c t = .releasing .thread .done) :
    ∃ p', (p' = p ∨ Protocol.Step p p') ∧
      Follows ((s.setPc c t .idle).signalled c (s.client c).releaseDone) p' := by
  obtain ⟨state, response, rest, record, client, -⟩ :=
    follows.front (by rw [done]; simp) (by rw [done]; simp)
  rw [done] at client
  generalize phaseEq : p.phase c = phase at client
  generalize handledEq : (p.handler c).isSome = handled at client
  cases client with
  | asked status => cases status
  | nudged status => cases status
  | granted status => cases status
  | grantedNoted status => cases status
  | done =>
      have unhandled : p.handler c = none := by simpa using handledEq
      refine ⟨_, Or.inr (.settle c phaseEq), ?_⟩
      rw [← unhandled, Function.update_eq_self]
      refine popped follows (by rw [done]; simp) (by rw [done]; simp) ?_ rfl ?_ (fun queue => ?_) ?_
      · rw [done]
        simp [Pc.Silent, Pc.Revokes, Pc.Retries, Pc.handles]
      · simp [handledEq]
      · rw [handledEq]
        exact .none
      · rw [handledEq]
        exact .turn

/-! ## Steps of the server and of its calls -/

/-- A call of the server moves on, at the thread `t` of client `c`: what is left to show
is the shape of the clients and the token of this call. -/
theorem calls_setPc {p' : Protocol C (C × T)} {pc : Pc C}
    (calls : ∀ b t, CallAt (s.pc b t) (b, t) p)
    (others : ∀ b u, (b, u) ≠ (c, t) → CallAt (s.pc b u) (b, u) p → CallAt (s.pc b u) (b, u) p')
    (here : CallAt pc (c, t) p') (b : C) (u : T) :
    CallAt ((s.setPc c t pc).pc b u) (b, u) p' := by
  by_cases h : b = c ∧ u = t
  · obtain ⟨rfl, rfl⟩ := h
    simpa using here
  · have same : (s.setPc c t pc).pc b u = s.pc b u := if_neg h
    rw [same]
    exact others b u (by simpa using h) (calls b u)

/-- **The server's section for an acquire call.** -/
theorem serverAcquire (follows : Follows s p) (agreed : Agreed p) (calling : s.pc c t = .calling) :
    ∃ p', (p' = p ∨ Protocol.Step p p') ∧ Follows (s.served c t) p' := by
  obtain ⟨state, response, rest, record, client, shape⟩ :=
    follows.front (by rw [calling]; simp) (by rw [calling]; simp)
  rw [calling] at client
  have noToken := (CallAt.silent_iff (by simp [calling, Pc.Silent, Pc.Revokes, Pc.Retries,
    Pc.handles])).mp (follows.calls c t)
  generalize phaseEq : p.phase c = phase at client
  generalize handledEq : (p.handler c).isSome = handled at client shape
  cases client with
  | asked status => cases status
  | nudged status => cases status
  | granted status => cases status
  | grantedNoted status => cases status
  | calling =>
      obtain ⟨fresh, holding, retrying, caller, waits⟩ := agreed.acquire_spec phaseEq
      refine ⟨_, Or.inr (.answer c (c, t) phaseEq), ?_⟩
      rw [LockState.served, ← follows.server]
      refine ⟨rfl, fun b => ?_, calls_setPc follows.calls (fun b u ne call => ?_) ?_, fun b => ?_⟩
      · by_cases h : b = c
        · subst h
          simp only [LockState.setPc_pc_self, LockState.setPc_client, Function.update_self,
            handledEq]
          refine shape _ _ _ (by rw [record]) ?_
          rw [record]
          -- what the answer means for the place of the caller
          cases answer : (p.server.acquire b).2 with
          | reply status =>
              cases status with
              | OK => exact .granted rfl
              | RETRY => exact .asked rfl
          | revokeHolding => exact .asked rfl
          | revokeCaller => exact .granted rfl
        · simpa [h] using follows.shape b
      · refine call.keep ?_ Iff.rfl (fun _ => Iff.rfl) (fun eq => holding (by simp [eq]))
          (fun eq => retrying (by simp [eq])) fun h handled => ?_
        · simp only
          split
          · rename_i revokes
            exact iff_of_false (fun eq => ne (Option.some.inj eq).symm)
              (by rw [fresh revokes]; simp)
          · rfl
        · refine Function.update_of_ne ?_ _ _
          rintro rfl
          rw [handled] at handledEq
          cases handledEq
      · cases answer : (p.server.acquire c).2 with
        | reply status =>
            refine (CallAt.silent_iff (by simp [Answer.pc, Pc.Silent, Pc.Revokes, Pc.Retries,
              Pc.handles])).mpr ?_
            simpa [Answer.Revokes] using noToken
        | revokeHolding =>
            constructor <;> simp_all [Answer.pc, Pc.Revokes, Pc.Retries, Pc.handles, Answer.Revokes]
        | revokeCaller =>
            constructor <;> simp_all [Answer.pc, Pc.Revokes, Pc.Retries, Pc.handles, Answer.Revokes]
      · simp only [LockState.setPc_answered, LockState.setPc_server]
        rw [waits b]
        by_cases h : b = c
        · simp [h]
        · simp only [h, if_false]
          rw [follows.server]
          exact follows.answered b

/-- A thread at the front of its queue moves on. -/
theorem shape_moves {phase : C → Phase} {handled : C → Bool} {pc : Pc C}
    (shapes : ∀ b, Shape (s.client b) (s.pc b) (phase b) (handled b)) (active : s.pc c t ≠ .idle)
    (noTurn : s.pc c t ≠ .waiting .turn false)
    (client : ∀ state response phase handled, Front state response (s.pc c t) phase handled →
      Front state response pc phase handled) (b : C) :
    Shape ((s.setPc c t pc).client b) ((s.setPc c t pc).pc b) (phase b) (handled b) := by
  by_cases h : b = c
  · subst h
    simpa using (shapes b).advance active noTurn (client _ _ _ _)
  · simpa [h] using shapes b

/-- **The server reads `client_holding`.** -/
theorem readHolding {holder : C} (follows : Follows s p) (reads : s.pc c t = .readHolding)
    (holds : s.server.clientHolding = some holder) :
    Follows (s.setPc c t (.revoking holder .RETRY)) p := by
  have call := follows.calls c t
  rw [reads] at call
  refine ⟨follows.server, shape_moves follows.shape (by rw [reads]; simp) (by rw [reads]; simp)
    fun _ _ _ _ => Front.status (by rw [reads]; rfl) rfl,
    calls_setPc follows.calls (fun _ _ _ => id) ?_, follows.answered⟩
  refine ⟨call.revoke, ?_, ?_, ?_, ?_, ?_, ?_⟩
  · rintro h status ⟨⟩
    rw [follows.server]
    exact holds
  · exact call.retry
  · rintro who next ⟨⟩
  · exact call.handler
  · rintro h status place ⟨⟩
  · rintro h status place ⟨⟩

/-- **The `sync` of a release returns.** -/
theorem synced {who : Releaser C} (follows : Follows s p)
    (releases : s.pc c t = .releasing who .sync) :
    Follows (s.setPc c t (.releasing who .call)) p := by
  have call := follows.calls c t
  rw [releases] at call
  refine ⟨follows.server, shape_moves follows.shape (by rw [releases]; simp)
    (by rw [releases]; simp) fun _ _ _ _ front => ?_,
    calls_setPc follows.calls (fun _ _ _ => id) ?_, follows.answered⟩
  · cases who with
    | thread =>
        rw [releases] at front
        cases front with
        | asked status => cases status
        | nudged status => cases status
        | granted status => cases status
        | grantedNoted status => cases status
        | sync => exact .call
    | handler h status => exact front.status (by rw [releases]; rfl) rfl
  · refine ⟨call.revoke, ?_, call.retry, ?_, ?_, ?_, ?_⟩
    · rintro h status ⟨⟩
    · rintro who next ⟨⟩
    · cases who with
      | thread => exact call.handler
      | handler h status => exact call.handler
    · rintro h status place ⟨⟩ early
      exact call.early h status .sync rfl trivial
    · rintro h status place ⟨⟩ late
      exact absurd trivial late

/-- **`revoke_handler` runs at the holder.** -/
theorem revoke {h : C} {status : Status} (follows : Follows s p) (agreed : Agreed p)
    (revokes : s.pc c t = .revoking h status) :
    ∃ p', (p' = p ∨ Protocol.Step p p') ∧ Follows
      ((s.setClient h (s.client h).revokeHandler.1).setPc c t
        (if (s.client h).revokeHandler.2 then .releasing (.handler h status) .sync
          else .replied status)) p' := by
  have call := follows.calls c t
  rw [revokes] at call
  have token : p.revoke = some (c, t) := call.revoke.mp trivial
  have sent : p.revoke ≠ none := by simp [token]
  have holding : p.server.clientHolding = some h := call.holding h status rfl
  have noRetry : p.retry ≠ some (c, t) := fun eq => call.retry.mpr eq
  have noHandler : ∀ k, p.handler k ≠ some (c, t) := by
    intro k eq
    cases (call.handler k).mpr eq
  have shape := follows.shape h
  generalize handledEq : (p.handler h).isSome = handled at shape
  -- the calling thread only learns that its call of the handler is over
  have moves : ∀ {φ} runs pc,
      Shape (s.client h).revokeHandler.1 (s.pc h) φ (Option.isSome runs) →
      pc.status = some status → ∀ b,
      Shape (((s.setClient h (s.client h).revokeHandler.1).setPc c t pc).client b)
        (((s.setClient h (s.client h).revokeHandler.1).setPc c t pc).pc b)
        (Function.update p.phase h φ b) (Function.update p.handler h runs b).isSome := by
    intro φ runs pc shape same
    exact shape_moves (s := s.setClient h (s.client h).revokeHandler.1)
      (shape_setClient follows.shape shape) (by simp [revokes]) (by simp [revokes])
      fun _ _ _ _ => Front.status (by simp only [LockState.setClient_pc, revokes]; rfl) same
  -- the client notes the revoke and the call comes back
  have notes : ∀ φ, handled = false → (s.client h).revokeHandler.2 = false →
      Shape (s.client h).revokeHandler.1 (s.pc h) φ false →
      Follows ((s.setClient h (s.client h).revokeHandler.1).setPc c t
          (if (s.client h).revokeHandler.2 then .releasing (.handler h status) .sync
            else .replied status))
        { p with
          phase := Function.update p.phase h φ
          revoke := none } := by
    intro φ none stays shape
    have unhandled : p.handler h = Option.none := by simpa [none] using handledEq
    rw [stays]
    refine ⟨follows.server, ?_, calls_setPc follows.calls (fun b u ne call => ?_) ?_,
      follows.answered⟩
    · have all := moves (p.handler h) (.replied status) (by rwa [unhandled]) rfl
      rw [Function.update_eq_self] at all
      exact all
    · refine call.keep ?_ Iff.rfl (fun _ => Iff.rfl) (fun _ => rfl) (fun _ => rfl) fun k eq => ?_
      · rw [token]
        exact iff_of_false (by simp) fun eq => ne (Option.some.inj eq).symm
      · refine Function.update_of_ne ?_ _ _
        rintro rfl
        rw [unhandled] at eq
        cases eq
    · exact (CallAt.silent_iff (by simp [Pc.Silent, Pc.Revokes, Pc.Retries, Pc.handles])).mpr
        ⟨by simp, noRetry, noHandler⟩
  -- the holder may not know yet that it holds: its `OK` is still on the way
  rcases agreed.revoke_spec sent holding with phaseEq | phaseEq
  · rw [phaseEq] at shape
    obtain ⟨none, stays, shape⟩ := shape.revoke_granted
    exact ⟨_, Or.inr (.noteGranted h holding sent phaseEq), notes _ none stays shape⟩
  · rw [phaseEq] at shape
    obtain ⟨none, ⟨stays, shape⟩ | ⟨leaves, shape⟩⟩ := shape.revoke_held
    · exact ⟨_, Or.inr (.noteHeld h holding sent phaseEq), notes _ none stays shape⟩
    -- nobody uses the lock at the holder, and the handler gives it back itself
    · have unhandled : p.handler h = Option.none := by simpa [none] using handledEq
      refine ⟨_, Or.inr (.reclaim h (c, t) holding sent phaseEq), ?_⟩
      rw [leaves]
      refine ⟨follows.server, moves (some (c, t)) _ shape rfl,
        calls_setPc follows.calls (fun b u ne call => ?_) ?_, follows.answered⟩
      · refine call.keep ?_ Iff.rfl (fun k => ?_) (fun _ => rfl) (fun _ => rfl) fun k eq => ?_
        · rw [token]
          exact iff_of_false (by simp) fun eq => ne (Option.some.inj eq).symm
        · simp only
          by_cases same : k = h
          · subst same
            rw [Function.update_self, unhandled]
            exact iff_of_false (fun eq => ne (Option.some.inj eq).symm) (by simp)
          · rw [Function.update_of_ne same]
        · refine Function.update_of_ne ?_ _ _
          rintro rfl
          rw [unhandled] at eq
          cases eq
      · refine ⟨iff_of_false id (by simp), ?_, iff_of_false id noRetry, ?_, fun k => ?_, ?_, ?_⟩
        · rintro k status' ⟨⟩
        · rintro who next ⟨⟩
        · by_cases same : k = h
          · subst same
            simp [Pc.handles]
          · simp [Pc.handles, same, Ne.symm same, noHandler k]
        · rintro k status' place ⟨⟩ early
          simp
        · rintro k status' place ⟨⟩ late
          exact absurd trivial late

/-- **The server's section for a release call.** -/
theorem serverRelease {who : Releaser C} (follows : Follows s p) (agreed : Agreed p)
    (releases : s.pc c t = .releasing who .call) :
    ∃ p', (p' = p ∨ Protocol.Step p p') ∧ Follows
      ({ s with server := s.server.release.1 }.setPc c t
        (.releasing who (s.server.release.2.elim .done .retry))) p' := by
  have call := follows.calls c t
  rw [releases] at call
  obtain ⟨state, response, rest, record, client, shape⟩ :=
    follows.front (by rw [releases]; simp) (by rw [releases]; simp)
  -- the client that gives the lock back, and the thread that does it for it
  obtain ⟨h, client', phaseEq, mine, shapes⟩ : ∃ h, who.client c = h ∧ p.phase h = .giving ∧
      (∀ b u, (b, u) ≠ (c, t) → p.handler h ≠ some (b, u)) ∧
      ∀ next b, Shape ((s.setPc c t (.releasing who (.retry next))).client b)
        ((s.setPc c t (.releasing who (.retry next))).pc b)
        (Function.update p.phase h .gave b) (p.handler b).isSome := by
    cases who with
    | thread =>
        rw [releases] at client
        generalize phaseEq : p.phase c = phase at client
        generalize handledEq : (p.handler c).isSome = handled at client shape
        cases client with
        | asked status => cases status
        | nudged status => cases status
        | granted status => cases status
        | grantedNoted status => cases status
        | call =>
            refine ⟨c, rfl, phaseEq, fun b u _ eq => ?_, fun next b => ?_⟩
            · rw [eq] at handledEq
              cases handledEq
            · by_cases same : b = c
              · subst same
                simp only [LockState.setPc_client, LockState.setPc_pc_self, Function.update_self,
                  handledEq]
                refine shape _ _ _ (by rw [record]) ?_
                rw [record]
                exact .retry
              · simpa [same] using follows.shape b
    | handler h status =>
        have token : p.handler h = some (c, t) := (call.handler h).mp rfl
        have phaseEq : p.phase h = .giving := call.early h status .call rfl trivial
        refine ⟨h, rfl, phaseEq, fun b u ne eq => ?_, fun next b => ?_⟩
        · rw [token] at eq
          exact ne (Option.some.inj eq).symm
        · have status' : (Pc.releasing (.handler h status) (.retry next) : Pc C).status =
              some status := rfl
          have all := shape_moves follows.shape (by rw [releases]; simp) (by rw [releases]; simp)
            fun _ _ _ _ => Front.status (by rw [releases]; rfl) status'
          by_cases same : b = h
          · subst same
            have given := all b
            rw [phaseEq, token] at given
            rw [Function.update_self, token]
            exact given.given
          · rw [Function.update_of_ne same]
            exact all b
  obtain ⟨noRevoke, noRetry, holding, noRetrying, next, mem, out⟩ := agreed.release_spec phaseEq
  refine ⟨_, Or.inr (.release h (c, t) phaseEq), ?_⟩
  rw [← follows.server, out]
  refine ⟨rfl, shapes next, calls_setPc follows.calls (fun b u ne call => ?_) ?_, fun b => ?_⟩
  · refine call.keep Iff.rfl ?_ (fun _ => Iff.rfl) (fun eq => ?_) (fun eq => ?_) fun k eq => ?_
    · rw [noRetry]
      exact iff_of_false (fun eq => ne (Option.some.inj eq).symm) (by simp)
    · rw [noRevoke] at eq
      cases eq
    · rw [noRetry] at eq
      cases eq
    · refine Function.update_of_ne ?_ _ _
      rintro rfl
      exact mine b u ne eq
  · refine ⟨call.revoke, ?_, iff_of_true trivial rfl, ?_, ?_, ?_, ?_⟩
    · rintro k status ⟨⟩
    · rintro who' next' ⟨⟩
      rfl
    · cases who with
      | thread => exact call.handler
      | handler k status => exact call.handler
    · rintro k status place ⟨⟩ early
      exact early.elim
    · rintro k status place ⟨⟩ late
      rw [← client']
      simp [Releaser.client]
  · simp only [LockState.setPc_answered, LockState.setPc_server]
    rw [follows.answered b, ← follows.server, noRetrying, Finset.mem_erase]
    constructor
    · rintro (waits | none)
      · by_cases same : b = next
        · exact Or.inr (by rw [same])
        · exact Or.inl ⟨same, waits⟩
      · cases none
    · rintro (⟨-, waits⟩ | eq)
      · exact Or.inl waits
      · rw [← Option.some.inj eq]
        exact Or.inl mem

/-- A thread inside a call is not affected by a signal to another. -/
theorem signalled_pc {h : C} {u : T} {lock : ClientLock T} (still : (s.pc c t).signal = s.pc c t) :
    (s.signalled h (lock, some u)).pc c t = s.pc c t := by
  rw [LockState.signalled_some]
  by_cases same : c = h
  · subst same
    rw [LockState.setPc_pc_self, LockState.setClient_pc]
    by_cases eq : t = u
    · subst eq
      rw [Function.update_self, still]
    · rw [Function.update_of_ne eq]
  · rw [LockState.setPc_pc_of_ne same, LockState.setClient_pc]

/-- The calls after a section that ends with a signal. -/
theorem calls_signalled {p' : Protocol C (C × T)} {h : C} {result : ClientLock T × Option T}
    {b : C} {u : T} (call : CallAt (s.pc b u) (b, u) p') :
    CallAt ((s.signalled h result).pc b u) (b, u) p' := by
  obtain ⟨lock, none | v⟩ := result
  · exact call
  · rw [LockState.signalled_some]
    by_cases eq : b = h ∧ u = v
    · obtain ⟨rfl, rfl⟩ := eq
      simpa using call.signal
    · have same : ((s.setClient h lock).setPc h v (s.pc h v).signal).pc b u = s.pc b u := if_neg eq
      rwa [same]

/-- The shapes after a section that ends with a signal. -/
theorem shape_signalled {phase : C → Phase} {handler : C → Option (C × T)} {h : C} {u : T}
    {lock : ClientLock T} {new : Phase} {runs : Option (C × T)}
    (shapes : ∀ b, Shape (s.client b) (s.pc b) (phase b) (handler b).isSome)
    (shape : Shape lock (Function.update (s.pc h) u (s.pc h u).signal) new runs.isSome) (b : C) :
    Shape ((s.signalled h (lock, some u)).client b) ((s.signalled h (lock, some u)).pc b)
      (Function.update phase h new b) (Function.update handler h runs b).isSome := by
  rw [LockState.signalled_some]
  by_cases eq : b = h
  · subst eq
    simpa using shape
  · simpa [eq] using shapes b

/-- **`retry_handler` runs at the next client.** -/
theorem retry {who : Releaser C} {next : C} (follows : Follows s p) (agreed : Agreed p)
    (retries : s.pc c t = .releasing who (.retry next)) :
    ∃ p', (p' = p ∨ Protocol.Step p p') ∧ Follows
      ((s.signalled next (s.client next).retryHandler).setPc c t (.releasing who .done)) p' := by
  have call := follows.calls c t
  rw [retries] at call
  have token : p.retry = some (c, t) := call.retry.mp trivial
  have sent : p.retry ≠ none := by simp [token]
  have retrying : p.server.clientRetrying = some next := call.retrying who next rfl
  have phaseEq := agreed.retry_spec sent retrying
  have shape := follows.shape next
  rw [phaseEq] at shape
  obtain ⟨none, u, signal, shape⟩ := shape.retried
  have unhandled : p.handler next = Option.none := by simpa using none
  have result : (s.client next).retryHandler = ((s.client next).retryHandler.1, some u) := by
    rw [← signal]
  have here : (s.signalled next (s.client next).retryHandler).pc c t =
      .releasing who (.retry next) := by
    rw [result, signalled_pc (by rw [retries]; rfl), retries]
  -- no revoke handler runs at the client that is called back
  have kept : ∀ k b u, p.handler k = some (b, u) →
      Function.update p.phase next (.asked true) k = p.phase k := by
    intro k b u eq
    refine Function.update_of_ne ?_ _ _
    rintro rfl
    rw [unhandled] at eq
    cases eq
  refine ⟨_, Or.inr (.nudge next retrying sent), ?_, ?_,
    calls_setPc (fun b u => calls_signalled (follows.calls b u)) (fun b u ne call => ?_) ?_, ?_⟩
  · simpa using follows.server
  · have all := shape_signalled follows.shape shape
    rw [Function.update_eq_self, ← result] at all
    exact shape_moves all (by rw [here]; simp) (by rw [here]; simp)
      fun _ _ _ _ front => Front.retried (by rwa [here] at front)
  · refine call.keep Iff.rfl ?_ (fun _ => Iff.rfl) (fun _ => rfl) (fun _ => rfl)
      fun k eq => kept k b u eq
    rw [token]
    exact iff_of_false (by simp) fun eq => ne (Option.some.inj eq).symm
  · refine ⟨call.revoke, ?_, iff_of_false id (by simp), ?_, ?_, ?_, ?_⟩
    · rintro k status ⟨⟩
    · rintro who' next' ⟨⟩
    · cases who with
      | thread => exact call.handler
      | handler k status => exact call.handler
    · rintro k status place ⟨⟩ early
      exact early.elim
    · rintro k status place ⟨⟩ late
      exact (kept k c t ((call.handler k).mp rfl)).trans (call.late k status (.retry next) rfl id)
  · simpa using follows.answered

/-- **The last section of `revoke_handler`.** -/
theorem revokeDone {h : C} {status : Status} (follows : Follows s p)
    (done : s.pc c t = .releasing (.handler h status) .done) :
    ∃ p', (p' = p ∨ Protocol.Step p p') ∧ Follows
      ((s.signalled h (s.client h).revokeDone).setPc c t (.replied status)) p' := by
  have call := follows.calls c t
  rw [done] at call
  have token : p.handler h = some (c, t) := (call.handler h).mp rfl
  have phaseEq : p.phase h = .gave := call.late h status .done rfl id
  have shape := follows.shape h
  rw [phaseEq, token] at shape
  -- the calling thread is not one that waits, so the signal is not for it
  have still : (s.pc c t).signal = s.pc c t := by
    rw [done]
    rfl
  obtain ⟨here, all⟩ : (s.signalled h (s.client h).revokeDone).pc c t = s.pc c t ∧
      ∀ b, Shape ((s.signalled h (s.client h).revokeDone).client b)
        ((s.signalled h (s.client h).revokeDone).pc b) (Function.update p.phase h .out b)
        (Function.update p.handler h none b).isSome := by
    -- a thread may have queued up at the holder meanwhile, and gets its turn
    rcases shape.settled with ⟨signal, shape⟩ | ⟨u, signal, -, shape⟩
    · have result : (s.client h).revokeDone = ((s.client h).revokeDone.1, none) := by
        rw [← signal]
      rw [result, LockState.signalled_none]
      exact ⟨rfl, shape_setClient follows.shape shape⟩
    · have result : (s.client h).revokeDone = ((s.client h).revokeDone.1, some u) := by
        rw [← signal]
      rw [result]
      exact ⟨signalled_pc still, shape_signalled follows.shape shape⟩
  refine ⟨_, Or.inr (.settle h phaseEq), ?_, ?_,
    calls_setPc (fun b u => calls_signalled (follows.calls b u)) (fun b u ne call => ?_) ?_, ?_⟩
  · simpa using follows.server
  · exact shape_moves all
      (by rw [here, done]; simp) (by rw [here, done]; simp)
      fun _ _ _ _ => Front.status (by rw [here, done]; rfl) rfl
  · have other : p.handler h ≠ some (b, u) := by
      rw [token]
      exact fun eq => ne (Option.some.inj eq).symm
    refine call.keep Iff.rfl Iff.rfl (fun k => ?_) (fun _ => rfl) (fun _ => rfl) fun k eq => ?_
    · simp only
      by_cases same : k = h
      · subst same
        rw [Function.update_self]
        exact iff_of_false (by simp) other
      · rw [Function.update_of_ne same]
    · refine Function.update_of_ne ?_ _ _
      rintro rfl
      exact other eq
  · refine (CallAt.silent_iff (by simp [Pc.Silent, Pc.Revokes, Pc.Retries, Pc.handles])).mpr
      ⟨fun eq => call.revoke.mpr eq, fun eq => call.retry.mpr eq, fun k eq => ?_⟩
    simp only at eq
    by_cases same : k = h
    · subst same
      rw [Function.update_self] at eq
      cases eq
    · rw [Function.update_of_ne same] at eq
      have := (call.handler k).mpr eq
      exact same (Option.some.inj this).symm
  · simpa using follows.answered

end Follows

/-! ## Every step -/

variable [DecidableEq T]

/-- **The code follows the protocol**, step by step. -/
theorem follows_step {label : Label C T} (follows : Follows s p) (agreed : Agreed p)
    (step : Step false label s s') : ∃ p', (p' = p ∨ Protocol.Step p p') ∧ Follows s' p' := by
  cases step with
  | acquire idle => exact follows.acquire idle
  | wake waits wakes =>
      have signalled := wakes.resolve_right (by simp)
      subst signalled
      exact follows.wake waits
  | serverAcquire calls => exact follows.serverAcquire agreed calls
  | readHolding reads holds => exact ⟨p, Or.inl rfl, follows.readHolding reads holds⟩
  | revoke revokes => exact follows.revoke agreed revokes
  | synced releases => exact ⟨p, Or.inl rfl, follows.synced releases⟩
  | serverRelease releases => exact follows.serverRelease agreed releases
  | retry retries => exact follows.retry agreed retries
  | revokeDone done => exact follows.revokeDone done
  | replied replies => exact follows.replied replies
  | release holds leaves => exact follows.release holds leaves
  | releaseLocal holds stays => exact ⟨p, Or.inl rfl, follows.releaseLocal holds stays⟩
  | releaseDone done => exact follows.releaseDone done

/-- **Every reachable state of a lock is one of the protocol's**, and there the server, the
clients and the calls between them agree. -/
theorem reach_follows (reach : ReachLock false s) : ∃ p, Follows s p ∧ Agreed p := by
  refine reach.invariant (I := fun s => ∃ p, Follows s p ∧ Agreed p) ?_ ?_
  · rintro s rfl
    exact ⟨.initial, .initial, .initial⟩
  · rintro s s' - ⟨p, follows, agreed⟩ ⟨label, step⟩
    obtain ⟨p', rfl | pstep, follows'⟩ := follows_step follows agreed step
    · exact ⟨p', follows', agreed⟩
    · exact ⟨p', follows', agreed.step pstep⟩

end Steps

end Yfs.Lock
