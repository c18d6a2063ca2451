import Yfs.Lock.Exclusion

/-!
# Where a lock is

What the users of a lock see of the protocol.  The clients have a lock in one of four
ways (`Custody`): nobody has it, a client has it and no thread uses it, a thread uses it,
or a client runs the `sync` before it gives it back.

The caches of the clients are kept in step with the lock, so their invariants are stated for each
custody and proved for each of its moves.  Three moves matter to them: a lock that nobody has goes
to a thread, a thread or an idle client begins to give it back, and the `sync` at the end of that is
over.  Everything else that the protocol does leaves the custody as it is, and those who use this
module never look at the records, the queues and the calls behind it.

* `ReachLock.custody_exists` — every reachable state is one of these.
* `custody_step` — every step leaves the custody as it is or changes it in one of six ways
  (`Custody.Move`).
* `Step.goes` — a thread that is inside `acquire` or `release` leaves it only with the
  lock or without it.
-/

namespace Yfs.Lock

variable {C T : Type*}

/-- Where a lock is.

The `OK` of a grant may be on its way while nobody has the lock yet: from the side of the caches
it is not there before the client knows of it. -/
inductive Custody (C T : Type*) where
  /-- No client has it, or the `OK` for one is still on its way. -/
  | nobody
  /-- Client `c` has it and no thread uses it. -/
  | cached (c : C)
  /-- Thread `t` of client `c` uses it. -/
  | used (c : C) (t : T)
  /-- The release that runs in the call of thread `t` of client `c` is before the end of
  its `sync`. -/
  | syncing (who : Releaser C) (c : C) (t : T)

/-- The client whose cache the lock protects. -/
def Custody.keeper : Custody C T → Option C
  | .nobody => none
  | .cached c | .used c _ => some c
  | .syncing who c _ => some (who.client c)

/-- `client_state` is free or locked. -/
def ClientLock.Cached (lock : ClientLock T) : Prop :=
  lock.clientState = .free ∨ lock.clientState = .locked

/-- **The custody of a lock**, read off its state.

Each field is an equivalence, so that the custody is determined by the state, and a client that is
not named by it is known to be without the lock. -/
structure LockState.In (s : LockState C T) (k : Custody C T) : Prop where
  cached : ∀ c, (s.client c).Cached ↔ k = .cached c ∨ ∃ t, k = .used c t
  used : ∀ c t, s.pc c t = .holding ↔ k = .used c t
  syncing : ∀ c t who, s.pc c t = .releasing who .sync ↔ k = .syncing who c t

/-! ## There is one custody -/

namespace Shape

variable {lock : ClientLock T} {pc : T → Pc C} {phase : Phase} {handled : Bool} {t u : T}

/-- A thread that uses the lock is the front of the queue, and the client has the lock. -/
theorem of_holding (shape : Shape lock pc phase handled) (holds : pc t = .holding) :
    lock.clientState = .locked ∧ (∃ noted, phase = .held noted) ∧
      ∀ u, pc u = .holding → u = t := by
  obtain ⟨rest, -, -, turns, idle, client⟩ := shape.of_active (t := t) (by simp [holds])
    (by simp [holds])
  rw [holds] at client
  have front : ∀ u, pc u = .holding → u = t := by
    intro u holding
    by_contra ne
    by_cases mem : u ∈ rest
    · rw [turns u mem] at holding
      cases holding
    · rw [idle u ne mem] at holding
      cases holding
  generalize lock.clientState = state at client ⊢
  generalize lock.serverResponse = response at client
  cases client with
  | holding => exact ⟨rfl, ⟨_, rfl⟩, front⟩
  | holdingNoted => exact ⟨rfl, ⟨_, rfl⟩, front⟩
  | asked status => cases status
  | nudged status => cases status
  | granted status => cases status
  | grantedNoted status => cases status

/-- A thread that gives the lock back itself is the only one at its client, and no handler
gives it back there. -/
theorem of_releasing {place : ReleaseAt C} (shape : Shape lock pc phase handled)
    (releases : pc t = .releasing .thread place) :
    handled = false ∧ ∀ u place, pc u = .releasing .thread place → u = t := by
  obtain ⟨rest, -, -, turns, idle, client⟩ := shape.of_active (t := t) (by simp [releases])
    (by simp [releases])
  rw [releases] at client
  refine ⟨?_, fun u place releasing => ?_⟩
  · generalize lock.clientState = state at client
    generalize lock.serverResponse = response at client
    cases client <;> rfl
  · by_contra ne
    by_cases mem : u ∈ rest
    · rw [turns u mem] at releasing
      cases releasing
    · rw [idle u ne mem] at releasing
      cases releasing

/-- No acquire ever returns `NOENT`. -/
theorem not_noent (shape : Shape lock pc phase handled) : pc t ≠ .noent := by
  intro noent
  obtain ⟨rest, -, -, -, -, client⟩ := shape.of_active (t := t) (by simp [noent])
    (by simp [noent])
  rw [noent] at client
  generalize lock.clientState = state at client
  generalize lock.serverResponse = response at client
  cases client with
  | asked status => cases status
  | nudged status => cases status
  | granted status => cases status
  | grantedNoted status => cases status

/-- A client that gives the lock back is releasing. -/
theorem of_giving (shape : Shape lock pc phase handled) (giving : phase = .giving) :
    lock.clientState = .releasing := by
  subst giving
  cases shape with
  | empty _ _ client =>
      generalize lock.clientState = state at client ⊢
      generalize lock.serverResponse = response at client
      cases client
      rfl
  | front u _ _ _ _ _ client =>
      generalize lock.clientState = state at client ⊢
      generalize lock.serverResponse = response at client
      generalize pc u = place at client
      cases client <;> rfl

/-- A client that is told `OK` was granted the lock. -/
theorem of_replied_ok (shape : Shape lock pc phase handled) (replies : pc t = .replied .OK) :
    ∃ noted, phase = .granted noted := by
  obtain ⟨rest, -, -, -, -, client⟩ := shape.of_active (t := t) (by simp [replies])
    (by simp [replies])
  rw [replies] at client
  generalize lock.clientState = state at client
  generalize lock.serverResponse = response at client
  cases client with
  | granted => exact ⟨_, rfl⟩
  | grantedNoted => exact ⟨_, rfl⟩
  | asked status => cases status
  | nudged status => cases status

/-- A client that waits for the reply to its acquire call does not have the lock. -/
theorem of_replied {status : Status} (shape : Shape lock pc phase handled)
    (replies : pc t = .replied status) : lock.clientState = .acquiring := by
  obtain ⟨rest, -, -, -, -, client⟩ := shape.of_active (t := t) (by simp [replies])
    (by simp [replies])
  rw [replies] at client
  generalize lock.clientState = state at client ⊢
  generalize lock.serverResponse = response at client
  cases client <;> rfl

end Shape

section Static

variable {s : LockState C T} {p : Protocol C (C × T)}

/-- A client whose release is before the end of its `sync`. -/
theorem Follows.of_syncing (follows : Follows s p) {c : C} {t : T} {who : Releaser C}
    (syncs : s.pc c t = .releasing who .sync) : p.phase (who.client c) = .giving := by
  cases who with
  | thread => exact (follows.shape c).of_giving_thread syncs trivial
  | handler h status => exact (follows.calls c t).early h status .sync syncs trivial

/-- Its `client_state` is releasing. -/
theorem Follows.releasing_of_syncing (follows : Follows s p) {c : C} {t : T} {who : Releaser C}
    (syncs : s.pc c t = .releasing who .sync) :
    (s.client (who.client c)).clientState = .releasing :=
  (follows.shape (who.client c)).of_giving (follows.of_syncing syncs)

/-- At most one release is before the end of its `sync`. -/
theorem Follows.syncing_unique (follows : Follows s p) {b c : C} {t u : T}
    {who who' : Releaser C} (syncs : s.pc c t = .releasing who .sync)
    (syncs' : s.pc b u = .releasing who' .sync) (same : who'.client b = who.client c) :
    b = c ∧ u = t ∧ who' = who := by
  have here : ∀ {c t h status}, s.pc c t = .releasing (.handler h status) .sync →
      p.handler h = some (c, t) := by
    intro c t h status syncs
    exact ((follows.calls c t).handler h).mp (by rw [syncs]; rfl)
  cases who with
  | thread =>
      obtain ⟨unhandled, unique⟩ := (follows.shape c).of_releasing syncs
      cases who' with
      | thread =>
          cases same
          exact ⟨rfl, unique u _ syncs', rfl⟩
      | handler h status =>
          cases same
          rw [here syncs'] at unhandled
          cases unhandled
  | handler h status =>
      cases who' with
      | thread =>
          have eq : b = h := same
          subst eq
          have unhandled := ((follows.shape b).of_releasing syncs').1
          rw [here syncs] at unhandled
          cases unhandled
      | handler h' status' =>
          have eq : h' = h := same
          subst eq
          have token := here syncs
          rw [here syncs'] at token
          cases token
          rw [syncs] at syncs'
          cases syncs'
          exact ⟨rfl, rfl, rfl⟩

/-- **A lock is in one place.** -/
theorem Follows.custody (follows : Follows s p) (agreed : Agreed p) :
    ∃ k : Custody C T, s.In k := by
  -- the protocol gives the lock to one client
  have one : ∀ {b c}, (p.phase b).Has → (p.phase c).Has → b = c := by
    intro b c hb hc
    have := (agreed.has_iff.mp hb).symm.trans (agreed.has_iff.mp hc)
    exact Option.some_injective _ this
  have held : ∀ {c noted}, p.phase c = .held noted → (p.phase c).Has := by
    intro c noted eq
    exact Or.inr (Or.inl ⟨noted, eq⟩)
  have giving : ∀ {c t who}, s.pc c t = .releasing who .sync → (p.phase (who.client c)).Has := by
    intro c t who syncs
    exact Or.inr (Or.inr (follows.of_syncing syncs))
  have cached : ∀ {c}, (s.client c).Cached → ∃ noted, p.phase c = .held noted := by
    intro c state
    exact (follows.shape c).of_cached state
  have apart : ∀ {b c t who noted}, p.phase b = .held noted → s.pc c t ≠ .releasing who .sync := by
    intro b c t who noted phase syncs
    have eq := one (held phase) (giving syncs)
    rw [eq, follows.of_syncing syncs] at phase
    cases phase
  -- a thread uses the lock, a release writes back, a client has it cached, or none of these
  by_cases used : ∃ c t, s.pc c t = .holding
  · obtain ⟨c, t, holds⟩ := used
    obtain ⟨locked, ⟨noted, phase⟩, unique⟩ := (follows.shape c).of_holding holds
    refine ⟨.used c t, fun b => ?_, fun b u => ?_, fun b u who => ?_⟩
    · constructor
      · intro state
        obtain ⟨noted', phase'⟩ := cached state
        cases one (held phase) (held phase')
        exact Or.inr ⟨t, rfl⟩
      · rintro (eq | ⟨u, eq⟩) <;> cases eq
        exact Or.inr locked
    · constructor
      · intro holds'
        obtain ⟨-, ⟨noted', phase'⟩, -⟩ := (follows.shape b).of_holding holds'
        cases one (held phase) (held phase')
        rw [unique u holds']
      · rintro eq
        cases eq
        exact holds
    · exact ⟨fun syncs => absurd syncs (apart phase), fun eq => by cases eq⟩
  · have unused : ∀ c t, s.pc c t ≠ .holding := fun c t holds => used ⟨c, t, holds⟩
    by_cases syncs : ∃ c t who, s.pc c t = .releasing who .sync
    · obtain ⟨c, t, who, syncs⟩ := syncs
      refine ⟨.syncing who c t, fun b => ?_, fun b u => ?_, fun b u who' => ?_⟩
      · constructor
        · intro state
          obtain ⟨noted, phase⟩ := cached state
          exact absurd syncs (apart phase)
        · rintro (eq | ⟨u, eq⟩) <;> cases eq
      · exact ⟨fun holds => absurd holds (unused b u), fun eq => by cases eq⟩
      · constructor
        · intro syncs'
          obtain ⟨rfl, rfl, rfl⟩ := follows.syncing_unique syncs syncs'
            (one (giving syncs') (giving syncs))
          rfl
        · rintro eq
          cases eq
          exact syncs
    · have noSync : ∀ c t who, s.pc c t ≠ .releasing who .sync :=
        fun c t who eq => syncs ⟨c, t, who, eq⟩
      by_cases here : ∃ c, (s.client c).Cached
      · obtain ⟨c, state⟩ := here
        obtain ⟨noted, phase⟩ := cached state
        refine ⟨.cached c, fun b => ?_, fun b u => ?_, fun b u who => ?_⟩
        · constructor
          · intro state'
            obtain ⟨noted', phase'⟩ := cached state'
            cases one (held phase) (held phase')
            exact Or.inl rfl
          · rintro (eq | ⟨u, eq⟩) <;> cases eq
            exact state
        · exact ⟨fun holds => absurd holds (unused b u), fun eq => by cases eq⟩
        · exact ⟨fun eq => absurd eq (noSync b u who), fun eq => by cases eq⟩
      · refine ⟨.nobody, fun b => ?_, fun b u => ?_, fun b u who => ?_⟩
        · constructor
          · intro state
            exact absurd ⟨b, state⟩ here
          · rintro (eq | ⟨u, eq⟩) <;> cases eq
        · exact ⟨fun holds => absurd holds (unused b u), fun eq => by cases eq⟩
        · exact ⟨fun eq => absurd eq (noSync b u who), fun eq => by cases eq⟩

end Static

/-! ## What a step does to the threads -/

/-- The call that a thread is in. -/
inductive CallKind where
  | acquire | release
  deriving DecidableEq

/-- The call that a thread at `pc` is in. -/
def Pc.call : Pc C → Option CallKind
  | .idle | .holding | .noent => none
  | .releasing .thread _ => some .release
  | _ => some .acquire

/-- What a step does to a thread that makes no new call.

Between its call and the return of the call a thread may move in any way inside; what matters to
its program is that the call ends only with what it was made for. -/
inductive Pc.Goes : Pc C → Pc C → Prop where
  | stays (pc : Pc C) : Goes pc pc
  | acquires {pc pc' : Pc C} (old : pc.call = some .acquire)
      (new : pc'.call = some .acquire ∨ pc' = .holding ∨ pc' = .noent) : Goes pc pc'
  | releases {pc pc' : Pc C} (old : pc.call = some .release)
      (new : pc'.call = some .release ∨ pc' = .idle) : Goes pc pc'

theorem Pc.goes_signal (pc : Pc C) : pc.Goes pc.signal := by
  cases pc with
  | waiting place signalled => exact .acquires rfl (Or.inl rfl)
  | _ => exact .stays _

theorem Pc.signal_eq_holding {pc : Pc C} : pc.signal = .holding ↔ pc = .holding := by
  cases pc <;> simp [Pc.signal]

theorem Pc.signal_eq_releasing {pc : Pc C} {who : Releaser C} {place : ReleaseAt C} :
    pc.signal = .releasing who place ↔ pc = .releasing who place := by
  cases pc <;> simp [Pc.signal]

theorem Outcome.pc_call (outcome : Outcome) :
    (outcome.pc : Pc C).call = some .acquire ∨ (outcome.pc : Pc C) = .holding ∨
      (outcome.pc : Pc C) = .noent := by
  cases outcome <;> simp [Outcome.pc, Pc.call]

theorem Answer.pc_call (answer : Answer) (c : C) : (answer.pc c).call = some .acquire := by
  cases answer <;> rfl

namespace LockState

section SetPc

variable [DecidableEq C] [DecidableEq T] {s : LockState C T} {b c : C} {t u : T} {pc : Pc C}

theorem setPc_pc_apply : (s.setPc c t pc).pc b u = if b = c ∧ u = t then pc else s.pc b u := rfl

/-- Only one thread moves. -/
theorem goes_setPc (goes : (s.pc c t).Goes pc) : (s.pc b u).Goes ((s.setPc c t pc).pc b u) := by
  rw [setPc_pc_apply]
  split
  next eq =>
      obtain ⟨rfl, rfl⟩ := eq
      exact goes
  next ne => exact .stays _

theorem goes_signalled {result : ClientLock T × Option T} :
    (s.pc b u).Goes ((s.signalled c result).pc b u) := by
  obtain ⟨lock, none | v⟩ := result
  · exact .stays _
  · exact goes_setPc (s := s.setClient c lock) (Pc.goes_signal _)

/-- A signal changes nothing for a thread that does not wait. -/
theorem signalled_pc_of_still {result : ClientLock T × Option T}
    (still : (s.pc b u).signal = s.pc b u) : (s.signalled c result).pc b u = s.pc b u := by
  obtain ⟨lock, none | v⟩ := result
  · rfl
  · rw [signalled_some, setPc_pc_apply]
    split
    next eq =>
        obtain ⟨rfl, rfl⟩ := eq
        exact still
    next ne => rfl

end SetPc

end LockState

theorem Pc.Goes.trans {pc pc' pc'' : Pc C} (first : pc.Goes pc') (second : pc'.Goes pc'') :
    pc.Goes pc'' := by
  cases first with
  | stays => exact second
  | acquires old new =>
      cases second with
      | stays => exact .acquires old new
      | acquires old' new' => exact .acquires old new'
      | releases old' new' => rcases new with new | rfl | rfl <;> simp_all [Pc.call]
  | releases old new =>
      cases second with
      | stays => exact .releases old new
      | acquires old' new' => rcases new with new | rfl <;> simp_all [Pc.call]
      | releases old' new' => exact .releases old new'

section Goes

variable [LinearOrder C] [DecidableEq T] {spurious : Bool} {s s' : LockState C T} {c : C} {t : T}

open LockState

/-- A section of an acquire call leaves the thread in the call, or with its result. -/
theorem goes_acquiring {b : C} {u : T} {result : ClientLock T × Outcome}
    (old : (s.pc c t).call = some .acquire) :
    (s.pc b u).Goes ((s.acquiring c t result).pc b u) :=
  goes_setPc (s := s.setClient c result.1) (.acquires old result.2.pc_call)

/-- **A thread inside a call leaves it only by its end.** -/
theorem Step.goes {label : Label C T} (step : Step spurious label s s')
    (other : label.caller ≠ some (c, t)) : (s.pc c t).Goes (s'.pc c t) := by
  cases step with
  | @acquire _ b u idle =>
      have ne : ¬ (c = b ∧ t = u) := by rintro ⟨rfl, rfl⟩; exact other rfl
      rw [acquiring, setPc_pc_apply, if_neg ne]
      exact .stays _
  | wake waits wakes => exact goes_acquiring (by rw [waits]; rfl)
  | @serverAcquire _ b u calls =>
      exact goes_setPc (s := { s with server := _, answered := _ })
        (.acquires (by rw [calls]; rfl) (Or.inl (Answer.pc_call _ _)))
  | readHolding reads holds => exact goes_setPc (.acquires (by rw [reads]; rfl) (Or.inl rfl))
  | @revoke _ b u holder status revokes =>
      refine goes_setPc (s := s.setClient holder _) (.acquires ?_ (Or.inl ?_))
      · rw [setClient_pc, revokes]
        rfl
      · split <;> rfl
  | @synced _ b u who releases =>
      cases who with
      | thread => exact goes_setPc (.releases (by rw [releases]; rfl) (Or.inl rfl))
      | handler h status => exact goes_setPc (.acquires (by rw [releases]; rfl) (Or.inl rfl))
  | @serverRelease _ b u who releases =>
      cases who with
      | thread =>
          exact goes_setPc (s := { s with server := _ })
            (.releases (by rw [releases]; rfl) (Or.inl rfl))
      | handler h status =>
          exact goes_setPc (s := { s with server := _ })
            (.acquires (by rw [releases]; rfl) (Or.inl rfl))
  -- the signal may be for the thread, or the thread may be the one that calls the handler
  | @retry _ b u who next retries =>
      refine goes_signalled.trans (goes_setPc ?_)
      rw [signalled_pc_of_still (by rw [retries]; rfl), retries]
      cases who with
      | thread => exact .releases rfl (Or.inl rfl)
      | handler h status => exact .acquires rfl (Or.inl rfl)
  | @revokeDone _ b u holder status done =>
      refine goes_signalled.trans (goes_setPc ?_)
      rw [signalled_pc_of_still (by rw [done]; rfl), done]
      exact .acquires rfl (Or.inl rfl)
  | replied replies => exact goes_acquiring (by rw [replies]; rfl)
  | @release _ b u holds leaves =>
      have ne : ¬ (c = b ∧ t = u) := by rintro ⟨rfl, rfl⟩; exact other rfl
      rw [setPc_pc_apply, if_neg ne]
      exact .stays _
  | @releaseLocal _ b u next holds stays =>
      have ne : ¬ (c = b ∧ t = u) := by rintro ⟨rfl, rfl⟩; exact other rfl
      refine .trans ?_ goes_signalled
      rw [setPc_pc_apply, if_neg ne]
      exact .stays _
  | releaseDone done =>
      exact (goes_setPc (.releases (by rw [done]; rfl) (Or.inr rfl))).trans goes_signalled

/-- What a call of `acquire` does to its thread. -/
theorem Step.acquire_pc (step : Step spurious (.acquire c t) s s') :
    s.pc c t = .idle ∧ ((s'.pc c t).call = some .acquire ∨ s'.pc c t = .holding ∨
      s'.pc c t = .noent) := by
  cases step with
  | acquire idle =>
      refine ⟨idle, ?_⟩
      rw [acquiring, setPc_pc_apply, if_pos ⟨rfl, rfl⟩]
      exact Outcome.pc_call _

/-- What a call of `release` does to its thread. -/
theorem Step.release_pc (step : Step spurious (.release c t) s s') :
    s.pc c t = .holding ∧ ((s'.pc c t).call = some .release ∨ s'.pc c t = .idle) := by
  cases step with
  | release holds leaves =>
      refine ⟨holds, Or.inl ?_⟩
      rw [setPc_pc_apply, if_pos ⟨rfl, rfl⟩]
      rfl
  | releaseLocal holds stays =>
      have self : (s.setPc c t .idle).pc c t = .idle := by
        rw [setPc_pc_apply, if_pos ⟨rfl, rfl⟩]
      refine ⟨holds, Or.inr ?_⟩
      rw [signalled_pc_of_still (by rw [self]; rfl), self]

end Goes

/-! ## What a step does to the custody -/

/-- **How the custody of a lock changes.**

The labels are those of the steps, as far as users see them: a step that `acquire` or `release`
makes in the name of a thread, a step inside a client, or the end of a `sync`.  `stay` is every
other step; it is never a release and never the end of a `sync`, so these are seen by the caches
each time. -/
inductive Custody.Move : Label C T → Custody C T → Custody C T → Prop where
  | stay {label : Label C T} (k : Custody C T) (notRelease : ∀ c t, label ≠ .release c t)
      (notSynced : ∀ c, label ≠ .synced c) : Move label k k
  | take {label : Label C T} (c : C) (t : T) (by_ : label = .acquire c t ∨ label = .client c) :
      Move label (.cached c) (.used c t)
  | grant (c : C) (t : T) : Move (.client c) .nobody (.used c t)
  | putBack (c : C) (t : T) : Move (.release c t) (.used c t) (.cached c)
  | leave (c : C) (t : T) : Move (.release c t) (.used c t) (.syncing .thread c t)
  | reclaim (h : C) (status : Status) (c : C) (t : T) :
      Move (.client h) (.cached h) (.syncing (.handler h status) c t)
  | synced (who : Releaser C) (c : C) (t : T) :
      Move (.synced (who.client c)) (.syncing who c t) .nobody

/-- A client keeps the lock until its `sync` is over. -/
theorem Custody.Move.keeper {label : Label C T} {b : C} {k k' : Custody C T}
    (move : Custody.Move label k k') (notSynced : ∀ c, label ≠ .synced c)
    (keeper : k.keeper = some b) : k'.keeper = some b := by
  cases move with
  | stay | take | putBack | leave | reclaim => exact keeper
  | grant => cases keeper
  | synced who c => exact absurd rfl (notSynced _)

/-- After a `sync` nobody has the lock. -/
theorem Custody.Move.eq_nobody {c : C} {k k' : Custody C T} (move : Custody.Move (.synced c) k k') :
    k' = .nobody := by
  generalize eq : Label.synced c = label at move
  cases move with
  | stay _ _ notSynced => exact absurd eq.symm (notSynced c)
  | take _ _ by_ =>
      subst eq
      rcases by_ with eq | eq <;> cases eq
  | synced => rfl
  | _ => cases eq

namespace LockState.In

variable {s s' : LockState C T} {k k' : Custody C T} {c : C} {t : T}

theorem initial : (.initial : LockState C T).In .nobody :=
  ⟨fun c => by simp [LockState.initial, ClientLock.zero, ClientLock.Cached],
    fun c t => by simp [LockState.initial], fun c t who => by simp [LockState.initial]⟩

theorem unique (here : s.In k) (here' : s.In k') : k = k' := by
  cases k with
  | used c t => exact ((here'.used c t).mp ((here.used c t).mpr rfl)).symm
  | syncing who c t => exact ((here'.syncing c t who).mp ((here.syncing c t who).mpr rfl)).symm
  | cached c =>
      rcases (here'.cached c).mp ((here.cached c).mpr (Or.inl rfl)) with eq | ⟨t, eq⟩
      · exact eq.symm
      · have := (here.used c t).mp ((here'.used c t).mpr eq)
        cases this
  | nobody =>
      cases k' with
      | nobody => rfl
      | used c t =>
          have := (here.used c t).mp ((here'.used c t).mpr rfl)
          cases this
      | syncing who c t =>
          have := (here.syncing c t who).mp ((here'.syncing c t who).mpr rfl)
          cases this
      | cached c =>
          rcases (here.cached c).mp ((here'.cached c).mpr (Or.inl rfl)) with eq | ⟨t, eq⟩
          all_goals cases eq

/-- The custody depends on the cached locks, the users and the `sync`s only. -/
theorem transfer (here : s.In k) (cached : ∀ c, (s'.client c).Cached ↔ (s.client c).Cached)
    (used : ∀ c t, s'.pc c t = .holding ↔ s.pc c t = .holding)
    (syncing : ∀ c t who, s'.pc c t = .releasing who .sync ↔ s.pc c t = .releasing who .sync) :
    s'.In k where
  cached c := (cached c).trans (here.cached c)
  used c t := (used c t).trans (here.used c t)
  syncing c t who := (syncing c t who).trans (here.syncing c t who)

variable [DecidableEq C]

theorem setClient {lock : ClientLock T} (here : s.In k)
    (same : lock.Cached ↔ (s.client c).Cached) : (s.setClient c lock).In k := by
  refine here.transfer (fun b => ?_) (fun _ _ => Iff.rfl) (fun _ _ _ => Iff.rfl)
  by_cases eq : b = c
  · subst eq
    rw [setClient_client_self]
    exact same
  · rw [setClient_client_of_ne eq]

variable [DecidableEq T]

/-- A thread moves from a place that the custody does not depend on to another. -/
theorem setPc {pc : Pc C} (here : s.In k)
    (old : s.pc c t ≠ .holding ∧ ∀ who, s.pc c t ≠ .releasing who .sync)
    (new : pc ≠ .holding ∧ ∀ who, pc ≠ .releasing who .sync) : (s.setPc c t pc).In k := by
  refine here.transfer (fun _ => Iff.rfl) (fun b u => ?_) (fun b u who => ?_)
  · rw [setPc_pc_apply]
    split
    next eq =>
        obtain ⟨rfl, rfl⟩ := eq
        exact iff_of_false new.1 old.1
    next ne => rfl
  · rw [setPc_pc_apply]
    split
    next eq =>
        obtain ⟨rfl, rfl⟩ := eq
        exact iff_of_false (new.2 who) (old.2 who)
    next ne => rfl

theorem signalled {result : ClientLock T × Option T} (here : s.In k)
    (same : result.1.Cached ↔ (s.client c).Cached) : (s.signalled c result).In k := by
  obtain ⟨lock, none | u⟩ := result
  · exact here.setClient same
  · refine (here.setClient same).transfer (fun _ => Iff.rfl) (fun b v => ?_) (fun b v who => ?_)
    · rw [signalled_some, setPc_pc_apply]
      split
      next eq =>
          obtain ⟨rfl, rfl⟩ := eq
          exact Pc.signal_eq_holding
      next ne => rfl
    · rw [signalled_some, setPc_pc_apply]
      split
      next eq =>
          obtain ⟨rfl, rfl⟩ := eq
          exact Pc.signal_eq_releasing
      next ne => rfl

end LockState.In

section Moves

variable [LinearOrder C] [DecidableEq T] {s s' : LockState C T} {p p' : Protocol C (C × T)}
  {k k' : Custody C T} {c : C} {t : T}

open LockState

/-- A section of an acquire call that does not end with the lock. -/
theorem LockState.In.acquiring {result : ClientLock T × Outcome} (here : s.In k)
    (old : s.pc c t ≠ .holding ∧ ∀ who, s.pc c t ≠ .releasing who .sync)
    (same : result.1.Cached ↔ (s.client c).Cached) (new : result.2 ≠ .ok) :
    (s.acquiring c t result).In k := by
  refine (here.setClient same).setPc old ?_
  cases outcome : result.2 <;> simp_all [Outcome.pc]

/-- A thread gets the lock that its client has. -/
theorem LockState.In.take {result : ClientLock T × Outcome} (here : s.In k)
    (here' : (s.acquiring c t result).In k') (old : s.pc c t ≠ .holding)
    (cached : (s.client c).Cached) (new : result.2 = .ok) : k = .cached c ∧ k' = .used c t := by
  have holds : (s.acquiring c t result).pc c t = .holding := by
    rw [LockState.acquiring, setPc_pc_apply, if_pos ⟨rfl, rfl⟩, new]
    rfl
  have used := (here'.used c t).mp holds
  refine ⟨?_, used⟩
  rcases (here.cached c).mp cached with eq | ⟨u, eq⟩
  · exact eq
  · have holding := (here.used c u).mpr eq
    have ne : u ≠ t := by rintro rfl; exact old holding
    have still : (s.acquiring c t result).pc c u = .holding := by
      rw [LockState.acquiring, setPc_pc_apply, if_neg (fun eq => ne eq.2)]
      exact holding
    rw [(here'.used c u).mp still] at used
    cases used
    exact absurd rfl ne

/-- The custody after a call of `acquire`. -/
theorem LockState.In.acquire (here : s.In k)
    (here' : (s.acquiring c t ((s.client c).acquire t)).In k') (idle : s.pc c t = .idle) :
    Custody.Move (.acquire c t) k k' := by
  have old : s.pc c t ≠ .holding ∧ ∀ who, s.pc c t ≠ .releasing who .sync := by simp [idle]
  by_cases ok : ((s.client c).acquire t).2 = .ok
  · have cached : (s.client c).Cached := by
      left
      revert ok
      unfold ClientLock.acquire
      split
      · split <;> simp_all [ClientLock.rpcAcquire]
      · simp
    obtain ⟨rfl, rfl⟩ := here.take here' old.1 cached ok
    exact .take c t (Or.inl rfl)
  · have same : ((s.client c).acquire t).1.Cached ↔ (s.client c).Cached := by
      revert ok
      unfold ClientLock.acquire ClientLock.Cached
      split
      · split <;> simp_all [ClientLock.rpcAcquire]
      · simp
    cases (here.acquiring old same ok).unique here'
    exact .stay _ (by simp) (by simp)

/-- The custody after a wait. -/
theorem LockState.In.wake {place : WaitAt} (here : s.In k)
    (here' : (s.acquiring c t ((s.client c).wake place)).In k') (follows : Follows s p)
    (waits : s.pc c t = .waiting place true) : Custody.Move (.client c) k k' := by
  have old : s.pc c t ≠ .holding ∧ ∀ who, s.pc c t ≠ .releasing who .sync := by simp [waits]
  by_cases ok : ((s.client c).wake place).2 = .ok
  · have cached : (s.client c).Cached := by
      revert ok
      unfold ClientLock.wake ClientLock.Cached
      cases place with
      | turn =>
          simp only
          split <;> simp_all [ClientLock.rpcAcquire]
      | released => simp [ClientLock.rpcAcquire]
      | retried =>
          simp only [ClientLock.whileAcquiring]
          split <;> simp
    obtain ⟨rfl, rfl⟩ := here.take here' old.1 cached ok
    exact .take c t (Or.inr rfl)
  · have same : ((s.client c).wake place).1.Cached ↔ (s.client c).Cached := by
      obtain ⟨state, response, rest, record, front, -⟩ := follows.front (c := c) (t := t)
        (by simp [waits]) (by simp [waits])
      rw [waits] at front
      rw [record] at ok ⊢
      generalize p.phase c = phase at front
      generalize (p.handler c).isSome = handled at front
      cases front <;> simp_all [ClientLock.wake, ClientLock.Cached, ClientLock.rpcAcquire,
        ClientLock.whileAcquiring, Pc.status]
    cases (here.acquiring old same ok).unique here'
    exact .stay _ (by simp) (by simp)

/-- The custody after the reply to an acquire call. -/
theorem LockState.In.replied {status : Status} (here : s.In k)
    (here' : (s.acquiring c t ((s.client c).rpcReturned status)).In k') (follows : Follows s p)
    (replies : s.pc c t = .replied status) : Custody.Move (.client c) k k' := by
  have old : s.pc c t ≠ .holding ∧ ∀ who, s.pc c t ≠ .releasing who .sync := by simp [replies]
  have asking := (follows.shape c).of_replied replies
  cases status with
  | OK =>
      have used : k' = .used c t := by
        rw [← here'.used]
        rw [LockState.acquiring, setPc_pc_apply, if_pos ⟨rfl, rfl⟩]
        rfl
      have still : ∀ {b u}, s.pc b u ≠ .replied .OK →
          (s.acquiring c t ((s.client c).rpcReturned .OK)).pc b u = s.pc b u := by
        intro b u ne
        rw [LockState.acquiring, setPc_pc_apply, if_neg]
        · rfl
        · rintro ⟨rfl, rfl⟩
          exact ne replies
      cases k with
      | nobody =>
          subst used
          exact .grant c t
      | cached b =>
          have cached := (here.cached b).mpr (Or.inl rfl)
          have ne : b ≠ c := by
            rintro rfl
            simp [ClientLock.Cached, asking] at cached
          have cached' : ((s.acquiring c t ((s.client c).rpcReturned .OK)).client b).Cached := by
            rw [LockState.acquiring, setPc_client, setClient_client_of_ne ne]
            exact cached
          rcases (here'.cached b).mp cached' with eq | ⟨u, eq⟩ <;> rw [used] at eq <;> cases eq
          exact absurd rfl ne
      | used b u =>
          have holds := (here.used b u).mpr rfl
          have holds' := (still (by simp [holds])).trans holds
          rw [here'.used, used] at holds'
          cases holds'
          rw [holds] at replies
          cases replies
      | syncing who b u =>
          have syncs := (here.syncing b u who).mpr rfl
          have syncs' := (still (by simp [syncs])).trans syncs
          rw [here'.syncing, used] at syncs'
          cases syncs'
  | RETRY =>
      have same : ((s.client c).rpcReturned .RETRY).1.Cached ↔ (s.client c).Cached := by
        unfold ClientLock.rpcReturned ClientLock.whileAcquiring
        simp only
        split <;> rfl
      have notOk : ((s.client c).rpcReturned .RETRY).2 ≠ .ok := by
        unfold ClientLock.rpcReturned ClientLock.whileAcquiring
        simp only
        split <;> simp
      cases (here.acquiring old same notOk).unique here'
      exact .stay _ (by simp) (by simp)

/-- The custody after the first section of `revoke_handler`. -/
theorem LockState.In.revoke {h : C} {status : Status} (here : s.In k)
    (here' : ((s.setClient h (s.client h).revokeHandler.1).setPc c t
      (if (s.client h).revokeHandler.2 then .releasing (.handler h status) .sync
        else .replied status)).In k') (revokes : s.pc c t = .revoking h status) :
    Custody.Move (.client h) k k' := by
  by_cases free : (s.client h).clientState = .free ∧ (s.client h).threadsQueue.length ≤ 1
  · have gives : (s.client h).revokeHandler.2 = true := by simp [ClientLock.revokeHandler, free]
    rw [if_pos gives] at here'
    have syncs : k' = .syncing (.handler h status) c t := by
      rw [← here'.syncing, setPc_pc_apply, if_pos ⟨rfl, rfl⟩]
    rcases (here.cached h).mp (Or.inl free.1) with rfl | ⟨u, rfl⟩
    · subst syncs
      exact .reclaim h status c t
    · have holds := (here.used h u).mpr rfl
      have ne : ¬ (h = c ∧ u = t) := by
        rintro ⟨rfl, rfl⟩
        rw [holds] at revokes
        cases revokes
      have holds' := (here'.used h u).mp (by rw [setPc_pc_apply, if_neg ne]; exact holds)
      rw [syncs] at holds'
      cases holds'
  · have notes :
        (s.client h).revokeHandler = ({ s.client h with serverResponse := .revoke }, false) := by
      simp only [ClientLock.revokeHandler, if_neg free]
    have same : (s.client h).revokeHandler.1.Cached ↔ (s.client h).Cached := by
      rw [notes]
      rfl
    rw [notes, if_neg (by simp)] at here'
    rw [notes] at same
    cases ((here.setClient same).setPc (by simp [revokes]) (by simp)).unique here'
    exact .stay _ (by simp) (by simp)

/-- The custody after a local release. -/
theorem LockState.In.releaseLocal {next : Option T} (here : s.In k)
    (here' : ((s.setPc c t .idle).signalled c ((s.client c).release.1, next)).In k')
    (holds : s.pc c t = .holding) (stays : (s.client c).release.2 = .inr next) :
    Custody.Move (.release c t) k k' := by
  have used := (here.used c t).mp holds
  subst used
  have cached : (s.client c).release.1.Cached := by
    revert stays
    unfold ClientLock.release ClientLock.popFront ClientLock.Cached
    split
    · simp
    · split <;> simp
  have cached' :
      (((s.setPc c t .idle).signalled c ((s.client c).release.1, next)).client c).Cached := by
    cases next <;> simpa using cached
  rcases (here'.cached c).mp cached' with rfl | ⟨u, rfl⟩
  · exact .putBack c t
  · have holding := (here'.used c u).mpr rfl
    have before : (s.setPc c t .idle).pc c u = .holding := by
      cases next with
      | none => exact holding
      | some v =>
          rw [signalled_some, setPc_pc_apply] at holding
          split at holding
          next eq =>
              obtain ⟨-, rfl⟩ := eq
              exact Pc.signal_eq_holding.mp holding
          next ne => exact holding
    rw [setPc_pc_apply] at before
    split at before
    · cases before
    next ne =>
        have eq := (here.used c u).mp before
        cases eq
        exact absurd ⟨rfl, rfl⟩ ne

/-- **Every step moves the custody**, or leaves it. -/
theorem custody_step {label : Label C T} (here : s.In k) (follows : Follows s p) (agreed : Agreed p)
    (step : Step false label s s') : ∃ k', s'.In k' ∧ Custody.Move label k k' := by
  obtain ⟨k', here'⟩ : ∃ k', s'.In k' := by
    obtain ⟨p', rfl | pstep, follows'⟩ := follows_step follows agreed step
    · exact follows'.custody agreed
    · exact follows'.custody (agreed.step pstep)
  refine ⟨k', here', ?_⟩
  -- a place is unique, so a step that leaves the old one true leaves the lock there
  have stay : s'.In k → (∀ c t, label ≠ .release c t) → (∀ c, label ≠ .synced c) →
      Custody.Move label k k' := by
    intro same notRelease notSynced
    cases same.unique here'
    exact .stay _ notRelease notSynced
  -- a client that has told the server of its release has the lock no more
  have late : ∀ {c : C}, p.phase c = .gave → ¬ (s.client c).Cached := by
    intro c gave cached
    obtain ⟨noted, held⟩ := (follows.shape c).of_cached cached
    rw [gave] at held
    cases held
  cases step with
  | acquire idle => exact here.acquire here' idle
  | wake waits wakes =>
      have signalled := wakes.resolve_right (by simp)
      subst signalled
      exact here.wake here' follows waits
  | serverAcquire calls =>
      refine stay ?_ (by simp) (by simp)
      refine LockState.In.setPc (here.transfer (fun _ => Iff.rfl) (fun _ _ => Iff.rfl)
        (fun _ _ _ => Iff.rfl)) (by simp [calls]) ?_
      generalize (s.server.acquire _).2 = answer
      cases answer <;> simp [Answer.pc]
  | readHolding reads holds =>
      exact stay (here.setPc (by simp [reads]) (by simp)) (by simp) (by simp)
  | revoke revokes => exact here.revoke here' revokes
  | @synced _ c t who releases =>
      have syncs := (here.syncing c t who).mp releases
      subst syncs
      suffices k' = .nobody by
        subst this
        exact .synced who c t
      -- threads other than the one whose `sync` ended are where they were
      have back : ∀ {b u}, (s.setPc c t (.releasing who .call)).pc b u ≠ .releasing who .call →
          s.pc b u = (s.setPc c t (.releasing who .call)).pc b u := by
        intro b u ne
        rw [setPc_pc_apply] at ne ⊢
        split at ne
        · exact absurd rfl ne
        · rw [if_neg ‹_›]
      cases k' with
      | nobody => rfl
      | cached b =>
          rcases (here.cached b).mp ((here'.cached b).mpr (Or.inl rfl)) with eq | ⟨u, eq⟩
          all_goals cases eq
      | used b u =>
          have holds := (here'.used b u).mpr rfl
          have holds' := (back (by simp [holds])).trans holds
          rw [here.used] at holds'
          cases holds'
      | syncing who' b u =>
          have syncs := (here'.syncing b u who').mpr rfl
          have syncs' := (back (by simp [syncs])).trans syncs
          rw [here.syncing] at syncs'
          cases syncs'
          rw [setPc_pc_apply, if_pos ⟨rfl, rfl⟩] at syncs
          cases syncs
  | serverRelease releases =>
      refine stay ?_ (by simp) (by simp)
      refine LockState.In.setPc (here.transfer (fun _ => Iff.rfl) (fun _ _ => Iff.rfl)
        (fun _ _ _ => Iff.rfl)) (by simp [releases]) ?_
      cases s.server.release.2 <;> simp
  | @retry _ c t who next retries =>
      refine stay ?_ (by simp) (by simp)
      refine (here.signalled Iff.rfl).setPc ?_ (by simp)
      rw [signalled_pc_of_still (by rw [retries]; rfl), retries]
      simp
  | @revokeDone _ c t holder status done =>
      refine stay ?_ (by simp) (by simp)
      have gave := (follows.calls c t).late holder status .done done (by simp [ReleaseAt.Early])
      refine (here.signalled (iff_of_false ?_ (late gave))).setPc ?_ (by simp)
      · simp [ClientLock.revokeDone, ClientLock.Cached]
      · rw [signalled_pc_of_still (by rw [done]; rfl), done]
        simp
  | replied replies => exact here.replied here' follows replies
  | @release _ c t holds leaves =>
      have used := (here.used c t).mp holds
      subst used
      have syncs : k' = .syncing .thread c t := by
        rw [← here'.syncing, setPc_pc_apply, if_pos ⟨rfl, rfl⟩]
      subst syncs
      exact .leave c t
  | releaseLocal holds stays => exact here.releaseLocal here' holds stays
  | @releaseDone _ c t done =>
      refine stay ?_ (by simp) (by simp)
      obtain ⟨state, response, rest, record, front, -⟩ := follows.front (c := c) (t := t)
        (by simp [done]) (by simp [done])
      rw [done] at front
      have gave : p.phase c = .gave := by
        generalize p.phase c = phase at front ⊢
        generalize (p.handler c).isSome = handled at front
        cases front <;> simp_all [Pc.status]
      refine (here.setPc (by simp [done]) (by simp)).signalled (iff_of_false ?_ (late gave))
      unfold ClientLock.releaseDone ClientLock.popFront ClientLock.Cached
      split <;> simp

namespace ReachLock

/-- **A lock in a reachable state is in one place.** -/
theorem custody_exists (reach : ReachLock false s) : ∃ k, s.In k := by
  obtain ⟨p, follows, agreed⟩ := reach_follows reach
  exact follows.custody agreed

/-- The custody along a run. -/
theorem moves {label : Label C T} (reach : ReachLock false s) (here : s.In k)
    (step : Step false label s s') : ∃ k', s'.In k' ∧ Custody.Move label k k' := by
  obtain ⟨p, follows, agreed⟩ := reach_follows reach
  exact custody_step here follows agreed step

theorem not_noent (reach : ReachLock false s) : s.pc c t ≠ .noent := by
  obtain ⟨p, follows, -⟩ := reach_follows reach
  exact (follows.shape c).not_noent

theorem releasing_of_syncing (reach : ReachLock false s) {who : Releaser C}
    (syncs : s.pc c t = .releasing who .sync) :
    (s.client (who.client c)).clientState = .releasing := by
  obtain ⟨p, follows, -⟩ := reach_follows reach
  exact follows.releasing_of_syncing syncs

/-- No thread uses a lock whose `client_state` is free. -/
theorem cached_of_free (reach : ReachLock false s) (here : s.In k)
    (free : (s.client c).clientState = .free) : k = .cached c := by
  rcases (here.cached c).mp (Or.inl free) with rfl | ⟨t, rfl⟩
  · rfl
  · obtain ⟨p, follows, -⟩ := reach_follows reach
    have locked := ((follows.shape c).of_holding ((here.used c t).mpr rfl)).1
    rw [free] at locked
    cases locked

/-- **While an `OK` is on its way no client has the lock.** -/
theorem nobody_of_replied (reach : ReachLock false s) (here : s.In k)
    (replies : s.pc c t = .replied .OK) : k = .nobody := by
  obtain ⟨p, follows, agreed⟩ := reach_follows reach
  obtain ⟨noted, granted⟩ := (follows.shape c).of_replied_ok replies
  have other : ∀ {b}, (p.phase b).Has → p.phase b = .granted noted := by
    intro b has
    have eq : some b = some c :=
      (agreed.has_iff.mp has).symm.trans (agreed.has_iff.mp (Or.inl ⟨noted, granted⟩))
    cases eq
    exact granted
  have cached : ∀ {b}, ¬ (s.client b).Cached := by
    intro b state
    obtain ⟨noted', held⟩ := (follows.shape b).of_cached state
    have := other (Or.inr (Or.inl ⟨noted', held⟩))
    rw [held] at this
    cases this
  cases k with
  | nobody => rfl
  | cached b => exact absurd ((here.cached b).mpr (Or.inl rfl)) cached
  | used b u => exact absurd ((here.cached b).mpr (Or.inr ⟨u, rfl⟩)) cached
  | syncing who b u =>
      have giving := follows.of_syncing ((here.syncing b u who).mpr rfl)
      have := other (Or.inr (Or.inr giving))
      rw [giving] at this
      cases this

end ReachLock

end Moves

end Yfs.Lock
