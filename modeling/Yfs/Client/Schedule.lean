import Yfs.Client.Threads

/-!
# Runs by schedule

The steps of the system are deterministic once it is known which thread moves, so a run
can be computed from a list of moves.  A `Driver` has what is left open by a `Machine`:
a server that is a function, and a test that an access or a remote call may be made.

Schedules are used for runs on fixed inputs only, to show that a defect can be reached or that
the hypotheses of a result can be met.  A driver fixes what is open (the clock stands still and
memory is zero), so that the kernel can compute the state that a schedule leads to.

* `Driver.reach` — what a schedule computes is reachable.
-/

namespace Yfs.Client

open Storage Lock

variable {C T Op Res σ : Type} [LinearOrder C] [DecidableEq T]

/-! ## One lock -/

/-- What a thread inside a call of a lock does next, a `sync` apart. -/
def lockMove (s : LockState C T) (c : C) (t : T) : Option (LockState C T) :=
  match s.pc c t with
  | .waiting place true => some (s.acquiring c t ((s.client c).wake place))
  | .calling => some (s.served c t)
  | .readHolding => s.server.clientHolding.map fun holder => s.setPc c t (.revoking holder .RETRY)
  | .revoking holder status =>
      some ((s.setClient holder (s.client holder).revokeHandler.1).setPc c t
        (if (s.client holder).revokeHandler.2 then .releasing (.handler holder status) .sync
          else .replied status))
  | .releasing who .call =>
      some ({ s with server := s.server.release.1 }.setPc c t
        (.releasing who (s.server.release.2.elim .done .retry)))
  | .releasing who (.retry next) =>
      some ((s.signalled next (s.client next).retryHandler).setPc c t (.releasing who .done))
  | .releasing (.handler holder status) .done =>
      some ((s.signalled holder (s.client holder).revokeDone).setPc c t (.replied status))
  | .releasing .thread .done =>
      some ((s.setPc c t .idle).signalled c (s.client c).releaseDone)
  | .replied status => some (s.acquiring c t ((s.client c).rpcReturned status))
  | _ => none

theorem lockMove_step {s s' : LockState C T} {c : C} {t : T} (moves : lockMove s c t = some s') :
    ∃ label, Lock.Step false label s s' ∧ label.caller = none ∧ ∀ c, label ≠ .synced c := by
  unfold lockMove at moves
  split at moves
  next place here =>
      cases moves
      exact ⟨_, .wake here (Or.inl rfl), rfl, by simp⟩
  next here =>
      cases moves
      exact ⟨_, .serverAcquire here, rfl, by simp⟩
  next here =>
      obtain ⟨holder, holds, rfl⟩ := Option.map_eq_some_iff.mp moves
      exact ⟨_, .readHolding here holds, rfl, by simp⟩
  next holder status here =>
      cases moves
      exact ⟨_, .revoke here, rfl, by simp⟩
  next who here =>
      cases moves
      exact ⟨_, .serverRelease here, rfl, by simp⟩
  next who next here =>
      cases moves
      exact ⟨_, .retry here, rfl, by simp⟩
  next holder status here =>
      cases moves
      exact ⟨_, .revokeDone here, rfl, by simp⟩
  next here =>
      cases moves
      exact ⟨_, .releaseDone here, rfl, by simp⟩
  next status here =>
      cases moves
      exact ⟨_, .replied here, rfl, by simp⟩
  next => cases moves

/-! ## The whole system -/

/-- Which thread moves: it starts an operation, goes on with it, or goes on inside a call of
a lock. -/
inductive Move (C T Op : Type) where
  | invoke (c : C) (t : T) (op : Op)
  | go (c : C) (t : T)
  | lock (lid : ℕ) (c : C) (t : T)

/-- A thread runs an operation on its own: it calls `acquire` for lock `lid`, makes `inside`
steps in that call, and then `after` more steps. -/
def turn (lid : ℕ) (c : C) (t : T) (op : Op) (inside after : ℕ) : List (Move C T Op) :=
  .invoke c t op :: .go c t :: (List.replicate inside (.lock lid c t) ++
    List.replicate after (.go c t))

omit [LinearOrder C] [DecidableEq T] in
@[simp] theorem invoke_mem_turn {lid : ℕ} {b c : C} {u t : T} {op' op : Op} {inside after : ℕ} :
    .invoke b u op' ∈ turn lid c t op inside after ↔ b = c ∧ u = t ∧ op' = op := by
  simp [turn, List.mem_replicate]

/-- A machine that can be run: its programs, a server that is a function, and the accesses
and remote calls that may be made. -/
structure Driver (C T Op Res σ : Type) where
  prog : Op → Prog Res
  handle : σ → Request → Option (Reply × σ)
  mayStore : State C T Op Res σ → C → T → Op → ℕ → Entry → Bool
  mayCall : State C T Op Res σ → Request → Reply → Bool

namespace Driver

variable (d : Driver C T Op Res σ) (s : State C T Op Res σ)

/-- A remote call, and how it goes on. -/
def calls (req : Request) (next : Reply → σ → State C T Op Res σ) : Option (State C T Op Res σ) :=
  match d.handle s.server req with
  | some (reply, server) => if d.mayCall s req reply then some (next reply server) else none
  | none => none

/-- A thread goes on with its operation.  The clock stands at 0, and uninitialised memory
holds zeros. -/
def goes (c : C) (t : T) : Option (State C T Op Res σ) :=
  match s.thread c t with
  | .idle => none
  | .acquiring op lid next =>
      if (s.locks lid).pc c t = .holding then
        some ((s.setThread c t (.run op next)).record (.acquired c t lid))
      else none
  | .releasing op lid next =>
      if (s.locks lid).pc c t = .idle then
        some (s.setThread c t (.run op next))
      else none
  | .run op prog =>
      match prog with
      | .ret res => some ((s.setThread c t .idle).record (.returned c t op res))
      | .acquire lid next =>
          if (s.locks lid).pc c t = .idle then
            some ((s.setLock lid ((s.locks lid).acquiring c t
              (((s.locks lid).client c).acquire t))).setThread c t (.acquiring op lid next))
          else none
      | .release lid next =>
          if (s.locks lid).pc c t = .holding then
            match ((s.locks lid).client c).release with
            | (lock, .inl ()) =>
                some (((s.setLock lid (((s.locks lid).setClient c lock).setPc c t
                  (.releasing .thread .sync))).setThread c t (.releasing op lid next)).record
                    (.released c t lid))
            | (lock, .inr front) =>
                some (((s.setLock lid (((s.locks lid).setPc c t .idle).signalled c
                  (lock, front))).setThread c t (.releasing op lid next)).record
                    (.released c t lid))
          else none
      | .call req next => d.calls s req fun reply server =>
          ({ s with server := server }.setThread c t (.run op (next reply))).record
            (.called c t req reply)
      | .entry eid update note next =>
          if d.mayStore s c t op eid (update (s.cache c eid)) then
            some (((s.setEntry c eid (update (s.cache c eid))).setThread c t
              (.run op (next (s.cache c eid)))).recordNote c t (note (s.cache c eid)))
          else none
      | .time next => some (s.setThread c t (.run op (next 0)))
      | .memory next => some (s.setThread c t (.run op (next fun _ => 0)))
      | .exit => none

/-- A thread goes on inside a call of a lock. -/
def lockGoes (lid : ℕ) (c : C) (t : T) : Option (State C T Op Res σ) :=
  match (s.locks lid).pc c t with
  | .releasing who .sync =>
      match s.sync lid c t with
      | .ret () =>
          some ((s.setLock lid ((s.locks lid).setPc c t (.releasing who .call))).setSync
            lid c t (ExtentClient.sync lid))
      | .call req next => d.calls s req fun reply server =>
          { s with server := server }.setSync lid c t (next reply)
      | .entry eid update _ next =>
          some ((s.setEntry (who.client c) eid (update (s.cache (who.client c) eid))).setSync
            lid c t (next (s.cache (who.client c) eid)))
      | _ => none
  | _ => (lockMove (s.locks lid) c t).map (s.setLock lid)

/-- One move. -/
def move : Move C T Op → Option (State C T Op Res σ)
  | .invoke c t op =>
      match s.thread c t with
      | .idle => some ((s.setThread c t (.run op (d.prog op))).record (.invoked c t op))
      | _ => none
  | .go c t => d.goes s c t
  | .lock lid c t => d.lockGoes s lid c t

/-- A schedule. -/
def run : State C T Op Res σ → List (Move C T Op) → Option (State C T Op Res σ)
  | s, [] => some s
  | s, act :: acts => (d.move s act).bind fun s' => run s' acts

/-- The driver makes steps of the machine. -/
structure Drives (m : Machine C T Op Res σ) : Prop where
  prog : m.prog = d.prog
  handle : ∀ x req reply y, d.handle x req = some (reply, y) → m.serve x req reply y
  mayStore : ∀ s c t op eid entry, d.mayStore s c t op eid entry = true →
    m.mayStore s c t op eid entry
  mayCall : ∀ s req reply, d.mayCall s req reply = true → m.mayCall s req reply

variable {d s} {m : Machine C T Op Res σ} {start : σ → Prop} {s' : State C T Op Res σ}

omit [LinearOrder C] [DecidableEq T] in
/-- A remote call of the driver is one that the machine may make. -/
theorem Drives.call (drives : d.Drives m) {req : Request}
    {next : Reply → σ → State C T Op Res σ} (calls : d.calls s req next = some s') :
    ∃ reply server, m.serve s.server req reply server ∧ m.mayCall s req reply ∧
      s' = next reply server := by
  unfold Driver.calls at calls
  split at calls
  next reply server handled =>
      split at calls
      next may =>
          cases calls
          exact ⟨reply, server, drives.handle _ _ _ _ handled, drives.mayCall _ _ _ may, rfl⟩
      next => cases calls
  next => cases calls

/-- A thread that goes on with its operation makes a step of the machine. -/
theorem Drives.goes (drives : d.Drives m) (placed : Placed s) {c : C} {t : T}
    (goes : d.goes s c t = some s') : Step m s s' := by
  -- no thread ever leaves a mutex locked, so the side conditions on it hold
  have mutex : s.MutexFree c := fun lid t => (placed.lock lid).not_noent
  unfold Driver.goes at goes
  split at goes
  next => cases goes
  next op lid next here =>
      split at goes
      next holds =>
          cases goes
          exact .acquired here (Or.inl holds)
      next => cases goes
  next op lid next here =>
      split at goes
      next idle =>
          cases goes
          exact .released here idle
      next => cases goes
  next op prog here =>
      split at goes
      next res =>
          cases goes
          exact .returned here
      next lid next =>
          split at goes
          next idle =>
              cases goes
              exact .acquire here (.acquire idle) mutex
          next => cases goes
      next lid next =>
          split at goes
          next holds =>
              split at goes
              next lock eq =>
                  cases goes
                  have step : Lock.Step false _ _ _ := .release holds (by rw [eq])
                  rw [eq] at step
                  exact .release here step mutex
              next lock front eq =>
                  cases goes
                  have step : Lock.Step false _ _ _ := .releaseLocal holds (by rw [eq])
                  rw [eq] at step
                  exact .release here step mutex
          next => cases goes
      next req next =>
          obtain ⟨reply, server, serves, may, rfl⟩ := drives.call goes
          exact .call here serves may
      next eid update note next =>
          split at goes
          next may =>
              cases goes
              exact .entry here (drives.mayStore _ _ _ _ _ _ may)
          next => cases goes
      next next =>
          cases goes
          exact .time here
      next next =>
          cases goes
          exact .memory here
      next => cases goes

/-- So does a thread that goes on inside a call. -/
theorem Drives.lockGoes (drives : d.Drives m) (placed : Placed s) {lid : ℕ} {c : C} {t : T}
    (goes : d.lockGoes s lid c t = some s') : Step m s s' := by
  unfold Driver.lockGoes at goes
  split at goes
  next who runs =>
      split at goes
      next here =>
          cases goes
          exact .synced runs here
      next req next here =>
          obtain ⟨reply, server, serves, may, rfl⟩ := drives.call goes
          exact .syncCall runs here serves may
      next eid update note next here =>
          cases goes
          exact .syncEntry runs here
      next => cases goes
  next =>
      obtain ⟨lock, moves, rfl⟩ := Option.map_eq_some_iff.mp goes
      obtain ⟨label, step, inside, other⟩ := lockMove_step moves
      exact .lock step inside other fun c _ lid t => (placed.lock lid).not_noent

/-- **A schedule computes a reachable state**, when its operations may be invoked. -/
theorem reach (drives : d.Drives m) {acts : List (Move C T Op)}
    (may : ∀ c t op, .invoke c t op ∈ acts → m.mayInvoke c op) (before : Reach m start s)
    (runs : d.run s acts = some s') : Reach m start s' := by
  induction acts generalizing s with
  | nil =>
      cases runs
      exact before
  | cons act acts ih =>
      obtain ⟨s₁, moves, rest⟩ := Option.bind_eq_some_iff.mp runs
      refine ih (fun c t op mem => may c t op (List.mem_cons_of_mem _ mem)) (before.step ?_) rest
      cases act with
      | invoke c t op =>
          unfold Driver.move at moves
          simp only at moves
          split at moves
          next idle =>
              cases moves
              rw [← drives.prog]
              exact .invoke idle (may c t op List.mem_cons_self)
          next => cases moves
      | go c t => exact drives.goes before.placed moves
      | lock lid c t => exact drives.lockGoes before.placed moves

/-- What a schedule computes from a start of the machine. -/
theorem exists_reach (drives : d.Drives m) (start : σ → Prop) {acts : List (Move C T Op)}
    {server : σ}
    (may : ∀ c t op, .invoke c t op ∈ acts → m.mayInvoke c op) (begins : start server)
    {P : State C T Op Res σ → Bool} (shows : (d.run (.initial server) acts).any P = true) :
    ∃ s, Reach m start s ∧ P s = true := by
  obtain ⟨s, runs, holds⟩ := Option.any_eq_true _ _ |>.mp shows
  exact ⟨s, reach drives may (.init ⟨server, begins, rfl⟩) runs, holds⟩

end Driver

omit [LinearOrder C] [DecidableEq T] in
/-- An event of a history, with what was before it and what came after. -/
theorem eq_take_append_drop {history : List (Event C T Op Res)} {n : ℕ} {event : Event C T Op Res}
    (here : history[n]? = some event) :
    history = history.take n ++ event :: history.drop (n + 1) := by
  obtain ⟨lt, rfl⟩ := List.getElem?_eq_some_iff.mp here
  rw [← List.drop_eq_getElem_cons lt, List.take_append_drop]

/-- The gets and puts of a history, with the clients that made them. -/
def notes (history : List (Event C T Op Res)) : List (C × Note) :=
  history.filterMap fun
    | .noted c _ note => some (c, note)
    | _ => none

/-- The results of a history, with the clients that got them. -/
def results (history : List (Event C T Op Res)) : List (C × Res) :=
  history.filterMap fun
    | .returned c _ _ res => some (c, res)
    | _ => none

end Yfs.Client
