import Yfs.Client.ExtentClient
import Yfs.Lock.System

/-!
# Clients, lock server and extent server together

Any number of clients, each with a lock cache and an extent cache, any number of
threads in each, one lock server and one extent server.  A thread runs operations, one
after another; an operation is a program of `Client.Prog`.  The lock steps are those of
`Lock.Step`, the lock of an extent has its id, and what is a single step there, the
`sync` before a release, is run here action by action.

A `Machine` says what the threads may run and how the extent server answers.  It also
has two conditions on steps, `mayStore` and `mayCall`, for results about the runs in
which every access to a cache, or every remote call, meets a condition.

Caches, locks and the server are parts of one state, and a step changes a few of them.  The
small lemmas beside the state say which (`State.setEntry_locks` and the like), and they are the
only thing that proofs use of its definition.

The history is a part of the state, too.  Nothing reads it; it is there so that properties of
whole runs (that a get returned the latest put, that an operation has acted between its
invocation and its return) are properties of states, and proved as invariants.

* a thread that calls `acquire` for a lock that it holds itself waits for ever;
* after `exit` a thread takes no more steps.  The other threads of the process and its
  handlers may go on, or not: a run in which they do not is one of these too.
-/

namespace Yfs.Client

open Storage Lock

variable {C T Op Res σ : Type}

/-- Where a thread is.

While it is in a call of the lock client its program rests, and the lock says where in the call it
is. -/
inductive Thread (Op Res : Type) where
  | idle
  | run (op : Op) (prog : Prog Res)
  | acquiring (op : Op) (lid : ℕ) (next : Prog Res)
  | releasing (op : Op) (lid : ℕ) (next : Prog Res)

/-- What happened, for the record.

Results are recorded with the operation, and gets and puts with their strings; what the locks do
is recorded only as far as programs see it. -/
inductive Event (C T Op Res : Type) where
  | invoked (c : C) (t : T) (op : Op)
  | acquired (c : C) (t : T) (lid : ℕ)
  | called (c : C) (t : T) (req : Request) (reply : Reply)
  | noted (c : C) (t : T) (note : Note)
  | released (c : C) (t : T) (lid : ℕ)
  | returned (c : C) (t : T) (op : Op) (res : Res)
  deriving DecidableEq, Repr

/-- The state of everything.  `sync lid c t` is what is left of the `sync` of the release of `lid`
that thread `t` of client `c` runs, or that runs on its behalf at another client.

Each client has one cache for all its threads, as it has one lock client, and the server is what
the remote calls of all clients see. -/
structure State (C T Op Res σ : Type) where
  locks : ℕ → LockState C T
  cache : C → Cache
  server : σ
  thread : C → T → Thread Op Res
  sync : ℕ → C → T → Prog Unit
  history : List (Event C T Op Res)

/-- The operations, the extent server, and the conditions on steps.

The conditions are those of a result, and are always true for the code as it is; a condition sees
the whole state before the step. -/
structure Machine (C T Op Res σ : Type) where
  prog : Op → Prog Res
  serve : σ → Request → Reply → σ → Prop
  mayInvoke : C → Op → Prop
  mayStore : State C T Op Res σ → C → T → Op → ℕ → Entry → Prop
  mayCall : State C T Op Res σ → Request → Reply → Prop

namespace State

/-- Nothing is cached and nothing runs. -/
def initial (server : σ) : State C T Op Res σ where
  locks := fun _ => .initial
  cache := fun _ _ => none
  server := server
  thread := fun _ _ => .idle
  sync := fun lid _ _ => ExtentClient.sync lid
  history := []

variable (s : State C T Op Res σ)

def record (event : Event C T Op Res) : State C T Op Res σ :=
  { s with history := s.history ++ [event] }

def recordNote (c : C) (t : T) (note : Option Note) : State C T Op Res σ :=
  match note with
  | none => s
  | some note => s.record (.noted c t note)

def setLock (lid : ℕ) (lock : LockState C T) : State C T Op Res σ :=
  { s with locks := Function.update s.locks lid lock }

variable [DecidableEq C] [DecidableEq T]

def setThread (c : C) (t : T) (thread : Thread Op Res) : State C T Op Res σ :=
  { s with thread := fun b u => if b = c ∧ u = t then thread else s.thread b u }

def setEntry (c : C) (eid : ℕ) (entry : Entry) : State C T Op Res σ :=
  { s with cache := fun b e => if b = c ∧ e = eid then entry else s.cache b e }

def setSync (lid : ℕ) (c : C) (t : T) (prog : Prog Unit) : State C T Op Res σ :=
  { s with sync := fun l b u => if l = lid ∧ b = c ∧ u = t then prog else s.sync l b u }

/-- The mutex of a client is not left locked. -/
def MutexFree (c : C) : Prop := ∀ lid t, (s.locks lid).pc c t ≠ .noent

end State

section Steps

variable [LinearOrder C] [DecidableEq T]

open State

/-- One step. -/
inductive Step (m : Machine C T Op Res σ) :
    State C T Op Res σ → State C T Op Res σ → Prop where
  /-- A thread starts an operation. -/
  | invoke {s : State C T Op Res σ} {c : C} {t : T} {op : Op} (idle : s.thread c t = .idle)
      (may : m.mayInvoke c op) :
      Step m s ((s.setThread c t (.run op (m.prog op))).record (.invoked c t op))
  /-- It calls `acquire`. -/
  | acquire {s : State C T Op Res σ} {c : C} {t : T} {op : Op} {lid : ℕ} {next : Prog Res}
      {lock : LockState C T} (here : s.thread c t = .run op (.acquire lid next))
      (step : Lock.Step false (.acquire c t) (s.locks lid) lock) (mutex : s.MutexFree c) :
      Step m s ((s.setLock lid lock).setThread c t (.acquiring op lid next))
  /-- `acquire` returns, with the lock or with the mutex still locked. -/
  | acquired {s : State C T Op Res σ} {c : C} {t : T} {op : Op} {lid : ℕ} {next : Prog Res}
      (here : s.thread c t = .acquiring op lid next)
      (done : (s.locks lid).pc c t = .holding ∨ (s.locks lid).pc c t = .noent) :
      Step m s ((s.setThread c t (.run op next)).record (.acquired c t lid))
  /-- It calls `release`. -/
  | release {s : State C T Op Res σ} {c : C} {t : T} {op : Op} {lid : ℕ} {next : Prog Res}
      {lock : LockState C T} (here : s.thread c t = .run op (.release lid next))
      (step : Lock.Step false (.release c t) (s.locks lid) lock) (mutex : s.MutexFree c) :
      Step m s (((s.setLock lid lock).setThread c t (.releasing op lid next)).record
        (.released c t lid))
  /-- `release` returns. -/
  | released {s : State C T Op Res σ} {c : C} {t : T} {op : Op} {lid : ℕ} {next : Prog Res}
      (here : s.thread c t = .releasing op lid next) (done : (s.locks lid).pc c t = .idle) :
      Step m s (s.setThread c t (.run op next))
  /-- It makes a remote call. -/
  | call {s : State C T Op Res σ} {c : C} {t : T} {op : Op} {req : Request}
      {next : Reply → Prog Res} {reply : Reply} {server : σ}
      (here : s.thread c t = .run op (.call req next))
      (serves : m.serve s.server req reply server) (may : m.mayCall s req reply) :
      Step m s (({ s with server := server }.setThread c t (.run op (next reply))).record
        (.called c t req reply))
  /-- It accesses an entry of its client's cache. -/
  | entry {s : State C T Op Res σ} {c : C} {t : T} {op : Op} {eid : ℕ} {update : Entry → Entry}
      {note : Entry → Option Note} {next : Entry → Prog Res}
      (here : s.thread c t = .run op (.entry eid update note next))
      (may : m.mayStore s c t op eid (update (s.cache c eid))) :
      Step m s (((s.setEntry c eid (update (s.cache c eid))).setThread c t
        (.run op (next (s.cache c eid)))).recordNote c t (note (s.cache c eid)))
  /-- It reads the clock. -/
  | time {s : State C T Op Res σ} {c : C} {t : T} {op : Op} {next : ℕ → Prog Res} {now : ℕ}
      (here : s.thread c t = .run op (.time next)) :
      Step m s (s.setThread c t (.run op (next now)))
  /-- It reads uninitialised memory. -/
  | memory {s : State C T Op Res σ} {c : C} {t : T} {op : Op}
      {next : (ℕ → UInt8) → Prog Res} {bytes : ℕ → UInt8}
      (here : s.thread c t = .run op (.memory next)) :
      Step m s (s.setThread c t (.run op (next bytes)))
  /-- The operation returns. -/
  | returned {s : State C T Op Res σ} {c : C} {t : T} {op : Op} {res : Res}
      (here : s.thread c t = .run op (.ret res)) :
      Step m s ((s.setThread c t .idle).record (.returned c t op res))
  /-- A lock moves on, inside a call. -/
  | lock {s : State C T Op Res σ} {lid : ℕ} {label : Label C T} {lock : LockState C T}
      (step : Lock.Step false label (s.locks lid) lock) (inside : label.caller = none)
      (other : ∀ c, label ≠ .synced c) (mutex : ∀ c, label.mutex = some c → s.MutexFree c) :
      Step m s (s.setLock lid lock)
  /-- The `sync` of a release makes its remote call. -/
  | syncCall {s : State C T Op Res σ} {lid : ℕ} {c : C} {t : T} {who : Releaser C}
      {req : Request} {next : Reply → Prog Unit} {reply : Reply} {server : σ}
      (runs : (s.locks lid).pc c t = .releasing who .sync) (here : s.sync lid c t = .call req next)
      (serves : m.serve s.server req reply server) (may : m.mayCall s req reply) :
      Step m s ({ s with server := server }.setSync lid c t (next reply))
  /-- The `sync` of a release accesses an entry of the releasing client's cache. -/
  | syncEntry {s : State C T Op Res σ} {lid : ℕ} {c : C} {t : T} {who : Releaser C} {eid : ℕ}
      {update : Entry → Entry} {note : Entry → Option Note} {next : Entry → Prog Unit}
      (runs : (s.locks lid).pc c t = .releasing who .sync)
      (here : s.sync lid c t = .entry eid update note next) :
      Step m s ((s.setEntry (who.client c) eid (update (s.cache (who.client c) eid))).setSync
        lid c t (next (s.cache (who.client c) eid)))
  /-- The `sync` of a release returns. -/
  | synced {s : State C T Op Res σ} {lid : ℕ} {c : C} {t : T} {who : Releaser C}
      (runs : (s.locks lid).pc c t = .releasing who .sync) (here : s.sync lid c t = .ret ()) :
      Step m s ((s.setLock lid ((s.locks lid).setPc c t (.releasing who .call))).setSync
        lid c t (ExtentClient.sync lid))

/-- The states of a system that starts with the extent server in a state of `start`. -/
def Reach (m : Machine C T Op Res σ) (start : σ → Prop) : State C T Op Res σ → Prop :=
  Transition.Reachable (fun s => ∃ server, start server ∧ s = .initial server) (Step m)

end Steps

end Yfs.Client
