import Yfs.Storage.ExtentServer

/-!
# Programs of a client

The operations of `yfs_client` and the functions of `extent_client` are programs: trees
of the actions that other threads, the lock server and the extent server can see, in
the order in which the source performs them.  One action is

A program is a tree and not a list, because what comes next depends on what an action returns.
It is data: predicates on programs are defined by recursion and checked for the operations once
and for all, and runs of any number of threads are defined over the same trees
(`Client.System`), so what is shown of a program by recursion is available at every step of such
a run.

Actions on an entry carry a note, which is for the history only.  `get` notes what it returned
and `put` what it stored; no action depends on it.

* a call of `lc->acquire` or `lc->release`;
* a remote call to the extent server, with its reply;
* one access to one entry of the extent cache (`extent_client` takes no mutex; what it
  does to an entry between two remote calls is one action);
* a reading of the clock, or of memory that was never initialised;
* `exit(0)`.

An entry is addressed by its id: the object a `cached_file_p` points to is the one that
`cache` has under that id.
-/

namespace Yfs.Client

open Storage

/-- `extent_client::cached_file`, without `type`, which nothing reads. -/
structure CachedFile where
  attr : Attr
  buf : List UInt8
  bufValid : Bool
  attrValid : Bool
  dirty : Bool
  deriving DecidableEq, Repr

/-- `cache[eid]`; `none` is the null pointer. -/
abbrev Entry := Option CachedFile

/-- The extent cache of one client. -/
abbrev Cache := ℕ → Entry

/-- What `get` and `put` of `extent_client` did, for the record: the string that a get
returned, and the string that a put stored. -/
inductive Note where
  | got (eid : ℕ) (buf : List UInt8)
  | put (eid : ℕ) (buf : List UInt8)
  deriving DecidableEq, Repr

/-- The extent a note is about. -/
def Note.eid : Note → ℕ
  | .got eid _ | .put eid _ => eid

/-- A program with results in `α`.

There is no other way for a program to touch what it shares with other threads. -/
inductive Prog (α : Type) where
  | ret (a : α)
  | acquire (lid : ℕ) (next : Prog α)
  | release (lid : ℕ) (next : Prog α)
  | call (req : Request) (next : Reply → Prog α)
  | entry (eid : ℕ) (update : Entry → Entry) (note : Entry → Option Note) (next : Entry → Prog α)
  | time (next : ℕ → Prog α)
  | memory (next : (ℕ → UInt8) → Prog α)
  | exit

namespace Prog

variable {α β : Type}

/-- Sequencing. -/
def bind : Prog α → (α → Prog β) → Prog β
  | .ret a, k => k a
  | .acquire lid next, k => .acquire lid (next.bind k)
  | .release lid next, k => .release lid (next.bind k)
  | .call req next, k => .call req fun reply => (next reply).bind k
  | .entry eid update note next, k => .entry eid update note fun entry => (next entry).bind k
  | .time next, k => .time fun now => (next now).bind k
  | .memory next, k => .memory fun bytes => (next bytes).bind k
  | .exit, _ => .exit

instance : Monad Prog where
  pure := .ret
  bind := bind

/-- The results of a program, renamed. -/
def result (f : α → β) (p : Prog α) : Prog β := p.bind fun a => .ret (f a)

/-! ## Single actions -/

/-- `lc->acquire(lid)`; callers ignore its status. -/
def lock (lid : ℕ) : Prog Unit := .acquire lid (.ret ())

/-- `lc->release(lid)`. -/
def unlock (lid : ℕ) : Prog Unit := .release lid (.ret ())

/-- A remote call to the extent server. -/
def rpc (req : Request) : Prog Reply := .call req .ret

/-- `time(NULL)`. -/
def now : Prog ℕ := .time .ret

/-- The contents of uninitialised memory. -/
def uninitialised : Prog (ℕ → UInt8) := .memory .ret

/-! ## Sequences of actions -/

variable {γ : Type} {a : α} {k : α → Prog β}

@[simp] theorem bind_eq (p : Prog α) (k : α → Prog β) : p >>= k = p.bind k := rfl

@[simp] theorem ret_bind : (ret a).bind k = k a := rfl

@[simp] theorem acquire_bind (lid : ℕ) (next : Prog α) :
    (acquire lid next).bind k = .acquire lid (next.bind k) :=
  rfl

@[simp] theorem release_bind (lid : ℕ) (next : Prog α) :
    (release lid next).bind k = .release lid (next.bind k) :=
  rfl

@[simp] theorem exit_bind : (exit : Prog α).bind k = .exit := rfl

@[simp] theorem lock_bind (lid : ℕ) (k : Unit → Prog β) : (lock lid).bind k = .acquire lid (k ()) :=
  rfl

@[simp] theorem unlock_bind (lid : ℕ) (k : Unit → Prog β) :
    (unlock lid).bind k = .release lid (k ()) :=
  rfl

@[simp] theorem bind_assoc (p : Prog α) (k : α → Prog β) (l : β → Prog γ) :
    (p.bind k).bind l = p.bind fun a => (k a).bind l := by
  induction p with
  | ret a => rfl
  | acquire lid next ih => simp only [bind, ih]
  | release lid next ih => simp only [bind, ih]
  | call req next ih => simp only [bind, ih]
  | entry eid update note next ih => simp only [bind, ih]
  | time next ih => simp only [bind, ih]
  | memory next ih => simp only [bind, ih]
  | exit => rfl

end Prog

end Yfs.Client
