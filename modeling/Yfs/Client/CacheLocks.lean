import Yfs.Client.CacheGuards

/-!
# Cache entries and their locks

Every access of an operation to its own extent is made under the lock of the extent
(`covered_prog`).  `create`, `mkdir` and `symlink` break the rule: they store an entry for
the new inum, whose lock they do not take.

* `Protected` — what the locks are for.
* `caches_protected_by_locks` — while new inums' entries are stored as `UnderLock` says, the
  caches are protected in every reachable state.
* `create_leaves_entry_unprotected` — a run in which `create` does without.
-/

namespace Yfs.Client

open Storage Storage.ExtentServer Lock

variable {C T σ : Type}

/-! ## The clients -/

/-- Clients that run these operations, and store entries when `mayStore` says they may. -/
def cachers (serve : σ → Request → Reply → σ → Prop)
    (mayStore : State C T Op Res σ → C → T → Op → ℕ → Entry → Prop) : Machine C T Op Res σ where
  prog := Op.prog
  serve := serve
  mayInvoke _ op := CacheOp op
  mayStore := mayStore
  mayCall _ _ _ := True

/-- Client `c` has the lock: `client_state` is free or locked, or it is releasing and the
`sync` is not over. -/
def Owns (lock : LockState C T) (c : C) : Prop :=
  (lock.client c).Cached ∨ (lock.client c).clientState = .releasing ∧
    ∃ who b t, who.client b = c ∧ lock.pc b t = .releasing who .sync

/-- **The locks protect the caches.**  A client with a valid or dirty entry has its lock, and no
two clients have one for the same extent.

What a client has is the content: a valid buffer is the latest put, whoever made it, and so is
what every get has returned.  A thread that is about to put to the extent of its operation finds a
valid buffer there, so what it overwrites is the content, and no old copy.

When a client is told that it has the lock, every entry for the extent is quiet, and the server
has the content: what the client fetches is then as good as what the last owner had.

The attributes of an entry are valid only while its buffer is.  What they say is not said here. -/
structure Protected (files : FileMap) (s : State C T Op Res FileMap) : Prop where
  owned : ∀ c eid, ¬ Quiet (s.cache c eid) → Owns (s.locks eid) c
  single : ∀ b c eid, ¬ Quiet (s.cache b eid) → ¬ Quiet (s.cache c eid) → b = c
  current : ∀ c eid, Current (s.content files eid) (s.cache c eid)
  gets : ∀ eid, GetsLatest eid (dataAt eid files) s.history
  overwrites : ∀ c t op update note next buf,
    s.thread c t = .run op (.entry op.target update note next) →
      note (s.cache c op.target) = some (.put op.target buf) → Buffered (s.cache c op.target)
  granted : ∀ c t eid, (s.locks eid).pc c t = .replied .OK →
    (∀ b, Quiet (s.cache b eid)) ∧ dataAt eid s.server = s.content files eid

variable [LinearOrder C] [DecidableEq T]

/-- Every state that is reached under these conditions has the invariant. -/
theorem reach_cacheInv {files : FileMap} {s : State C T Op Res FileMap}
    (reach : Reach (cachers fileServer UnderLock) (· = files) s) : CacheInv files s := by
  refine Transition.Reachable.invariant ?_ (fun s s' _ inv step => ?_) reach
  · rintro s ⟨server, rfl, rfl⟩
    exact .initial server
  · exact inv.step (fun _ _ may => covered_prog may) (fun _ _ _ _ serves => serves)
      (fun _ _ _ _ _ _ may => may) step

/-- **Cache entries are protected by locks**, in every run in which new inums' entries are stored
as `UnderLock` says.

`Guarded` has the part about each extent, and the part about reads comes from the history.  The
server is faithful and has `files` at first, when no client has anything cached. -/
theorem caches_protected_by_locks {files : FileMap} {s : State C T Op Res FileMap}
    (reach : Reach (cachers fileServer UnderLock) (· = files) s) : Protected files s := by
  have inv := reach_cacheInv reach
  refine ⟨fun c eid valid => ?_, fun b c eid validB validC => ?_, fun c eid => ?_, inv.told.gets,
    fun c t op update note next buf here puts => ?_, fun c t eid replies => ?_⟩
  · obtain ⟨k, guarded⟩ := inv.guarded eid
    have keeper := guarded.keeper valid
    cases k with
    | nobody => cases keeper
    | cached b =>
        cases keeper
        exact Or.inl ((guarded.custody.cached c).mpr (Or.inl rfl))
    | used b t =>
        cases keeper
        exact Or.inl ((guarded.custody.cached c).mpr (Or.inr ⟨t, rfl⟩))
    | syncing who b t =>
        have syncs := (guarded.custody.syncing b t who).mpr rfl
        cases keeper
        exact Or.inr ⟨(inv.placed.lock eid).releasing_of_syncing syncs, who, b, t, rfl, syncs⟩
  · obtain ⟨k, guarded⟩ := inv.guarded eid
    have keeper := (guarded.keeper validB).symm.trans (guarded.keeper validC)
    exact Option.some_injective _ keeper
  · obtain ⟨k, guarded⟩ := inv.guarded eid
    exact guarded.current c
  · have covers := inv.threads c t
    rw [here] at covers
    obtain ⟨place, ⟨own, -⟩, inside, known, -⟩ := covers
    obtain ⟨within, accesses⟩ := own rfl
    obtain ⟨k, guarded⟩ := inv.guarded op.target
    obtain rfl := (guarded.custody.used c t).mp (inside within)
    obtain ⟨place', -, access⟩ := accesses _ _ _ (guarded.coherent c (Or.inr ⟨t, rfl⟩)) known
    exact access.puts buf puts
  · obtain ⟨k, guarded⟩ := inv.guarded eid
    obtain rfl := (inv.placed.lock eid).nobody_of_replied guarded.custody replies
    exact ⟨fun b => guarded.quiet b nofun, guarded.settled rfl⟩

/-! ### Two runs -/

/-- Clients, run by a schedule; with `own` they store entries only as `UnderLock` says. -/
def cacheDriver (own : Bool) : Driver ℕ T Op Res FileMap where
  prog := Op.prog
  handle := handleFiles
  mayStore s c t op eid entry := !own || decide (UnderLock s c t op eid entry)
  mayCall _ _ _ := true

/-- Client 0 makes a link, and another thread of it reads the new inum between the reply of the
server and the store of the empty entry: so the client has the lock when it stores.  Then client 1
appends to what the link was set to, and client 0 reads both. -/
theorem caches_protected_shared : ∃ s : State ℕ ℕ Op Res FileMap,
    Reach (cachers fileServer UnderLock) (· = initialFiles) s ∧
      results s.history =
        [(0, .data []), (0, .made .OK 2), (1, .written 1), (0, .data [99, 120])] ∧
      Protected initialFiles s := by
  let acts : List (Move ℕ ℕ Op) :=
    turn 1 0 0 (.symlink 1 [97] [99]) 2 13 ++ turn 2 0 1 (.read 2 1 0) 2 8 ++
      List.replicate 15 (.go 0 0) ++ turn 2 1 0 (.write 2 1 [120]) 13 13 ++
      turn 2 0 0 (.read 2 2 0) 13 8
  have drives : (cacheDriver true).Drives
      (cachers fileServer UnderLock : Machine ℕ ℕ Op Res FileMap) := by
    refine ⟨rfl, fun _ _ _ _ => handleFiles_serves, fun s c t op eid entry may => ?_,
      fun _ _ _ _ => trivial⟩
    simp only [cacheDriver, Bool.not_true, Bool.false_or, decide_eq_true_eq] at may
    exact may
  have may : ∀ c t op, .invoke c t op ∈ acts → CacheOp op := by
    intro c t op mem
    simp only [acts, List.mem_append, invoke_mem_turn, List.mem_replicate] at mem
    rcases mem with (((⟨-, -, rfl⟩ | ⟨-, -, rfl⟩) | ⟨-, ⟨⟩⟩) | ⟨-, -, rfl⟩) | ⟨-, -, rfl⟩
    all_goals trivial
  obtain ⟨s, reach, shows⟩ := Driver.exists_reach drives (· = initialFiles) may rfl
    (P := fun s => results s.history =
      [(0, .data []), (0, .made .OK 2), (1, .written 1), (0, .data [99, 120])]) (by decide +kernel)
  exact ⟨s, reach, of_decide_eq_true shows, caches_protected_by_locks reach⟩

/-- **`create` leaves an entry without its lock.**  Client 0 creates a file, and client 1 writes
to it: both have valid entries, and that of client 0 is stale. -/
theorem create_leaves_entry_unprotected : ∃ s : State ℕ Unit Op Res FileMap,
    Reach (cachers fileServer fun _ _ _ _ _ _ => True) (· = initialFiles) s ∧
      results s.history = [(0, .made .OK 2), (1, .written 1)] ∧
      ¬ Quiet (s.cache 0 2) ∧ ¬ Quiet (s.cache 1 2) ∧ ¬ Owns (s.locks 2) 0 ∧
      ¬ Current (s.content initialFiles 2) (s.cache 0 2) ∧ ¬ Protected initialFiles s := by
  let acts : List (Move ℕ Unit Op) :=
    turn 1 0 () (.create 1 [97]) 2 23 ++ turn 2 1 () (.write 2 0 [120]) 2 13
  have drives : (cacheDriver false).Drives
      (cachers fileServer fun _ _ _ _ _ _ => True : Machine ℕ Unit Op Res FileMap) :=
    ⟨rfl, fun _ _ _ _ => handleFiles_serves, fun _ _ _ _ _ _ _ => trivial, fun _ _ _ _ => trivial⟩
  have may : ∀ c t op, .invoke c t op ∈ acts → CacheOp op := by
    intro c t op mem
    simp only [acts, List.mem_append, invoke_mem_turn] at mem
    rcases mem with ⟨-, -, rfl⟩ | ⟨-, -, rfl⟩ <;> trivial
  obtain ⟨s, reach, shows⟩ := Driver.exists_reach drives (· = initialFiles) may rfl
    (P := fun s => results s.history = [(0, .made .OK 2), (1, .written 1)] ∧
      (s.cache 0 2).any (fun file => file.bufValid && file.buf != s.content initialFiles 2) ∧
      (s.cache 1 2).any CachedFile.bufValid ∧ ((s.locks 2).client 0).clientState = .none)
    (by decide +kernel)
  obtain ⟨results, zero, one, unowned⟩ := of_decide_eq_true shows
  have valid : ∀ {file : CachedFile}, file.bufValid = true → ¬ Quiet (some file) := by
    intro file valid still
    rw [(still file rfl).1] at valid
    cases valid
  obtain ⟨old, found, stale⟩ := Option.any_eq_true _ _ |>.mp zero
  obtain ⟨new, found', valid'⟩ := Option.any_eq_true _ _ |>.mp one
  rw [Bool.and_eq_true, bne_iff_ne] at stale
  have notCurrent : ¬ Current (s.content initialFiles 2) (s.cache 0 2) :=
    fun current => stale.2 ((current old found).1 stale.1)
  have notOwned : ¬ Owns (s.locks 2) 0 := by
    rintro ((free | locked) | ⟨releasing, -⟩)
    · rw [unowned] at free
      cases free
    · rw [unowned] at locked
      cases locked
    · rw [unowned] at releasing
      cases releasing
  refine ⟨s, reach, results, ?_, ?_, notOwned, notCurrent,
    fun kept => notCurrent (kept.current 0 2)⟩
  · rw [found]
    exact valid stale.1
  · rw [found']
    exact valid valid'

end Yfs.Client
