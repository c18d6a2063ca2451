import Yfs.Client.CacheLocks
import Yfs.Client.Endings

/-!
# What hangs

Without new operations every run comes to an end.  What is left there?  An operation of
`yfs_client` takes one lock at a time, so no two threads wait for each other, and while no process
has called `exit`, whoever still waits, waits for a lock that somebody went away with: a call that
the extent server never answers, or a `symlink` that found its name.

A state from which no step is possible is looked at from the side of a single thread: whatever
it waits for would be a step, unless the server does not answer or the lock does not come back.
A lock comes back unless its holder is itself one of those threads, or has gone with it; since
threads take one lock at a time the argument stops there and does not go round in a circle.

* `OneLock` — a program that takes one lock at a time; `oneLock_prog` has it for every operation.
* `Thread.OneByOne` — the invariant of a thread, with the locks it never gave back.
* `Lost` — a lock that nobody releases any more.
* `operations_end` — every run ends, and where it does threads are idle, or they are not answered,
  or they wait for a lost lock.
-/

namespace Yfs.Client

open Storage Storage.ExtentServer Lock Transition

variable {C T σ : Type} {α β : Type}

/-! ## One lock at a time -/

/-- **A program that takes one lock at a time**, from where it holds `held` on. -/
def OneLock (post : α → Option ℕ → Prop) : Prog α → Option ℕ → Prop
  | .ret a, held => post a held
  | .acquire lid next, held => held = none ∧ OneLock post next (some lid)
  | .release lid next, held => held = some lid ∧ OneLock post next none
  | .call _ next, held => ∀ reply, OneLock post (next reply) held
  | .entry _ _ _ next, held => ∀ entry, OneLock post (next entry) held
  | .time next, held => ∀ now, OneLock post (next now) held
  | .memory next, held => ∀ bytes, OneLock post (next bytes) held
  | .exit, _ => True

namespace OneLock

variable {held : Option ℕ} {lid : ℕ}

/-- The rule of sequences. -/
theorem bind {post : β → Option ℕ → Prop} {p : Prog α} {k : α → Prog β}
    (first : OneLock (fun a held => OneLock post (k a) held) p held) :
    OneLock post (p.bind k) held := by
  induction p generalizing held with
  | ret a => exact first
  | acquire lid next ih => exact ⟨first.1, ih first.2⟩
  | release lid next ih => exact ⟨first.1, ih first.2⟩
  | call req next ih => exact fun reply => ih reply (first reply)
  | entry eid update note next ih => exact fun entry => ih entry (first entry)
  | time next ih => exact fun now => ih now (first now)
  | memory next ih => exact fun bytes => ih bytes (first bytes)
  | exit => trivial

theorem lock {post : β → Option ℕ → Prop} {k : Unit → Prog β}
    (rest : OneLock post (k ()) (some lid)) :
    OneLock post ((Prog.lock lid).bind k) none :=
  ⟨rfl, rest⟩

theorem unlock {post : β → Option ℕ → Prop} {k : Unit → Prog β} (rest : OneLock post (k ()) none) :
    OneLock post ((Prog.unlock lid).bind k) (some lid) :=
  ⟨rfl, rest⟩

theorem memory {post : β → Option ℕ → Prop} {k : (ℕ → UInt8) → Prog β}
    (rest : ∀ bytes, OneLock post (k bytes) held) : OneLock post (Prog.uninitialised.bind k) held :=
  rest

/-! ### The extent client takes no locks -/

theorem get {eid : ℕ} {post : List UInt8 → Option ℕ → Prop} (rest : ∀ buf, post buf held) :
    OneLock post (ExtentClient.get eid) held := by
  intro entry
  dsimp only
  split
  · exact rest _
  · exact fun reply bytes entry => rest _

theorem getattr {eid : ℕ} {post : Attr → Option ℕ → Prop} (rest : ∀ attr, post attr held) :
    OneLock post (ExtentClient.getattr eid) held := by
  intro entry
  dsimp only
  split
  · exact rest _
  · exact fun reply bytes entry => rest _

theorem put {eid : ℕ} {buf : List UInt8} {post : Unit → Option ℕ → Prop} (rest : post () held) :
    OneLock post (ExtentClient.put eid buf) held :=
  fun _ _ _ _ _ => rest

theorem create {type : ℕ} {post : ℕ → Option ℕ → Prop} (rest : ∀ id, post id held) :
    OneLock post (ExtentClient.create type) held :=
  fun _ _ _ _ _ _ => rest _

theorem remove {eid : ℕ} {post : Unit → Option ℕ → Prop} (rest : post () held) :
    OneLock post (ExtentClient.remove eid) held :=
  fun _ _ => rest

/-! ### The operations -/

theorem readdirNoSeria {dir : ℕ} {post : List Dirent → Option ℕ → Prop}
    (rest : ∀ list, post list held) : OneLock post (YfsClient.readdirNoSeria dir) held := by
  refine bind (get fun buf => bind (getattr fun attr => ?_))
  split
  · trivial
  · exact fun stack => rest _

theorem lookupNoSeria {parent : ℕ} {name : List UInt8} {post : Option ℕ → Option ℕ → Prop}
    (rest : ∀ found, post found held) : OneLock post (YfsClient.lookupNoSeria parent name) held :=
  bind (readdirNoSeria fun _ => rest _)

theorem newEntry {name : List UInt8} {inum : ℕ} {post : List UInt8 → Option ℕ → Prop}
    (rest : ∀ record, post record held) : OneLock post (YfsClient.newEntry name inum) held :=
  fun _ => rest _

theorem encodeDir {entries : List Dirent} {post : List UInt8 → Option ℕ → Prop}
    (rest : ∀ buf, post buf held) : OneLock post (YfsClient.encodeDir entries) held := by
  induction entries generalizing post with
  | nil => exact rest []
  | cons ent entries ih => exact memory fun bytes => bind (ih fun buf => rest _)

theorem rmdir {parent : ℕ} {name : List UInt8} {post : YfsStatus → Option ℕ → Prop}
    (rest : ∀ status, post status none) : OneLock post (YfsClient.rmdir parent name) none := by
  refine lock (bind (readdirNoSeria fun entries => ?_))
  split
  · exact unlock (rest _)
  · exact bind (remove (bind (encodeDir fun buf => bind (put (unlock (rest _))))))

theorem attributes {ino : ℕ} {post : Attr → Option ℕ → Prop} (rest : ∀ attr, post attr none) :
    OneLock post (YfsClient.attributes ino) none :=
  lock (bind (getattr fun attr => unlock (rest attr)))

end OneLock

/-- The lock that an operation has not given back when it returns: a `symlink` that finds its name
keeps the lock of the parent. -/
def Op.keeps : Op → Res → Option ℕ
  | .symlink parent _ _, .made .EXIST _ => some parent
  | _, _ => none

/-- **Every operation takes one lock at a time**, and gives it back unless it `keeps` it. -/
theorem oneLock_prog (op : Op) : OneLock (fun res held => held = op.keeps res) op.prog none := by
  cases op with
  | create parent name =>
      refine .bind (.lock (.bind (.lookupNoSeria fun found => ?_)))
      cases found with
      | some ino => exact .unlock rfl
      | none =>
          exact .bind (.create fun ino => .bind (.get fun buf => .bind (.newEntry fun record =>
            .bind (.put (.unlock rfl)))))
  | mkdir parent name =>
      refine .bind (.lock (.bind (.lookupNoSeria fun found => ?_)))
      cases found with
      | some ino => exact .unlock rfl
      | none =>
          exact .bind (.get fun buf => .bind (.create fun ino => .bind (.newEntry fun record =>
            .bind (.put (.unlock rfl)))))
  | symlink parent name link =>
      refine .bind (.lock (.bind (.get fun content => .bind (.lookupNoSeria fun found => ?_))))
      cases found with
      | some ino => rfl
      | none =>
          exact .bind (.create fun ino => .bind (.put (.bind (.newEntry fun record =>
            .bind (.put (.unlock rfl))))))
  | unlink parent name => exact .bind (.rmdir fun status => rfl)
  | rmdir parent name => exact .bind (.rmdir fun status => rfl)
  | lookup parent name => exact .bind (.lock (.bind (.lookupNoSeria fun found => .unlock rfl)))
  | readdir dir => exact .bind (.lock (.bind (.readdirNoSeria fun list => .unlock rfl)))
  | read ino size off =>
      refine .bind (.lock (.bind (.get fun content => .unlock ?_)))
      split_ifs
      · rfl
      · trivial
      · rfl
  | write ino off data =>
      refine .bind (.lock (.bind (.get fun content => ?_)))
      split_ifs
      · trivial
      · exact .bind (.put (.unlock rfl))
      · exact .bind (.put (.unlock rfl))
  | setattr ino size => exact .bind (.lock (.bind (.get fun buf => .bind (.put (.unlock rfl)))))
  | readlink ino => exact .bind (.lock (.bind (.get fun buf => .unlock rfl)))
  | getfile ino => exact .bind (.attributes fun attr => rfl)
  | getdir ino => exact .bind (.attributes fun attr => rfl)
  | isfile ino => exact .bind (.bind (.attributes fun attr => rfl))
  | isdir ino => exact .bind (.bind (.attributes fun attr => rfl))
  | issymlink ino => exact .bind (.bind (.attributes fun attr => rfl))
  | mount => exact .bind (.lock (.bind (.put (.unlock rfl))))

/-! ## The locks of a thread -/

/-- An operation of the thread returned and kept the lock. -/
def KeptBy (history : List (Event C T Op Res)) (c : C) (t : T) (lid : ℕ) : Prop :=
  ∃ op res, .returned c t op res ∈ history ∧ op.keeps res = some lid

/-- A lock that the thread does not use now. -/
def Rests (kept : ℕ → Prop) (pc : ℕ → Pc C) (lid : ℕ) : Prop :=
  kept lid ∧ pc lid = .holding ∨ ¬ kept lid ∧ pc lid = .idle

/-- **What holds of a thread** that has kept the locks `kept`, and is at `pc` at each of them: it
uses one more lock at most, and the rest of its program takes one at a time. -/
def Thread.OneByOne (kept : ℕ → Prop) (pc : ℕ → Pc C) : Thread Op Res → Prop
  | .idle => ∀ lid, Rests kept pc lid
  | .run op prog => ∃ held, OneLock (fun res held => held = op.keeps res) prog held ∧
      (∀ lid, held = some lid → ¬ kept lid ∧ pc lid = .holding) ∧
      ∀ lid, held ≠ some lid → Rests kept pc lid
  | .acquiring op lid next => OneLock (fun res held => held = op.keeps res) next (some lid) ∧
      ¬ kept lid ∧ ∀ l, l ≠ lid → Rests kept pc l
  | .releasing op lid next => OneLock (fun res held => held = op.keeps res) next none ∧
      ¬ kept lid ∧ ∀ l, l ≠ lid → Rests kept pc l

section OneByOne

variable {kept kept' : ℕ → Prop} {pc pc' : ℕ → Pc C} {thread : Thread Op Res}

theorem Rests.mono {lid : ℕ} (rests : Rests kept pc lid) (same : kept lid ↔ kept' lid)
    (holding : pc lid = .holding → pc' lid = .holding) (idle : pc lid = .idle → pc' lid = .idle) :
    Rests kept' pc' lid := by
  rcases rests with ⟨keeps, holds⟩ | ⟨free, out⟩
  · exact Or.inl ⟨same.mp keeps, holding holds⟩
  · exact Or.inr ⟨mt same.mpr free, idle out⟩

/-- What other threads do changes nothing of it. -/
theorem Thread.OneByOne.mono (one : thread.OneByOne kept pc) (same : ∀ lid, kept lid ↔ kept' lid)
    (holding : ∀ lid, pc lid = .holding → pc' lid = .holding)
    (idle : ∀ lid, pc lid = .idle → pc' lid = .idle) : thread.OneByOne kept' pc' := by
  have rest : ∀ lid, Rests kept pc lid → Rests kept' pc' lid :=
    fun lid rests => rests.mono (same lid) (holding lid) (idle lid)
  cases thread with
  | idle => exact fun lid => rest lid (one lid)
  | run op prog =>
      obtain ⟨held, oneLock, uses, others⟩ := one
      refine ⟨held, oneLock, fun lid eq => ?_, fun lid ne => rest lid (others lid ne)⟩
      exact ⟨mt (same lid).mpr (uses lid eq).1, holding lid (uses lid eq).2⟩
  | acquiring op lid next =>
      exact ⟨one.1, mt (same lid).mpr one.2.1, fun l ne => rest l (one.2.2 l ne)⟩
  | releasing op lid next =>
      exact ⟨one.1, mt (same lid).mpr one.2.1, fun l ne => rest l (one.2.2 l ne)⟩

end OneByOne

section Kept

variable {history : List (Event C T Op Res)} {event : Event C T Op Res} {b c : C} {t u : T}
  {lid : ℕ}

theorem kept_snoc (other : ∀ op res, event ≠ .returned c t op res) :
    KeptBy history c t lid ↔ KeptBy (history ++ [event]) c t lid := by
  constructor
  · rintro ⟨op, res, mem, keeps⟩
    exact ⟨op, res, List.mem_append_left _ mem, keeps⟩
  · rintro ⟨op, res, mem, keeps⟩
    rcases List.mem_append.mp mem with old | new
    · exact ⟨op, res, old, keeps⟩
    · exact absurd (List.mem_singleton.mp new).symm (other op res)

theorem kept_returned {op : Op} {res : Res} : KeptBy (history ++ [.returned c t op res]) c t lid ↔
    KeptBy history c t lid ∨ op.keeps res = some lid := by
  constructor
  · rintro ⟨op', res', mem, keeps⟩
    rcases List.mem_append.mp mem with old | new
    · exact Or.inl ⟨op', res', old, keeps⟩
    · cases List.mem_singleton.mp new
      exact Or.inr keeps
  · rintro (⟨op', res', old, keeps⟩ | keeps)
    · exact ⟨op', res', List.mem_append_left _ old, keeps⟩
    · exact ⟨op, res, List.mem_append_right _ (List.mem_singleton.mpr rfl), keeps⟩

end Kept

/-! ## All threads -/

/-- Clients that run any operations, over a server; no step has a condition. -/
def clients (serve : σ → Request → Reply → σ → Prop) : Machine C T Op Res σ where
  prog := Op.prog
  serve := serve
  mayInvoke _ _ := True
  mayStore _ _ _ _ _ _ := True
  mayCall _ _ _ := True

section System

variable [LinearOrder C] [DecidableEq T] {serve : σ → Request → Reply → σ → Prop}
  {start : σ → Prop} {s s' : State C T Op Res σ} {c : C} {t : T}

/-- Every thread uses one lock at a time. -/
def OneByOne (s : State C T Op Res σ) : Prop :=
  ∀ c t, (s.thread c t).OneByOne (KeptBy s.history c t) fun lid => (s.locks lid).pc c t

namespace OneByOne

/-- One thread goes on, and the others stay where they are. -/
theorem goes (inv : OneByOne s) (threads : ∀ b u, ¬ (b = c ∧ u = t) → s'.thread b u = s.thread b u)
    (kept : ∀ b u lid, ¬ (b = c ∧ u = t) → (KeptBy s.history b u lid ↔ KeptBy s'.history b u lid))
    (locks : ∀ b u lid, ¬ (b = c ∧ u = t) →
      ((s.locks lid).pc b u = .holding → (s'.locks lid).pc b u = .holding) ∧
        ((s.locks lid).pc b u = .idle → (s'.locks lid).pc b u = .idle))
    (own : (s'.thread c t).OneByOne (KeptBy s'.history c t) fun lid => (s'.locks lid).pc c t) :
    OneByOne s' := by
  intro b u
  by_cases here : b = c ∧ u = t
  · obtain ⟨rfl, rfl⟩ := here
    exact own
  · rw [threads b u here]
    exact (inv b u).mono (fun lid => kept b u lid here) (fun lid => (locks b u lid here).1)
      fun lid => (locks b u lid here).2

/-- A lock moves on for the threads that make no call of their own. -/
theorem lockMoves {b : C} {u : T} {lid : ℕ} {label : Label C T} {lock : LockState C T}
    (step : Lock.Step false label (s.locks lid) lock)
    (other : label.caller ≠ some (b, u)) (l : ℕ) :
    ((s.locks l).pc b u = .holding → ((s.setLock lid lock).locks l).pc b u = .holding) ∧
      ((s.locks l).pc b u = .idle → ((s.setLock lid lock).locks l).pc b u = .idle) := by
  by_cases here : l = lid
  · subst here
    rw [State.setLock_locks_self]
    refine ⟨holding_of_goes (step.goes other), step.idle ?_⟩
    rintro rfl
    exact other rfl
  · rw [State.setLock_locks_of_ne here]
    exact ⟨id, id⟩

/-- **Every step keeps the invariant.** -/
theorem step (inv : OneByOne s) (placed : Placed s) (step : Step (clients serve) s s') :
    OneByOne s' := by
  -- a step of one thread that moves no lock
  have run : ∀ (c : C) (t : T) (thread : Thread Op Res) {s' : State C T Op Res σ},
      s'.thread = (s.setThread c t thread).thread → s'.locks = s.locks →
      (∀ b u lid, KeptBy s.history b u lid ↔ KeptBy s'.history b u lid) →
      thread.OneByOne (KeptBy s.history c t) (fun lid => (s.locks lid).pc c t) → OneByOne s' := by
    intro c t thread s' threads locks kept own
    refine inv.goes (c := c) (t := t) (fun b u ne => ?_) (fun b u lid _ => kept b u lid)
      (fun b u lid _ => by rw [locks]; exact ⟨id, id⟩) ?_
    · rw [threads, State.setThread_thread_of_ne ne]
    · rw [threads, State.setThread_thread_self, locks]
      exact own.mono (kept c t) (fun _ => id) fun _ => id
  -- a step inside a lock, in the name of nobody
  have locked : ∀ {lid : ℕ} {label : Label C T} {lock : LockState C T},
      Lock.Step false label (s.locks lid) lock → label.caller = none →
        OneByOne (s.setLock lid lock) := by
    intro lid label lock step inside b u
    have moves := lockMoves step (b := b) (u := u) (by simp [inside])
    exact (inv b u).mono (fun _ => Iff.rfl) (fun l => (moves l).1) fun l => (moves l).2
  cases step with
  | @invoke c t op idle may =>
      have own := inv c t
      rw [idle] at own
      exact run c t _ rfl rfl (fun b u lid => kept_snoc (by rintro _ _ ⟨⟩))
        ⟨none, oneLock_prog op, by rintro lid ⟨⟩, fun lid _ => own lid⟩
  | @acquire c t op lid next lock here step mutex =>
      have own := inv c t
      rw [here] at own
      obtain ⟨_, ⟨rfl, oneLock⟩, -, others⟩ := own
      refine inv.goes (c := c) (t := t) (fun b u ne => State.setThread_thread_of_ne ne)
        (fun b u l _ => Iff.rfl)
        (fun b u l ne => lockMoves step (by rintro ⟨⟩; exact ne ⟨rfl, rfl⟩) l) ?_
      rw [State.setThread_thread_self]
      refine ⟨oneLock, ?_, fun l ne => ?_⟩
      · -- a kept lock is held, and is not acquired again
        rcases others lid (by rintro ⟨⟩) with ⟨-, holds⟩ | ⟨free, -⟩
        · cases step.acquire_pc.1.symm.trans holds
        · exact free
      · have same : (s.setLock lid lock).locks l = s.locks l := State.setLock_locks_of_ne ne
        have rests := others l (by rintro ⟨⟩)
        rwa [Rests, ← same] at rests
  | @acquired c t op lid next here done =>
      have own := inv c t
      rw [here] at own
      obtain ⟨oneLock, free, others⟩ := own
      refine run c t _ rfl rfl (fun b u l => kept_snoc (by rintro _ _ ⟨⟩))
        ⟨some lid, oneLock, ?_, fun l ne => others l fun eq => ne (by rw [eq])⟩
      rintro _ ⟨⟩
      exact ⟨free, done.resolve_right (placed.lock lid).not_noent⟩
  | @release c t op lid next lock here step mutex =>
      have own := inv c t
      rw [here] at own
      obtain ⟨_, ⟨rfl, oneLock⟩, uses, others⟩ := own
      refine inv.goes (c := c) (t := t) (fun b u ne => State.setThread_thread_of_ne ne)
        (fun b u l _ => kept_snoc (by rintro _ _ ⟨⟩))
        (fun b u l ne => lockMoves step (by rintro ⟨⟩; exact ne ⟨rfl, rfl⟩) l) ?_
      rw [State.record_thread, State.setThread_thread_self]
      have kept : ∀ l, KeptBy s.history c t l ↔ KeptBy (s.history ++ [.released c t lid]) c t l :=
        fun l => kept_snoc (by rintro _ _ ⟨⟩)
      refine ⟨oneLock, mt (kept lid).mpr (uses lid rfl).1, fun l ne => ?_⟩
      have same : (s.setLock lid lock).locks l = s.locks l := State.setLock_locks_of_ne ne
      have rests := others l (by rintro ⟨⟩; exact ne rfl)
      rw [Rests, kept l, ← same] at rests
      exact rests
  | @released c t op lid next here done =>
      have own := inv c t
      rw [here] at own
      obtain ⟨oneLock, free, others⟩ := own
      refine run c t _ rfl rfl (fun b u l => Iff.rfl) ⟨none, oneLock, by rintro l ⟨⟩, fun l _ => ?_⟩
      by_cases same : l = lid
      · rw [same]
        exact Or.inr ⟨free, done⟩
      · exact others l same
  | @call c t op req next reply server here serves may =>
      have own := inv c t
      rw [here] at own
      obtain ⟨held, oneLock, locks⟩ := own
      exact run c t _ rfl rfl (fun b u l => kept_snoc (by rintro _ _ ⟨⟩))
        ⟨held, oneLock reply, locks⟩
  | @entry c t op eid update note next here may =>
      have own := inv c t
      rw [here] at own
      obtain ⟨held, oneLock, locks⟩ := own
      refine run c t (.run op (next (s.cache c eid)))
        (by rw [State.recordNote_thread]; rfl) (by rw [State.recordNote_locks]; rfl)
        (fun b u l => ?_)
        ⟨held, oneLock _, locks⟩
      cases note (s.cache c eid) with
      | none => exact Iff.rfl
      | some note => exact kept_snoc (by rintro _ _ ⟨⟩)
  | @time c t op next now here =>
      have own := inv c t
      rw [here] at own
      obtain ⟨held, oneLock, locks⟩ := own
      exact run c t _ rfl rfl (fun b u l => Iff.rfl) ⟨held, oneLock now, locks⟩
  | @memory c t op next bytes here =>
      have own := inv c t
      rw [here] at own
      obtain ⟨held, oneLock, locks⟩ := own
      exact run c t _ rfl rfl (fun b u l => Iff.rfl) ⟨held, oneLock bytes, locks⟩
  | @returned c t op res here =>
      have own := inv c t
      rw [here] at own
      obtain ⟨_, rfl, uses, others⟩ := own
      refine inv.goes (c := c) (t := t) (fun b u ne => State.setThread_thread_of_ne ne)
        (fun b u l ne => kept_snoc ?_) (fun b u l _ => ⟨id, id⟩) ?_
      · rintro op res ⟨⟩
        exact ne ⟨rfl, rfl⟩
      · rw [State.record_thread, State.setThread_thread_self]
        intro l
        show Rests (KeptBy (s.history ++ [.returned c t op res]) c t)
          (fun l => (s.locks l).pc c t) l
        rw [Rests, kept_returned]
        -- what the operation held it keeps
        by_cases keeps : op.keeps res = some l
        · exact Or.inl ⟨Or.inr keeps, (uses l keeps).2⟩
        · rcases others l keeps with ⟨kept, holds⟩ | ⟨free, idle⟩
          · exact Or.inl ⟨Or.inl kept, holds⟩
          · exact Or.inr ⟨not_or.mpr ⟨free, keeps⟩, idle⟩
  | lock step inside other mutex => exact locked step inside
  | syncCall runs here serves may => exact inv
  | syncEntry runs here => exact inv
  | synced runs here => exact locked (.synced runs) rfl

end OneByOne

/-- **In every reachable state every thread uses one lock at a time.** -/
theorem Reach.oneByOne (reach : Reach (clients serve) start s) : OneByOne s := by
  have both : Placed s ∧ OneByOne s := by
    refine Reachable.invariant (I := fun s => Placed s ∧ OneByOne s) ?_ ?_ reach
    · rintro s ⟨server, -, rfl⟩
      refine ⟨.initial server, fun c t lid => Or.inr ⟨?_, rfl⟩⟩
      rintro ⟨op, res, mem, -⟩
      cases mem
    · rintro s s' - ⟨placed, inv⟩ step
      exact ⟨placed.step step, inv.step placed step⟩
  exact both.2

/-! ## Syncs -/

/-- What may be left of a `sync`. -/
def Syncing : Prog Unit → Prop
  | .ret _ => True
  | .call _ next => ∀ reply, Syncing (next reply)
  | .entry _ _ _ next => ∀ entry, Syncing (next entry)
  | _ => False

theorem syncing_sync (eid : ℕ) : Syncing (ExtentClient.sync eid) := by
  intro entry
  dsimp only
  split
  · exact fun reply entry => trivial
  · trivial

/-- **In every reachable state it is calls and accesses.** -/
theorem Reach.syncing {m : Machine C T Op Res σ} (reach : Reach m start s) (lid : ℕ) (c : C)
    (t : T) :
    Syncing (s.sync lid c t) := by
  refine Reachable.invariant (I := fun s => ∀ lid c t, Syncing (s.sync lid c t)) ?_ ?_ reach lid c t
  · rintro s ⟨server, -, rfl⟩ lid c t
    exact syncing_sync lid
  · rintro s s' - inv step
    exact step.syncs (P := fun _ => Syncing) syncing_sync (fun _ _ _ reply rest => rest reply)
      (fun _ _ _ _ _ x rest => rest x) inv

/-! ## Where a run is over -/

/-- The extent server does not answer the call that the thread makes. -/
def Unanswered (serve : σ → Request → Reply → σ → Prop) (s : State C T Op Res σ) (c : C) (t : T) :
    Prop :=
  ∃ op req next, s.thread c t = .run op (.call req next) ∧
    ∀ reply server, ¬ serve s.server req reply server

/-- **A lock that nobody releases any more.**

A thread that waits for such a lock waits for ever, and `operations_end` says that nothing else
keeps a thread from coming back, a request of its own without an answer apart. -/
inductive Lost (serve : σ → Request → Reply → σ → Prop) (s : State C T Op Res σ) (lid : ℕ) : Prop
  /-- Its holder is not answered. -/
  | unanswered (c : C) (t : T) (holds : (s.locks lid).pc c t = .holding)
      (silent : Unanswered serve s c t)
  /-- A `symlink` kept it. -/
  | kept (c : C) (t : T) (holds : (s.locks lid).pc c t = .holding) (kept : KeptBy s.history c t lid)
  /-- The extent server does not answer the `sync` of its release. -/
  | unsynced (c : C) (t : T) (who : Releaser C) (req : Request) (next : Reply → Prog Unit)
      (runs : (s.locks lid).pc c t = .releasing who .sync) (here : s.sync lid c t = .call req next)
      (silent : ∀ reply server, ¬ serve s.server req reply server)

/-- The thread acquires the lock, or releases it. -/
inductive Thread.At (lid : ℕ) : Thread Op Res → Prop
  | acquire (op : Op) (next : Prog Res) : At lid (.run op (.acquire lid next))
  | acquiring (op : Op) (next : Prog Res) : At lid (.acquiring op lid next)
  | releasing (op : Op) (next : Prog Res) : At lid (.releasing op lid next)

namespace Stuck

variable (reach : Reach (clients serve) start s)
  (stays : ∀ c t op, s.thread c t ≠ .run op .exit) (stuck : ∀ s', ¬ Continues (clients serve) s s')

include stuck

/-- No step is possible, whatever it records. -/
theorem no_step (events : List (Event C T Op Res)) (history : s'.history = s.history ++ events)
    (quiet : ∀ c t op, .invoked c t op ∉ events) : ¬ Step (clients serve) s s' := by
  refine fun step => stuck s' ⟨step, fun c t op eq => quiet c t op ?_⟩
  rw [List.append_cancel_left (history.symm.trans eq)]
  exact List.mem_singleton.mpr rfl

/-- If there is a step at all, it records something. -/
theorem records (step : Step (clients serve) s s') : s'.history ≠ s.history :=
  fun silent =>
    no_step stuck [] (by rw [silent, List.append_nil]) (fun _ _ _ => List.not_mem_nil) step

include reach stays

/-- A thread in the middle of its program: it is not answered, or it acquires a lock that it
kept. -/
theorem run {op : Op} {prog : Prog Res} (here : s.thread c t = .run op prog) :
    Unanswered serve s c t ∨ ∃ lid next, prog = .acquire lid next ∧ KeptBy s.history c t lid ∧
      (s.locks lid).pc c t = .holding := by
  have mutex : s.MutexFree c := fun lid t => (reach.placed.lock lid).not_noent
  have own := reach.oneByOne c t
  rw [here] at own
  obtain ⟨held, oneLock, uses, others⟩ := own
  -- everything but a call could be done at once, and would be a step
  cases prog with
  | ret res =>
      exact absurd (.returned here) (no_step stuck [.returned c t op res] rfl (by simp))
  | acquire lid next =>
      obtain ⟨rfl, -⟩ := oneLock
      rcases others lid (by rintro ⟨⟩) with ⟨kept, holds⟩ | ⟨-, idle⟩
      · exact Or.inr ⟨lid, next, rfl, kept, holds⟩
      · exact (records stuck (.acquire here (.acquire idle) mutex) rfl).elim
  | release lid next =>
      obtain ⟨rfl, -⟩ := oneLock
      obtain ⟨lock, step⟩ := exists_release (uses lid rfl).2
      exact absurd (.release here step mutex)
        (no_step stuck [.released c t lid] rfl (by simp))
  -- the only step that the server has a say in
  | call req next =>
      refine Or.inl ⟨op, req, next, here, fun reply server serves => ?_⟩
      exact no_step stuck [.called c t req reply] rfl (by simp) (.call here serves trivial)
  | entry eid update note next =>
      refine absurd (.entry here trivial)
        (no_step stuck ((note (s.cache c eid)).map (Event.noted c t)).toList ?_ ?_)
      · cases note (s.cache c eid) <;> simp [State.recordNote]
      · cases note (s.cache c eid) <;> simp
  | time next =>
      have step : Step (clients serve) s (s.setThread c t (.run op (next 0))) := .time here
      exact (records stuck step rfl).elim
  | memory next =>
      have step : Step (clients serve) s (s.setThread c t (.run op (next fun _ => 0))) :=
        .memory here
      exact (records stuck step rfl).elim
  | exit => exact absurd here (stays c t op)

/-- The holder of a lock does not release it. -/
theorem lost_of_holding {lid : ℕ} (holds : (s.locks lid).pc c t = .holding) : Lost serve s lid := by
  by_cases kept : KeptBy s.history c t lid
  · exact .kept c t holds kept
  -- it is in the middle of an operation, in its section
  have used : ¬ Rests (KeptBy s.history c t) (fun l => (s.locks l).pc c t) lid := by
    rintro (⟨kept', -⟩ | ⟨-, idle⟩)
    · exact kept kept'
    · cases holds.symm.trans idle
  have own := reach.oneByOne c t
  cases here : s.thread c t with
  | idle =>
      rw [here] at own
      exact absurd (own lid) used
  | run op prog =>
      rw [here] at own
      obtain ⟨held, oneLock, -, others⟩ := own
      rcases run reach stays stuck here with silent | ⟨l, next, rfl, -⟩
      · exact .unanswered c t holds silent
      · obtain ⟨rfl, -⟩ := oneLock
        exact absurd (others lid (by rintro ⟨⟩)) used
  | acquiring op l next =>
      rw [here] at own
      by_cases same : lid = l
      · subst same
        exact absurd (.acquired here (.inl holds))
          (no_step stuck [.acquired c t lid] rfl (by simp))
      · exact absurd (own.2.2 lid same) used
  | releasing op l next =>
      rw [here] at own
      by_cases same : lid = l
      · subst same
        have agrees := reach.placed.thread c t lid
        simp [here, Thread.call, Agrees, holds, Pc.call, Pc.afterCall] at agrees
      · exact absurd (own.2.2 lid same) used

/-- **A lock in use is lost.** -/
theorem lost_of_busy {lid : ℕ} (busy : (s.locks lid).pc c t ≠ .idle) : Lost serve s lid := by
  have noent : ∀ c, s.MutexFree c := fun c lid t => (reach.placed.lock lid).not_noent
  rcases (reach.placed.lock lid).exists_step busy with
    ⟨b, u, -, holds, -⟩ | ⟨label, lock, inside, step⟩
  · exact lost_of_holding reach stays stuck holds
  · by_cases other : ∀ b, label ≠ .synced b
    · exact (records stuck (.lock step inside other fun b _ => noent b) rfl).elim
    · obtain ⟨b, rfl⟩ := not_forall_not.mp other
      -- the lock waits for a `sync`
      cases step with
      | @synced _ c t who runs =>
          have rest := reach.syncing lid c t
          cases here : s.sync lid c t with
          | ret a =>
              exact (records stuck (.synced runs here) rfl).elim
          | call req next =>
              refine .unsynced c t who req next runs here fun reply server serves => ?_
              exact records stuck (.syncCall runs here serves trivial) rfl
          | entry eid update note next =>
              exact (records stuck (.syncEntry runs here) rfl).elim
          | _ =>
              rw [here] at rest
              exact rest.elim

/-- **Where nothing moves on.** -/
theorem spec (c : C) (t : T) : s.thread c t = .idle ∨ Unanswered serve s c t ∨
    ∃ lid, (s.thread c t).At lid ∧ Lost serve s lid := by
  have agrees := reach.placed.thread c t
  cases here : s.thread c t with
  | idle => exact Or.inl rfl
  | run op prog =>
      refine Or.inr ((run reach stays stuck here).imp_right ?_)
      rintro ⟨lid, next, rfl, kept, holds⟩
      exact ⟨lid, .acquire op next, .kept c t holds kept⟩
  | acquiring op lid next =>
      refine Or.inr (Or.inr ⟨lid, .acquiring op next,
        lost_of_busy reach stays stuck (c := c) (t := t) ?_⟩)
      intro idle
      have agrees := agrees lid
      simp [here, Thread.call, Agrees, idle, Pc.call, Pc.afterCall] at agrees
  | releasing op lid next =>
      refine Or.inr (Or.inr ⟨lid, .releasing op next,
        lost_of_busy reach stays stuck (c := c) (t := t) ?_⟩)
      intro idle
      exact (records stuck (.released here idle) rfl).elim

end Stuck

/-- **Operations end.** Any number of clients run any operations.  From every state that they
reach there is no endless run in which no new operation is invoked, and where such a run cannot go
on, and no process has called `exit`, every thread is idle, or the server does not answer it, or
it waits for a lock that was lost: nobody waits for somebody who waits.

Programs have heights that are ordinals, and steps inside the locks lower a rank.  A state without
a step is then looked at thread by thread. -/
theorem operations_end (reach : Reach (clients serve) start s) :
    Terminates (Continues (clients serve)) s ∧ ∀ n s', Run (Continues (clients serve)) n s s' →
      (∀ s'', ¬ Continues (clients serve) s' s'') → (∀ c t op, s'.thread c t ≠ .run op .exit) →
      ∀ c t, s'.thread c t = .idle ∨ Unanswered serve s' c t ∨
        ∃ lid, (s'.thread c t).At lid ∧ Lost serve s' lid := by
  refine ⟨reach.terminates, fun n s' run stuck stays => ?_⟩
  have reach' : Reach (clients serve) start s' :=
    run.keeps (fun _ _ reach continues => reach.step continues.1) reach
  exact Stuck.spec reach' stays stuck

end System

/-- Client 0 creates a file, and client 1 waits for the directory. -/
theorem operations_end_waiting : ∃ s : State ℕ Unit Op Res FileMap,
    Reach (clients fileServer) (· = initialFiles) s ∧ (s.locks 1).pc 0 () = .holding ∧
      ((s.locks 1).pc 1 ()).call = some .acquire ∧ Terminates (Continues (clients fileServer)) s ∧
      ∀ n s', Run (Continues (clients fileServer)) n s s' →
        (∀ s'', ¬ Continues (clients fileServer) s' s'') →
        (∀ c t op, s'.thread c t ≠ .run op .exit) → ∀ c t, s'.thread c t = .idle ∨
          Unanswered fileServer s' c t ∨
            ∃ lid, (s'.thread c t).At lid ∧ Lost fileServer s' lid := by
  let acts : List (Move ℕ Unit Op) :=
    turn 1 0 () (.create 1 [97]) 2 1 ++ turn 1 1 () (.lookup 1 [97]) 1 0
  have drives : (cacheDriver false).Drives (clients fileServer : Machine ℕ Unit Op Res FileMap) :=
    ⟨rfl, fun _ _ _ _ => handleFiles_serves, fun _ _ _ _ _ _ _ => trivial, fun _ _ _ _ => trivial⟩
  have may : ∀ c t op, .invoke c t op ∈ acts → True := fun _ _ _ _ => trivial
  obtain ⟨s, reach, shows⟩ := Driver.exists_reach drives (· = initialFiles) may rfl
    (P := fun s => (s.locks 1).pc 0 () = .holding ∧ ((s.locks 1).pc 1 ()).call = some .acquire)
    (by decide +kernel)
  obtain ⟨holds, waits⟩ := of_decide_eq_true shows
  exact ⟨s, reach, holds, waits, operations_end reach⟩

end Yfs.Client
