import Yfs.Client.Alone
import Yfs.Client.Directories
import Yfs.Client.Routine

/-!
# The lock discipline of the operations

Each operation of `yfs_client` pairs `acquire` and `release` by hand.  Whatever the extent
calls return, an operation that returns has taken the lock of its inum, used it and given
it back, with one exception: `symlink` keeps the lock when the name exists.

The routines are used and not the programs, because a call may fail here: every status leads to
a path of its own, and the discipline is required of each path.

* `Routine.run` — the path that given answers of the extent client lead to.
* `LockDiscipline` — what is required of the actions of a path.
* `Brackets` — acquire, accesses, release; `brackets_routine` has it for every operation.
* `lock_discipline_iff` — the discipline holds exactly where `symlink` does not find its name,
  and a thread that meets no such case never waits for itself.
-/

namespace Yfs.Client

open Storage

variable {α β : Type}

/-- What a call of the extent client may return, and what the memory held. -/
structure Answer where
  status : ExtentStatus
  buf : List UInt8
  attr : Attr
  id : ℕ
  bytes : ℕ → UInt8

/-- **The path of a routine**: its actions and, unless it ends the process, its result.  The
answers are used up one by one, from number `i` on. -/
def Routine.run (answers : ℕ → Answer) : Routine α → ℕ → List Act × Option α
  | .ret a, _ => ([], some a)
  | .exit, _ => ([], none)
  | .acquire lid next, i => ((next.run answers i).1.cons (.acquire lid), (next.run answers i).2)
  | .release lid next, i => ((next.run answers i).1.cons (.release lid), (next.run answers i).2)
  | .get eid next, i =>
      let rest := (next (answers i).status (answers i).buf).run answers (i + 1)
      (.access eid :: rest.1, rest.2)
  | .getattr eid next, i =>
      let rest := (next (answers i).status (answers i).attr).run answers (i + 1)
      (.access eid :: rest.1, rest.2)
  | .put eid _ next, i =>
      let rest := (next (answers i).status).run answers (i + 1)
      (.access eid :: rest.1, rest.2)
  | .create _ next, i =>
      let rest := (next (answers i).status (answers i).id).run answers (i + 1)
      (.access (answers i).id :: rest.1, rest.2)
  | .remove eid next, i =>
      let rest := (next (answers i).status).run answers (i + 1)
      (.access eid :: rest.1, rest.2)
  | .memory next, i => (next (answers i).bytes).run answers (i + 1)

/-- What an operation does when the extent client answers so. -/
def Op.path (op : Op) (answers : ℕ → Answer) : List Act × Option (Except ℤ Res) :=
  op.routine.run answers 0

/-- The locks that a thread holds after some actions. -/
def locksFrom : List ℕ → List Act → List ℕ
  | held, [] => held
  | held, .acquire lid :: acts => locksFrom (lid :: held) acts
  | held, .release lid :: acts => locksFrom (held.erase lid) acts
  | held, .access _ :: acts => locksFrom held acts
  | held, .call _ :: acts => locksFrom held acts

/-- **The discipline**, for actions that begin with no lock held. -/
structure LockDiscipline (target : ℕ) (acts : List Act) : Prop where
  atMostOne : ∀ before after, acts = before ++ after → (locksFrom [] before).length ≤ 1
  underLock : ∀ before after, acts = before ++ .access target :: after →
    target ∈ locksFrom [] before
  releasedOnce : ∀ lid, .acquire lid ∈ acts →
    acts.count (.acquire lid) = 1 ∧ acts.count (.release lid) = 1
  holdsReleased : ∀ before lid after, acts = before ++ .release lid :: after →
    lid ∈ locksFrom [] before
  nothingHeld : locksFrom [] acts = []

/-- The thread never waits for a lock that it holds. -/
def NeverWaitsForItself (acts : List Act) : Prop :=
  ∀ before lid after, acts = before ++ .acquire lid :: after → lid ∉ locksFrom [] before

/-- The actions of operations one after the other, as far as they return. -/
def sessionActs : List (Op × (ℕ → Answer)) → List Act
  | [] => []
  | (op, answers) :: rest =>
      match op.path answers with
      | (acts, some _) => acts ++ sessionActs rest
      | (acts, none) => acts

/-- `symlink` finds its name in the directory: the string that its second `get` returned has
an entry of that name. -/
def FindsLinkName (op : Op) (answers : ℕ → Answer) : Prop :=
  match op with
  | .symlink _ name _ => (answers 1).status = 0 ∧ (answers 2).attr.type = tDir ∧
      name ∈ (decodeDir (answers 3).bytes (answers 1).buf).map Dirent.name
  | _ => False

/-! ## Brackets -/

/-- Where a routine is: it has not taken the lock yet, it has it, it has given it back. -/
inductive Stage where
  | before
  | inside
  | after

/-- **Acquire, accesses, release**, in this order and only for `target`. -/
def Brackets (answers : ℕ → Answer) (target : ℕ) (post : α → Stage → ℕ → Prop) :
    Routine α → Stage → ℕ → Prop
  | .ret a, stage, i => post a stage i
  | .exit, _, _ => True
  | .acquire lid next, .before, i => lid = target ∧ Brackets answers target post next .inside i
  | .release lid next, .inside, i => lid = target ∧ Brackets answers target post next .after i
  | .get _ next, .inside, i =>
      Brackets answers target post (next (answers i).status (answers i).buf) .inside (i + 1)
  | .getattr _ next, .inside, i =>
      Brackets answers target post (next (answers i).status (answers i).attr) .inside (i + 1)
  | .put _ _ next, .inside, i =>
      Brackets answers target post (next (answers i).status) .inside (i + 1)
  | .create _ next, .inside, i =>
      Brackets answers target post (next (answers i).status (answers i).id) .inside (i + 1)
  | .remove _ next, .inside, i =>
      Brackets answers target post (next (answers i).status) .inside (i + 1)
  | .memory next, stage, i => Brackets answers target post (next (answers i).bytes) stage (i + 1)
  | _, _, _ => False

namespace Brackets

variable {answers : ℕ → Answer} {target : ℕ} {stage : Stage} {i : ℕ}

/-- The rule of sequences. -/
theorem bind {post : β → Stage → ℕ → Prop} {p : Routine α} {k : α → Routine β}
    (first : Brackets answers target (fun a => Brackets answers target post (k a)) p stage i) :
    Brackets answers target post (p.bind k) stage i := by
  induction p generalizing stage i with
  | ret a => exact first
  | exit => trivial
  | acquire lid next ih =>
      cases stage with
      | before => exact ⟨first.1, ih first.2⟩
      | _ => exact first
  | release lid next ih =>
      cases stage with
      | inside => exact ⟨first.1, ih first.2⟩
      | _ => exact first
  | get eid next ih =>
      cases stage with
      | inside => exact ih _ _ first
      | _ => exact first
  | getattr eid next ih =>
      cases stage with
      | inside => exact ih _ _ first
      | _ => exact first
  | put eid buf next ih =>
      cases stage with
      | inside => exact ih _ first
      | _ => exact first
  | create type next ih =>
      cases stage with
      | inside => exact ih _ _ first
      | _ => exact first
  | remove eid next ih =>
      cases stage with
      | inside => exact ih _ first
      | _ => exact first
  | memory next ih => exact ih _ first

/-- An action that is an access. -/
def IsAccess (act : Act) : Prop := ∃ eid, act = .access eid

/-- After the release nothing happens. -/
theorem run_after {post : α → Stage → ℕ → Prop} {p : Routine α}
    (brackets : Brackets answers target post p .after i) : (p.run answers i).1 = [] := by
  induction p generalizing i with
  | ret a => rfl
  | exit => rfl
  | memory next ih => exact ih _ brackets
  | _ => exact brackets.elim

/-- Inside there are accesses, and then the release. -/
theorem run_inside {p : Routine α}
    (brackets : Brackets answers target (fun _ stage _ => stage = .after) p .inside i) :
    ∃ accesses, (∀ act ∈ accesses, IsAccess act) ∧
      ((p.run answers i).1 = accesses ++ [.release target] ∨
        (p.run answers i).2 = none ∧ (p.run answers i).1 = accesses) := by
  have access : ∀ {eid : ℕ} {rest : List Act × Option α} {accesses : List Act},
      (∀ act ∈ accesses, IsAccess act) →
      (rest.1 = accesses ++ [.release target] ∨ rest.2 = none ∧ rest.1 = accesses) →
      ∃ accesses, (∀ act ∈ accesses, IsAccess act) ∧
        (Act.access eid :: rest.1 = accesses ++ [.release target] ∨
          rest.2 = none ∧ Act.access eid :: rest.1 = accesses) := by
    intro eid rest accesses all shape
    refine ⟨.access eid :: accesses, ?_, ?_⟩
    · intro act mem
      rcases List.mem_cons.mp mem with rfl | mem
      · exact ⟨eid, rfl⟩
      · exact all act mem
    · rcases shape with acts | ⟨exits, acts⟩
      · exact Or.inl (by rw [acts, List.cons_append])
      · exact Or.inr ⟨exits, by rw [acts]⟩
  induction p generalizing i with
  | ret a => cases brackets
  | exit => exact ⟨[], by simp, Or.inr ⟨rfl, rfl⟩⟩
  | acquire lid next ih => exact brackets.elim
  | release lid next ih =>
      obtain ⟨rfl, rest⟩ := brackets
      refine ⟨[], by simp, Or.inl ?_⟩
      simp only [Routine.run, rest.run_after, List.nil_append]
  | get eid next ih =>
      obtain ⟨accesses, all, shape⟩ := ih _ _ brackets
      exact access all shape
  | getattr eid next ih =>
      obtain ⟨accesses, all, shape⟩ := ih _ _ brackets
      exact access all shape
  | put eid buf next ih =>
      obtain ⟨accesses, all, shape⟩ := ih _ brackets
      exact access all shape
  | create type next ih =>
      obtain ⟨accesses, all, shape⟩ := ih _ _ brackets
      exact access all shape
  | remove eid next ih =>
      obtain ⟨accesses, all, shape⟩ := ih _ brackets
      exact access all shape
  | memory next ih => exact ih _ brackets

/-- **The path of a routine in brackets.** -/
theorem run_before {p : Routine α}
    (brackets : Brackets answers target (fun _ stage _ => stage = .after) p .before i) :
    ∃ accesses, (∀ act ∈ accesses, IsAccess act) ∧
      ((p.run answers i).1 = .acquire target :: accesses ++ [.release target] ∨
        (p.run answers i).2 = none ∧ ((p.run answers i).1 = [] ∨
          (p.run answers i).1 = .acquire target :: accesses)) := by
  induction p generalizing i with
  | ret a => cases brackets
  | exit => exact ⟨[], by simp, Or.inr ⟨rfl, Or.inl rfl⟩⟩
  | acquire lid next ih =>
      obtain ⟨rfl, rest⟩ := brackets
      obtain ⟨accesses, all, acts | ⟨exits, acts⟩⟩ := rest.run_inside
      · refine ⟨accesses, all, Or.inl ?_⟩
        simp only [Routine.run, acts, List.cons_append]
      · refine ⟨accesses, all, Or.inr ⟨exits, Or.inr ?_⟩⟩
        simp only [Routine.run, acts]
  | memory next ih => exact ih _ brackets
  | _ => exact brackets.elim

/-! ## The operations -/

theorem readdirNoSeria {post : List Dirent → Stage → ℕ → Prop} {dir : ℕ}
    (rest : (answers i).status = 0 → (answers (i + 1)).attr.type = tDir →
      post (decodeDir (answers (i + 2)).bytes (answers i).buf) .inside (i + 3)) :
    Brackets answers target post (Routine.readdirNoSeria dir) .inside i := by
  show Brackets answers target post (if _ then _ else _) .inside (i + 1)
  split
  next => trivial
  next ok =>
      show Brackets answers target post (if _ then _ else _) .inside (i + 2)
      split
      next => trivial
      next directory => exact rest (not_not.mp ok) (not_not.mp directory)

theorem lookupNoSeria {post : Option ℕ → Stage → ℕ → Prop} {parent : ℕ} {name : List UInt8}
    (rest : ∀ found j, post found .inside j) :
    Brackets answers target post (Routine.lookupNoSeria parent name) .inside i :=
  bind (readdirNoSeria fun _ _ => rest _ _)

theorem encodeDir {post : List UInt8 → Stage → ℕ → Prop} {entries : List Dirent}
    (rest : ∀ buf j, post buf .inside j) :
    Brackets answers target post (Routine.encodeDir entries) .inside i := by
  induction entries generalizing i post with
  | nil => exact rest [] i
  | cons ent entries ih => exact bind (ih fun buf j => rest _ j)

theorem rmdir {parent : ℕ} {name : List UInt8} {post : YfsStatus → Stage → ℕ → Prop}
    (rest : ∀ status j, post status .after j) :
    Brackets answers parent post (Routine.rmdir parent name) .before i := by
  refine ⟨rfl, bind (readdirNoSeria fun _ _ => ?_)⟩
  split
  next => exact ⟨rfl, rest _ _⟩
  next ent _ => exact bind (encodeDir fun buf j => ⟨rfl, rest _ _⟩)

theorem attributes {post : Except ℤ Attr → Stage → ℕ → Prop}
    (rest : ∀ r j, post r .after j) :
    Brackets answers target post (Routine.attributes target) .before i :=
  ⟨rfl, rfl, rest _ _⟩

theorem isType {type : ℕ} {post : Bool → Stage → ℕ → Prop} (rest : ∀ r j, post r .after j) :
    Brackets answers target post (Routine.isType type target) .before i := by
  refine ⟨rfl, ?_⟩
  show Brackets answers target post (if _ then _ else _) .inside (i + 1)
  split
  · exact ⟨rfl, rest _ _⟩
  · exact ⟨rfl, rest _ _⟩

end Brackets

/-- **Every operation is in brackets**, unless it is a `symlink` that finds its name. -/
theorem brackets_routine {op : Op} {answers : ℕ → Answer} (fresh : ¬ FindsLinkName op answers) :
    Brackets answers op.target (fun _ stage _ => stage = .after) op.routine .before 0 := by
  cases op with
  | create parent name =>
      refine .bind ⟨rfl, .bind (.lookupNoSeria fun found j => ?_)⟩
      cases found with
      | some ino => exact ⟨rfl, rfl⟩
      | none =>
          show Brackets answers parent _ (if _ then _ else _) .inside (j + 2)
          split
          · exact ⟨rfl, trivial⟩
          · exact ⟨rfl, rfl⟩
  | mkdir parent name =>
      refine .bind ⟨rfl, .bind (.lookupNoSeria fun found j => ?_)⟩
      cases found with
      | some ino => exact ⟨rfl, rfl⟩
      | none =>
          show Brackets answers parent _ (if _ then _ else _) .inside (j + 1)
          split
          · exact ⟨rfl, trivial⟩
          · exact ⟨rfl, rfl⟩
  | symlink parent name link =>
      refine .bind ⟨rfl, .bind (.bind (.readdirNoSeria fun ok directory => ?_))⟩
      -- the name is not found, so `symlink` goes on to its release
      have absent : (decodeDir (answers 3).bytes (answers 1).buf).find?
          (fun ent => ent.name = name) = none := by
        rw [List.find?_eq_none]
        intro ent mem same
        exact fresh ⟨ok, directory, List.mem_map.mpr ⟨ent, mem, of_decide_eq_true same⟩⟩
      simp only [absent, Option.map_none]
      exact ⟨rfl, rfl⟩
  | unlink parent name => exact .bind (.rmdir fun status j => rfl)
  | rmdir parent name => exact .bind (.rmdir fun status j => rfl)
  | lookup parent name => exact .bind ⟨rfl, .bind (.lookupNoSeria fun found j => ⟨rfl, rfl⟩)⟩
  | readdir dir => exact .bind ⟨rfl, .bind (.readdirNoSeria fun _ _ => ⟨rfl, rfl⟩)⟩
  | read ino size off =>
      refine .bind ⟨rfl, rfl, ?_⟩
      show Brackets answers ino _ (if _ then _ else _) .after 1
      split
      · rfl
      · split
        · trivial
        · rfl
  | write ino off data =>
      refine .bind ⟨rfl, ?_⟩
      show Brackets answers ino _ (if _ then _ else _) .inside 1
      split
      · split
        · trivial
        · exact ⟨rfl, rfl⟩
      · exact ⟨rfl, rfl⟩
  | setattr ino size =>
      refine .bind ⟨rfl, ?_⟩
      show Brackets answers ino _ (if _ then _ else _) .inside 1
      split
      · exact ⟨rfl, rfl⟩
      · exact ⟨rfl, rfl⟩
  | readlink ino => exact .bind ⟨rfl, rfl, rfl⟩
  | getfile ino => exact .bind (.attributes fun r j => rfl)
  | getdir ino => exact .bind (.attributes fun r j => rfl)
  | isfile ino => exact .bind (.isType fun r j => rfl)
  | isdir ino => exact .bind (.isType fun r j => rfl)
  | issymlink ino => exact .bind (.isType fun r j => rfl)
  | mount => exact .bind ⟨rfl, rfl, rfl⟩

/-! ## From brackets to the discipline -/

section Discipline

variable {target : ℕ} {accesses : List Act}

theorem locksFrom_append (held : List ℕ) (acts more : List Act) :
    locksFrom held (acts ++ more) = locksFrom (locksFrom held acts) more := by
  induction acts generalizing held with
  | nil => rfl
  | cons act acts ih =>
      cases act with
      | acquire lid => exact ih (lid :: held)
      | release lid => exact ih (held.erase lid)
      | access eid => exact ih held
      | call req => exact ih held

/-- Inside the brackets the lock is held, up to their end. -/
theorem locksFrom_inside (all : ∀ act ∈ accesses, Brackets.IsAccess act) {acts after : List Act}
    (split : accesses ++ [.release target] = acts ++ after) :
    (after = [] ∧ locksFrom [target] acts = []) ∨
      (after ≠ [] ∧ locksFrom [target] acts = [target]) := by
  induction accesses generalizing acts with
  | nil =>
      cases acts with
      | nil => exact Or.inr ⟨by rw [← split.trans (List.nil_append after)]; simp, rfl⟩
      | cons act acts =>
          obtain ⟨rfl, rest⟩ := List.cons.inj split
          obtain ⟨rfl, rfl⟩ := List.append_eq_nil_iff.mp rest.symm
          exact Or.inl ⟨rfl, List.erase_cons_head ..⟩
  | cons access accesses ih =>
      cases acts with
      | nil => exact Or.inr ⟨by rw [← split.trans (List.nil_append after)]; simp, rfl⟩
      | cons act acts =>
          obtain ⟨rfl, rest⟩ := List.cons.inj split
          obtain ⟨eid, rfl⟩ := all access List.mem_cons_self
          have held := ih (fun act mem => all act (List.mem_cons_of_mem _ mem)) rest
          exact held

/-- Nothing is acquired or released among accesses. -/
theorem notMem_accesses (all : ∀ act ∈ accesses, Brackets.IsAccess act) (lid : ℕ) :
    .acquire lid ∉ accesses ∧ .release lid ∉ accesses := by
  constructor
  · intro mem
    obtain ⟨eid, eq⟩ := all _ mem
    cases eq
  · intro mem
    obtain ⟨eid, eq⟩ := all _ mem
    cases eq

/-- **Brackets keep the discipline.** -/
theorem lockDiscipline_of_brackets (all : ∀ act ∈ accesses, Brackets.IsAccess act) :
    LockDiscipline target (.acquire target :: accesses ++ [.release target]) := by
  -- all but the first action come while the lock is held
  have inside : ∀ (act : Act) {before after : List Act}, act ≠ .acquire target →
      .acquire target :: accesses ++ [.release target] = before ++ act :: after →
      locksFrom [] before = [target] := by
    intro act before after other eq
    cases before with
    | nil => exact absurd (List.cons.inj eq).1.symm other
    | cons first before =>
        obtain ⟨rfl, rest⟩ := List.cons.inj eq
        rcases locksFrom_inside all rest with ⟨nothing, -⟩ | ⟨-, held⟩
        · cases nothing
        · exact held
  refine ⟨fun before after eq => ?_, fun before after eq => ?_, fun lid mem => ?_,
    fun before lid after eq => ?_, ?_⟩
  · cases before with
    | nil => exact Nat.zero_le 1
    | cons first before =>
        obtain ⟨rfl, rest⟩ := List.cons.inj eq
        show (locksFrom [target] before).length ≤ 1
        rcases locksFrom_inside all rest with ⟨-, none⟩ | ⟨-, held⟩
        · rw [none]
          exact Nat.zero_le 1
        · rw [held]
          exact Nat.le_refl 1
  · rw [inside (.access target) nofun eq]
    exact List.mem_singleton_self target
  · have same : lid = target := by
      rw [List.cons_append, List.mem_cons, List.mem_append] at mem
      rcases mem with first | mem | last
      · exact Act.acquire.inj first
      · exact absurd mem (notMem_accesses all lid).1
      · cases List.mem_singleton.mp last
    subst same
    obtain ⟨noAcquire, noRelease⟩ := notMem_accesses all lid
    constructor
    · rw [List.cons_append, List.count_cons_self, List.count_append,
        List.count_eq_zero_of_not_mem noAcquire]
      simp
    · rw [List.cons_append, List.count_cons_of_ne (by simp), List.count_append,
        List.count_eq_zero_of_not_mem noRelease]
      simp
  · have last : .release lid ∈ accesses ++ [.release target] := by
      have mem : Act.release lid ∈ .acquire target :: accesses ++ [.release target] := by
        rw [eq]
        simp
      rw [List.cons_append, List.mem_cons] at mem
      exact mem.resolve_left nofun
    rw [inside (.release lid) nofun eq]
    rcases List.mem_append.mp last with mem | mem
    · exact absurd mem (notMem_accesses all lid).2
    · rw [Act.release.inj (List.mem_singleton.mp mem)]
      exact List.mem_singleton_self target
  · rcases locksFrom_inside all (List.append_nil _).symm with ⟨-, none⟩ | ⟨ne, -⟩
    · exact none
    · exact absurd rfl ne

/-- An operation that acquires first, and nothing later, does not wait. -/
theorem neverWaits_cons {tail : List Act} (none : ∀ lid, .acquire lid ∉ tail) :
    NeverWaitsForItself (.acquire target :: tail) := by
  intro before lid after eq
  cases before with
  | nil => exact List.not_mem_nil
  | cons first before =>
      obtain ⟨-, rest⟩ := List.cons.inj eq
      refine absurd ?_ (none lid)
      rw [rest]
      exact List.mem_append_right _ List.mem_cons_self

/-- What goes on after an operation that gave its lock back. -/
theorem NeverWaitsForItself.append {acts more : List Act} (first : NeverWaitsForItself acts)
    (nothingHeld : locksFrom [] acts = []) (second : NeverWaitsForItself more) :
    NeverWaitsForItself (acts ++ more) := by
  intro before lid after eq
  rcases List.append_eq_append_iff.mp eq with ⟨gap, rfl, rest⟩ | ⟨gap, split, rest⟩
  · rw [locksFrom_append, nothingHeld]
    exact second gap lid after rest
  · cases gap with
    | nil =>
        rw [List.append_nil] at split
        rw [← split, nothingHeld]
        exact List.not_mem_nil
    | cons act gap =>
        obtain ⟨rfl, -⟩ := List.cons.inj rest
        exact first before lid gap split

theorem sessionActs_cons (op : Op) (answers : ℕ → Answer) (rest : List (Op × (ℕ → Answer))) :
    sessionActs ((op, answers) :: rest) = (op.path answers).1 ++
      (op.path answers).2.elim [] fun _ => sessionActs rest := by
  rw [sessionActs]
  split
  next acts res eq => rw [eq]; rfl
  next acts eq => rw [eq]; exact (List.append_nil acts).symm

theorem neverWaits_nil : NeverWaitsForItself [] :=
  fun _ _ _ eq => absurd eq (by simp)

/-- A sequence of operations in brackets. -/
theorem neverWaits_session {session : List (Op × (ℕ → Answer))}
    (fresh : ∀ step ∈ session, ¬ FindsLinkName step.1 step.2) :
    NeverWaitsForItself (sessionActs session) := by
  induction session with
  | nil => exact neverWaits_nil
  | cons step rest ih =>
      obtain ⟨op, answers⟩ := step
      have later := ih fun step mem => fresh step (List.mem_cons_of_mem _ mem)
      obtain ⟨accesses, all, shape⟩ :=
        (brackets_routine (fresh _ List.mem_cons_self)).run_before
      have none : ∀ lid, .acquire lid ∉ accesses ++ [.release op.target] := fun lid mem => by
        rcases List.mem_append.mp mem with mem | last
        · exact (notMem_accesses all lid).1 mem
        · cases List.mem_singleton.mp last
      rw [sessionActs_cons]
      change (op.path answers).1 = _ ∨ (op.path answers).2 = _ ∧
        ((op.path answers).1 = _ ∨ (op.path answers).1 = _) at shape
      rcases shape with acts | ⟨exits, acts | acts⟩
      · rw [acts]
        refine .append (neverWaits_cons none) (lockDiscipline_of_brackets all).nothingHeld ?_
        cases (op.path answers).2 with
        | none => exact neverWaits_nil
        | some res => exact later
      · rw [acts, exits]
        exact neverWaits_nil
      · rw [acts, exits]
        exact neverWaits_cons fun lid mem => none lid (List.mem_append_left _ (by simpa using mem))

/-- A `symlink` that finds its name returns with the lock. -/
theorem path_of_findsLinkName {op : Op} {answers : ℕ → Answer} (finds : FindsLinkName op answers) :
    (op.path answers).2 ≠ none ∧ locksFrom [] (op.path answers).1 = [op.target] := by
  cases op with
  | symlink parent name link =>
      obtain ⟨ok, directory, named⟩ := finds
      obtain ⟨ent, mem, rfl⟩ := List.mem_map.mp named
      have found : ((decodeDir (answers 3).bytes (answers 1).buf).find?
          fun other => other.name = ent.name).isSome := by
        rw [List.find?_isSome]
        exact ⟨ent, mem, decide_eq_true rfl⟩
      obtain ⟨first, eq⟩ := Option.isSome_iff_exists.mp found
      simp only [Op.path, Op.routine, Routine.symlink, Routine.lookupNoSeria,
        Routine.readdirNoSeria, Routine.bind, Routine.run, Nat.zero_add, Nat.reduceAdd, ok,
        directory, ne_eq, not_true_eq_false, if_false, eq, Option.map_some]
      exact ⟨by simp, rfl⟩
  | _ => exact finds.elim

/-- **The lock discipline holds on a path exactly when the path is not that of a `symlink` that
finds its name**; and a thread whose operations meet no such case never waits for a lock
that it holds. -/
theorem lock_discipline_iff (op : Op) (answers : ℕ → Answer)
    (session : List (Op × (ℕ → Answer))) :
    (((op.path answers).2 ≠ none → LockDiscipline op.target (op.path answers).1) ↔
      ¬ FindsLinkName op answers) ∧
    ((∀ step ∈ session, ¬ FindsLinkName step.1 step.2) →
      NeverWaitsForItself (sessionActs session)) := by
  refine ⟨⟨fun disciplined finds => ?_, fun fresh returns => ?_⟩, neverWaits_session⟩
  · obtain ⟨returns, held⟩ := path_of_findsLinkName finds
    have nothing := (disciplined returns).nothingHeld
    rw [held] at nothing
    cases nothing
  · obtain ⟨accesses, all, acts | ⟨exits, -⟩⟩ := (brackets_routine fresh).run_before
    · change (op.path answers).1 = _ at acts
      rw [acts]
      exact lockDiscipline_of_brackets all
    · exact absurd exits returns

/-- A directory with one entry, at every call. -/
def oneEntry : ℕ → Answer := fun _ =>
  ⟨0, encodeDirent (fun _ => 0) ⟨[97], 2⟩, ⟨tDir, 0, 0, 0, 0⟩, 3, fun _ => 0⟩

/-- A `symlink` with a new name and a `lookup` after it. -/
theorem lock_discipline_new_link :
    LockDiscipline 1 ((Op.symlink 1 [98] [99]).path oneEntry).1 ∧
      NeverWaitsForItself
        (sessionActs [(.symlink 1 [98] [99], oneEntry), (.lookup 1 [98], oneEntry)]) := by
  have fresh : ¬ FindsLinkName (.symlink 1 [98] [99]) oneEntry := fun finds =>
    absurd finds.2.2 (by decide +kernel)
  obtain ⟨discipline, never⟩ := lock_discipline_iff (.symlink 1 [98] [99]) oneEntry
    [(.symlink 1 [98] [99], oneEntry), (.lookup 1 [98], oneEntry)]
  refine ⟨discipline.mpr fresh ?_, never fun step mem => ?_⟩
  · decide +kernel
  · rcases List.mem_cons.mp mem with rfl | mem
    · exact fresh
    · rw [List.mem_singleton.mp mem]
      exact id

/-- **A `symlink` with a name that exists keeps the lock of the directory**, and the next
operation on the directory waits for it. -/
theorem symlink_keeps_lock :
    ¬ (((Op.symlink 1 [97] [99]).path oneEntry).2 ≠ none →
      LockDiscipline 1 ((Op.symlink 1 [97] [99]).path oneEntry).1) ∧
    ¬ NeverWaitsForItself
      (sessionActs [(.symlink 1 [97] [99], oneEntry), (.lookup 1 [97], oneEntry)]) := by
  have finds : FindsLinkName (.symlink 1 [97] [99]) oneEntry := ⟨rfl, rfl, by decide +kernel⟩
  obtain ⟨returns, held⟩ := path_of_findsLinkName finds
  refine ⟨fun disciplined => ?_, fun never => ?_⟩
  · have nothing := (disciplined returns).nothingHeld
    rw [held] at nothing
    cases nothing
  · have waits := never [.acquire 1, .access 1, .access 1, .access 1] 1
      [.access 1, .access 1, .release 1] (by decide +kernel)
    exact waits (List.mem_singleton_self 1)

end Discipline

end Yfs.Client
