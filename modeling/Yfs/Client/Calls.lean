import Yfs.Client.LockDiscipline

/-!
# The calls of an operation

`Routine.run` has the locks that an operation takes and the extents it touches.  This file
keeps the extent calls themselves: what was put where, and what each call returned.

The answers of the calls are numbered and given in advance, so a routine and its answers
determine one path; quantifying over the answers is quantifying over everything that the extent
server and the network may do.

* `Call` — one call of the extent client with its answer.
* `Routine.calls` — the calls that given answers lead to, with the rules for the parts of a
  routine; `calls_bind` is the one for sequences.
* `calls_readdirNoSeria`, `calls_encodeDir` — the parts that the operations on directories
  share; `Listed` says when the first of them goes on.
-/

namespace Yfs.Client

open Storage

variable {α β : Type}

/-- A call of the extent client, with what it returned. -/
inductive Call where
  | get (eid : ℕ) (status : ExtentStatus) (buf : List UInt8)
  | getattr (eid : ℕ) (status : ExtentStatus) (attr : Attr)
  | put (eid : ℕ) (buf : List UInt8) (status : ExtentStatus)
  | create (type : ℕ) (status : ExtentStatus) (id : ℕ)
  | remove (eid : ℕ) (status : ExtentStatus)
  deriving DecidableEq, Repr

/-- Calls, and how the routine that made them ended: its result and the number of the next
answer, or `none` when it ended the process. -/
abbrev CallTrace (α : Type) := List Call × Option (α × ℕ)

namespace CallTrace

/-- One more call in front. -/
def cons (call : Call) (t : CallTrace α) : CallTrace α := (call :: t.1, t.2)

/-- What follows after the result. -/
def andThen (t : CallTrace α) (k : α → ℕ → CallTrace β) : CallTrace β :=
  match t.2 with
  | some (a, i) => (t.1 ++ (k a i).1, (k a i).2)
  | none => (t.1, none)

/-- The result of the routine, unless it ended the process. -/
def result (t : CallTrace α) : Option α := t.2.map Prod.fst

@[simp] theorem cons_fst (call : Call) (t : CallTrace α) : (t.cons call).1 = call :: t.1 := rfl
@[simp] theorem cons_snd (call : Call) (t : CallTrace α) : (t.cons call).2 = t.2 := rfl
@[simp] theorem cons_result (call : Call) (t : CallTrace α) : (t.cons call).result = t.result := rfl

theorem andThen_some (calls : List Call) (a : α) (i : ℕ) (k : α → ℕ → CallTrace β) :
    andThen (calls, some (a, i)) k = (calls ++ (k a i).1, (k a i).2) := rfl

theorem andThen_none (calls : List Call) (k : α → ℕ → CallTrace β) :
    andThen (calls, none) k = (calls, none) := rfl

theorem cons_andThen (call : Call) (t : CallTrace α) (k : α → ℕ → CallTrace β) :
    (t.cons call).andThen k = (t.andThen k).cons call := by
  obtain ⟨calls, _ | ⟨a, i⟩⟩ := t
  · rfl
  · rfl

theorem andThen_assoc {γ : Type} (t : CallTrace α) (k : α → ℕ → CallTrace β)
    (l : β → ℕ → CallTrace γ) :
    (t.andThen k).andThen l = t.andThen fun a i => (k a i).andThen l := by
  obtain ⟨calls, _ | ⟨a, i⟩⟩ := t
  · rfl
  · rw [andThen_some, andThen_some]
    obtain ⟨more, _ | ⟨b, j⟩⟩ := k a i
    · rfl
    · rw [andThen_some, andThen_some, List.append_assoc]

end CallTrace

namespace Routine

/-- **The calls of a routine**; the answers are used up one by one, from number `i` on. -/
def calls (answers : ℕ → Answer) : Routine α → ℕ → CallTrace α
  | .ret a, i => ([], some (a, i))
  | .exit, _ => ([], none)
  | .acquire _ next, i => next.calls answers i
  | .release _ next, i => next.calls answers i
  | .get eid next, i => ((next (answers i).status (answers i).buf).calls answers (i + 1)).cons
      (.get eid (answers i).status (answers i).buf)
  | .getattr eid next, i => ((next (answers i).status (answers i).attr).calls answers (i + 1)).cons
      (.getattr eid (answers i).status (answers i).attr)
  | .put eid buf next, i => ((next (answers i).status).calls answers (i + 1)).cons
      (.put eid buf (answers i).status)
  | .create type next, i => ((next (answers i).status (answers i).id).calls answers (i + 1)).cons
      (.create type (answers i).status (answers i).id)
  | .remove eid next, i => ((next (answers i).status).calls answers (i + 1)).cons
      (.remove eid (answers i).status)
  | .memory next, i => (next (answers i).bytes).calls answers (i + 1)

variable (answers : ℕ → Answer) (i : ℕ)

theorem calls_ret (a : α) : (ret a).calls answers i = ([], some (a, i)) := rfl

theorem calls_exit : (exit : Routine α).calls answers i = ([], none) := rfl

theorem calls_acquire (lid : ℕ) (next : Routine α) :
    (acquire lid next).calls answers i = next.calls answers i := rfl

theorem calls_release (lid : ℕ) (next : Routine α) :
    (release lid next).calls answers i = next.calls answers i := rfl

theorem calls_get (eid : ℕ) (next : ExtentStatus → List UInt8 → Routine α) :
    (get eid next).calls answers i =
      ((next (answers i).status (answers i).buf).calls answers (i + 1)).cons
        (.get eid (answers i).status (answers i).buf) := rfl

theorem calls_getattr (eid : ℕ) (next : ExtentStatus → Attr → Routine α) :
    (getattr eid next).calls answers i =
      ((next (answers i).status (answers i).attr).calls answers (i + 1)).cons
        (.getattr eid (answers i).status (answers i).attr) := rfl

theorem calls_put (eid : ℕ) (buf : List UInt8) (next : ExtentStatus → Routine α) :
    (put eid buf next).calls answers i =
      ((next (answers i).status).calls answers (i + 1)).cons
        (.put eid buf (answers i).status) := rfl

theorem calls_create (type : ℕ) (next : ExtentStatus → ℕ → Routine α) :
    (create type next).calls answers i =
      ((next (answers i).status (answers i).id).calls answers (i + 1)).cons
        (.create type (answers i).status (answers i).id) := rfl

theorem calls_remove (eid : ℕ) (next : ExtentStatus → Routine α) :
    (remove eid next).calls answers i =
      ((next (answers i).status).calls answers (i + 1)).cons
        (.remove eid (answers i).status) := rfl

theorem calls_memory (next : (ℕ → UInt8) → Routine α) :
    (memory next).calls answers i = (next (answers i).bytes).calls answers (i + 1) := rfl

/-- **The rule of sequences.** -/
theorem calls_bind (p : Routine α) (k : α → Routine β) :
    (p.bind k).calls answers i =
      (p.calls answers i).andThen fun a j => (k a).calls answers j := by
  induction p generalizing i with
  | ret a => rfl
  | exit => rfl
  | acquire lid next ih => exact ih i
  | release lid next ih => exact ih i
  | get eid next ih =>
      rw [calls_get, CallTrace.cons_andThen, ← ih]
      rfl
  | getattr eid next ih =>
      rw [calls_getattr, CallTrace.cons_andThen, ← ih]
      rfl
  | put eid buf next ih =>
      rw [calls_put, CallTrace.cons_andThen, ← ih]
      rfl
  | create type next ih =>
      rw [calls_create, CallTrace.cons_andThen, ← ih]
      rfl
  | remove eid next ih =>
      rw [calls_remove, CallTrace.cons_andThen, ← ih]
      rfl
  | memory next ih => exact ih _ (i + 1)

/-! ## The parts of the operations on directories -/

/-- `readdir_no_seria` goes on only with a string that `get` returned for a directory. -/
theorem calls_readdirNoSeria (dir : ℕ) :
    (readdirNoSeria dir).calls answers i =
      if (answers i).status ≠ 0 then ([.get dir (answers i).status (answers i).buf], none)
      else
        ([.get dir (answers i).status (answers i).buf,
            .getattr dir (answers (i + 1)).status (answers (i + 1)).attr],
          if (answers (i + 1)).attr.type ≠ tDir then none
          else some (decodeDir (answers (i + 2)).bytes (answers i).buf, i + 3)) := by
  rw [readdirNoSeria, calls_get]
  split
  next => rfl
  next =>
    rw [calls_getattr]
    split
    next => rfl
    next => rfl

/-- `readdir_no_seria` goes on: the string was got, and it is that of a directory. -/
def Listed (answers : ℕ → Answer) (i : ℕ) : Prop :=
  (answers i).status = 0 ∧ (answers (i + 1)).attr.type = tDir

/-- The entries that it decodes. -/
def listedAt (answers : ℕ → Answer) (i : ℕ) : List Dirent :=
  decodeDir (answers (i + 2)).bytes (answers i).buf

/-- The calls that it makes. -/
def listingCalls (answers : ℕ → Answer) (i dir : ℕ) : List Call :=
  [.get dir (answers i).status (answers i).buf,
    .getattr dir (answers (i + 1)).status (answers (i + 1)).attr]

theorem calls_readdirNoSeria_of_listed {answers : ℕ → Answer} {i : ℕ} (listed : Listed answers i)
    (dir : ℕ) : (readdirNoSeria dir).calls answers i =
      (listingCalls answers i dir, some (listedAt answers i, i + 3)) := by
  rw [calls_readdirNoSeria, if_neg (not_not_intro listed.1), if_neg (not_not_intro listed.2)]
  rfl

/-- Otherwise it ends the process, and it has put nothing. -/
theorem calls_readdirNoSeria_of_not_listed {answers : ℕ → Answer} {i : ℕ}
    (unlisted : ¬ Listed answers i) (dir : ℕ) : ∃ made ⊆ listingCalls answers i dir,
      (readdirNoSeria dir).calls answers i = (made, none) := by
  rw [calls_readdirNoSeria]
  by_cases failed : (answers i).status ≠ 0
  · rw [if_pos failed]
    exact ⟨_, List.cons_subset_cons _ (List.nil_subset _), rfl⟩
  · rw [if_neg failed, if_pos fun type => unlisted ⟨not_not.1 failed, type⟩]
    exact ⟨_, List.Subset.refl _, rfl⟩

/-- The loop of `rmdir` makes no call and uses one answer an entry. -/
theorem calls_encodeDir (entries : List Dirent) : ∃ buf, Encodes buf entries ∧
    (encodeDir entries).calls answers i = ([], some (buf, i + entries.length)) := by
  induction entries generalizing i with
  | nil => exact ⟨[], encodes_nil, rfl⟩
  | cons ent rest ih =>
      obtain ⟨buf, encodes, wrote⟩ := ih (i + 1)
      refine ⟨_, encodes.cons (answers i).bytes ent, ?_⟩
      rw [encodeDir, calls_memory, calls_bind, wrote, CallTrace.andThen_some, calls_ret,
        List.length_cons, Nat.add_right_comm]
      rfl

end Routine

/-- The calls of an operation when the extent client answers so. -/
def Op.calls (op : Op) (answers : ℕ → Answer) : CallTrace (Except ℤ Res) :=
  op.routine.calls answers 0

end Yfs.Client
