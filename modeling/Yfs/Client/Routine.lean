import Mathlib.Data.Int.Notation
import Yfs.Client.YfsClient

/-!
# The file system operations and the statuses of their extent calls

`Client.YfsClient` has the operations for calls of `extent_client` that succeed.  Here are
the same operations with every status that such a call can have, in terms of the calls
themselves: what `yfs_client.cc` does with a status, where it looks at one, is all there.

A status that the code does not look at has no branch in the routine, and one that it looks at
has two; so where a failure goes unnoticed can be seen in the tree.

* `Routine` — the operations as trees of calls to `lc` and `ec`.
* `Op.routine` — the operations of `yfs_client.cc`.
* `prog_routine` — when every call succeeds, they are the programs of `Client.YfsClient`.
-/

namespace Yfs.Client

open Storage ByteBlock

/-- `extent_protocol::status`: what the server returns, or what `rpcc::call` does when it
fails.  `OK` is 0. -/
abbrev ExtentStatus := ℤ

/-- A function of `yfs_client` with results in `α`. -/
inductive Routine (α : Type) where
  | ret (a : α)
  | exit
  | acquire (lid : ℕ) (next : Routine α)
  | release (lid : ℕ) (next : Routine α)
  | get (eid : ℕ) (next : ExtentStatus → List UInt8 → Routine α)
  | getattr (eid : ℕ) (next : ExtentStatus → Attr → Routine α)
  | put (eid : ℕ) (buf : List UInt8) (next : ExtentStatus → Routine α)
  | create (type : ℕ) (next : ExtentStatus → ℕ → Routine α)
  | remove (eid : ℕ) (next : ExtentStatus → Routine α)
  | memory (next : (ℕ → UInt8) → Routine α)

variable {α β : Type}

namespace Routine

/-- Sequencing. -/
def bind : Routine α → (α → Routine β) → Routine β
  | .ret a, k => k a
  | .exit, _ => .exit
  | .acquire lid next, k => .acquire lid (next.bind k)
  | .release lid next, k => .release lid (next.bind k)
  | .get eid next, k => .get eid fun status buf => (next status buf).bind k
  | .getattr eid next, k => .getattr eid fun status attr => (next status attr).bind k
  | .put eid buf next, k => .put eid buf fun status => (next status).bind k
  | .create type next, k => .create type fun status id => (next status id).bind k
  | .remove eid next, k => .remove eid fun status => (next status).bind k
  | .memory next, k => .memory fun bytes => (next bytes).bind k

instance : Monad Routine where
  pure := .ret
  bind := bind

/-- The program of a routine whose calls all succeed. -/
def prog : Routine α → Prog α
  | .ret a => .ret a
  | .exit => .exit
  | .acquire lid next => .acquire lid next.prog
  | .release lid next => .release lid next.prog
  | .get eid next => (ExtentClient.get eid).bind fun buf => (next 0 buf).prog
  | .getattr eid next => (ExtentClient.getattr eid).bind fun attr => (next 0 attr).prog
  | .put eid buf next => (ExtentClient.put eid buf).bind fun _ => (next 0).prog
  | .create type next => (ExtentClient.create type).bind fun id => (next 0 id).prog
  | .remove eid next => (ExtentClient.remove eid).bind fun _ => (next 0).prog
  | .memory next => .memory fun bytes => (next bytes).prog

/-! ## Operations on directories -/

/-- `readdir_no_seria`; it does not look at the status of `getattr`. -/
def readdirNoSeria (dir : ℕ) : Routine (List Dirent) :=
  .get dir fun status buf =>
    if status ≠ 0 then .exit
    else .getattr dir fun _ attr =>
      if attr.type ≠ tDir then .exit
      else .memory fun stack => .ret (decodeDir stack buf)

/-- `lookup_no_seria`. -/
def lookupNoSeria (parent : ℕ) (name : List UInt8) : Routine (Option ℕ) :=
  (readdirNoSeria parent).bind fun entries =>
    .ret ((entries.find? fun ent => ent.name = name).map Dirent.inum)

/-- `lookup`. -/
def lookup (parent : ℕ) (name : List UInt8) : Routine (Option ℕ) :=
  .acquire parent <| (lookupNoSeria parent name).bind fun found =>
    .release parent <| .ret found

/-- `readdir`. -/
def readdir (dir : ℕ) : Routine (List Dirent) :=
  .acquire dir <| (readdirNoSeria dir).bind fun entries => .release dir <| .ret entries

/-- The end of `create` and `mkdir`: the parent gets one more record. -/
def append (parent : ℕ) (buf name : List UInt8) (ino : ℕ) : Routine (YfsStatus × ℕ) :=
  .memory fun bytes => .put parent (buf ++ encodeDirent bytes ⟨name, ino⟩) fun _ =>
    .release parent <| .ret (.OK, ino)

/-- `create`. -/
def createFile (parent : ℕ) (name : List UInt8) : Routine (YfsStatus × ℕ) :=
  .acquire parent <| (lookupNoSeria parent name).bind fun found =>
    match found with
    | some ino => .release parent <| .ret (.EXIST, ino)
    | none => .create tFile fun _ ino => .get parent fun status buf =>
        if status ≠ 0 then .release parent .exit else append parent buf name ino

/-- `mkdir`. -/
def mkdir (parent : ℕ) (name : List UInt8) : Routine (YfsStatus × ℕ) :=
  .acquire parent <| (lookupNoSeria parent name).bind fun found =>
    match found with
    | some ino => .release parent <| .ret (.EXIST, ino)
    | none => .get parent fun status buf =>
        if status ≠ 0 then .release parent .exit
        else .create tDir fun _ ino => append parent buf name ino

/-- The result of an operation that returns a status of the extent client. -/
def reported (status : ExtentStatus) (a : α) : Except ℤ α :=
  if status = 0 then .ok a else .error status

/-- `symlink`; it returns the status of the `put` of the link. -/
def symlink (parent : ℕ) (name link : List UInt8) : Routine (Except ℤ (YfsStatus × ℕ)) :=
  .acquire parent <| .get parent fun _ content => (lookupNoSeria parent name).bind fun found =>
    match found with
    | some ino => .ret (.ok (.EXIST, ino))
    | none => .create tSlink fun _ ino => .put ino link fun status => .memory fun bytes =>
        .put parent (content ++ encodeDirent bytes ⟨name, ino⟩) fun _ =>
          .release parent <| .ret (reported status (.OK, ino))

/-- The loop of `rmdir` that writes the remaining entries. -/
def encodeDir : List Dirent → Routine (List UInt8)
  | [] => .ret []
  | ent :: rest => .memory fun bytes => (encodeDir rest).bind fun buf =>
      .ret (encodeDirent bytes ent ++ buf)

/-- `rmdir`, which is also `unlink`. -/
def rmdir (parent : ℕ) (name : List UInt8) : Routine YfsStatus :=
  .acquire parent <| (readdirNoSeria parent).bind fun entries =>
    match entries.find? fun ent => ent.name = name with
    | none => .release parent <| .ret .NOENT
    | some ent => .remove ent.inum fun _ =>
        (encodeDir (entries.eraseP fun ent => ent.name = name)).bind fun buf =>
          .put parent buf fun _ => .release parent <| .ret .OK

/-! ## Operations on files -/

/-- `read`; it does not look at the status of `get`. -/
def read (ino size off : ℕ) : Routine (List UInt8) :=
  .acquire ino <| .get ino fun _ content => .release ino <|
    if content.length ≤ off % 2 ^ 32 then .ret []
    else if content.length < off then .exit
    else .ret ((content.drop off).take size)

/-- `write`; it looks at no status. -/
def write (ino off : ℕ) (data : List UInt8) : Routine ℕ :=
  .acquire ino <| .get ino fun _ content =>
    if off % 2 ^ 32 ≤ content.length then
      if content.length < off then .exit
      else .put ino (YfsClient.replace content off data.length data) fun _ =>
        .release ino <| .ret data.length
    else
      .put ino (YfsClient.replace (resize (data.length + off) content) off data.length data)
        fun _ => .release ino <| .ret (data.length + off - content.length)

/-- `setattr`. -/
def setattr (ino size : ℕ) : Routine (Except ℤ YfsStatus) :=
  .acquire ino <| .get ino fun status buf =>
    if status ≠ 0 then .release ino <| .ret (.error status)
    else .put ino (resize size buf) fun status => .release ino <| .ret (reported status .OK)

/-- `readlink`. -/
def readlink (ino : ℕ) : Routine (Except ℤ (List UInt8)) :=
  .acquire ino <| .get ino fun status buf => .release ino <| .ret (reported status buf)

/-- `IOERR`. -/
def ioErr : ℤ := 3

/-- `getfile` and `getdir`: a `getattr` that fails is `IOERR`. -/
def attributes (ino : ℕ) : Routine (Except ℤ Attr) :=
  .acquire ino <| .getattr ino fun status attr => .release ino <|
    .ret (if status ≠ 0 then .error ioErr else .ok attr)

/-- `isfile`, `isdir` and `issymlink`: what is not known is not of the type. -/
def isType (type ino : ℕ) : Routine Bool :=
  .acquire ino <| .getattr ino fun status attr =>
    if status ≠ 0 then .release ino <| .ret false
    else .release ino <| .ret (attr.type = type)

/-- The constructor; it only prints the status of `put`. -/
def mount : Routine Unit := .acquire 1 <| .put 1 [] fun _ => .release 1 <| .ret ()

end Routine

/-! ## All operations -/

/-- The routine of an operation; a status of the extent client that it returns is an error. -/
def Op.routine : Op → Routine (Except ℤ Res)
  | .create parent name => (Routine.createFile parent name).bind fun r => .ret (.ok (.made r.1 r.2))
  | .mkdir parent name => (Routine.mkdir parent name).bind fun r => .ret (.ok (.made r.1 r.2))
  | .symlink parent name link => (Routine.symlink parent name link).bind fun r =>
      .ret (r.map fun r => .made r.1 r.2)
  | .unlink parent name => (Routine.rmdir parent name).bind fun r => .ret (.ok (.status r))
  | .rmdir parent name => (Routine.rmdir parent name).bind fun r => .ret (.ok (.status r))
  | .lookup parent name => (Routine.lookup parent name).bind fun r => .ret (.ok (.found r))
  | .readdir dir => (Routine.readdir dir).bind fun r => .ret (.ok (.entries r))
  | .read ino size off => (Routine.read ino size off).bind fun r => .ret (.ok (.data r))
  | .write ino off data => (Routine.write ino off data).bind fun r => .ret (.ok (.written r))
  | .setattr ino size => (Routine.setattr ino size).bind fun r => .ret (r.map .status)
  | .readlink ino => (Routine.readlink ino).bind fun r => .ret (r.map .data)
  | .getfile ino => (Routine.attributes ino).bind fun r => .ret (r.map .attr)
  | .getdir ino => (Routine.attributes ino).bind fun r => .ret (r.map .attr)
  | .isfile ino => (Routine.isType tFile ino).bind fun r => .ret (.ok (.truth r))
  | .isdir ino => (Routine.isType tDir ino).bind fun r => .ret (.ok (.truth r))
  | .issymlink ino => (Routine.isType tSlink ino).bind fun r => .ret (.ok (.truth r))
  | .mount => Routine.mount.bind fun _ => .ret (.ok .mounted)

/-! ## Calls that succeed -/

namespace Routine

theorem prog_acquire (lid : ℕ) (next : Routine α) :
    (acquire lid next).prog = .acquire lid next.prog := rfl

theorem prog_release (lid : ℕ) (next : Routine α) :
    (release lid next).prog = .release lid next.prog := rfl

theorem prog_get (eid : ℕ) (next : ExtentStatus → List UInt8 → Routine α) :
    (get eid next).prog = (ExtentClient.get eid).bind fun buf => (next 0 buf).prog := rfl

theorem prog_getattr (eid : ℕ) (next : ExtentStatus → Attr → Routine α) :
    (getattr eid next).prog = (ExtentClient.getattr eid).bind fun attr => (next 0 attr).prog := rfl

theorem prog_put (eid : ℕ) (buf : List UInt8) (next : ExtentStatus → Routine α) :
    (put eid buf next).prog = (ExtentClient.put eid buf).bind fun _ => (next 0).prog := rfl

theorem prog_create (type : ℕ) (next : ExtentStatus → ℕ → Routine α) :
    (create type next).prog = (ExtentClient.create type).bind fun id => (next 0 id).prog := rfl

theorem prog_remove (eid : ℕ) (next : ExtentStatus → Routine α) :
    (remove eid next).prog = (ExtentClient.remove eid).bind fun _ => (next 0).prog := rfl

theorem prog_memory (next : (ℕ → UInt8) → Routine α) :
    (memory next).prog = .memory fun bytes => (next bytes).prog := rfl

@[simp] theorem prog_bind (p : Routine α) (k : α → Routine β) :
    (p.bind k).prog = p.prog.bind fun a => (k a).prog := by
  induction p with
  | ret a => rfl
  | exit => rfl
  | acquire lid next ih => exact congrArg (Prog.acquire lid) ih
  | release lid next ih => exact congrArg (Prog.release lid) ih
  | get eid next ih =>
      rw [prog_get, Prog.bind_assoc]
      exact congrArg _ (funext fun buf => ih 0 buf)
  | getattr eid next ih =>
      rw [prog_getattr, Prog.bind_assoc]
      exact congrArg _ (funext fun attr => ih 0 attr)
  | put eid buf next ih =>
      rw [prog_put, Prog.bind_assoc]
      exact congrArg _ (funext fun _ => ih 0)
  | create type next ih =>
      rw [prog_create, Prog.bind_assoc]
      exact congrArg _ (funext fun id => ih 0 id)
  | remove eid next ih =>
      rw [prog_remove, Prog.bind_assoc]
      exact congrArg _ (funext fun _ => ih 0)
  | memory next ih => exact congrArg Prog.memory (funext ih)

theorem prog_readdirNoSeria (dir : ℕ) :
    (readdirNoSeria dir).prog = YfsClient.readdirNoSeria dir := by
  simp only [readdirNoSeria, YfsClient.readdirNoSeria, prog_get, prog_getattr, Prog.bind_eq, ne_eq,
    not_true_eq_false, if_false]
  refine congrArg _ (funext fun buf => congrArg _ (funext fun attr => ?_))
  split <;> rfl

theorem prog_lookupNoSeria (parent : ℕ) (name : List UInt8) :
    (lookupNoSeria parent name).prog = YfsClient.lookupNoSeria parent name := by
  rw [lookupNoSeria, prog_bind, prog_readdirNoSeria]
  rfl

theorem prog_encodeDir (entries : List Dirent) :
    (encodeDir entries).prog = YfsClient.encodeDir entries := by
  induction entries with
  | nil => rfl
  | cons ent rest ih =>
      simp only [encodeDir, prog_memory, prog_bind, ih]
      rfl

theorem prog_createFile (parent : ℕ) (name : List UInt8) :
    (createFile parent name).prog = YfsClient.create parent name := by
  simp only [createFile, YfsClient.create, prog_acquire, prog_bind, prog_lookupNoSeria,
    Prog.bind_eq, Prog.lock_bind]
  refine congrArg _ (congrArg _ (funext fun found => ?_))
  cases found with
  | some ino => rfl
  | none => rfl

theorem prog_mkdir (parent : ℕ) (name : List UInt8) :
    (mkdir parent name).prog = YfsClient.mkdir parent name := by
  simp only [mkdir, YfsClient.mkdir, prog_acquire, prog_bind, prog_lookupNoSeria, Prog.bind_eq,
    Prog.lock_bind]
  refine congrArg _ (congrArg _ (funext fun found => ?_))
  cases found with
  | some ino => rfl
  | none => rfl

theorem prog_symlink (parent : ℕ) (name link : List UInt8) :
    (symlink parent name link).prog = (YfsClient.symlink parent name link).result .ok := by
  simp only [symlink, YfsClient.symlink, prog_acquire, prog_get, prog_bind, prog_lookupNoSeria,
    Prog.result, Prog.bind_eq, Prog.lock_bind, Prog.acquire_bind, Prog.bind_assoc]
  refine congrArg _ (congrArg _ (funext fun content => congrArg _ (funext fun found => ?_)))
  cases found with
  | some ino => rfl
  | none =>
      simp only [prog_create, prog_put, prog_memory, Prog.bind_assoc]
      rfl

theorem prog_rmdir (parent : ℕ) (name : List UInt8) :
    (rmdir parent name).prog = YfsClient.rmdir parent name := by
  simp only [rmdir, YfsClient.rmdir, prog_acquire, prog_bind, prog_readdirNoSeria, Prog.bind_eq,
    Prog.lock_bind]
  refine congrArg _ (congrArg _ (funext fun entries => ?_))
  cases entries.find? fun ent => ent.name = name with
  | none => rfl
  | some ent =>
      simp only [prog_remove, prog_bind, prog_encodeDir]
      rfl

theorem prog_read (ino size off : ℕ) : (read ino size off).prog = YfsClient.read ino size off := by
  simp only [read, YfsClient.read, prog_acquire, prog_get, prog_release, Prog.bind_eq,
    Prog.lock_bind, Prog.unlock_bind]
  refine congrArg _ (congrArg _ (funext fun content => congrArg _ ?_))
  split
  · rfl
  · split <;> rfl

theorem prog_write (ino off : ℕ) (data : List UInt8) :
    (write ino off data).prog = YfsClient.write ino off data := by
  simp only [write, YfsClient.write, prog_acquire, prog_get, Prog.bind_eq, Prog.lock_bind]
  refine congrArg _ (congrArg _ (funext fun content => ?_))
  split
  · split <;> rfl
  · rfl

theorem prog_setattr (ino size : ℕ) :
    (setattr ino size).prog = (YfsClient.setattr ino size).result .ok := by
  simp only [setattr, YfsClient.setattr, prog_acquire, prog_get, Prog.result, Prog.bind_eq,
    Prog.lock_bind, Prog.acquire_bind, Prog.bind_assoc]
  rfl

theorem prog_readlink (ino : ℕ) :
    (readlink ino).prog = (YfsClient.readlink ino).result .ok := by
  simp only [readlink, YfsClient.readlink, prog_acquire, prog_get, Prog.result, Prog.bind_eq,
    Prog.lock_bind, Prog.acquire_bind, Prog.bind_assoc]
  rfl

theorem prog_attributes (ino : ℕ) :
    (attributes ino).prog = (YfsClient.attributes ino).result .ok := by
  simp only [attributes, YfsClient.attributes, prog_acquire, prog_getattr, Prog.result,
    Prog.bind_eq, Prog.lock_bind, Prog.acquire_bind, Prog.bind_assoc]
  rfl

theorem prog_isType (type ino : ℕ) : (isType type ino).prog =
    (YfsClient.attributes ino).bind fun attr => .ret (decide (attr.type = type)) := by
  simp only [isType, YfsClient.attributes, prog_acquire, prog_getattr, Prog.bind_eq, Prog.lock_bind,
    Prog.acquire_bind, Prog.bind_assoc]
  rfl

/-- A function that returns its result. -/
theorem prog_ok {p : Routine α} {q : Prog α} (same : p.prog = q) (f : α → Res) :
    (p.bind fun r => .ret (Except.ok (f r)) : Routine (Except ℤ Res)).prog =
      (q.result f).result .ok := by
  rw [prog_bind, same, Prog.result, Prog.result, Prog.bind_assoc]
  rfl

/-- A function that returns a status of the extent client. -/
theorem prog_map {p : Routine (Except ℤ α)} {q : Prog α} (same : p.prog = q.result .ok)
    (f : α → Res) : (p.bind fun r => .ret (r.map f)).prog = (q.result f).result .ok := by
  rw [prog_bind, same, Prog.result, Prog.result, Prog.result, Prog.bind_assoc, Prog.bind_assoc]
  rfl

end Routine

/-- **When every extent call succeeds, the routine of an operation is its program.** -/
theorem prog_routine (op : Op) : op.routine.prog = op.prog.result .ok := by
  cases op with
  | create parent name => exact Routine.prog_ok (Routine.prog_createFile parent name) _
  | mkdir parent name => exact Routine.prog_ok (Routine.prog_mkdir parent name) _
  | symlink parent name link => exact Routine.prog_map (Routine.prog_symlink parent name link) _
  | unlink parent name => exact Routine.prog_ok (Routine.prog_rmdir parent name) _
  | rmdir parent name => exact Routine.prog_ok (Routine.prog_rmdir parent name) _
  | lookup parent name =>
      refine Routine.prog_ok ?_ _
      simp only [Routine.lookup, Routine.prog_acquire, Routine.prog_bind,
        Routine.prog_lookupNoSeria]
      rfl
  | readdir dir =>
      refine Routine.prog_ok ?_ _
      simp only [Routine.readdir, Routine.prog_acquire, Routine.prog_bind,
        Routine.prog_readdirNoSeria]
      rfl
  | read ino size off => exact Routine.prog_ok (Routine.prog_read ino size off) _
  | write ino off data => exact Routine.prog_ok (Routine.prog_write ino off data) _
  | setattr ino size => exact Routine.prog_map (Routine.prog_setattr ino size) _
  | readlink ino => exact Routine.prog_map (Routine.prog_readlink ino) _
  | getfile ino => exact Routine.prog_map (Routine.prog_attributes ino) _
  | getdir ino => exact Routine.prog_map (Routine.prog_attributes ino) _
  | isfile ino => exact Routine.prog_ok (Routine.prog_isType tFile ino) _
  | isdir ino => exact Routine.prog_ok (Routine.prog_isType tDir ino) _
  | issymlink ino => exact Routine.prog_ok (Routine.prog_isType tSlink ino) _
  | mount => rfl

end Yfs.Client
