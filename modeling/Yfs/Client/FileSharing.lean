import Yfs.Client.Atomicity
import Yfs.Client.Coherence
import Yfs.Client.FileOps

/-!
# File operations are atomic

Any number of clients use file `f`, which is not a directory, and other inums.  What they see
of `f` is a byte string on which every operation acts at once, at some time between its acquire
of the lock and its return.

The abstract state is the string alone.  Attributes are answered by `getfile` and `getdir`, but
their size and times do not follow from the string: the size may be the one that `create` left
uninitialised, and times are set by caches.  So `FileStep` has the type for these operations and
leaves the rest open.

* `FileStep` — what each operation does to the string, and what it returns.
* `wp_read`, `wp_write`, `wp_setattr`, `wp_readlink`, `wp_fileAttributes` — each of them acts on
  it once, in its section.
* `wp_listFile` — an operation on directories ends the process when it is given a file.
* `file_operations_atomic` — every history is one of the string's.
-/

namespace Yfs.Client

open Storage Storage.ExtentServer ByteBlock Lock

variable {C T σ : Type}

/-! ## The specification -/

/-- **What an operation does to the string of a file** of type `type`, at once.  `read` and
`write` do not return where `substr` and `replace` throw, and an operation on directories
never does. -/
def FileStep (type : ℕ) (op : Op) (content : List UInt8) (res : Res) (content' : List UInt8) :
    Prop :=
  match op with
  | .read _ size off => ¬ ReadThrows content off ∧ res = .data ((content.drop off).take size) ∧
      content' = content
  | .write _ off data => ¬ WriteThrows content off ∧
      res = .written (bytesReported content off data) ∧ content' = overwritten content off data
  | .setattr _ size => res = .status .OK ∧ content' = resize size content
  | .readlink _ => res = .data content ∧ content' = content
  | .getfile _ | .getdir _ => (∃ attr, res = .attr attr ∧ attr.type = type) ∧ content' = content
  | .isfile _ => res = .truth (type = tFile) ∧ content' = content
  | .isdir _ => res = .truth (type = tDir) ∧ content' = content
  | .issymlink _ => res = .truth (type = tSlink) ∧ content' = content
  | _ => False

/-- What `read` returns, when it returns, are the bytes from the offset on. -/
theorem bytesRead_eq_take (content : List UInt8) (size off : ℕ) :
    bytesRead content size off = (content.drop off).take size := by
  rw [bytesRead]
  split
  next past => rw [List.drop_eq_nil_of_le (past.trans (Nat.mod_le off _)), List.take_nil]
  next => rfl

/-- What `write` does behind the end of the string: the hole is zeros already, and nothing lies
behind the new bytes. -/
theorem replace_resize_eq_overwritten {content : List UInt8} {off : ℕ} (data : List UInt8)
    (past : content.length ≤ off) :
    YfsClient.replace (resize (data.length + off) content) off data.length data =
      overwritten content off data := by
  rw [replace_eq_overwritten data (by rw [length_resize]; omega)]
  refine eq_of_getD ?_ fun k => ?_
  · rw [length_overwritten, length_overwritten, length_resize]
    omega
  · rw [getD_overwritten, getD_overwritten]
    by_cases covered : off ≤ k ∧ k < off + data.length
    · rw [if_pos covered, if_pos covered]
    · rw [if_neg covered, if_neg covered]
      by_cases inside : k < data.length + off
      · exact getD_resize content inside
      · rw [List.getD_eq_default _ _ (by rw [length_resize]; omega),
          List.getD_eq_default _ _ (by omega)]

/-- Where `write` does not throw it replaces the bytes from the offset on. -/
theorem contentWritten_of_not_throws {content : List UInt8} {off : ℕ} (data : List UInt8)
    (noThrow : ¬ WriteThrows content off) :
    contentWritten content off data = overwritten content off data := by
  rw [contentWritten]
  split
  next looksInside =>
      have inside : off ≤ content.length := by
        by_contra past
        exact noThrow ⟨looksInside, Nat.not_le.mp past⟩
      exact replace_eq_overwritten data inside
  next past =>
      have low := Nat.mod_le off (2 ^ 32)
      exact replace_resize_eq_overwritten data (by omega)

/-- An operation in progress: it was invoked, it has the lock, it has acted on the string and will
return `res`, or it has looked at the string and will throw; or it is about another extent.

An operation that throws does not come back, and stays in `throwing`. -/
inductive FileOwn where
  | invoked (op : Op)
  | entered (op : Op)
  | applied (op : Op) (res : Res)
  | throwing
  | elsewhere

/-- **The file as a string with atomic operations.** -/
def fileSpec (f type : ℕ) : Spec (List UInt8) Op Res where
  Own := FileOwn
  begins op := if op.target = f then .invoked op else .elsewhere
  enter own own' := ∃ op, own = .invoked op ∧ own' = .entered op
  hear own _ _ := own
  commit content own content' own' :=
    (∃ op res, own = .entered op ∧ own' = .applied op res ∧ FileStep type op content res content') ∨
      own' = .throwing ∧ content' = content
  finish op own res := op.target ≠ f ∧ own = .elsewhere ∨ own = .applied op res

theorem fileSpec_deaf (f type : ℕ) (own : FileOwn) : (fileSpec f type).Deaf own :=
  fun _ _ _ => rfl

/-! ## The contract -/

/-- What the cache and the server have of a file.

Of the attributes only the type is followed; sizes and times are not. -/
structure FileFits (type : ℕ) (entry : Entry) (data content : List UInt8) : Prop where
  coherent : Coherent entry data content
  kind : ∀ file, entry = some file → file.attrValid = true → file.attr.type = type

namespace FileFits

variable {type : ℕ} {entry : Entry} {data content : List UInt8}

theorem of_quiet (quiet : Quiet entry) : FileFits type entry data data where
  coherent := .of_quiet quiet
  kind file here valid := by
    rw [(quiet file here).2.1] at valid
    cases valid

/-- A file that was fetched. -/
theorem filled (settled : data = content) {bytes : ℕ → UInt8} {f : FullFile} (buf : f.buf = data)
    (kind : f.attr.type = type) :
    FileFits type (some ((entry.getD (.blank bytes)).filled f)) data content where
  coherent := .filled settled buf
  kind := by
    rintro file ⟨⟩ -
    exact kind

/-- A string that was put in place of one that was read. -/
theorem written {file : CachedFile} (fits : FileFits type (some file) data content)
    (valid : file.bufValid = true) {bytes : ℕ → UInt8} {buf : List UInt8} {atime ctime mtime : ℕ} :
    FileFits type (some (((some file : Entry).getD (.blank bytes)).written buf atime ctime mtime))
      data buf where
  coherent := fits.coherent.written valid
  kind := by
    rintro _ ⟨⟩ attrValid
    exact fits.kind file rfl attrValid

/-- Without valid attributes the content is at the server. -/
theorem settled (fits : FileFits type entry data content)
    (invalid : ∀ file, entry = some file → file.attrValid = false) : data = content := by
  refine fits.coherent.settled fun file here => ?_
  have same := fits.coherent
  rw [here] at same
  rw [← same.2.2.1]
  exact invalid file here

end FileFits

/-- **The contract of a file.** -/
def fileContract (f type : ℕ) : Contract (List UInt8) Op where
  eid := f
  abs := id
  kind := (· = type)
  good _ := True
  fits := FileFits type
  guard _ entry _ new := new = none → entry = none
  allows req := req ≠ .remove f
  fresh _ _ quiet _ := .of_quiet quiet
  sound _ _ _ _ := trivial
  dirty file _ _ fits dirty := fits.coherent.1 (fits.coherent.2.1 dirty)
  clean entry data content fits clean := by
    cases entry with
    | none => exact fits.coherent
    | some file => exact fits.coherent.2.2.2 (clean file rfl)

/-! ## Parts of operations -/

section Parts

variable {f type : ℕ} {op : Op} {own : FileOwn} {entry : Entry} {data base content : List UInt8}
  {β : Type} {post : β → FileOwn → Option View → Prop}

/-- `get` of a file; its buffer is valid then. -/
theorem wp_getFile {k : List UInt8 → Prog β} (fits : FileFits type entry data content)
    (rest : ∀ file, FileFits type (some file) data content → file.bufValid = true →
      Wp (fileContract f type) (fileSpec f type) op post (k content) own
        (some ⟨some file, data, base, content⟩)) :
    Wp (fileContract f type) (fileSpec f type) op post ((ExtentClient.get f).bind k) own
      (some ⟨entry, data, base, content⟩) := by
  refine Wp.get (fileSpec_deaf f type own) (fun file here valid => ?_) (fun invalid => ?_)
  · obtain rfl : entry = some file := here
    exact ⟨fits.coherent.1 valid, rest file fits valid⟩
  · have settled := fits.coherent.settled invalid
    exact ⟨settled, fun bytes g buf kind => rest _ (.filled settled buf kind) rfl⟩

/-- `getattr` of a file. -/
theorem wp_getattrFile {k : Attr → Prog β} (fits : FileFits type entry data content)
    (rest : ∀ entry attr, FileFits type entry data content → attr.type = type →
      Wp (fileContract f type) (fileSpec f type) op post (k attr) own
        (some ⟨entry, data, base, content⟩)) :
    Wp (fileContract f type) (fileSpec f type) op post ((ExtentClient.getattr f).bind k) own
      (some ⟨entry, data, base, content⟩) := by
  refine Wp.getattr (fileSpec_deaf f type own) (fun file here valid => ?_)
    (fun invalid bytes g buf kind => ?_)
  · exact rest entry file.attr fits (fits.kind file here valid)
  · exact rest _ g.attr (.filled (fits.settled invalid) buf kind) kind

/-- `put` of a file that was read. -/
theorem wp_putFile {buf : List UInt8} {k : Unit → Prog β} {file : CachedFile}
    (fits : FileFits type (some file) data content) (valid : file.bufValid = true)
    (rest : ∀ entry, FileFits type entry data buf →
      Wp (fileContract f type) (fileSpec f type) op post (k ()) own
        (some ⟨entry, data, base, buf⟩)) :
    Wp (fileContract f type) (fileSpec f type) op post ((ExtentClient.put f buf).bind k) own
      (some ⟨some file, data, base, content⟩) :=
  Wp.put fun _ _ _ _ _ => rest _ (fits.written valid)

/-- The beginning of an operation. -/
theorem wp_beginFile {next : Prog Res} (target : op.target = f)
    (rest : ∀ entry data content, FileFits type entry data content →
      Wp (fileContract f type) (fileSpec f type) op
        (Finishes (fileContract f type) (fileSpec f type) op) next (.entered op)
        (some ⟨entry, data, content, content⟩)) :
    Wp (fileContract f type) (fileSpec f type) op
      (Finishes (fileContract f type) (fileSpec f type) op) (.acquire f next)
      ((fileSpec f type).begins op) none :=
  Wp.enter fun entry data content fits =>
    ⟨.entered op, ⟨op, if_pos target, rfl⟩, rest entry data content fits⟩

/-- The end of a section, and what is left of the operation then. -/
theorem wp_leaveFile {res : Res} {next : Prog Res} (fits : FileFits type entry data content)
    (step : FileStep type op base res content)
    (rest : Wp (fileContract f type) (fileSpec f type) op
      (Finishes (fileContract f type) (fileSpec f type) op) next (.applied op res) none) :
    Wp (fileContract f type) (fileSpec f type) op
      (Finishes (fileContract f type) (fileSpec f type) op) (.release f next) (.entered op)
      (some ⟨entry, data, base, content⟩) :=
  Wp.leave fits (Or.inl ⟨op, res, rfl, rfl, step⟩) rest

/-- A listing of a file ends the process. -/
theorem wp_listFile {k : List Dirent → Prog β} (other : type ≠ tDir)
    (fits : FileFits type entry data content) :
    Wp (fileContract f type) (fileSpec f type) op post ((YfsClient.readdirNoSeria f).bind k) own
      (some ⟨entry, data, base, content⟩) := by
  simp only [YfsClient.readdirNoSeria, Prog.bind_eq, Prog.bind_assoc]
  refine wp_getFile fits fun file fits _ => wp_getattrFile fits fun entry attr _ kind => ?_
  rw [if_pos (by rw [kind]; exact other)]
  trivial

end Parts

/-! ## The operations -/

section Operations

variable {f type : ℕ}

/-- What has to be shown of an operation. -/
abbrev FileOk (f type : ℕ) (op : Op) : Prop :=
  Wp (fileContract f type) (fileSpec f type) op
    (Finishes (fileContract f type) (fileSpec f type) op)
    op.prog ((fileSpec f type).begins op) none

/-- `read` returns a part of the string; it has released the lock when it throws. -/
theorem wp_read {size off : ℕ} : FileOk f type (.read f size off) := by
  simp only [FileOk, Op.prog, Prog.result, YfsClient.read, Prog.bind_eq, Prog.lock_bind,
    Prog.unlock_bind, Prog.acquire_bind, Prog.bind_assoc, Prog.release_bind]
  refine wp_beginFile rfl fun entry data content fits => wp_getFile fits fun file fits _ => ?_
  by_cases throws : ReadThrows content off
  · refine Wp.leave fits (Or.inr ⟨rfl, rfl⟩) ?_
    rw [if_neg (Nat.not_le.mpr throws.1), if_pos throws.2]
    trivial
  · refine wp_leaveFile fits ⟨throws, rfl, rfl⟩ ?_
    rw [← bytesRead_eq_take, bytesRead]
    by_cases past : content.length ≤ off % 2 ^ 32
    · rw [if_pos past, if_pos past]
      exact Or.inr rfl
    · rw [if_neg past, if_neg past, if_neg fun far => throws ⟨Nat.not_le.mp past, far⟩]
      exact Or.inr rfl

/-- `write` puts the bytes where they belong. -/
theorem wp_write {off : ℕ} {data : List UInt8} : FileOk f type (.write f off data) := by
  simp only [FileOk, Op.prog, Prog.result, YfsClient.write, Prog.bind_eq, Prog.lock_bind,
    Prog.acquire_bind, Prog.bind_assoc]
  refine wp_beginFile rfl fun entry _ content fits => wp_getFile fits fun file fits valid => ?_
  by_cases within : off % 2 ^ 32 ≤ content.length
  · rw [if_pos within]
    by_cases far : content.length < off
    · rw [if_pos far]
      trivial
    · have noThrow : ¬ WriteThrows content off := fun throws => far throws.2
      rw [if_neg far, Prog.bind_assoc]
      refine wp_putFile fits valid fun entry fits => wp_leaveFile fits ⟨noThrow, rfl, ?_⟩ ?_
      · rw [← contentWritten_of_not_throws data noThrow, contentWritten, if_pos within]
      · rw [bytesReported, if_pos within]
        exact Or.inr rfl
  · have noThrow : ¬ WriteThrows content off := fun throws => within throws.1
    rw [if_neg within, Prog.bind_assoc]
    refine wp_putFile fits valid fun entry fits => wp_leaveFile fits ⟨noThrow, rfl, ?_⟩ ?_
    · rw [← contentWritten_of_not_throws data noThrow, contentWritten, if_neg within]
    · rw [bytesReported, if_neg within]
      exact Or.inr rfl

/-- `setattr` changes the length. -/
theorem wp_setattr {size : ℕ} : FileOk f type (.setattr f size) := by
  simp only [FileOk, Op.prog, Prog.result, YfsClient.setattr, Prog.bind_eq, Prog.lock_bind,
    Prog.unlock_bind, Prog.acquire_bind, Prog.release_bind, Prog.bind_assoc]
  exact wp_beginFile rfl fun entry data content fits => wp_getFile fits fun file fits valid =>
    wp_putFile fits valid fun entry fits => wp_leaveFile fits ⟨rfl, rfl⟩ (Or.inr rfl)

/-- `readlink` returns the string. -/
theorem wp_readlink : FileOk f type (.readlink f) := by
  simp only [FileOk, Op.prog, Prog.result, YfsClient.readlink, Prog.bind_eq, Prog.lock_bind,
    Prog.unlock_bind, Prog.acquire_bind, Prog.release_bind, Prog.bind_assoc]
  exact wp_beginFile rfl fun entry data content fits => wp_getFile fits fun file fits _ =>
    wp_leaveFile fits ⟨rfl, rfl⟩ (Or.inr rfl)

/-- The operations that read the attributes see the type of the file. -/
theorem wp_fileAttributes {op : Op} {g : Attr → Res} (target : op.target = f)
    (step : ∀ content attr, attr.type = type → FileStep type op content (g attr) content)
    (prog : op.prog = (YfsClient.attributes f).bind fun attr => .ret (g attr)) :
    FileOk f type op := by
  simp only [FileOk, prog, YfsClient.attributes, Prog.bind_eq, Prog.lock_bind, Prog.unlock_bind,
    Prog.acquire_bind, Prog.release_bind, Prog.ret_bind, Prog.bind_assoc]
  exact wp_beginFile target fun entry data content fits => wp_getattrFile fits
    fun entry attr fits kind => wp_leaveFile fits (step content attr kind) (Or.inr rfl)

/-- **Every operation keeps the contract of the file.** -/
theorem fileOk {op : Op} (other : type ≠ tDir) (noMount : op = .mount → f ≠ 1) :
    FileOk f type op := by
  -- operations on the file itself, one by one; those on other inums do not come near it
  by_cases target : op.target = f
  · cases op with
    -- a file is no directory: such an operation throws when it lists the entries
    | create parent name =>
        obtain rfl : parent = f := target
        simp only [FileOk, Op.prog, Prog.result, YfsClient.create, YfsClient.lookupNoSeria,
          Prog.bind_eq, Prog.lock_bind, Prog.acquire_bind, Prog.bind_assoc]
        exact wp_beginFile rfl fun entry data content fits => wp_listFile other fits
    | mkdir parent name =>
        obtain rfl : parent = f := target
        simp only [FileOk, Op.prog, Prog.result, YfsClient.mkdir, YfsClient.lookupNoSeria,
          Prog.bind_eq, Prog.lock_bind, Prog.acquire_bind, Prog.bind_assoc]
        exact wp_beginFile rfl fun entry data content fits => wp_listFile other fits
    | symlink parent name link =>
        -- the only one that gets the string before it lists
        obtain rfl : parent = f := target
        simp only [FileOk, Op.prog, Prog.result, YfsClient.symlink, YfsClient.lookupNoSeria,
          Prog.bind_eq, Prog.lock_bind, Prog.acquire_bind, Prog.bind_assoc]
        exact wp_beginFile rfl fun entry data content fits => wp_getFile fits fun file fits _ =>
          wp_listFile other fits
    | unlink parent name =>
        obtain rfl : parent = f := target
        simp only [FileOk, Op.prog, Prog.result, YfsClient.unlink, YfsClient.rmdir, Prog.bind_eq,
          Prog.lock_bind, Prog.acquire_bind, Prog.bind_assoc]
        exact wp_beginFile rfl fun entry data content fits => wp_listFile other fits
    | rmdir parent name =>
        obtain rfl : parent = f := target
        simp only [FileOk, Op.prog, Prog.result, YfsClient.rmdir, Prog.bind_eq,
          Prog.lock_bind, Prog.acquire_bind, Prog.bind_assoc]
        exact wp_beginFile rfl fun entry data content fits => wp_listFile other fits
    | lookup parent name =>
        obtain rfl : parent = f := target
        simp only [FileOk, Op.prog, Prog.result, YfsClient.lookup, YfsClient.lookupNoSeria,
          Prog.bind_eq, Prog.lock_bind, Prog.acquire_bind, Prog.bind_assoc]
        exact wp_beginFile rfl fun entry data content fits => wp_listFile other fits
    | readdir dir =>
        obtain rfl : dir = f := target
        simp only [FileOk, Op.prog, Prog.result, YfsClient.readdir, Prog.bind_eq,
          Prog.lock_bind, Prog.acquire_bind, Prog.bind_assoc]
        exact wp_beginFile rfl fun entry data content fits => wp_listFile other fits
    | read ino size off =>
        obtain rfl : ino = f := target
        exact wp_read
    | write ino off data =>
        obtain rfl : ino = f := target
        exact wp_write
    | setattr ino size =>
        obtain rfl : ino = f := target
        exact wp_setattr
    | readlink ino =>
        obtain rfl : ino = f := target
        exact wp_readlink
    | getfile ino =>
        obtain rfl : ino = f := target
        exact wp_fileAttributes rfl (fun _ attr kind => ⟨⟨attr, rfl, kind⟩, rfl⟩) rfl
    | getdir ino =>
        obtain rfl : ino = f := target
        exact wp_fileAttributes rfl (fun _ attr kind => ⟨⟨attr, rfl, kind⟩, rfl⟩) rfl
    | isfile ino =>
        obtain rfl : ino = f := target
        exact wp_fileAttributes (g := fun attr => .truth (attr.type = tFile)) rfl
          (fun _ attr kind => ⟨by rw [kind], rfl⟩) (Prog.bind_assoc _ _ _)
    | isdir ino =>
        obtain rfl : ino = f := target
        exact wp_fileAttributes (g := fun attr => .truth (attr.type = tDir)) rfl
          (fun _ attr kind => ⟨by rw [kind], rfl⟩) (Prog.bind_assoc _ _ _)
    | issymlink ino =>
        obtain rfl : ino = f := target
        exact wp_fileAttributes (g := fun attr => .truth (attr.type = tSlink)) rfl
          (fun _ attr kind => ⟨by rw [kind], rfl⟩) (Prog.bind_assoc _ _ _)
    | mount => exact absurd target.symm (noMount rfl)
  · have begins : (fileSpec f type).begins op = FileOwn.elsewhere := if_neg target
    rw [FileOk, begins]
    refine Wp.avoids (fun entry data guard => guard rfl) (fun allows => allows rfl)
      (fun req reply => rfl) (avoids_prog target fun res => Or.inl ⟨target, rfl⟩)

end Operations

/-! ## The system -/

/-- The clients.  File `f` is not removed, neither from a cache nor from the server; if it is the
root, no client is constructed. -/
def filesOf (f : ℕ) (serve : σ → Request → Reply → σ → Prop) : Machine C T Op Res σ where
  prog := Op.prog
  serve := serve
  mayInvoke _ op := op = .mount → f ≠ 1
  mayStore s c _ _ eid entry := eid = f → entry = none → s.cache c f = none
  mayCall _ req _ := req ≠ .remove f

/-- The clients keep the contract of the file. -/
theorem filesOf_sectioned {f type : ℕ} (other : type ≠ tDir)
    {serve : σ → Request → Reply → σ → Prop} {dataOf : σ → List UInt8}
    (faithful : ∀ x req reply y, serve x req reply y →
      Serves f (· = type) (dataOf x) req reply (dataOf y)) :
    Sectioned (fileContract f type) (fileSpec f type) dataOf
      (filesOf f serve : Machine C T Op Res σ) where
  ops _ _ may := fileOk other may
  serves := faithful
  guard _ _ _ _ _ may := may rfl
  allows _ _ _ may := may

variable [LinearOrder C] [DecidableEq T]

/-- **File operations are atomic.** The clients run any operations, while the server stores file
`f` faithfully: it has type `type`, which is not that of a directory, and holds `init` at first.
Then the history of the operations on `f` is one of a byte string: each of them acts on it in a
single step after it acquired the lock and before it returned, with the result it returned.

Operations on other inums take part in the run, and nothing is said about what they return. -/
theorem file_operations_atomic {f type : ℕ} (other : type ≠ tDir) {init : List UInt8}
    {serve : σ → Request → Reply → σ → Prop} {dataOf : σ → List UInt8} {start : σ → Prop}
    {s : State C T Op Res σ}
    (faithful : ∀ x req reply y, serve x req reply y →
      Serves f (· = type) (dataOf x) req reply (dataOf y))
    (begins : ∀ server, start server → dataOf server = init)
    (reach : Reach (filesOf f serve) start s) :
    ∃ a, Explained (fileSpec f type) f init s.history a := by
  obtain ⟨a, k, inv⟩ := reach_sections (filesOf_sectioned other faithful) begins trivial reach
  exact ⟨a, inv.explained⟩

/-! ### A run -/

/-- Clients that share file 2, run by a schedule. -/
def fileDriver : Driver ℕ Unit Op Res FileMap where
  prog := Op.prog
  handle := handleFilesAt 2 tFile
  mayStore s c _ _ eid entry := eid ≠ 2 || entry.isSome || (s.cache c 2).isNone
  mayCall _ req _ := req ≠ .remove 2

theorem fileDriver_drives :
    fileDriver.Drives (filesOf 2 (fileServerAt 2 tFile) : Machine ℕ Unit Op Res FileMap) := by
  refine ⟨rfl, fun _ _ _ _ => handleFilesAt_serves, fun s c _ _ eid entry may => ?_,
    fun _ req _ may => of_decide_eq_true (p := req ≠ .remove 2) may⟩
  rintro rfl rfl
  simpa [fileDriver] using may

/-- Client 0 writes to file 2, and then client 1 reads it. -/
def writeThenReadAt (off : ℕ) : List (Move ℕ Unit Op) :=
  turn 2 0 () (.write 2 0 [120]) 2 13 ++ turn 2 1 () (.read 2 5 off) 13 8

/-- Client 1 reads what client 0 wrote. -/
theorem file_operations_atomic_shared : ∃ s : State ℕ Unit Op Res FileMap,
    Reach (filesOf 2 (fileServerAt 2 tFile)) (· = oneFile) s ∧
      results s.history = [(0, .written 1), (1, .data [120])] ∧
      ∃ a, Explained (fileSpec 2 tFile) 2 [] s.history a := by
  have may : ∀ c t op, .invoke c t op ∈ writeThenReadAt 0 → op = .mount → 2 ≠ 1 :=
    fun _ _ _ _ _ => by decide
  obtain ⟨s, reach, shows⟩ := Driver.exists_reach fileDriver_drives (· = oneFile) may rfl
    (P := fun s => results s.history = [(0, .written 1), (1, .data [120])]) (by decide +kernel)
  refine ⟨s, reach, by simpa using shows, file_operations_atomic (by decide)
    (fun x req reply y serves => fileServerAt_serves serves) ?_ reach⟩
  rintro server rfl
  rfl

end Yfs.Client
