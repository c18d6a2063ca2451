import Yfs.Client.DirFormat
import Yfs.Client.ExtentRules

/-!
# Operations on a directory

The operations of `yfs_client` on a directory `d`, against the map from names to inums
that the directory is for.  `dirSpec` is that map with operations that act on it at once;
the contract `dirContract` says that the content of extent `d` is always a directory.

The contract is an invariant on strings: the content of extent `d` is the records of a list of
entries with different names.  It holds between any two sections, so an operation may assume it
when it has the lock and has to restore it before it gives the lock back.  Names are assumed to
have 1 to 64 bytes (`OnDirectory`); longer ones break the format (`Client.Names`).

* `wp_create`, `wp_mkdir`, `wp_symlink`, `wp_rmdir`, `wp_lookup`, `wp_readdir` — each operation
  acts on the map once, in its section.
* `avoids_prog` — an operation on another inum leaves `d` alone.
-/

namespace Yfs.Client

open Storage

/-! ## The specification -/

/-- The extent that an operation is about. -/
def Op.target : Op → ℕ
  | .create parent _ | .mkdir parent _ | .symlink parent _ _ | .unlink parent _
  | .rmdir parent _ | .lookup parent _ => parent
  | .readdir ino | .read ino _ _ | .write ino _ _ | .setattr ino _ | .readlink ino
  | .getfile ino | .getdir ino | .isfile ino | .isdir ino | .issymlink ino => ino
  | .mount => 1

/-- **What an operation does to the map**, at once, when the server gave it the inum `new`. -/
def DirStep (op : Op) (new : Option ℕ) (map : Directory) (res : Res) (map' : Directory) : Prop :=
  match op with
  | .create _ name | .mkdir _ name | .symlink _ name _ =>
      (∃ ino, map name = some ino ∧ res = .made .EXIST ino ∧ map' = map) ∨
        ∃ ino, map name = none ∧ new = some ino ∧ res = .made .OK ino ∧
          map' = Function.update map name (some ino)
  | .unlink _ name | .rmdir _ name =>
      (map name = none ∧ res = .status .NOENT ∧ map' = map) ∨
        (map name ≠ none ∧ res = .status .OK ∧ map' = Function.update map name none)
  | .lookup _ name => res = .found (map name) ∧ map' = map
  | .readdir _ => (∃ list, res = .entries list ∧ Lists list map) ∧ map' = map
  | _ => map' = map

/-- An operation in progress: it was invoked, it has the lock and perhaps a new inum, it has acted
on the map and will return `res`; or it is about another extent.

`entered` is the time between the acquire and the step on the map; the new inum comes with the
reply to `create` and is there only for the three operations that ask for one. -/
inductive DirOwn where
  | invoked (op : Op)
  | entered (op : Op) (new : Option ℕ)
  | applied (op : Op) (res : Res)
  | elsewhere

/-- The reply to `create` is the new inum. -/
def DirOwn.hear : DirOwn → Request → Reply → DirOwn
  | .entered op _, .create _, .created id => .entered op (some id)
  | own, _, _ => own

/-- **The directory as a map with atomic operations.** -/
def dirSpec (d : ℕ) : Spec Directory Op Res where
  Own := DirOwn
  begins op := if op.target = d then .invoked op else .elsewhere
  enter own own' := ∃ op, own = .invoked op ∧ own' = .entered op none
  hear := DirOwn.hear
  commit map own map' own' := ∃ op new res, own = .entered op new ∧ own' = .applied op res ∧
    DirStep op new map res map'
  finish op own res := op.target ≠ d ∧ own = .elsewhere ∨ own = .applied op res

theorem dirSpec_deaf (d : ℕ) (own : DirOwn) : (dirSpec d).Deaf own := by
  intro req reply noCreate
  cases req with
  | create type => exact absurd rfl (noCreate type)
  | _ => cases own <;> cases reply <;> rfl

/-! ## The contract -/

/-- An entry that may take the place of another: it is not dropped, and its string fits the
32-bit size of an extent. -/
def Storable (old new : Entry) : Prop :=
  (new = none → old = none) ∧ ∀ file, new = some file → file.buf.length < 2 ^ 32

/-- **What the cache and the server have of a directory.** Without valid attributes the content is
at the server, so a `getattr` that fetches the file again loses nothing.

A dirty entry with invalid attributes would be overwritten by the next `getattr`, as `ExtentCalls`
shows; the operations on directories keep away from it, since they ask for the attributes before
they put. -/
structure DirFits (entry : Entry) (data content : List UInt8) : Prop where
  directory : IsDirectory content
  absent : entry = none → data = content
  buf : ∀ file, entry = some file → file.bufValid = true → file.buf = content
  dirty : ∀ file, entry = some file → file.dirty = true → file.bufValid = true
  attr : ∀ file, entry = some file → file.attrValid = true →
    file.bufValid = true ∧ file.attr.type = tDir
  clean : ∀ file, entry = some file → file.dirty = false ∨ file.attrValid = false → data = content

/-- Buffer and attributes are valid. -/
structure Ready (entry : Entry) (data content : List UInt8) : Prop extends
    DirFits entry data content where
  valid : ∃ file, entry = some file ∧ file.bufValid = true ∧ file.attrValid = true

namespace DirFits

variable {entry : Entry} {data content : List UInt8}

theorem of_quiet (quiet : Quiet entry) (directory : IsDirectory data) :
    DirFits entry data data where
  directory := directory
  absent _ := rfl
  buf file here valid := by
    rw [(quiet file here).1] at valid
    cases valid
  dirty file here dirty := by
    rw [(quiet file here).2.2] at dirty
    cases dirty
  attr file here valid := by
    rw [(quiet file here).2.1] at valid
    cases valid
  clean _ _ _ := rfl

/-- Without valid attributes the content is at the server. -/
theorem settled (fits : DirFits entry data content)
    (invalid : ∀ file, entry = some file → file.attrValid = false) : data = content := by
  cases entry with
  | none => exact fits.absent rfl
  | some file => exact fits.clean file rfl (Or.inr (invalid file rfl))

/-- A file that was fetched is ready. -/
theorem filled (fits : DirFits entry data content) (settled : data = content) {bytes : ℕ → UInt8}
    {f : FullFile} (buf : f.buf = data) (kind : f.attr.type = tDir) :
    Ready (some ((entry.getD (.blank bytes)).filled f)) data content where
  directory := fits.directory
  absent := by simp
  buf := by
    rintro file ⟨⟩ -
    exact buf.trans settled
  dirty := by
    rintro file ⟨⟩ -
    rfl
  attr := by
    rintro file ⟨⟩ -
    exact ⟨rfl, kind⟩
  clean _ _ _ := settled
  valid := ⟨_, rfl, rfl, rfl⟩

end DirFits

/-- A ready entry stays ready through `put`. -/
theorem Ready.written {entry : Entry} {data content : List UInt8} (ready : Ready entry data content)
    {bytes : ℕ → UInt8} {buf : List UInt8} {atime ctime mtime : ℕ} (directory : IsDirectory buf) :
    Ready (some ((entry.getD (.blank bytes)).written buf atime ctime mtime)) data buf := by
  obtain ⟨file, rfl, bufValid, attrValid⟩ := ready.valid
  have kind := (ready.attr file rfl attrValid).2
  refine ⟨⟨directory, by simp, ?_, ?_, ?_, ?_⟩, _, rfl, rfl, attrValid⟩
  · rintro f ⟨⟩ -
    rfl
  · rintro f ⟨⟩ -
    rfl
  · rintro f ⟨⟩ -
    exact ⟨rfl, kind⟩
  · rintro f ⟨⟩ (clean | invalid)
    · cases clean
    · exact absurd (attrValid.symm.trans invalid) (by simp)

/-- **The contract of a directory.**  `extra` is what else is known of an access. -/
def dirContract (d : ℕ) (extra : Op → Entry → List UInt8 → Prop) : Contract Directory Op where
  eid := d
  abs := directoryOf
  kind := (· = tDir)
  good := IsDirectory
  fits := DirFits
  guard op entry data new := Storable entry new ∧ extra op entry data
  allows req := req ≠ .remove d
  fresh _ _ quiet directory := .of_quiet quiet directory
  sound _ _ _ fits := fits.directory
  dirty file _ _ fits dirty := fits.buf file rfl (fits.dirty file rfl dirty)
  clean entry data content fits clean := by
    cases entry with
    | none => exact fits.absent rfl
    | some file => exact fits.clean file rfl (Or.inl (clean file rfl))

/-! ## Parts of operations -/

section Parts

variable {d : ℕ} {extra : Op → Entry → List UInt8 → Prop} {op : Op} {own : DirOwn} {entry : Entry}
  {data base content : List UInt8} {β : Type} {post : β → DirOwn → Option View → Prop}

theorem dirContract_drops (entry : Entry) (data : List UInt8)
    (guard : (dirContract d extra).guard op entry data none) : entry = none :=
  guard.1.1 rfl

theorem dirContract_removes : ¬ (dirContract d extra).allows (.remove (dirContract d extra).eid) :=
  fun allows => allows rfl

/-- `get` of a directory. -/
theorem wp_get {k : List UInt8 → Prog β} (fits : DirFits entry data content)
    (rest : ∀ entry, DirFits entry data content →
      Wp (dirContract d extra) (dirSpec d) op post (k content) own
        (some ⟨entry, data, base, content⟩)) :
    Wp (dirContract d extra) (dirSpec d) op post ((ExtentClient.get d).bind k) own
      (some ⟨entry, data, base, content⟩) := by
  refine Wp.get (dirSpec_deaf d own)
    (fun f here valid => ⟨fits.buf f here valid, rest entry fits⟩) (fun invalid => ?_)
  have settled : data = content := fits.settled fun file here => by
    cases valid : file.attrValid with
    | false => rfl
    | true =>
        have := (fits.attr file here valid).1
        rw [invalid file here] at this
        cases this
  exact ⟨settled, fun bytes f buf kind => rest _ (fits.filled settled buf kind).toDirFits⟩

/-- `get` of a directory whose entry is ready. -/
theorem wp_get_ready {k : List UInt8 → Prog β} (ready : Ready entry data content)
    (rest : Wp (dirContract d extra) (dirSpec d) op post (k content) own
      (some ⟨entry, data, base, content⟩)) :
    Wp (dirContract d extra) (dirSpec d) op post ((ExtentClient.get d).bind k) own
      (some ⟨entry, data, base, content⟩) := by
  refine Wp.get (dirSpec_deaf d own)
    (fun f here valid => ⟨ready.buf f here valid, rest⟩) (fun invalid => ?_)
  obtain ⟨file, here, valid, -⟩ := ready.valid
  rw [invalid file here] at valid
  cases valid

/-- `getattr` of a directory. -/
theorem wp_getattr {k : Attr → Prog β} (fits : DirFits entry data content)
    (rest : ∀ entry attr, Ready entry data content → attr.type = tDir →
      Wp (dirContract d extra) (dirSpec d) op post (k attr) own
        (some ⟨entry, data, base, content⟩)) :
    Wp (dirContract d extra) (dirSpec d) op post ((ExtentClient.getattr d).bind k) own
      (some ⟨entry, data, base, content⟩) := by
  refine Wp.getattr (dirSpec_deaf d own)
    (fun f here valid => ?_) (fun invalid bytes f buf kind => ?_)
  · obtain ⟨bufValid, kind⟩ := fits.attr f here valid
    exact rest entry f.attr ⟨fits, f, here, bufValid, valid⟩ kind
  · exact rest _ f.attr (fits.filled (fits.settled invalid) buf kind) kind

/-- **`readdir_no_seria`** returns the entries of the content. -/
theorem wp_readdirNoSeria {k : List Dirent → Prog β} (fits : DirFits entry data content)
    (rest : ∀ entry, Ready entry data content →
      Wp (dirContract d extra) (dirSpec d) op post (k (entriesOf content)) own
        (some ⟨entry, data, base, content⟩)) :
    Wp (dirContract d extra) (dirSpec d) op post ((YfsClient.readdirNoSeria d).bind k) own
      (some ⟨entry, data, base, content⟩) := by
  simp only [YfsClient.readdirNoSeria, Prog.bind_eq, Prog.bind_assoc]
  refine wp_get fits fun entry fits => wp_getattr fits fun entry attr ready kind => ?_
  rw [if_neg (by simp [kind])]
  intro stack
  have same := rest entry ready
  rw [← ready.directory.decode stack] at same
  exact same

/-- `lookup_no_seria` returns the binding of the name. -/
theorem wp_lookupNoSeria {name : List UInt8} {k : Option ℕ → Prog β}
    (fits : DirFits entry data content)
    (rest : ∀ entry, Ready entry data content →
      Wp (dirContract d extra) (dirSpec d) op post (k (directoryOf content name)) own
        (some ⟨entry, data, base, content⟩)) :
    Wp (dirContract d extra) (dirSpec d) op post ((YfsClient.lookupNoSeria d name).bind k) own
      (some ⟨entry, data, base, content⟩) := by
  simp only [YfsClient.lookupNoSeria, Prog.bind_eq, Prog.bind_assoc]
  exact wp_readdirNoSeria fits rest

/-- `put` of a directory. -/
theorem wp_put {buf : List UInt8} {k : Unit → Prog β} (ready : Ready entry data content)
    (directory : buf.length < 2 ^ 32 → IsDirectory buf)
    (rest : ∀ entry, Ready entry data buf → Wp (dirContract d extra) (dirSpec d) op post (k ()) own
      (some ⟨entry, data, base, buf⟩)) :
    Wp (dirContract d extra) (dirSpec d) op post ((ExtentClient.put d buf).bind k) own
      (some ⟨entry, data, base, content⟩) := by
  refine Wp.put fun bytes atime ctime mtime guard => ?_
  exact rest _ (ready.written (directory (guard.1.2 _ rfl)))

/-- The end of an operation: the section is one step on the map. -/
theorem wp_done {new : Option ℕ} {res : Res} (fits : DirFits entry data content)
    (step : DirStep op new (directoryOf base) res (directoryOf content)) :
    Wp (dirContract d extra) (dirSpec d) op (Finishes (dirContract d extra) (dirSpec d) op)
      (.release d (.ret res)) (.entered op new) (some ⟨entry, data, base, content⟩) :=
  Wp.leave fits
    ⟨op, new, res, rfl, rfl, step⟩ (Or.inr rfl)

/-- The beginning of an operation. -/
theorem wp_begin {next : Prog Res} (target : op.target = d)
    (rest : ∀ entry data content, DirFits entry data content →
      Wp (dirContract d extra) (dirSpec d) op (Finishes (dirContract d extra) (dirSpec d) op) next
        (.entered op none) (some ⟨entry, data, content, content⟩)) :
    Wp (dirContract d extra) (dirSpec d) op (Finishes (dirContract d extra) (dirSpec d) op)
      (.acquire d next) ((dirSpec d).begins op) none := by
  refine Wp.enter fun entry data content fits => ?_
  exact ⟨.entered op none, ⟨op, if_pos target, rfl⟩, rest entry data content fits⟩

end Parts

/-! ## The operations -/

section Operations

variable {d : ℕ} {extra : Op → Entry → List UInt8 → Prop} {name : List UInt8}

/-- What has to be shown of an operation. -/
abbrev DirOk (d : ℕ) (extra : Op → Entry → List UInt8 → Prop) (op : Op) : Prop :=
  Wp (dirContract d extra) (dirSpec d) op (Finishes (dirContract d extra) (dirSpec d) op) op.prog
    ((dirSpec d).begins op) none

/-- `lookup` reports the binding of the name. -/
theorem wp_lookup : DirOk d extra (.lookup d name) := by
  simp only [DirOk, Op.prog, Prog.result, YfsClient.lookup, Prog.bind_eq, Prog.lock_bind,
    Prog.unlock_bind, Prog.acquire_bind, Prog.release_bind, Prog.ret_bind, Prog.bind_assoc]
  refine wp_begin rfl fun entry data content fits => wp_lookupNoSeria fits fun entry ready => ?_
  exact wp_done ready.toDirFits ⟨rfl, rfl⟩

/-- `readdir` lists the map. -/
theorem wp_readdir : DirOk d extra (.readdir d) := by
  simp only [DirOk, Op.prog, Prog.result, YfsClient.readdir, Prog.bind_eq, Prog.lock_bind,
    Prog.unlock_bind, Prog.acquire_bind, Prog.release_bind, Prog.ret_bind, Prog.bind_assoc]
  refine wp_begin rfl fun entry data content fits => wp_readdirNoSeria fits fun entry ready => ?_
  exact wp_done ready.toDirFits ⟨⟨_, rfl, ready.directory.lists⟩, rfl⟩

/-- The last part of `create`, `mkdir` and `symlink`: a record is added. -/
theorem wp_bind {op : Op} {entry : Entry} {data content : List UInt8} {ino : ℕ}
    (ready : Ready entry data content) (short : name.length ≤ 64) (small : ino < 2 ^ 64)
    (new : directoryOf content name = none)
    (step : DirStep op (some ino) (directoryOf content) (.made .OK ino)
      (Function.update (directoryOf content) name (some ino))) :
    Wp (dirContract d extra) (dirSpec d) op (Finishes (dirContract d extra) (dirSpec d) op)
      ((YfsClient.newEntry name ino).bind fun record =>
        (ExtentClient.put d (content ++ record)).bind fun _ => .release d (.ret (.made .OK ino)))
      (.entered op (some ino)) (some ⟨entry, data, content, content⟩) := by
  intro bytes
  refine wp_put ready (fun bound => ?_) fun entry ready' => wp_done ready'.toDirFits ?_
  · exact (ready.directory.append short small new bound).1
  · rw [(ready.directory.append short small new ready'.directory.bound).2]
    exact step

/-- `create` binds an unbound name to the new inum. -/
theorem wp_create (short : name.length ≤ 64) : DirOk d extra (.create d name) := by
  simp only [DirOk, Op.prog, Prog.result, YfsClient.create, Prog.bind_eq, Prog.lock_bind,
    Prog.acquire_bind, Prog.bind_assoc]
  refine wp_begin rfl fun entry data content fits => wp_lookupNoSeria fits fun entry ready => ?_
  cases found : directoryOf content name with
  | some ino => exact wp_done ready.toDirFits (Or.inl ⟨ino, found, rfl, rfl⟩)
  | none =>
      simp only [Prog.bind_assoc]
      refine Wp.create fun ino ne small => ?_
      exact wp_get_ready ready
        (wp_bind ready short small found (Or.inr ⟨ino, found, rfl, rfl, rfl⟩))

/-- `mkdir` does, too. -/
theorem wp_mkdir (short : name.length ≤ 64) : DirOk d extra (.mkdir d name) := by
  simp only [DirOk, Op.prog, Prog.result, YfsClient.mkdir, Prog.bind_eq, Prog.lock_bind,
    Prog.acquire_bind, Prog.bind_assoc]
  refine wp_begin rfl fun entry data content fits => wp_lookupNoSeria fits fun entry ready => ?_
  cases found : directoryOf content name with
  | some ino => exact wp_done ready.toDirFits (Or.inl ⟨ino, found, rfl, rfl⟩)
  | none =>
      simp only [Prog.bind_assoc]
      refine wp_get_ready ready (Wp.create fun ino ne small => ?_)
      exact wp_bind ready short small found (Or.inr ⟨ino, found, rfl, rfl, rfl⟩)

/-- `symlink` does, too.  When the name is bound it keeps the lock. -/
theorem wp_symlink {link : List UInt8} (short : name.length ≤ 64) :
    DirOk d extra (.symlink d name link) := by
  simp only [DirOk, Op.prog, Prog.result, YfsClient.symlink, Prog.bind_eq, Prog.lock_bind,
    Prog.acquire_bind, Prog.bind_assoc]
  refine wp_begin rfl fun entry data content fits => wp_get fits fun entry fits =>
    wp_lookupNoSeria fits fun entry ready => ?_
  cases found : directoryOf content name with
  | some ino =>
      exact ⟨.applied _ (.made .EXIST ino), ⟨_, none, _, rfl, rfl, Or.inl ⟨ino, found, rfl, rfl⟩⟩,
        Or.inr rfl⟩
  | none =>
      simp only [Prog.bind_assoc]
      refine Wp.create fun ino ne small => ?_
      exact Wp.put_of_ne ne
        (wp_bind ready short small found (Or.inr ⟨ino, found, rfl, rfl, rfl⟩))

/-- The loop of `rmdir` makes a record of each entry. -/
theorem wp_encodeDir {op : Op} {own : DirOwn} {β : Type} {post : β → DirOwn → Option View → Prop}
    {place : Option View} {entries : List Dirent} {k : List UInt8 → Prog β}
    (rest : ∀ buf, Encodes buf entries →
      Wp (dirContract d extra) (dirSpec d) op post (k buf) own place) :
    Wp (dirContract d extra) (dirSpec d) op post
      ((YfsClient.encodeDir entries).bind k) own place := by
  induction entries generalizing k with
  | nil => exact rest [] encodes_nil
  | cons ent entries ih =>
      simp only [YfsClient.encodeDir, Prog.bind_eq, Prog.bind_assoc]
      intro bytes
      exact ih fun buf encodes => rest _ (encodes.cons bytes ent)

/-- The operations `unlink` and `rmdir` share their body. -/
theorem wp_rmdirBody {op : Op} {entry : Entry} {data content : List UInt8}
    (fits : DirFits entry data content)
    (step : ∀ res map', ((directoryOf content name = none ∧ res = .status .NOENT ∧
        map' = directoryOf content) ∨ (directoryOf content name ≠ none ∧ res = .status .OK ∧
          map' = Function.update (directoryOf content) name none)) →
      DirStep op none (directoryOf content) res map') :
    Wp (dirContract d extra) (dirSpec d) op (Finishes (dirContract d extra) (dirSpec d) op)
      ((YfsClient.readdirNoSeria d).bind fun entries =>
        Prog.bind (match entries.find? fun ent => ent.name = name with
          | none => (Prog.unlock d).bind fun _ => .ret YfsStatus.NOENT
          | some ent => (ExtentClient.remove ent.inum).bind fun _ =>
              (YfsClient.encodeDir (entries.eraseP fun ent => ent.name = name)).bind fun buf =>
                (ExtentClient.put d buf).bind fun _ => (Prog.unlock d).bind fun _ =>
                  .ret YfsStatus.OK) fun status => .ret (.status status))
      (.entered op none) (some ⟨entry, data, content, content⟩) := by
  refine wp_readdirNoSeria fits fun entry ready => ?_
  cases found : (entriesOf content).find? fun ent => ent.name = name with
  | none =>
      have unbound : directoryOf content name = none := by rw [directoryOf, bindings, found]; rfl
      exact wp_done ready.toDirFits (step _ _ (Or.inl ⟨unbound, rfl, rfl⟩))
  | some ent =>
      have bound : directoryOf content name ≠ none := by
        rw [directoryOf, bindings, found]
        simp
      simp only [Prog.bind_assoc]
      refine Wp.remove (dirSpec_deaf d _) dirContract_drops
        dirContract_removes fun _ =>
        wp_encodeDir fun buf encodes => wp_put ready
          (fun short => (ready.directory.erase encodes short).1) fun entry ready' => ?_
      refine wp_done ready'.toDirFits (step _ _ (Or.inr ⟨bound, rfl, ?_⟩))
      exact (ready.directory.erase encodes ready'.directory.bound).2

/-- `rmdir` removes a bound name. -/
theorem wp_rmdir : DirOk d extra (.rmdir d name) := by
  simp only [DirOk, Op.prog, Prog.result, YfsClient.rmdir, Prog.bind_eq, Prog.lock_bind,
    Prog.acquire_bind, Prog.bind_assoc]
  exact wp_begin rfl fun entry data content fits => wp_rmdirBody fits fun res map' step => step

/-- So does `unlink`. -/
theorem wp_unlink : DirOk d extra (.unlink d name) := by
  simp only [DirOk, Op.prog, Prog.result, YfsClient.unlink, YfsClient.rmdir, Prog.bind_eq,
    Prog.lock_bind, Prog.acquire_bind, Prog.bind_assoc]
  exact wp_begin rfl fun entry data content fits => wp_rmdirBody fits fun res map' step => step

/-- The operations that read the attributes leave the map as it is. -/
theorem wp_attributes {op : Op} {f : Attr → Res} (target : op.target = d)
    (step : ∀ map res, DirStep op none map res map)
    (prog : op.prog = (YfsClient.attributes d).bind fun attr => .ret (f attr)) :
    DirOk d extra op := by
  simp only [DirOk, prog, YfsClient.attributes, Prog.bind_eq, Prog.lock_bind, Prog.unlock_bind,
    Prog.acquire_bind, Prog.release_bind, Prog.ret_bind, Prog.bind_assoc]
  exact wp_begin target fun entry data content fits => wp_getattr fits fun entry attr ready _ =>
    wp_done ready.toDirFits (step _ _)

end Operations

/-! ## Operations on other inums -/

section Elsewhere

variable {d : ℕ} {parent : ℕ}

theorem avoids_readdirNoSeria {post : List Dirent → Prop} (ne : parent ≠ d) (all : ∀ l, post l) :
    Avoids d post (YfsClient.readdirNoSeria parent) := by
  refine .bind (.get ne fun buf => .bind (.getattr ne fun attr => ?_))
  split
  · trivial
  · exact fun stack => all _

theorem avoids_lookupNoSeria {name : List UInt8} {post : Option ℕ → Prop} (ne : parent ≠ d)
    (all : ∀ found, post found) : Avoids d post (YfsClient.lookupNoSeria parent name) :=
  .bind (avoids_readdirNoSeria ne fun _ => all _)

theorem avoids_encodeDir {entries : List Dirent} {post : List UInt8 → Prop}
    (all : ∀ buf, post buf) :
    Avoids d post (YfsClient.encodeDir entries) := by
  induction entries generalizing post with
  | nil => exact all []
  | cons ent entries ih => exact .uninitialised fun bytes => .bind (ih fun buf => all _)

theorem avoids_rmdir {name : List UInt8} {post : YfsStatus → Prop} (ne : parent ≠ d)
    (all : ∀ status, post status) : Avoids d post (YfsClient.rmdir parent name) := by
  refine .lock ne (.bind (avoids_readdirNoSeria ne fun entries => ?_))
  split
  · exact .unlock ne (all _)
  · exact .bind (.remove (.bind (avoids_encodeDir fun buf => .bind (.put ne (.unlock ne (all _))))))

theorem avoids_attributes {post : Attr → Prop} (ne : parent ≠ d) (all : ∀ attr, post attr) :
    Avoids d post (YfsClient.attributes parent) :=
  .lock ne (.bind (.getattr ne fun attr => .unlock ne (all attr)))

/-- **An operation on another inum leaves the directory alone.** -/
theorem avoids_prog {op : Op} {post : Res → Prop} (ne : op.target ≠ d) (all : ∀ res, post res) :
    Avoids d post op.prog := by
  cases op with
  | create parent name =>
      refine .bind (.lock ne (.bind (avoids_lookupNoSeria ne fun found => ?_)))
      cases found with
      | some ino => exact .unlock ne (all _)
      | none => exact .bind (.create fun ino _ => .bind (.get ne fun buf =>
          .bind (.uninitialised fun bytes => .bind (.put ne (.unlock ne (all _))))))
  | mkdir parent name =>
      refine .bind (.lock ne (.bind (avoids_lookupNoSeria ne fun found => ?_)))
      cases found with
      | some ino => exact .unlock ne (all _)
      | none => exact .bind (.get ne fun buf => .bind (.create fun ino _ =>
          .bind (.uninitialised fun bytes => .bind (.put ne (.unlock ne (all _))))))
  -- the link is put too, to the inum that the server gave, which is not `d`
  | symlink parent name link =>
      refine .bind (.lock ne (.bind (.get ne fun content =>
        .bind (avoids_lookupNoSeria ne fun found => ?_))))
      cases found with
      | some ino => exact all _
      | none => exact .bind (.create fun ino other => .bind (.put other
          (.bind (.uninitialised fun bytes => .bind (.put ne (.unlock ne (all _)))))))
  | unlink parent name => exact .bind (avoids_rmdir ne fun status => all _)
  | rmdir parent name => exact .bind (avoids_rmdir ne fun status => all _)
  | lookup parent name =>
      exact .bind (.lock ne (.bind (avoids_lookupNoSeria ne fun found => .unlock ne (all _))))
  | readdir dir =>
      exact .bind (.lock ne (.bind (avoids_readdirNoSeria ne fun l => .unlock ne (all _))))
  | read ino size off =>
      refine .bind (.lock ne (.bind (.get ne fun content => .unlock ne ?_)))
      split
      · exact all _
      · split
        · trivial
        · exact all _
  | write ino off data =>
      refine .bind (.lock ne (.bind (.get ne fun content => ?_)))
      split
      · split
        · trivial
        · exact .bind (.put ne (.unlock ne (all _)))
      · exact .bind (.put ne (.unlock ne (all _)))
  | setattr ino size =>
      exact .bind (.lock ne (.bind (.get ne fun buf => .bind (.put ne (.unlock ne (all _))))))
  | readlink ino => exact .bind (.lock ne (.bind (.get ne fun buf => .unlock ne (all _))))
  | getfile ino => exact .bind (avoids_attributes ne fun attr => all _)
  | getdir ino => exact .bind (avoids_attributes ne fun attr => all _)
  | isfile ino => exact .bind (.bind (avoids_attributes ne fun attr => all _))
  | isdir ino => exact .bind (.bind (avoids_attributes ne fun attr => all _))
  | issymlink ino => exact .bind (.bind (avoids_attributes ne fun attr => all _))
  | mount => exact .bind (.lock ne (.bind (.put ne ⟨ne, all _⟩)))

end Elsewhere

end Yfs.Client
