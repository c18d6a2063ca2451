import Mathlib.Algebra.GroupWithZero.Nat
import Yfs.Client.ExtentClient

/-!
# The file system operations

The operations of `yfs_client.cc` as programs, with the directory format they share.  A
name is the byte string before its terminator, so `strlen(name)` is its length.

An exception of `std::string` ends the process, like `exit`.

`Op` lists the operations and `Res` their results, so that machines can be defined over all of
them at once.  Every operation has one extent whose lock it takes (`Op.target`): the parent
directory, the directory itself, or the file.
-/

namespace Yfs.Client

open Storage ByteBlock

/-! ## The directory format -/

/-- `yfs_client::dirent`. -/
structure Dirent where
  name : List UInt8
  inum : ℕ
  deriving DecidableEq, Repr

/-- `sizeof(diy_dirent)`: the inum, 64 bytes of name, its length, six bytes of padding. -/
def direntSize : ℕ := 80

/-- A `diy_dirent` as bytes, on a stack that held `bytes`: the inum and `name_length` are
assigned and then `name_length` bytes of the name are copied to offset 8.

A name of more than 64 bytes runs on into `name_length` and the padding.  The record ends at byte
80, and the model cuts the copy off there; in the source the copy of a name of more than 72 bytes
runs past the struct, which has no defined behaviour. -/
def encodeDirent (bytes : ℕ → UInt8) (ent : Dirent) : List UInt8 :=
  let length := ent.name.length % 2 ^ 16
  (List.range direntSize).map fun k =>
    if 8 ≤ k ∧ k < 8 + length then ent.name.getD (k - 8) 0
    else if k < 8 then leByte ent.inum k
    else if 72 ≤ k ∧ k < 74 then leByte length (k - 72)
    else bytes k

/-- The `name_length` of a record. -/
def nameLength (record : List UInt8) : ℕ :=
  (record.getD 72 0).toNat + 256 * (record.getD 73 0).toNat

/-- The `dirent` that `readdir_no_seria` makes of one record, on a stack that holds `beyond`
after it: a name that is longer than the record goes on there. -/
def decodeDirent (beyond : ℕ → UInt8) (record : List UInt8) : Dirent where
  name := (record.drop 8).take (nameLength record) ++
    (List.range (nameLength record - (direntSize - 8))).map beyond
  inum := ((List.range 8).map fun k => 256 ^ k * (record.getD k 0).toNat).sum

/-- The loop of `readdir_no_seria`, with the stack of each of its rounds; the size is an
`unsigned int`. -/
def decodeDir (stack : ℕ → UInt8) (buf : List UInt8) : List Dirent :=
  (List.range (buf.length % 2 ^ 32 / direntSize)).map fun i =>
    decodeDirent (fun k => stack (2 ^ 16 * i + k)) ((buf.drop (direntSize * i)).take direntSize)

/-! ## Operations on directories -/

/-- The statuses of `yfs_client` that its operations return when remote calls succeed. -/
inductive YfsStatus where
  | OK | NOENT | EXIST
  deriving DecidableEq, Repr

namespace YfsClient

open Prog

/-- `readdir_no_seria`. -/
def readdirNoSeria (dir : ℕ) : Prog (List Dirent) := do
  let buf ← ExtentClient.get dir
  let attr ← ExtentClient.getattr dir
  if attr.type ≠ tDir then .exit
  else do
    let stack ← uninitialised
    .ret (decodeDir stack buf)

/-- `lookup_no_seria`: the inum of the first entry of that name. -/
def lookupNoSeria (parent : ℕ) (name : List UInt8) : Prog (Option ℕ) := do
  let entries ← readdirNoSeria parent
  .ret ((entries.find? fun ent => ent.name = name).map Dirent.inum)

/-- `lookup`. -/
def lookup (parent : ℕ) (name : List UInt8) : Prog (Option ℕ) := do
  lock parent
  let found ← lookupNoSeria parent name
  unlock parent
  .ret found

/-- `readdir`. -/
def readdir (dir : ℕ) : Prog (List Dirent) := do
  lock dir
  let entries ← readdirNoSeria dir
  unlock dir
  .ret entries

/-- The new entry of `create`, `mkdir` and `symlink`, as bytes. -/
def newEntry (name : List UInt8) (inum : ℕ) : Prog (List UInt8) := do
  let bytes ← uninitialised
  .ret (encodeDirent bytes ⟨name, inum⟩)

/-- `create`. -/
def create (parent : ℕ) (name : List UInt8) : Prog (YfsStatus × ℕ) := do
  lock parent
  let found ← lookupNoSeria parent name
  match found with
  | some ino => do
      unlock parent
      .ret (.EXIST, ino)
  | none => do
      -- the parent is read after the new file was made, and was listed before
      let ino ← ExtentClient.create tFile
      let buf ← ExtentClient.get parent
      let record ← newEntry name ino
      ExtentClient.put parent (buf ++ record)
      unlock parent
      .ret (.OK, ino)

/-- `mkdir`; it reads the parent before it creates the directory. -/
def mkdir (parent : ℕ) (name : List UInt8) : Prog (YfsStatus × ℕ) := do
  lock parent
  let found ← lookupNoSeria parent name
  match found with
  | some ino => do
      unlock parent
      .ret (.EXIST, ino)
  | none => do
      let buf ← ExtentClient.get parent
      let ino ← ExtentClient.create tDir
      let record ← newEntry name ino
      ExtentClient.put parent (buf ++ record)
      unlock parent
      .ret (.OK, ino)

/-- `symlink`; when the name exists it returns without releasing the parent.  (The inum it
found then stays in a local variable.) -/
def symlink (parent : ℕ) (name link : List UInt8) : Prog (YfsStatus × ℕ) := do
  lock parent
  -- the string of the parent, to which the new record goes in the end
  let content ← ExtentClient.get parent
  let found ← lookupNoSeria parent name
  match found with
  | some ino => .ret (.EXIST, ino)
  | none => do
      let ino ← ExtentClient.create tSlink
      -- without the lock of the new inum
      ExtentClient.put ino link
      let record ← newEntry name ino
      ExtentClient.put parent (content ++ record)
      unlock parent
      .ret (.OK, ino)

/-- The loop of `rmdir` that writes the remaining entries, each on a stack of its own. -/
def encodeDir : List Dirent → Prog (List UInt8)
  | [] => .ret []
  | ent :: rest => do
      let bytes ← uninitialised
      let buf ← encodeDir rest
      .ret (encodeDirent bytes ent ++ buf)

/-- `rmdir`. -/
def rmdir (parent : ℕ) (name : List UInt8) : Prog YfsStatus := do
  lock parent
  let entries ← readdirNoSeria parent
  match entries.find? fun ent => ent.name = name with
  | none => do
      unlock parent
      .ret .NOENT
  | some ent => do
      -- whatever it is, a directory with entries as well
      ExtentClient.remove ent.inum
      let buf ← encodeDir (entries.eraseP fun ent => ent.name = name)
      ExtentClient.put parent buf
      unlock parent
      .ret .OK

/-- `unlink`. -/
def unlink (parent : ℕ) (name : List UInt8) : Prog YfsStatus := rmdir parent name

/-! ## Operations on files -/

/-- `std::string::replace(off, size, buf)` for an offset within the string. -/
def replace (content : List UInt8) (off size : ℕ) (buf : List UInt8) : List UInt8 :=
  content.take off ++ buf ++ content.drop (off + size)

/-- `read`; the offset is compared as an `unsigned int`, and `substr` throws when it is
past the end. -/
def read (ino size off : ℕ) : Prog (List UInt8) := do
  lock ino
  let content ← ExtentClient.get ino
  unlock ino
  if content.length ≤ off % 2 ^ 32 then .ret []
  else if content.length < off then .exit
  else .ret ((content.drop off).take size)

/-- `write`, with the number of bytes it reports; `replace` throws when the offset is past
the end. -/
def write (ino off : ℕ) (data : List UInt8) : Prog ℕ := do
  lock ino
  let content ← ExtentClient.get ino
  if off % 2 ^ 32 ≤ content.length then
    -- the low word is inside but the offset is not: `replace` throws
    if content.length < off then .exit
    else do
      ExtentClient.put ino (replace content off data.length data)
      unlock ino
      .ret data.length
  else do
    -- the hole is filled with zeros; its bytes are counted as written
    let longer := resize (data.length + off) content
    ExtentClient.put ino (replace longer off data.length data)
    unlock ino
    .ret (data.length + off - content.length)

/-- `setattr`. -/
def setattr (ino size : ℕ) : Prog YfsStatus := do
  lock ino
  let buf ← ExtentClient.get ino
  ExtentClient.put ino (resize size buf)
  unlock ino
  .ret .OK

/-- `readlink`. -/
def readlink (ino : ℕ) : Prog (List UInt8) := do
  lock ino
  let buf ← ExtentClient.get ino
  unlock ino
  .ret buf

/-- The attributes, as `getfile`, `getdir`, `isfile`, `isdir` and `issymlink` read them. -/
def attributes (ino : ℕ) : Prog Attr := do
  lock ino
  let attr ← ExtentClient.getattr ino
  unlock ino
  .ret attr

/-- `getfile`. -/
def getfile (ino : ℕ) : Prog Attr := attributes ino

/-- `getdir`; callers get the three times of the attributes only. -/
def getdir (ino : ℕ) : Prog Attr := attributes ino

/-- `isfile`. -/
def isfile (ino : ℕ) : Prog Bool := do
  let attr ← attributes ino
  .ret (attr.type = tFile)

/-- `isdir`. -/
def isdir (ino : ℕ) : Prog Bool := do
  let attr ← attributes ino
  .ret (attr.type = tDir)

/-- `issymlink`. -/
def issymlink (ino : ℕ) : Prog Bool := do
  let attr ← attributes ino
  .ret (attr.type = tSlink)

/-- The constructor `yfs_client::yfs_client`. -/
def mount : Prog Unit := do
  lock 1
  -- the root is made empty, also when another client has put entries there
  ExtentClient.put 1 []
  unlock 1

end YfsClient

/-! ## All operations -/

/-- An operation of `yfs_client` with its arguments. -/
inductive Op where
  | create (parent : ℕ) (name : List UInt8)
  | mkdir (parent : ℕ) (name : List UInt8)
  | symlink (parent : ℕ) (name link : List UInt8)
  | unlink (parent : ℕ) (name : List UInt8)
  | rmdir (parent : ℕ) (name : List UInt8)
  | lookup (parent : ℕ) (name : List UInt8)
  | readdir (dir : ℕ)
  | read (ino size off : ℕ)
  | write (ino off : ℕ) (data : List UInt8)
  | setattr (ino size : ℕ)
  | readlink (ino : ℕ)
  | getfile (ino : ℕ)
  | getdir (ino : ℕ)
  | isfile (ino : ℕ)
  | isdir (ino : ℕ)
  | issymlink (ino : ℕ)
  | mount
  deriving DecidableEq, Repr

/-- What an operation returns. -/
inductive Res where
  | made (status : YfsStatus) (ino : ℕ)
  | status (status : YfsStatus)
  | found (ino : Option ℕ)
  | entries (list : List Dirent)
  | data (bytes : List UInt8)
  | written (count : ℕ)
  | attr (attr : Attr)
  | truth (answer : Bool)
  | mounted
  deriving DecidableEq, Repr

/-- The program of an operation. -/
def Op.prog : Op → Prog Res
  | .create parent name => (YfsClient.create parent name).result fun r => .made r.1 r.2
  | .mkdir parent name => (YfsClient.mkdir parent name).result fun r => .made r.1 r.2
  | .symlink parent name link => (YfsClient.symlink parent name link).result fun r => .made r.1 r.2
  | .unlink parent name => (YfsClient.unlink parent name).result .status
  | .rmdir parent name => (YfsClient.rmdir parent name).result .status
  | .lookup parent name => (YfsClient.lookup parent name).result .found
  | .readdir dir => (YfsClient.readdir dir).result .entries
  | .read ino size off => (YfsClient.read ino size off).result .data
  | .write ino off data => (YfsClient.write ino off data).result .written
  | .setattr ino size => (YfsClient.setattr ino size).result .status
  | .readlink ino => (YfsClient.readlink ino).result .data
  | .getfile ino => (YfsClient.getfile ino).result .attr
  | .getdir ino => (YfsClient.getdir ino).result .attr
  | .isfile ino => (YfsClient.isfile ino).result .truth
  | .isdir ino => (YfsClient.isdir ino).result .truth
  | .issymlink ino => (YfsClient.issymlink ino).result .truth
  | .mount => YfsClient.mount.result fun _ => .mounted

end Yfs.Client
