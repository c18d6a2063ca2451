import Yfs.Client.DirFormat
import Yfs.Client.FileContent
import Yfs.Client.Fuse

/-!
# The file system that the handlers are for

What the kernel may rely on: inums refer to files, directories and symbolic links; a directory
is a map from names to inums.

This is a specification and is not translated from the source.  It says what the replies of a
daemon should be, with three concessions to what the code does: the size of a file is open until
its first write, times are open, and the reply to a write counts the hole that it fills.

* `FileSystem`, `FileSystem.Stats` — the state, and the attributes that it has.
* `FileSystem.Step` — which reply a request may get, and what it does; `FileSystem.Step.unique`:
  the reply tells what it did.
* `FileSystem.Asks` — what the kernel asks: inums that it has been told, of the kind that the
  request is for, names that fit a record, offsets below `2 ^ 32`.  It does not unlink
  directories, and it does not make a link where there is something, for it has looked.
-/

namespace Yfs.Client

open Storage ByteBlock

/-- What an inum refers to. -/
inductive Node where
  | file (content : List UInt8)
  | dir (entries : Directory)
  | link (target : List UInt8)

/-- **A file system.** The size of a file is reported from the time on that it is first written
(`sized`).

Nothing of clients, caches or strings of records is left here.  Times are not part of it, and a
reply may show any. -/
structure FileSystem where
  node : ℕ → Option Node
  sized : ℕ → Prop

/-- A request that makes an entry, what it makes, and how it is answered. -/
inductive FuseRequest.Makes :
    FuseRequest → ℕ → List UInt8 → Node → (EntryParam → FuseReply) → Prop
  | create {parent : ℕ} {name : List UInt8} :
      Makes (.create parent name) parent name (.file []) .create
  | mknod {parent : ℕ} {name : List UInt8} :
      Makes (.mknod parent name) parent name (.file []) .entry
  | mkdir {parent : ℕ} {name : List UInt8} :
      Makes (.mkdir parent name) parent name (.dir fun _ => none) .entry
  | symlink {link : List UInt8} {parent : ℕ} {name : List UInt8} :
      Makes (.symlink link parent name) parent name (.link link) .entry

namespace FileSystem

/-- An empty root directory. -/
def empty : FileSystem where
  node := Function.update (fun _ => none) 1 (some (.dir fun _ => none))
  sized _ := False

theorem empty_node :
    empty.node = Function.update (fun _ => none) 1 (some (.dir fun _ => none)) := rfl

variable (fs : FileSystem)

/-- A file gets another string. -/
def store (ino : ℕ) (content : List UInt8) : FileSystem where
  node := Function.update fs.node ino (some (.file content))
  sized i := i = ino ∨ fs.sized i

/-- A new inum, and an entry for it. -/
def add (parent : ℕ) (entries : Directory) (name : List UInt8) (ino : ℕ) (node : Node) :
    FileSystem where
  node := Function.update (Function.update fs.node ino (some node)) parent
    (some (.dir (Function.update entries name (some ino))))
  sized := fs.sized

/-- An entry is removed, and its inum. -/
def remove (parent : ℕ) (entries : Directory) (name : List UInt8) (ino : ℕ) : FileSystem where
  node := Function.update (Function.update fs.node ino none) parent
    (some (.dir (Function.update entries name none)))
  sized i := i ≠ ino ∧ fs.sized i

theorem store_node (ino : ℕ) (content : List UInt8) :
    (fs.store ino content).node = Function.update fs.node ino (some (.file content)) := rfl

theorem add_node (parent : ℕ) (entries : Directory) (name : List UInt8) (ino : ℕ) (node : Node) :
    (fs.add parent entries name ino node).node = Function.update (Function.update fs.node ino
      (some node)) parent (some (.dir (Function.update entries name (some ino)))) := rfl

theorem remove_node (parent : ℕ) (entries : Directory) (name : List UInt8) (ino : ℕ) :
    (fs.remove parent entries name ino).node = Function.update (Function.update fs.node ino none)
      parent (some (.dir (Function.update entries name none))) := rfl

/-- Type, permissions and number of links, as they are reported, and the size of a file. -/
def Shown (ino : ℕ) (st : Stat) : Node → Prop
  | .file content => st.mode = sIFREG ||| 0o666 ∧ st.nlink = 1 ∧
      (fs.sized ino → st.size = content.length)
  | .dir _ => st.mode = sIFDIR ||| 0o777 ∧ st.nlink = 2 ∧ st.size = 0
  | .link _ => st.mode = sIFLNK ||| 0o777 ∧ st.nlink = 1 ∧ st.size = 0

/-- **The attributes of an inum.** -/
def Stats (ino : ℕ) (st : Stat) : Prop :=
  st.ino = ino ∧ ∃ node, fs.node ino = some node ∧ fs.Shown ino st node

variable (lib : Libfuse)

/-- **A request, its reply, and the file system after it.** -/
inductive Step : FuseRequest → FuseReply → FileSystem → Prop
  | getattr {ino : ℕ} {st : Stat} (stats : fs.Stats ino st) : Step (.getattr ino) (.attr st) fs
  | setattr {ino toSet size : ℕ} {st : Stat} {content : List UInt8}
      (file : fs.node ino = some (.file content)) (sizes : fuseSetAttrSize &&& toSet ≠ 0)
      (stats : (fs.store ino (resize size content)).Stats ino st) :
      Step (.setattr ino toSet size) (.attr st) (fs.store ino (resize size content))
  | setattrOther {ino toSet size : ℕ} (others : fuseSetAttrSize &&& toSet = 0) :
      Step (.setattr ino toSet size) (.err eNOSYS) fs
  | read {ino size off : ℕ} {content : List UInt8} (file : fs.node ino = some (.file content)) :
      Step (.read ino size off) (.buf ((content.drop off).take size)) fs
  /-- A hole is counted among the bytes written. -/
  | write {ino off : ℕ} {data content : List UInt8} (file : fs.node ino = some (.file content)) :
      Step (.write ino data off) (.write (data.length + (off - content.length)))
        (fs.store ino (overwritten content off data))
  | made {q : FuseRequest} {parent ino : ℕ} {name : List UInt8} {node : Node}
      {answer : EntryParam → FuseReply} {entries : Directory} {st : Stat}
      (makes : q.Makes parent name node answer) (dir : fs.node parent = some (.dir entries))
      (unbound : entries name = none) (low : 2 ≤ ino) (high : ino ≤ inodeNum)
      (free : fs.node ino = none) (stats : (fs.add parent entries name ino node).Stats ino st) :
      Step q (answer ⟨ino, st⟩) (fs.add parent entries name ino node)
  | exist {q : FuseRequest} {parent ino : ℕ} {name : List UInt8} {node : Node}
      {answer : EntryParam → FuseReply} {entries : Directory}
      (makes : q.Makes parent name node answer) (dir : fs.node parent = some (.dir entries))
      (bound : entries name = some ino) : Step q (.err eEXIST) fs
  | found {parent ino : ℕ} {name : List UInt8} {entries : Directory} {st : Stat}
      (dir : fs.node parent = some (.dir entries)) (bound : entries name = some ino)
      (stats : fs.Stats ino st) : Step (.lookup parent name) (.entry ⟨ino, st⟩) fs
  | notFound {parent : ℕ} {name : List UInt8} {entries : Directory}
      (dir : fs.node parent = some (.dir entries)) (unbound : entries name = none) :
      Step (.lookup parent name) (.err eNOENT) fs
  /-- A part of the listing of all entries. -/
  | readdir {ino size off : ℕ} {entries : Directory} {list : List Dirent}
      (dir : fs.node ino = some (.dir entries)) (lists : Lists list entries) :
      Step (.readdir ino size off) (.buf (replyBufLimited (dirbuf lib list) off size)) fs
  | notDirectory {ino size off : ℕ} (other : ∀ entries, fs.node ino ≠ some (.dir entries)) :
      Step (.readdir ino size off) (.err enotdir) fs
  | opened {ino : ℕ} : Step (.opened ino) .opened fs
  | unlinked {parent ino : ℕ} {name : List UInt8} {entries : Directory}
      (dir : fs.node parent = some (.dir entries)) (bound : entries name = some ino) :
      Step (.unlink parent name) (.err 0) (fs.remove parent entries name ino)
  | missing {parent : ℕ} {name : List UInt8} {entries : Directory}
      (dir : fs.node parent = some (.dir entries)) (unbound : entries name = none) :
      Step (.unlink parent name) (.err eNOENT) fs
  | readlink {ino : ℕ} {target : List UInt8} (link : fs.node ino = some (.link target)) :
      Step (.readlink ino) (.readlink (cString target)) fs
  | statfs : Step .statfs (.statfs 255 512) fs

section

variable {lib : Libfuse} {fs fs' fs'' : FileSystem} {q : FuseRequest} {reply reply' : FuseReply}

/-- A file, a directory. -/
theorem dir_unique {ino : ℕ} {entries entries' : Directory}
    (dir : fs.node ino = some (.dir entries))
    (dir' : fs.node ino = some (.dir entries')) : entries = entries' := by
  rw [dir] at dir'
  cases dir'
  rfl

theorem file_unique {ino : ℕ} {content content' : List UInt8}
    (file : fs.node ino = some (.file content)) (file' : fs.node ino = some (.file content')) :
    content = content' := by
  rw [file] at file'
  cases file'
  rfl

/-- What a request that makes an entry may do. -/
theorem Step.eq_of_makes {parent : ℕ} {name : List UInt8} {node : Node}
    {answer : EntryParam → FuseReply} (makes : q.Makes parent name node answer)
    (step : fs.Step lib q reply fs') :
    (reply = .err eEXIST ∧ fs' = fs) ∨ ∃ ino st entries, reply = answer ⟨ino, st⟩ ∧
      fs.node parent = some (.dir entries) ∧ fs' = fs.add parent entries name ino node := by
  cases makes
  all_goals
    cases step with
    | made makes dir =>
        cases makes
        exact Or.inr ⟨_, _, _, rfl, dir, rfl⟩
    | exist => exact Or.inl ⟨rfl, rfl⟩

/-- **The reply determines the file system after it.** -/
theorem Step.unique (first : fs.Step lib q reply fs') (second : fs.Step lib q reply fs'') :
    fs' = fs'' := by
  -- four requests make an entry and are treated as one; the others by cases on both steps
  by_cases makes : ∃ parent name node answer, q.Makes parent name node answer
  · obtain ⟨parent, name, node, answer, makes⟩ := makes
    have differ : ∀ e, answer e ≠ .err eEXIST := by
      cases makes
      all_goals rintro e ⟨⟩
    have same : ∀ e e', answer e = answer e' → e = e' := by
      cases makes
      all_goals
        rintro e e' ⟨⟩
        rfl
    rcases first.eq_of_makes makes with ⟨rfl, rfl⟩ | ⟨ino, st, entries, rfl, dir, rfl⟩
    · rcases second.eq_of_makes makes with ⟨-, rfl⟩ | ⟨ino, st, entries, eq, -, -⟩
      · rfl
      · exact absurd eq.symm (differ _)
    · rcases second.eq_of_makes makes with ⟨eq, -⟩ | ⟨ino', st', entries', eq, dir', rfl⟩
      · exact absurd eq (differ _)
      · cases same _ _ eq
        rw [dir_unique dir dir']
  · generalize eq : reply = reply' at second
    cases first with
    | setattr file sizes =>
        cases second with
        | setattr file' => rw [file_unique file file']
        | setattrOther others => exact absurd others sizes
        | made made => exact absurd ⟨_, _, _, _, made⟩ makes
        | exist made => exact absurd ⟨_, _, _, _, made⟩ makes
    | setattrOther others =>
        cases second with
        | setattr _ sizes => exact absurd others sizes
        | setattrOther => rfl
        | made made => exact absurd ⟨_, _, _, _, made⟩ makes
        | exist made => exact absurd ⟨_, _, _, _, made⟩ makes
    | write file =>
        cases second with
        | write file' => rw [file_unique file file']
        | made made => exact absurd ⟨_, _, _, _, made⟩ makes
        | exist made => exact absurd ⟨_, _, _, _, made⟩ makes
    | unlinked dir bound =>
        cases second with
        | unlinked dir' bound' =>
            rw [dir_unique dir dir'] at bound ⊢
            rw [bound] at bound'
            cases bound'
            rfl
        | missing dir' unbound =>
            rw [dir_unique dir dir', unbound] at bound
            cases bound
        | made made => exact absurd ⟨_, _, _, _, made⟩ makes
        | exist made => exact absurd ⟨_, _, _, _, made⟩ makes
    | missing dir unbound =>
        cases second with
        | unlinked dir' bound =>
            rw [dir_unique dir dir', bound] at unbound
            cases unbound
        | missing => rfl
        | made made => exact absurd ⟨_, _, _, _, made⟩ makes
        | exist made => exact absurd ⟨_, _, _, _, made⟩ makes
    | made made => exact absurd ⟨_, _, _, _, made⟩ makes
    | exist made => exact absurd ⟨_, _, _, _, made⟩ makes
    | _ =>
        cases second with
        | made made => exact absurd ⟨_, _, _, _, made⟩ makes
        | exist made => exact absurd ⟨_, _, _, _, made⟩ makes
        | _ => rfl

end

/-- **What the kernel asks.** -/
def Asks : FuseRequest → Prop
  | .getattr ino | .readdir ino _ _ => fs.node ino ≠ none
  | .setattr ino toSet size => fuseSetAttrSize &&& toSet ≠ 0 →
      (∃ content, fs.node ino = some (.file content)) ∧ size < 2 ^ 32
  | .read ino _ off => (∃ content, fs.node ino = some (.file content)) ∧ off < 2 ^ 32
  | .write ino data off => (∃ content, fs.node ino = some (.file content)) ∧
      off + data.length < 2 ^ 32
  | .create parent name | .mknod parent name | .mkdir parent name =>
      (∃ entries, fs.node parent = some (.dir entries)) ∧ name.length ≤ 64
  | .symlink _ parent name => (∃ entries, fs.node parent = some (.dir entries) ∧
      entries name = none) ∧ name.length ≤ 64
  | .lookup parent _ => ∃ entries, fs.node parent = some (.dir entries)
  | .unlink parent name => ∃ entries, fs.node parent = some (.dir entries) ∧
      ∀ ino sub, entries name = some ino → fs.node ino ≠ some (.dir sub)
  | .readlink ino => ∃ target, fs.node ino = some (.link target)
  | .opened _ | .statfs => True

end FileSystem

end Yfs.Client
