import Yfs.Client.Listing

/-!
# The request handlers

`fuse.cc`: each request of the kernel is handled by calls of `yfs_client`, one after the other,
and answered by one `fuse_reply_…`.  The handlers are routines here, with every status that
the calls can have; `FuseRequest.handler` is the table that `main` gives to libfuse.

Strings that libfuse hands over (names and the targets of links) end at their terminator.

libfuse appears twice: it calls a handler with the request, and it lays out the records of a
listing. The second is a parameter (`Libfuse`), with the law that a record that came whole is
read back.
-/

namespace Yfs.Client

open Storage

/-! ## Numbers -/

def eNOENT : ℤ := 2
def eEXIST : ℤ := 17
def eNOSYS : ℤ := 38
def eNOTEMPTY : ℤ := 39

/-- `S_IFREG`, `S_IFDIR` and `S_IFLNK`. -/
def sIFREG : ℕ := 0o100000
def sIFDIR : ℕ := 0o040000
def sIFLNK : ℕ := 0o120000

/-- `FUSE_SET_ATTR_SIZE`. -/
def fuseSetAttrSize : ℕ := 8

/-- The numbers of `yfs_client::xxstatus`. -/
def YfsStatus.code : YfsStatus → ℤ
  | .OK => 0
  | .NOENT => 2
  | .EXIST => 4

/-! ## Replies -/

/-- `struct stat`, with the fields that `getattr` sets. -/
structure Stat where
  ino : ℕ
  mode : ℕ
  nlink : ℕ
  size : ℕ
  atime : ℕ
  mtime : ℕ
  ctime : ℕ
  deriving DecidableEq, Repr

/-- After `bzero`, with `st_ino` set. -/
def Stat.zero (ino : ℕ) : Stat := ⟨ino, 0, 0, 0, 0, 0, 0⟩

/-- `fuse_entry_param`; the timeouts and the generation are always 0. -/
structure EntryParam where
  ino : ℕ
  attr : Stat
  deriving DecidableEq, Repr

/-- What a handler answers: which `fuse_reply_…` it calls.  `err 0` is success. -/
inductive FuseReply where
  | err (errno : ℤ)
  | attr (st : Stat)
  | entry (e : EntryParam)
  | create (e : EntryParam)
  | opened
  | buf (bytes : List UInt8)
  | write (count : ℕ)
  | readlink (link : List UInt8)
  | statfs (namemax bsize : ℕ)
  deriving DecidableEq, Repr

/-! ## Attributes -/

/-- `getattr`: its status, and what it leaves in `st`.  The type of the inum is asked for once
more to be printed, and twice for a directory or a link. -/
def fuseGetattr (inum : ℕ) : Routine (ℤ × Stat) :=
  (Routine.isType tFile inum).bind fun _ => (Routine.isType tFile inum).bind fun isfile =>
    if isfile then
      (Routine.attributes inum).bind fun info =>
        match info with
        | .error status => .ret (status, .zero inum)
        | .ok info =>
            .ret (0, ⟨inum, sIFREG ||| 0o666, 1, info.size, info.atime, info.mtime, info.ctime⟩)
    else
      (Routine.attributes inum).bind fun info =>
        match info with
        | .error status => .ret (status, .zero inum)
        | .ok info =>
            (Routine.isType tDir inum).bind fun isdir =>
              (Routine.isType tDir inum).bind fun isdir' =>
                .ret (0, ⟨inum, (if isdir then sIFDIR else sIFLNK) ||| 0o777,
                  if isdir' then 2 else 1, 0, info.atime, info.mtime, info.ctime⟩)

/-- `fuseserver_getattr`. -/
def fuseserverGetattr (ino : ℕ) : Routine FuseReply :=
  (fuseGetattr ino).bind fun r => .ret (if r.1 ≠ 0 then .err eNOENT else .attr r.2)

/-- `fuseserver_setattr`; it looks at no status. -/
def fuseserverSetattr (ino toSet size : ℕ) : Routine FuseReply :=
  if fuseSetAttrSize &&& toSet ≠ 0 then
    (Routine.setattr ino size).bind fun _ => (fuseGetattr ino).bind fun r => .ret (.attr r.2)
  else .ret (.err eNOSYS)

/-! ## Files -/

/-- `fuseserver_read`; `read` has no other status than `OK`. -/
def fuseserverRead (ino size off : ℕ) : Routine FuseReply :=
  (Routine.read ino size off).bind fun buf => .ret (.buf buf)

/-- `fuseserver_write`: `write` leaves the number of bytes in `size`, and has no other status
than `OK`. -/
def fuseserverWrite (ino : ℕ) (data : List UInt8) (off : ℕ) : Routine FuseReply :=
  (Routine.write ino off data).bind fun count => .ret (.write count)

/-- `fuseserver_readlink`; the reply is a C string. -/
def fuseserverReadlink (ino : ℕ) : Routine FuseReply :=
  (Routine.readlink ino).bind fun r =>
    match r with
    | .error _ => .ret (.err eNOENT)
    | .ok buf => .ret (.readlink (cString buf))

/-! ## Directories -/

/-- `fuseserver_createhelper`: a status that is not `OK`, or the entry. -/
def fuseserverCreatehelper (parent : ℕ) (name : List UInt8) (type : ℕ) :
    Routine (Except ℤ EntryParam) :=
  (if type = tFile then Routine.createFile parent name else Routine.mkdir parent name).bind fun r =>
    if r.1 ≠ .OK then .ret (.error r.1.code)
    else (fuseGetattr r.2).bind fun a => .ret (if a.1 ≠ 0 then .error a.1 else .ok ⟨r.2, a.2⟩)

/-- What `fuseserver_create`, `fuseserver_mknod` and `fuseserver_mkdir` reply. -/
def replyMade (answer : EntryParam → FuseReply) : Except ℤ EntryParam → FuseReply
  | .ok e => answer e
  | .error status => if status = YfsStatus.code .EXIST then .err eEXIST else .err eNOENT

/-- `fuseserver_create`. -/
def fuseserverCreate (parent : ℕ) (name : List UInt8) : Routine FuseReply :=
  (fuseserverCreatehelper parent name tFile).bind fun r => .ret (replyMade .create r)

/-- `fuseserver_mknod`. -/
def fuseserverMknod (parent : ℕ) (name : List UInt8) : Routine FuseReply :=
  (fuseserverCreatehelper parent name tFile).bind fun r => .ret (replyMade .entry r)

/-- `fuseserver_mkdir`. -/
def fuseserverMkdir (parent : ℕ) (name : List UInt8) : Routine FuseReply :=
  (fuseserverCreatehelper parent name tDir).bind fun r => .ret (replyMade .entry r)

/-- `fuseserver_symlink`. -/
def fuseserverSymlink (link : List UInt8) (parent : ℕ) (name : List UInt8) : Routine FuseReply :=
  (Routine.symlink parent name link).bind fun r =>
    match r with
    | .error status => .ret (if status = YfsStatus.code .EXIST then .err eEXIST else .err eNOENT)
    | .ok (status, id) =>
        if status ≠ .OK then
          .ret (if status.code = YfsStatus.code .EXIST then .err eEXIST else .err eNOENT)
        else (fuseGetattr id).bind fun a => .ret (if a.1 ≠ 0 then .err eNOENT else .entry ⟨id, a.2⟩)

/-- `fuseserver_lookup`; it does not look at the status of `getattr`. -/
def fuseserverLookup (parent : ℕ) (name : List UInt8) : Routine FuseReply :=
  (Routine.lookup parent name).bind fun found =>
    match found with
    | some ino => (fuseGetattr ino).bind fun r => .ret (.entry ⟨ino, r.2⟩)
    | none => .ret (.err eNOENT)

/-- `fuseserver_unlink`. -/
def fuseserverUnlink (parent : ℕ) (name : List UInt8) : Routine FuseReply :=
  (Routine.rmdir parent name).bind fun r =>
    .ret (if r = .OK then .err 0 else if r = .NOENT then .err eNOENT else .err eNOTEMPTY)

/-! ## All requests -/

/-- A request of the kernel, with what its handler looks at. -/
inductive FuseRequest where
  | getattr (ino : ℕ)
  | setattr (ino toSet size : ℕ)
  | read (ino size off : ℕ)
  | write (ino : ℕ) (data : List UInt8) (off : ℕ)
  | create (parent : ℕ) (name : List UInt8)
  | mknod (parent : ℕ) (name : List UInt8)
  | mkdir (parent : ℕ) (name : List UInt8)
  | symlink (link : List UInt8) (parent : ℕ) (name : List UInt8)
  | lookup (parent : ℕ) (name : List UInt8)
  | readdir (ino size off : ℕ)
  | opened (ino : ℕ)
  | unlink (parent : ℕ) (name : List UInt8)
  | readlink (ino : ℕ)
  | statfs
  deriving DecidableEq, Repr

/-- The handlers, as `main` registers them. -/
def FuseRequest.handler (lib : Libfuse) : FuseRequest → Routine FuseReply
  | .getattr ino => fuseserverGetattr ino
  | .setattr ino toSet size => fuseserverSetattr ino toSet size
  | .read ino size off => fuseserverRead ino size off
  | .write ino data off => fuseserverWrite ino data off
  | .create parent name => fuseserverCreate parent name
  | .mknod parent name => fuseserverMknod parent name
  | .mkdir parent name => fuseserverMkdir parent name
  | .symlink link parent name => fuseserverSymlink link parent name
  | .lookup parent name => fuseserverLookup parent name
  | .readdir ino size off => (fuseserverReaddir lib ino size off).bind fun r =>
      match r with
      | .error errno => .ret (.err errno)
      | .ok bytes => .ret (.buf bytes)
  | .opened _ => .ret .opened
  | .unlink parent name => fuseserverUnlink parent name
  | .readlink ino => fuseserverReadlink ino
  | .statfs => .ret (.statfs 255 512)

end Yfs.Client
