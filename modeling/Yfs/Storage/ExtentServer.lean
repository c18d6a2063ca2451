import Yfs.Storage.InodeManager

/-!
# The extent server

The handlers of `extent_server.cc` over the inode layer, and the server as a
machine that takes one request at a time.  `librpc` runs handlers in several
threads; the handlers share no lock, and a request is taken here as one step.

That a request is one step is an assumption on the threads of `librpc`, and the only one of this
layer.  A request that makes the process stop has no next state (`Halt`), so the runs of the
machine are those in which the server is still there.
-/

namespace Yfs.Storage

/-- A request to the extent server. -/
inductive Request where
  | create (type : ℕ)
  | put (id : ℕ) (buf : List UInt8)
  | get (id : ℕ)
  | getattr (id : ℕ)
  | remove (id : ℕ)
  deriving DecidableEq, Repr

/-- `extent_protocol::full_file`. -/
structure FullFile where
  attr : Attr
  buf : List UInt8
  deriving DecidableEq, Repr

/-- What a handler sends back; every handler returns `extent_protocol::OK`. -/
inductive Reply where
  | created (id : ℕ)
  | done
  | file (f : FullFile)
  deriving DecidableEq, Repr

/-- `id &= 0x7fffffff`, then the conversion to `uint32_t`. -/
def maskId (id : ℕ) : ℕ := id % 2 ^ 31

namespace ExtentServer

/-- `extent_server::extent_server`. -/
def boot (uninit : Inode) (now : Clock) : Except Halt BlockManager :=
  BlockManager.inodeManager uninit now

/-- `extent_server::create`. -/
def create (type : ℕ) (now : Clock) (bm : BlockManager) :
    Except Halt (Reply × BlockManager) := do
  let (inum, bm) ← bm.allocInode type now
  .ok (.created inum, bm)

/-- `extent_server::put`. -/
def put (id : ℕ) (buf : List UInt8) (now : Clock) (bm : BlockManager) :
    Except Halt (Reply × BlockManager) := do
  let bm ← bm.writeFile (maskId id) buf now
  .ok (.done, bm)

/-- `extent_server::get`: the content first, then the attributes. -/
def get (id : ℕ) (now : Clock) (bm : BlockManager) :
    Except Halt (Reply × BlockManager) := do
  let ((cbuf, size), bm) ← bm.readFile (maskId id) now
  let attr ← bm.getattr (maskId id)
  .ok (.file { attr := attr, buf := if size = 0 then [] else cbuf.take size }, bm)

/-- `extent_server::getattr`: the attributes first, then the content as well. -/
def getattr (id : ℕ) (now : Clock) (bm : BlockManager) :
    Except Halt (Reply × BlockManager) := do
  let attr ← bm.getattr (maskId id)
  let ((cbuf, size), bm) ← bm.readFile (maskId id) now
  .ok (.file { attr := attr, buf := if size = 0 then [] else cbuf.take size }, bm)

/-- `extent_server::remove`. -/
def remove (id : ℕ) (bm : BlockManager) : Except Halt (Reply × BlockManager) := do
  let bm ← bm.removeFile (maskId id)
  .ok (.done, bm)

/-- One request. -/
def handle (now : Clock) : Request → BlockManager → Except Halt (Reply × BlockManager)
  | .create type, bm => create type now bm
  | .put id buf, bm => put id buf now bm
  | .get id, bm => get id now bm
  | .getattr id, bm => getattr id now bm
  | .remove id, bm => remove id bm

end ExtentServer

end Yfs.Storage
