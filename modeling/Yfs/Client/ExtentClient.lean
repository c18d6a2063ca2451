import Yfs.Client.Prog

/-!
# The extent client

The functions of `extent_client.cc`, for remote calls that succeed.

Each function is written with its accesses in the order of the source.  An access is the whole
of what the function does to one entry between two remote calls, and it may depend on the entry
it finds.  Memory that the source does not initialise is asked for by `Prog.uninitialised`, so
nothing can be shown that depends on what it holds.
-/

namespace Yfs.Client

open Storage

/-- The attributes of a reply; a reply without any is never sent. -/
def replyFile : Reply → FullFile
  | .file f => f
  | _ => ⟨⟨0, 0, 0, 0, 0⟩, []⟩

/-- The id in the reply to `create`. -/
def replyId : Reply → ℕ
  | .created id => id
  | _ => 0

/-- Four bytes of uninitialised memory, as a word. -/
def wordOfMemory (bytes : ℕ → UInt8) (off : ℕ) : ℕ :=
  (bytes off).toNat + 256 * (bytes (off + 1)).toNat + 256 ^ 2 * (bytes (off + 2)).toNat +
    256 ^ 3 * (bytes (off + 3)).toNat

/-- The attributes that uninitialised memory holds. -/
def attrOfMemory (bytes : ℕ → UInt8) : Attr where
  type := wordOfMemory bytes 0
  atime := wordOfMemory bytes 4
  mtime := wordOfMemory bytes 8
  ctime := wordOfMemory bytes 12
  size := wordOfMemory bytes 16

namespace CachedFile

/-- `new cached_file()`: the flags are cleared, the attributes are not initialised. -/
def blank (bytes : ℕ → UInt8) : CachedFile := ⟨attrOfMemory bytes, [], false, false, false⟩

/-- The entry after a reply of the server was stored. -/
def filled (file : CachedFile) (f : FullFile) : CachedFile :=
  { file with attr := f.attr, buf := f.buf, bufValid := true, attrValid := true }

/-- The entry after `put`. -/
def written (file : CachedFile) (buf : List UInt8) (atime ctime mtime : ℕ) : CachedFile :=
  { file with
    dirty := true
    bufValid := true
    buf := buf
    attr := { file.attr with atime, ctime, mtime, size := buf.length % 2 ^ 32 } }

/-- The entry after the first part of `sync`. -/
def invalid (file : CachedFile) : CachedFile := { file with bufValid := false, attrValid := false }

/-- The entry after the remote call of `sync`. -/
def clean (file : CachedFile) : CachedFile := { file with dirty := false }

end CachedFile

/-- The string of an extent as the client that has its lock finds it: in the cache, or at the
server. -/
def current (entry : Entry) (data : List UInt8) : List UInt8 :=
  entry.elim data fun file => if file.bufValid then file.buf else data

namespace ExtentClient

/-- `extent_client::create`. -/
def create (type : ℕ) : Prog ℕ := do
  let bytes ← .uninitialised
  let atime ← .now
  let ctime ← .now
  let mtime ← .now
  let attr := { attrOfMemory bytes with type, atime, ctime, mtime }
  -- whatever was cached under the id is replaced, and nothing else in `attr` is assigned
  let reply ← .rpc (.create type)
  let id := replyId reply
  .entry id (fun _ => some ⟨attr, [], true, true, false⟩) (fun _ => none) fun _ => .ret id

/-- What `get` and `getattr` do on a miss, after the remote call. -/
def fill (eid : ℕ) (note : Option Note) (f : FullFile) : Prog FullFile := do
  let bytes ← .uninitialised
  .entry eid (fun file => some ((file.getD (.blank bytes)).filled f)) (fun _ => note) fun _ =>
    .ret f

/-- `extent_client::get`. -/
def get (eid : ℕ) : Prog (List UInt8) :=
  .entry eid id (fun file =>
      match file with
      | some ⟨_, buf, true, _, _⟩ => some (.got eid buf)
      | _ => none) fun file =>
    match file with
    | some ⟨_, buf, true, _, _⟩ => .ret buf
    -- a miss; it fills the attributes as well
    | _ => do
        let reply ← .rpc (.get eid)
        let f ← fill eid (some (.got eid (replyFile reply).buf)) (replyFile reply)
        .ret f.buf

/-- `extent_client::getattr`. -/
def getattr (eid : ℕ) : Prog Attr :=
  .entry eid id (fun _ => none) fun file =>
    match file with
    | some ⟨attr, _, _, true, _⟩ => .ret attr
    -- a miss; the buffer goes too, even if it was not flushed
    | _ => do
        let reply ← .rpc (.getattr eid)
        let f ← fill eid none (replyFile reply)
        .ret f.attr

/-- `extent_client::put`. -/
def put (eid : ℕ) (buf : List UInt8) : Prog Unit := do
  let bytes ← .uninitialised
  let atime ← .now
  let ctime ← .now
  let mtime ← .now
  -- `dirty` and `buf_valid` are set, and `attr_valid` stays as it was
  .entry eid (fun file => some ((file.getD (.blank bytes)).written buf atime ctime mtime))
    (fun _ => some (.put eid buf)) fun _ => .ret ()

/-- `extent_client::remove`. -/
def remove (eid : ℕ) : Prog Unit :=
  -- a dirty buffer is dropped with its entry
  .entry eid (fun _ => none) (fun _ => none) fun _ => do
    let _ ← .rpc (.remove eid)
    .ret ()

/-- `extent_client::sync`. -/
def sync (eid : ℕ) : Prog Unit :=
  -- invalid from the start on, while the call is under way as well
  .entry eid (fun file => file.map CachedFile.invalid) (fun _ => none) fun file =>
    match file with
    | some ⟨_, buf, _, _, true⟩ => do
        let _ ← .rpc (.put eid buf)
        -- `dirty` is cleared whatever the entry has become meanwhile
        .entry eid (fun file => file.map CachedFile.clean) (fun _ => none) fun _ => .ret ()
    | _ => .ret ()

end ExtentClient

end Yfs.Client
