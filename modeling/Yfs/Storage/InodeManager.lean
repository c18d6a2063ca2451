import Yfs.Storage.Inode

/-!
# The inode layer

`inode_manager` of `inode_manager.cc`, function by function.  Every function takes
the block manager and returns the new one, or the reason why the process stops
there (`Halt`).  The `for` loops over block indices are the structural recursions
`freeBlocks`, `allocBlocks`, `writeBlocks` and `readBlocks`, each counting the
iterations that are left.

`time(NULL)` is the argument `now`: `now k` is the value of the `k`-th call of
`time` that the function makes.

Each function keeps the order of reads and writes of the source.  What a function does to the
disk as a whole is said in `Storage.Layout` and `Storage.WriteFile`, and proofs about callers
use those lemmas and do not open the functions again.
-/

namespace Yfs.Storage

open ByteBlock

/-- The values of the successive calls of `time(NULL)` while one request runs. -/
abbrev Clock := ℕ → ℕ

/-- `ROUND_UP_DEVISION(a, b)`. -/
def roundUpDevision (a b : ℕ) : ℕ := a / b + (if a % b = 0 then 0 else 1)

/-- The first `BLOCK_SIZE` bytes behind `buf.data()`; a shorter string is read past
its end. -/
def blockOfString (buf : List UInt8) : Except Halt Block :=
  if blockSize ≤ buf.length then .ok (chunk buf 0) else .error .overrun

/-- `extent_protocol::types`. -/
def tDir : ℕ := 1

@[inherit_doc tDir] def tFile : ℕ := 2

@[inherit_doc tDir] def tSlink : ℕ := 3

/-- `extent_protocol::attr`. -/
structure Attr where
  type : ℕ
  atime : ℕ
  mtime : ℕ
  ctime : ℕ
  size : ℕ
  deriving DecidableEq, Repr

namespace BlockManager

variable (bm : BlockManager)

/-! ## Block ids of a file -/

/-- `get_blockid_in_inode`. -/
def getBlockidInInode (ino : Inode) (index : ℕ) : Except Halt ℕ :=
  if h : index < ndirect then .ok (ino.blocks ⟨index, by omega⟩)
  else do
    -- `blocks[NDIRECT]`, which nothing ever assigns
    let inblock ← bm.readBlock ino.indirect
    if index - ndirect < nindirect then .ok (word32 inblock (4 * (index - ndirect)))
    else .error .overrun

/-- `read_block_in_inode`. -/
def readBlockInInode (ino : Inode) (index : ℕ) : Except Halt (List UInt8) := do
  let id ← bm.getBlockidInInode ino index
  let content ← bm.readBlock id
  .ok content.toList

/-- `write_block_in_inode`. -/
def writeBlockInInode (ino : Inode) (index : ℕ) (buf : List UInt8) :
    Except Halt BlockManager := do
  let id ← bm.getBlockidInInode ino index
  let content ← blockOfString buf
  .ok (bm.writeBlock id content)

/-- `alloc_block_in_inode`: a fresh block becomes the file's block `index`, in the
inode itself or through the indirect block `blocks[NDIRECT]`. -/
def allocBlockInInode (ino : Inode) (index : ℕ) (buf : List UInt8)
    (writeThrough : Bool) : Except Halt (Inode × BlockManager) := do
  let (id, bm) ← bm.allocBlock
  let bm ← if writeThrough then do
      let content ← blockOfString buf
      .ok (bm.writeBlock id content)
    else .ok bm
  -- the id goes to the inode in memory, or to the indirect block on the disk
  if h : index < ndirect then
    .ok ({ ino with blocks := Function.update ino.blocks ⟨index, by omega⟩ id }, bm)
  else do
    let inblock ← bm.readBlock ino.indirect
    if index - ndirect < nindirect then
      .ok (ino, bm.writeBlock ino.indirect (storeWord32 inblock (4 * (index - ndirect)) id))
    else .error .overrun

/-- `free_block_in_inode`. -/
def freeBlockInInode (ino : Inode) (index : ℕ) : Except Halt BlockManager := do
  let id ← bm.getBlockidInInode ino index
  .ok (bm.freeBlock id)

/-! ## Inodes -/

/-- `get_inode`. -/
def getInode (inum : ℕ) : Except Halt Inode :=
  if inum = 0 ∨ inodeNum < inum then .error .badInum
  else do
    let buf ← bm.readBlock (iblock inum)
    .ok (Inode.ofBlock buf)

/-- `put_inode`. -/
def putInode (inum : ℕ) (ino : Inode) : Except Halt BlockManager := do
  let buf ← bm.readBlock (iblock inum)
  .ok (bm.writeBlock (iblock inum) (ino.storeInto buf))

/-- `inode_manager::inode_manager`.  The stack variable `root` is only partly
initialised: `uninit` is whatever its bytes were. -/
def inodeManager (uninit : Inode) (now : Clock) : Except Halt BlockManager :=
  fresh.putInode 1 { uninit with type := tDir, size := 0, atime := now 0 }

/-- `alloc_inode`: the first inode from 2 on whose type is 0.  The new inode keeps
the times and the block list its place on the disk had before. -/
def allocInode (type : ℕ) (now : Clock) : Except Halt (ℕ × BlockManager) :=
  match (List.range' 2 (inodeNum - 1)).find?
      (fun i => (Inode.ofBlock (bm.blocks (iblock i))).type == 0) with
  | none => .error .noFreeInode
  | some inum => do
      let ino ← bm.getInode inum
      let bm ← bm.putInode inum
        { ino with type := type % 2 ^ 16, size := 0, atime := now 0 }
      .ok (inum, bm)

/-- `free_inode`: only the type is cleared. -/
def freeInode (inum : ℕ) : Except Halt BlockManager := do
  let ino ← bm.getInode inum
  -- the size and the block list stay
  bm.putInode inum { ino with type := 0 }

/-! ## Files -/

/-- The read loop of `read_file`, from block `start` on for `count` blocks. -/
def readBlocks (ino : Inode) : ℕ → ℕ → Except Halt (List UInt8)
  | _, 0 => .ok []
  | start, count + 1 => do
      let content ← bm.readBlockInInode ino start
      let rest ← readBlocks ino (start + 1) count
      .ok (content ++ rest)

/-- `read_file`: the blocks' bytes and the size. -/
def readFile (inum : ℕ) (now : Clock) :
    Except Halt ((List UInt8 × ℕ) × BlockManager) := do
  let ino ← bm.getInode inum
  if ino.size = 0 then .ok (([], 0), bm)
  else if maxfile * blockSize < ino.size then .error .fileTooBig
  else do
    let blockNum := roundUpDevision ino.size blockSize
    let content ← bm.readBlocks ino 0 blockNum
    -- reading is a write of the inode
    let bm ← bm.putInode inum { ino with atime := now 0 }
    .ok ((content, ino.size), bm)

end BlockManager

/-- The freeing loop of `write_file` and `remove_file`. -/
def freeBlocks (ino : Inode) : ℕ → ℕ → BlockManager → Except Halt BlockManager
  | _, 0, bm => .ok bm
  | start, count + 1, bm => do
      let bm ← bm.freeBlockInInode ino start
      freeBlocks ino (start + 1) count bm

/-- The allocating loop of `write_file`. -/
def allocBlocks : ℕ → ℕ → Inode → BlockManager → Except Halt (Inode × BlockManager)
  | _, 0, ino, bm => .ok (ino, bm)
  | start, count + 1, ino, bm => do
      let (ino, bm) ← bm.allocBlockInInode ino start [] false
      allocBlocks (start + 1) count ino bm

/-- The loop of `write_file` over the blocks before the last. -/
def writeBlocks (ino : Inode) (buf : List UInt8) :
    ℕ → ℕ → BlockManager → Except Halt BlockManager
  | _, 0, bm => .ok bm
  | start, count + 1, bm => do
      let content := (buf.drop (blockSize * start)).take blockSize
      let bm ← bm.writeBlockInInode ino start content
      writeBlocks ino buf (start + 1) count bm

namespace BlockManager

variable (bm : BlockManager)

/-- The first part of `write_file`: free or allocate blocks for the new count. -/
def resizeBlocks (ino : Inode) (blkNumOri blkNumNew : ℕ) :
    Except Halt (Inode × BlockManager) :=
  if blkNumNew < blkNumOri then do
    let bm ← freeBlocks ino blkNumNew (blkNumOri - blkNumNew) bm
    .ok (ino, bm)
  else if blkNumOri < blkNumNew then
    allocBlocks blkNumOri (blkNumNew - blkNumOri) ino bm
  else .ok (ino, bm)

/-- The second part of `write_file`: the whole blocks, then the last one padded
with zeros.  The arithmetic is that of `uint32_t`. -/
def writeContent (ino : Inode) (buf : List UInt8) (size blkNumNew : ℕ) :
    Except Halt BlockManager :=
  if blkNumNew = 0 then .ok bm
  else do
    let bm ← writeBlocks ino buf 0 (blkNumNew - 1) bm
    let paddingBytes := (blkNumNew * blockSize + 2 ^ 32 - size) % 2 ^ 32
    let tailBytes := (blockSize + 2 ^ 32 - paddingBytes) % 2 ^ 32
    let content := resize blockSize ((buf.drop (blockSize * (blkNumNew - 1))).take tailBytes)
    bm.writeBlockInInode ino (blkNumNew - 1) content

/-- `write_file`.  The string's length passes through an `int`. -/
def writeFile (inum : ℕ) (buf : List UInt8) (now : Clock) :
    Except Halt BlockManager := do
  let ino ← bm.getInode inum
  let size := buf.length % 2 ^ 32
  let blkNumOri := roundUpDevision ino.size blockSize
  let blkNumNew := roundUpDevision size blockSize
  let (ino, bm) ← bm.resizeBlocks ino blkNumOri blkNumNew
  -- the inode goes to the disk at the end, after all the blocks
  let ino := { ino with size := size }
  let bm ← bm.writeContent ino buf size blkNumNew
  bm.putInode inum { ino with atime := now 0, mtime := now 1, ctime := now 2 }

/-- `remove_file`, with its own formula for the number of blocks. -/
def removeFile (inum : ℕ) : Except Halt BlockManager := do
  let ino ← bm.getInode inum
  let size := ino.size
  let blockNum := if size = 0 then 0 else (size - 1) / blockSize + 1
  let bm ← freeBlocks ino 0 blockNum bm
  bm.freeInode inum

/-- The attributes of an inode.  The type is a `short` and is sign-extended. -/
def attrOf (ino : Inode) : Attr where
  type := if ino.type < 2 ^ 15 then ino.type else ino.type + (2 ^ 32 - 2 ^ 16)
  atime := ino.atime
  mtime := ino.mtime
  ctime := ino.ctime
  size := ino.size

/-- `getattr`. -/
def getattr (inum : ℕ) : Except Halt Attr := do
  let ino ← bm.getInode inum
  .ok (attrOf ino)

end BlockManager

end Yfs.Storage
