import Yfs.Lib.ByteBlock
import Mathlib.Logic.Function.Basic

/-!
# The disk and the block layer

The two lower layers of `inode_manager.cc`: `disk`, an array of `BLOCK_NUM`
blocks of `BLOCK_SIZE` bytes, and `block_manager`, which adds the allocation map
`using_blocks` and hands out blocks of the data region.

The constants are those of `inode_manager.h`.  The superblock's `nblocks` is set
to `BLOCK_NUM` once and never changes, so `IBLOCK` is used at that value
throughout.

## How the process stops

The storage code gives up in four places by calling `exit(0)`, and it can leave
the bounds of a fixed-size buffer or use one that was never filled.  `Halt`
names each of these, so that "the server does not stop" is a statement about the
model and not a convention of it.
-/

namespace Yfs.Storage

open ByteBlock

/-- `BLOCK_SIZE`. -/
def blockSize : ℕ := 512

/-- `BLOCK_NUM`, the number of blocks of the 16 MiB disk. -/
def blockNum : ℕ := 1024 * 1024 * 16 / blockSize

/-- `INODE_NUM`. -/
def inodeNum : ℕ := 1024

/-- `IPB`, inodes per block. -/
def ipb : ℕ := 1

/-- `BPB`, bitmap bits per block. -/
def bpb : ℕ := blockSize * 8

/-- `IBLOCK(i, BLOCK_NUM)`, the block that holds inode `i`. -/
def iblock (i : ℕ) : ℕ := blockNum / bpb + i / ipb + 3

/-- `NDIRECT`. -/
def ndirect : ℕ := 100

/-- `NINDIRECT`, the number of block ids in one indirect block. -/
def nindirect : ℕ := blockSize / 4

/-- `MAXFILE`, the largest number of blocks of a file. -/
def maxfile : ℕ := ndirect + nindirect

/-- The first block of the data region, `IBLOCK(INODE_NUM, BLOCK_NUM) + 1`. -/
def dataStart : ℕ := iblock inodeNum + 1

theorem iblock_eq (i : ℕ) : iblock i = i + 11 := by
  simp only [iblock, blockNum, bpb, blockSize, ipb]
  omega

theorem dataStart_eq : dataStart = 1036 := by
  rw [dataStart, iblock_eq, inodeNum]

theorem blockNum_eq : blockNum = 32768 := rfl

theorem nindirect_eq : nindirect = 128 := rfl

/-- One disk block. -/
abbrev Block := Vector UInt8 blockSize

/-- Why the extent server stops: the `exit(0)` calls of the storage code, and the
two ways it can step outside what the language defines. -/
inductive Halt where
  /-- `alloc_block` found no free block. -/
  | noFreeBlock
  /-- `alloc_inode` found no free inode. -/
  | noFreeInode
  /-- `get_inode` was called with an inum outside `1..INODE_NUM`. -/
  | badInum
  /-- `read_file` met a size above `MAXFILE * BLOCK_SIZE`. -/
  | fileTooBig
  /-- A fixed-size buffer was indexed past its end. -/
  | overrun
  /-- A buffer was used that `read_block` had left unfilled. -/
  | uninitRead
  deriving DecidableEq, Repr

/-- `block_manager`: the disk's blocks and `using_blocks`, whose absent entries
read as `0`. -/
structure BlockManager where
  blocks : ℕ → Block
  usingBlocks : ℕ → ℕ

namespace BlockManager

/-- A freshly formatted disk: `bzero`ed blocks, nothing in use. -/
def fresh : BlockManager where
  blocks := fun _ => Vector.replicate blockSize 0
  usingBlocks := fun _ => 0

/-- `read_block`.  For an id past the disk the code returns without touching the
caller's buffer; every caller then uses that buffer. -/
def readBlock (bm : BlockManager) (id : ℕ) : Except Halt Block :=
  if id < blockNum then .ok (bm.blocks id) else .error .uninitRead

/-- `write_block`.  A write past the disk is dropped. -/
def writeBlock (bm : BlockManager) (id : ℕ) (buf : Block) : BlockManager :=
  if id < blockNum then
    { bm with blocks := Function.update bm.blocks id buf }
  else bm

/-- `alloc_block`: the first block of the data region that is not in use. -/
def allocBlock (bm : BlockManager) : Except Halt (ℕ × BlockManager) :=
  match (List.range' dataStart (blockNum - dataStart)).find?
      (fun i => bm.usingBlocks i == 0) with
  | some i => .ok (i, { bm with usingBlocks := Function.update bm.usingBlocks i 1 })
  | none => .error .noFreeBlock

/-- `free_block`. -/
def freeBlock (bm : BlockManager) (id : ℕ) : BlockManager :=
  { bm with usingBlocks := Function.update bm.usingBlocks id 0 }

/-! ## What each operation touches -/

@[simp] theorem freeBlock_blocks (bm : BlockManager) (id : ℕ) :
    (bm.freeBlock id).blocks = bm.blocks := rfl

@[simp] theorem freeBlock_usingBlocks (bm : BlockManager) (id : ℕ) :
    (bm.freeBlock id).usingBlocks = Function.update bm.usingBlocks id 0 := rfl

@[simp] theorem writeBlock_usingBlocks (bm : BlockManager) (id : ℕ) (buf : Block) :
    (bm.writeBlock id buf).usingBlocks = bm.usingBlocks := by
  unfold writeBlock
  split <;> rfl

theorem writeBlock_blocks {bm : BlockManager} {id : ℕ} (h : id < blockNum)
    (buf : Block) : (bm.writeBlock id buf).blocks = Function.update bm.blocks id buf := by
  simp [writeBlock, h]

@[simp] theorem readBlock_of_lt {bm : BlockManager} {id : ℕ} (h : id < blockNum) :
    bm.readBlock id = .ok (bm.blocks id) := by
  simp [readBlock, h]

/-- What a successful `alloc_block` did: the block is of the data region, was
free, and is the only entry of the map that changed. -/
theorem allocBlock_ok {bm bm' : BlockManager} {id : ℕ}
    (h : bm.allocBlock = .ok (id, bm')) :
    dataStart ≤ id ∧ id < blockNum ∧ bm.usingBlocks id = 0 ∧
      bm' = { bm with usingBlocks := Function.update bm.usingBlocks id 1 } := by
  unfold allocBlock at h
  cases found : (List.range' dataStart (blockNum - dataStart)).find?
      (fun i => bm.usingBlocks i == 0) with
  | none => simp [found] at h
  | some i =>
      simp only [found, Except.ok.injEq, Prod.mk.injEq] at h
      obtain ⟨rfl, rfl⟩ := h
      have free := List.find?_some found
      have mem := List.mem_of_find?_eq_some found
      rw [List.mem_range'_1] at mem
      have : dataStart ≤ blockNum := by rw [dataStart_eq, blockNum_eq]; omega
      exact ⟨mem.1, by omega, by simpa using free, rfl⟩

/-- `alloc_block` succeeds exactly when some block of the data region is free;
otherwise it stops the server, and with no other outcome. -/
theorem allocBlock_error {bm : BlockManager} {e : Halt} (h : bm.allocBlock = .error e) :
    e = .noFreeBlock ∧ ∀ b, dataStart ≤ b → b < blockNum → bm.usingBlocks b ≠ 0 := by
  unfold allocBlock at h
  cases found : (List.range' dataStart (blockNum - dataStart)).find?
      (fun i => bm.usingBlocks i == 0) with
  | some i => simp [found] at h
  | none =>
      simp only [found, Except.error.injEq] at h
      refine ⟨h.symm, fun b low high used => ?_⟩
      rw [List.find?_eq_none] at found
      exact found b (by rw [List.mem_range'_1]; omega) (by simpa using used)

end BlockManager

end Yfs.Storage
