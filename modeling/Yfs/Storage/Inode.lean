import Yfs.Storage.BlockManager

/-!
# The inode and its place on the disk

`struct inode` of `inode_manager.h`, laid out as the compiler lays it out: a
16-bit type, two bytes of padding, four 32-bit words and an array of
`NDIRECT + 1` block ids, 424 bytes at the start of the inode's own block (`IPB`
is 1).  `ofBlock` is the cast `(struct inode *) buf` followed by the struct copy,
`storeInto` the copy in the other direction; the padding and the rest of the block
keep their bytes.

The fields are 16- and 32-bit machine words.  They are modelled as natural
numbers and truncated when they are stored, so what is read back is the word that
a machine holds (`ofBlock_storeInto`).
-/

namespace Yfs.Storage

open ByteBlock

/-- `struct inode`. -/
@[ext]
structure Inode where
  type : ℕ
  size : ℕ
  atime : ℕ
  mtime : ℕ
  ctime : ℕ
  blocks : Fin (ndirect + 1) → ℕ

namespace Inode

/-- `blocks[NDIRECT]`, the id of the indirect block. -/
def indirect (ino : Inode) : ℕ := ino.blocks (Fin.last ndirect)

/-- The inode at the start of a block. -/
def ofBlock (b : Block) : Inode where
  type := word16 b 0
  size := word32 b 4
  atime := word32 b 8
  mtime := word32 b 12
  ctime := word32 b 16
  blocks := fun i => word32 b (20 + 4 * i)

/-- `*ino_disk = *ino`: the struct's bytes over the start of the block. -/
def storeInto (ino : Inode) (b : Block) : Block :=
  ofBytes fun k =>
    if k < 2 then leByte ino.type k
    else if k < 4 then byteAt b k
    else if k < 8 then leByte ino.size (k - 4)
    else if k < 12 then leByte ino.atime (k - 8)
    else if k < 16 then leByte ino.mtime (k - 12)
    else if k < 20 then leByte ino.ctime (k - 16)
    else if h : k < 424 then
      leByte (ino.blocks ⟨(k - 20) / 4, by simp only [ndirect]; omega⟩) ((k - 20) % 4)
    else byteAt b k

/-- The inode a machine word representation can hold: every field cut to its
width. -/
def truncate (ino : Inode) : Inode where
  type := ino.type % 2 ^ 16
  size := ino.size % 2 ^ 32
  atime := ino.atime % 2 ^ 32
  mtime := ino.mtime % 2 ^ 32
  ctime := ino.ctime % 2 ^ 32
  blocks := fun i => ino.blocks i % 2 ^ 32

/-- **Storing and loading an inode** gives back its fields at their widths. -/
theorem ofBlock_storeInto (ino : Inode) (b : Block) :
    ofBlock (ino.storeInto b) = ino.truncate := by
  have bound : blockSize = 512 := rfl
  refine Inode.ext ?_ ?_ ?_ ?_ ?_ ?_
  · refine word16_eq_of_bytes fun k hk => ?_
    rw [storeInto, byteAt_ofBytes _ (by omega), if_pos (by omega), Nat.zero_add]
  · refine word32_eq_of_bytes fun k hk => ?_
    rw [storeInto, byteAt_ofBytes _ (by omega)]
    rw [if_neg (by omega), if_neg (by omega), if_pos (by omega)]
    congr 1
    omega
  · refine word32_eq_of_bytes fun k hk => ?_
    rw [storeInto, byteAt_ofBytes _ (by omega)]
    rw [if_neg (by omega), if_neg (by omega), if_neg (by omega), if_pos (by omega)]
    congr 1
    omega
  · refine word32_eq_of_bytes fun k hk => ?_
    rw [storeInto, byteAt_ofBytes _ (by omega)]
    rw [if_neg (by omega), if_neg (by omega), if_neg (by omega), if_neg (by omega),
      if_pos (by omega)]
    congr 1
    omega
  · refine word32_eq_of_bytes fun k hk => ?_
    rw [storeInto, byteAt_ofBytes _ (by omega)]
    rw [if_neg (by omega), if_neg (by omega), if_neg (by omega), if_neg (by omega),
      if_neg (by omega), if_pos (by omega)]
    congr 1
    omega
  · funext i
    have hi : i.val < 101 := i.isLt
    refine word32_eq_of_bytes fun k hk => ?_
    rw [storeInto, byteAt_ofBytes _ (by omega)]
    rw [if_neg (by omega), if_neg (by omega), if_neg (by omega), if_neg (by omega),
      if_neg (by omega), if_neg (by omega), dif_pos (by omega)]
    congr 1
    · congr 1
      ext
      simp only
      omega
    · omega

end Inode

end Yfs.Storage
