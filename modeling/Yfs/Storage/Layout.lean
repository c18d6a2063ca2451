import Yfs.Storage.ExtentServer
import Mathlib.Data.Finset.Card
import Mathlib.Order.Interval.Finset.Nat

/-!
# What is where on the disk

Total views of the disk, and one specification lemma for each function of the
inode layer in terms of them:

The views are total, where the functions of the source may stop the process: a lemma then says
under which condition the function answers, and that its answer is the view.  So the rest of the
development speaks of blocks and bytes, and of the exits of the code in these lemmas only.

* `inodeAt bm i` — the inode of inum `i`;
* `blockId bm ino j` — the id of block `j` of the file with inode `ino`;
* `fileIds`, `fileData` — the block ids and the bytes of a file;
* `freeSet` — the free blocks of the data region.

A file's block list beyond `NDIRECT` is read through block `ino.indirect`.  No code
ever sets that field, so outside the root inode, whose bytes were never
initialised, it is the zero of the formatted disk.  The lemmas below ask for
`Reaches ino n`: the first `n` ids are direct ones, or the indirect block is block
0.
-/

namespace Yfs.Storage

open ByteBlock

/-! ## Block counts -/

/-- The number of blocks of a file of `size` bytes. -/
def nblk (size : ℕ) : ℕ := roundUpDevision size blockSize

theorem nblk_eq (size : ℕ) : nblk size = (size + 511) / 512 := by
  rw [nblk, roundUpDevision, blockSize]
  by_cases whole : size % 512 = 0
  · rw [if_pos whole]
    omega
  · rw [if_neg whole]
    omega

/-- `remove_file` counts the blocks with a formula of its own; it agrees. -/
theorem nblk_eq_removeFile (size : ℕ) :
    (if size = 0 then 0 else (size - 1) / blockSize + 1) = nblk size := by
  rw [nblk_eq, blockSize]
  split <;> omega

theorem nblk_le_iff (size n : ℕ) : nblk size ≤ n ↔ size ≤ n * blockSize := by
  rw [nblk_eq, blockSize]
  omega

theorem le_mul_nblk (size : ℕ) : size ≤ blockSize * nblk size := by
  rw [nblk_eq, blockSize]
  omega

theorem nblk_eq_zero (size : ℕ) : nblk size = 0 ↔ size = 0 := by
  rw [nblk_eq]
  omega

namespace BlockManager

variable {bm : BlockManager} {ino : Inode} {i j n start : ℕ}

/-! ## Views -/

/-- The inode of inum `i`. -/
def inodeAt (bm : BlockManager) (i : ℕ) : Inode := Inode.ofBlock (bm.blocks (iblock i))

/-- The id of block `j` of a file. -/
def blockId (bm : BlockManager) (ino : Inode) (j : ℕ) : ℕ :=
  if h : j < ndirect then ino.blocks ⟨j, Nat.lt_succ_of_lt h⟩
  else word32 (bm.blocks ino.indirect) (4 * (j - ndirect))

/-- The block ids of a file, in order. -/
def fileIds (bm : BlockManager) (ino : Inode) : List ℕ :=
  (List.range (nblk ino.size)).map (bm.blockId ino)

/-- The bytes of a file. -/
def fileData (bm : BlockManager) (ino : Inode) : List UInt8 :=
  ((bm.fileIds ino).flatMap fun b => (bm.blocks b).toList).take ino.size

/-- The first `n` block ids are found in the inode itself or through block 0. -/
def Reaches (ino : Inode) (n : ℕ) : Prop := n ≤ ndirect ∨ ino.indirect = 0

/-- A block of the data region. -/
def InData (b : ℕ) : Prop := dataStart ≤ b ∧ b < blockNum

/-- The free blocks of the data region. -/
def freeSet (bm : BlockManager) : Finset ℕ :=
  (Finset.Ico dataStart blockNum).filter fun b => bm.usingBlocks b = 0

theorem mem_freeSet {b : ℕ} : b ∈ bm.freeSet ↔ InData b ∧ bm.usingBlocks b = 0 := by
  simp [freeSet, InData]

theorem Reaches.mono {m : ℕ} (h : Reaches ino n) (le : m ≤ n) : Reaches ino m :=
  h.imp (fun direct => le.trans direct) id

theorem Reaches.direct_or (h : Reaches ino n) (lt : j < n) :
    j < ndirect ∨ ino.indirect = 0 :=
  h.imp (fun direct => by omega) id

/-! ## Inodes are read and written whole -/

theorem getInode_ok (pos : 1 ≤ i) (le : i ≤ inodeNum) :
    bm.getInode i = .ok (bm.inodeAt i) := by
  have lt : iblock i < blockNum := by
    rw [iblock_eq, blockNum_eq]
    simp only [inodeNum] at le
    omega
  rw [getInode, if_neg (by omega), readBlock_of_lt lt]
  rfl

/-- The disk after `put_inode`. -/
def setInode (bm : BlockManager) (i : ℕ) (ino : Inode) : BlockManager :=
  { bm with
    blocks := Function.update bm.blocks (iblock i) (ino.storeInto (bm.blocks (iblock i))) }

theorem putInode_ok (le : i ≤ inodeNum) : bm.putInode i ino = .ok (bm.setInode i ino) := by
  have lt : iblock i < blockNum := by
    rw [iblock_eq, blockNum_eq]
    simp only [inodeNum] at le
    omega
  rw [putInode, readBlock_of_lt lt]
  simp [writeBlock, lt, setInode, bind, Except.bind]

@[simp] theorem setInode_usingBlocks : (bm.setInode i ino).usingBlocks = bm.usingBlocks := rfl

theorem setInode_blocks_of_ne {b : ℕ} (h : b ≠ iblock i) :
    (bm.setInode i ino).blocks b = bm.blocks b := by
  simp [setInode, h]

@[simp] theorem inodeAt_setInode_self : (bm.setInode i ino).inodeAt i = ino.truncate := by
  simp only [inodeAt, setInode, Function.update_self, Inode.ofBlock_storeInto]

theorem inodeAt_setInode_of_ne {k : ℕ} (h : k ≠ i) :
    (bm.setInode i ino).inodeAt k = bm.inodeAt k := by
  rw [inodeAt, setInode_blocks_of_ne, inodeAt]
  rw [iblock_eq, iblock_eq]
  omega

/-! ## Block ids -/

/-- A file's ids depend on the disk through block 0 only. -/
theorem blockId_congr {bm' : BlockManager} {ino' : Inode}
    (same : ino'.blocks = ino.blocks) (reach : j < ndirect ∨ ino.indirect = 0)
    (table : ¬ j < ndirect → bm'.blocks 0 = bm.blocks 0) :
    bm'.blockId ino' j = bm.blockId ino j := by
  unfold blockId Inode.indirect
  rw [same]
  split
  · rfl
  · rename_i h
    have zero : ino.blocks (Fin.last ndirect) = 0 := reach.resolve_left h
    rw [zero, table h]

theorem getBlockidInInode_ok (reach : j < ndirect ∨ ino.indirect = 0) (bound : j < maxfile) :
    bm.getBlockidInInode ino j = .ok (bm.blockId ino j) := by
  unfold getBlockidInInode blockId
  split
  · rfl
  · rename_i h
    have zero : ino.indirect = 0 := reach.resolve_left h
    have bound' : j - ndirect < nindirect := by
      simp only [maxfile] at bound
      omega
    rw [zero, readBlock_of_lt (by rw [blockNum_eq]; omega)]
    simp [bind, Except.bind, bound']

/-! ## The freeing loop -/

/-- `freeBlocks` clears the map at the ids of the range and does nothing else. -/
theorem freeBlocks_ok (reach : Reaches ino (start + n)) (bound : start + n ≤ maxfile) :
    freeBlocks ino start n bm = .ok { bm with
      usingBlocks := fun b =>
        if b ∈ (List.range' start n).map (bm.blockId ino) then 0 else bm.usingBlocks b } := by
  induction n generalizing start bm with
  | zero => simp [freeBlocks]
  | succ n ih =>
      have here : bm.getBlockidInInode ino start = .ok (bm.blockId ino start) :=
        getBlockidInInode_ok (reach.direct_or (by omega)) (by omega)
      have same : (bm.freeBlock (bm.blockId ino start)).blockId ino = bm.blockId ino := rfl
      rw [freeBlocks, freeBlockInInode, here]
      simp only [bind, Except.bind]
      rw [ih (by rwa [Nat.add_right_comm, Nat.add_assoc]) (by omega), same]
      congr 2
      funext b
      rw [List.range'_succ, List.map_cons, freeBlock_usingBlocks]
      by_cases first : b = bm.blockId ino start
      · simp [first]
      · simp only [List.mem_cons, first, false_or, Function.update_of_ne, ne_eq,
          not_false_eq_true]

/-! ## The allocating loop -/

theorem allocBlock_of_freeSet (h : bm.freeSet.Nonempty) :
    ∃ id, InData id ∧ bm.usingBlocks id = 0 ∧
      bm.allocBlock = .ok (id, { bm with usingBlocks := Function.update bm.usingBlocks id 1 }) := by
  cases out : bm.allocBlock with
  | error e =>
      obtain ⟨b, mem⟩ := h
      obtain ⟨⟨low, high⟩, free⟩ := mem_freeSet.mp mem
      exact absurd free ((allocBlock_error out).2 b low high)
  | ok r =>
      obtain ⟨id, bm'⟩ := r
      obtain ⟨low, high, free, rfl⟩ := allocBlock_ok out
      exact ⟨id, ⟨low, high⟩, free, rfl⟩

theorem allocBlock_of_freeSet_empty (h : bm.freeSet = ∅) :
    bm.allocBlock = .error .noFreeBlock := by
  cases out : bm.allocBlock with
  | error e => rw [(allocBlock_error out).1]
  | ok r =>
      obtain ⟨id, bm'⟩ := r
      obtain ⟨low, high, free, -⟩ := allocBlock_ok out
      have : id ∈ bm.freeSet := mem_freeSet.mpr ⟨⟨low, high⟩, free⟩
      rw [h] at this
      exact absurd this (Finset.notMem_empty id)

/-- What growing a file by the blocks `start, …, start + n - 1` does: the new ids are free blocks
of the data region, they are marked, and the file's list is extended by them.  Beside the map only
block 0 can change, and only for indices past `NDIRECT`.

The last four fields are about the block list.  The new inode has the old list with the new ids
behind it, and what is not among them is where it was, as long as the list can be reached at all.
-/
structure Grown (bm : BlockManager) (ino : Inode) (start n : ℕ) (ids : List ℕ)
    (ino' : Inode) (bm' : BlockManager) : Prop where
  length : ids.length = n
  nodup : ids.Nodup
  inData : ∀ b ∈ ids, InData b
  wasFree : ∀ b ∈ ids, bm.usingBlocks b = 0
  marked : bm'.usingBlocks = fun b => if b ∈ ids then 1 else bm.usingBlocks b
  otherBlocks : ∀ b, b ≠ 0 → bm'.blocks b = bm.blocks b
  direct : start + n ≤ ndirect → bm'.blocks = bm.blocks
  fields : ino' = { ino with blocks := ino'.blocks }
  indirect : ino'.indirect = ino.indirect
  blockId_new : ∀ k, (h : k < ids.length) → bm'.blockId ino' (start + k) = ids[k]
  blockId_old : ∀ j < maxfile, j < ndirect ∨ ino.indirect = 0 →
    (j < start ∨ start + n ≤ j) → bm'.blockId ino' j = bm.blockId ino j

/-- Growing by `n` blocks uses up `n` free blocks. -/
theorem Grown.card_freeSet {ids : List ℕ} {ino' : Inode} {bm' : BlockManager}
    (grown : Grown bm ino start n ids ino' bm') :
    bm'.freeSet.card + n = bm.freeSet.card := by
  have sub : ids.toFinset ⊆ bm.freeSet := fun b mem =>
    have mem := List.mem_toFinset.mp mem
    mem_freeSet.mpr ⟨grown.inData b mem, grown.wasFree b mem⟩
  have eq : bm'.freeSet = bm.freeSet \ ids.toFinset := by
    ext b
    rw [Finset.mem_sdiff, mem_freeSet, mem_freeSet, grown.marked, List.mem_toFinset]
    by_cases h : b ∈ ids
    · simp [h]
    · simp [h]
  have card := Finset.card_sdiff_add_card_eq_card sub
  rwa [← eq, List.toFinset_card_of_nodup grown.nodup, grown.length] at card

/-- One iteration of the allocating loop. -/
theorem allocBlockInInode_ok {id : ℕ} (reach : j < ndirect ∨ ino.indirect = 0)
    (bound : j < maxfile) (inData : InData id) (free : bm.usingBlocks id = 0)
    (alloc : bm.allocBlock =
      .ok (id, { bm with usingBlocks := Function.update bm.usingBlocks id 1 })) :
    ∃ ino' bm', bm.allocBlockInInode ino j [] false = .ok (ino', bm') ∧
      Grown bm ino j 1 [id] ino' bm' := by
  have small : id < 2 ^ 32 := by
    have := inData.2
    rw [blockNum_eq] at this
    omega
  -- the id goes into the inode, or into the table in block 0
  by_cases direct : j < ndirect
  · refine ⟨{ ino with blocks := Function.update ino.blocks ⟨j, by omega⟩ id },
      { bm with usingBlocks := Function.update bm.usingBlocks id 1 }, ?_, ?_⟩
    · simp [allocBlockInInode, alloc, direct, bind, Except.bind]
    · have last : Fin.last ndirect ≠ ⟨j, by omega⟩ := by
        intro h
        have := congrArg Fin.val h
        simp at this
        omega
      refine ⟨rfl, by simp, by simpa using inData, by simpa using free, ?_, fun _ _ => rfl,
        fun _ => rfl, rfl, by simp [Inode.indirect, last], ?_, ?_⟩
      · funext b
        by_cases h : b = id
        · simp [h]
        · simp [h]
      · intro k hk
        have : k = 0 := by simpa using hk
        subst this
        simp [blockId, direct]
      · intro j' _ _ other
        unfold blockId Inode.indirect
        simp only
        split
        · rw [Function.update_of_ne]
          intro h
          have := congrArg Fin.val h
          simp at this
          omega
        · rw [Function.update_of_ne last]
  · have zero : ino.indirect = 0 := reach.resolve_left direct
    have inBlock : j - ndirect < nindirect := by
      simp only [maxfile] at bound
      omega
    have zeroLt : 0 < blockNum := by rw [blockNum_eq]; omega
    have idPos : id ≠ 0 := by
      have := inData.1
      rw [dataStart_eq] at this
      omega
    have fits : 4 * (j - ndirect) + 4 ≤ blockSize := by
      rw [nindirect_eq] at inBlock
      simp only [blockSize]
      omega
    -- the indirect block is read, changed and written back
    let table := storeWord32 (bm.blocks 0) (4 * (j - ndirect)) id
    refine ⟨ino, { blocks := Function.update bm.blocks 0 table
                   usingBlocks := Function.update bm.usingBlocks id 1 }, ?_, ?_⟩
    · simp [allocBlockInInode, alloc, direct, zero, inBlock, bind, Except.bind, writeBlock,
        readBlock, zeroLt, table]
    · refine ⟨rfl, by simp, by simpa using inData, by simpa using free, ?_, ?_,
        fun h => absurd h (by omega), rfl, rfl, ?_, ?_⟩
      · funext b
        by_cases h : b = id
        · simp [h]
        · simp [h]
      · intro b hb
        simp [hb]
      · intro k hk
        have : k = 0 := by simpa using hk
        subst this
        simp only [Nat.add_zero, blockId, direct, dif_neg, not_false_eq_true, zero,
          Function.update_self, table, List.getElem_cons_zero]
        rw [word32_storeWord32_self _ _ fits, Nat.mod_eq_of_lt small]
      · intro j' bound' reach' other
        unfold blockId
        split
        · rfl
        · rename_i far
          have fits' : 4 * (j' - ndirect) + 4 ≤ blockSize := by
            simp only [maxfile, nindirect_eq] at bound'
            simp only [blockSize]
            omega
          simp only [zero, Function.update_self, table]
          rw [word32_storeWord32_of_disjoint _ _ fits' (by omega)]

/-- Growing by one block and then by `n` more is growing by `n + 1`. -/
theorem Grown.cons {id : ℕ} {ids : List ℕ} {ino₁ ino₂ : Inode} {bm₁ bm₂ : BlockManager}
    (reach : Reaches ino (start + (n + 1))) (bound : start + (n + 1) ≤ maxfile)
    (first : Grown bm ino start 1 [id] ino₁ bm₁)
    (rest : Grown bm₁ ino₁ (start + 1) n ids ino₂ bm₂) :
    Grown bm ino start (n + 1) (id :: ids) ino₂ bm₂ where
  length := by simp [rest.length]
  nodup := by
    refine List.nodup_cons.mpr ⟨fun mem => ?_, rest.nodup⟩
    have := rest.wasFree id mem
    simp [first.marked] at this
  inData := by
    intro b mem
    rcases List.mem_cons.mp mem with rfl | mem
    · exact first.inData b (by simp)
    · exact rest.inData b mem
  wasFree := by
    intro b mem
    rcases List.mem_cons.mp mem with rfl | mem
    · exact first.wasFree b (by simp)
    · have free := rest.wasFree b mem
      rw [first.marked] at free
      by_cases h : b = id
      · simp [h] at free
      · simpa [h] using free
  marked := by
    rw [rest.marked, first.marked]
    funext b
    by_cases h : b = id
    · simp [h]
    · simp [h]
  otherBlocks := by
    intro b hb
    rw [rest.otherBlocks b hb, first.otherBlocks b hb]
  direct := by
    intro h
    rw [rest.direct (by omega), first.direct (by omega)]
  fields := by
    rw [rest.fields, first.fields]
  indirect := by rw [rest.indirect, first.indirect]
  blockId_new := by
    intro k hk
    -- the first new block is an old one for the rest of the loop
    cases k with
    | zero =>
        have reach₁ : start < ndirect ∨ ino₁.indirect = 0 := by
          rw [first.indirect]
          exact reach.direct_or (by omega)
        have old := rest.blockId_old start (by omega) reach₁ (Or.inl (by omega))
        have new := first.blockId_new 0 (by simp)
        simpa [old] using new
    | succ k =>
        have new := rest.blockId_new k (by simpa using hk)
        rw [show start + (k + 1) = start + 1 + k by omega, new, List.getElem_cons_succ]
  blockId_old := by
    intro j lt reachJ other
    have reachJ₁ : j < ndirect ∨ ino₁.indirect = 0 := by rwa [first.indirect]
    rw [rest.blockId_old j lt reachJ₁ (by omega), first.blockId_old j lt reachJ (by omega)]

/-- **The allocating loop with enough free blocks.** -/
theorem allocBlocks_ok (reach : Reaches ino (start + n)) (bound : start + n ≤ maxfile)
    (room : n ≤ bm.freeSet.card) :
    ∃ ids ino' bm', allocBlocks start n ino bm = .ok (ino', bm') ∧
      Grown bm ino start n ids ino' bm' := by
  induction n generalizing start ino bm with
  | zero =>
      exact ⟨[], ino, bm, rfl, ⟨rfl, List.nodup_nil, by simp, by simp, by simp, fun _ _ => rfl,
        fun _ => rfl, rfl, rfl, by simp, fun _ _ _ _ => rfl⟩⟩
  | succ n ih =>
      have some : bm.freeSet.Nonempty := Finset.card_pos.mp (by omega)
      obtain ⟨id, inData, free, alloc⟩ := allocBlock_of_freeSet some
      obtain ⟨ino₁, bm₁, out₁, grown₁⟩ :=
        allocBlockInInode_ok (j := start) (reach.direct_or (by omega)) (by omega) inData free
          alloc
      have card₁ := grown₁.card_freeSet
      have reach₁ : Reaches ino₁ (start + 1 + n) := by
        rw [Reaches, grown₁.indirect]
        exact reach.mono (by omega)
      have room₁ : n ≤ bm₁.freeSet.card := by omega
      obtain ⟨ids, ino₂, bm₂, out₂, grown₂⟩ := ih reach₁ (by omega) room₁
      refine ⟨id :: ids, ino₂, bm₂, ?_, grown₁.cons reach bound grown₂⟩
      rw [allocBlocks, out₁]
      exact out₂

/-- **The allocating loop without enough free blocks** stops the server. -/
theorem allocBlocks_error (reach : Reaches ino (start + n)) (bound : start + n ≤ maxfile)
    (noRoom : bm.freeSet.card < n) :
    allocBlocks start n ino bm = .error .noFreeBlock := by
  induction n generalizing start ino bm with
  | zero => omega
  | succ n ih =>
      rcases bm.freeSet.eq_empty_or_nonempty with none | some
      · rw [allocBlocks, allocBlockInInode, allocBlock_of_freeSet_empty none]
        rfl
      · obtain ⟨id, inData, free, alloc⟩ := allocBlock_of_freeSet some
        obtain ⟨ino₁, bm₁, out₁, grown₁⟩ :=
          allocBlockInInode_ok (j := start) (reach.direct_or (by omega)) (by omega) inData free
          alloc
        have card₁ := grown₁.card_freeSet
        have reach₁ : Reaches ino₁ (start + 1 + n) := by
          rw [Reaches, grown₁.indirect]
          exact reach.mono (by omega)
        rw [allocBlocks, out₁]
        exact ih reach₁ (by omega) (by omega)

/-! ## The writing loop -/

/-- What writing the chunks `lo, …, hi - 1` of `buf` to a file does.

The content is asked for only if the blocks are different ones: a list with a repetition is
written in order, and the later chunk wins. -/
structure Wrote (bm : BlockManager) (ino : Inode) (buf : List UInt8) (lo hi : ℕ)
    (bm' : BlockManager) : Prop where
  usingBlocks : bm'.usingBlocks = bm.usingBlocks
  frame : ∀ b, (∀ j, lo ≤ j → j < hi → bm.blockId ino j ≠ b) → bm'.blocks b = bm.blocks b
  content : (∀ j j', lo ≤ j → j < hi → lo ≤ j' → j' < hi →
      bm.blockId ino j = bm.blockId ino j' → j = j') →
    ∀ j, lo ≤ j → j < hi → bm'.blocks (bm.blockId ino j) = chunk buf j

theorem Wrote.refl (bm : BlockManager) (ino : Inode) (buf : List UInt8) (lo : ℕ) :
    Wrote bm ino buf lo lo bm :=
  ⟨rfl, fun _ _ => rfl, fun _ j low high => absurd high (by omega)⟩

/-- Writing to data blocks does not change which blocks a file has. -/
theorem Wrote.blockId {buf : List UInt8} {lo hi : ℕ} {bm' : BlockManager}
    (wrote : Wrote bm ino buf lo hi bm')
    (inData : ∀ j, lo ≤ j → j < hi → InData (bm.blockId ino j))
    {ino' : Inode} (reach : j < ndirect ∨ ino'.indirect = 0) :
    bm'.blockId ino' j = bm.blockId ino' j := by
  refine blockId_congr rfl reach fun _ => wrote.frame 0 fun k low high eq => ?_
  have := (inData k low high).1
  rw [eq, dataStart_eq] at this
  omega

theorem Wrote.trans {buf : List UInt8} {lo mid hi : ℕ} {bm₁ bm₂ : BlockManager}
    (low : lo ≤ mid) (high : mid ≤ hi) (reach : Reaches ino hi)
    (inData : ∀ j, lo ≤ j → j < hi → InData (bm.blockId ino j))
    (first : Wrote bm ino buf lo mid bm₁) (rest : Wrote bm₁ ino buf mid hi bm₂) :
    Wrote bm ino buf lo hi bm₂ := by
  have same : ∀ j, j < hi → bm₁.blockId ino j = bm.blockId ino j := fun j lt =>
    first.blockId (fun k l h => inData k l (by omega)) (reach.direct_or lt)
  refine ⟨rest.usingBlocks.trans first.usingBlocks, fun b away => ?_, fun inj j l h => ?_⟩
  · rw [rest.frame b, first.frame b]
    · exact fun j l h => away j l (by omega)
    · intro j l h
      rw [same j h]
      exact away j (by omega) h
  · by_cases early : j < mid
    · rw [rest.frame, first.content _ j l early]
      · exact fun k k' l₁ h₁ l₂ h₂ => inj k k' l₁ (by omega) l₂ (by omega)
      · intro k l' h' eq
        rw [same k h'] at eq
        have := inj k j (by omega) h' l h eq
        omega
    · have := rest.content (fun k k' l₁ h₁ l₂ h₂ eq => by
        rw [same k h₁, same k' h₂] at eq
        exact inj k k' (by omega) h₁ (by omega) h₂ eq) j (by omega) h
      rwa [same j h] at this

/-- One block: whatever string the code passes, if it is long enough and its first
block is chunk `j` of `buf`. -/
theorem writeBlockInInode_ok {buf content : List UInt8}
    (reach : j < ndirect ∨ ino.indirect = 0) (bound : j < maxfile)
    (inData : InData (bm.blockId ino j)) (long : blockSize ≤ content.length)
    (isChunk : (chunk content 0 : Block) = chunk buf j) :
    ∃ bm', bm.writeBlockInInode ino j content = .ok bm' ∧
      Wrote bm ino buf j (j + 1) bm' := by
  refine ⟨bm.writeBlock (bm.blockId ino j) (chunk buf j), ?_, ?_⟩
  · rw [writeBlockInInode, getBlockidInInode_ok reach bound]
    simp [blockOfString, long, isChunk, bind, Except.bind]
  · refine ⟨by simp, fun b away => ?_, fun _ k low high => ?_⟩
    · rw [writeBlock_blocks inData.2, Function.update_of_ne]
      exact (away j le_rfl (by omega)).symm
    · have : k = j := by omega
      rw [this, writeBlock_blocks inData.2, Function.update_self]

/-- The string the loop passes for a block before the last is that chunk. -/
theorem chunk_take_drop (buf : List UInt8) (j : ℕ) :
    (chunk ((buf.drop (blockSize * j)).take blockSize) 0 : Block) = chunk buf j := by
  refine ext_byteAt fun k hk => ?_
  rw [chunk, chunk, byteAt_ofBytes _ hk, byteAt_ofBytes _ hk]
  simp [hk]

theorem writeBlocks_ok {buf : List UInt8} (reach : Reaches ino (start + n))
    (bound : start + n ≤ maxfile) (whole : blockSize * (start + n) ≤ buf.length)
    (inData : ∀ j, start ≤ j → j < start + n → InData (bm.blockId ino j)) :
    ∃ bm', writeBlocks ino buf start n bm = .ok bm' ∧
      Wrote bm ino buf start (start + n) bm' := by
  induction n generalizing start bm with
  | zero => exact ⟨bm, rfl, Wrote.refl _ _ _ _⟩
  | succ n ih =>
      have step : blockSize * (start + 1) ≤ buf.length :=
        (Nat.mul_le_mul_left _ (by omega)).trans whole
      obtain ⟨bm₁, out₁, wrote₁⟩ := writeBlockInInode_ok
        (reach.direct_or (by omega)) (by omega) (inData start le_rfl (by omega))
        (by simp; rw [Nat.mul_succ] at step; omega) (chunk_take_drop buf start)
      have same : ∀ j, j < start + (n + 1) → bm₁.blockId ino j = bm.blockId ino j :=
        fun j lt => wrote₁.blockId (fun k l h => inData k l (by omega)) (reach.direct_or lt)
      have reach₁ : Reaches ino (start + 1 + n) := reach.mono (by omega)
      obtain ⟨bm₂, out₂, wrote₂⟩ := ih reach₁ (by omega)
        (by rwa [Nat.add_right_comm, Nat.add_assoc])
        (fun j l h => by rw [same j (by omega)]; exact inData j (by omega) (by omega))
      refine ⟨bm₂, ?_, ?_⟩
      · rw [writeBlocks]
        simp only [bind, Except.bind, out₁]
        exact out₂
      · rw [show start + 1 + n = start + (n + 1) by omega] at wrote₂
        exact wrote₁.trans (by omega) (by omega) reach inData wrote₂

/-- **The second part of `write_file`** stores the chunks of `buf`, the last one
padded. -/
theorem writeContent_ok {buf : List UInt8} (bound : buf.length ≤ maxfile * blockSize)
    (reach : Reaches ino (nblk buf.length))
    (inData : ∀ j, j < nblk buf.length → InData (bm.blockId ino j)) :
    ∃ bm', bm.writeContent ino buf buf.length (nblk buf.length) = .ok bm' ∧
      Wrote bm ino buf 0 (nblk buf.length) bm' := by
  have blocks : nblk buf.length ≤ maxfile := (nblk_le_iff _ _).mpr bound
  have count := nblk_eq buf.length
  set m := nblk buf.length with hm
  by_cases empty : m = 0
  · refine ⟨bm, by rw [writeContent, if_pos empty], ?_⟩
    rw [empty]
    exact Wrote.refl _ _ _ _
  simp only [maxfile, nindirect_eq, ndirect, blockSize] at bound
  have whole : blockSize * (0 + (m - 1)) ≤ buf.length := by
    simp only [blockSize]
    omega
  obtain ⟨bm₁, out₁, wrote₁⟩ := writeBlocks_ok (n := m - 1)
    (reach.mono (by omega)) (by omega) whole
    (fun j _ h => inData j (by omega))
  rw [Nat.zero_add] at wrote₁
  have same : ∀ j, j < m → bm₁.blockId ino j = bm.blockId ino j :=
    fun j lt => wrote₁.blockId (fun k _ h => inData k (by omega)) (reach.direct_or lt)
  -- `len` of the last block, computed in an `unsigned int`
  have tail : (blockSize + 2 ^ 32 - (m * blockSize + 2 ^ 32 - buf.length) % 2 ^ 32) % 2 ^ 32
      = buf.length - blockSize * (m - 1) := by
    simp only [blockSize]
    omega
  -- the rest of the last block is zeros, as the chunk has it
  have isChunk : (chunk (resize blockSize ((buf.drop (blockSize * (m - 1))).take
      (buf.length - blockSize * (m - 1)))) 0 : Block) = chunk buf (m - 1) := by
    refine ext_byteAt fun k hk => ?_
    rw [chunk, chunk, byteAt_ofBytes _ hk, byteAt_ofBytes _ hk, Nat.mul_zero, Nat.zero_add,
      getD_resize _ hk]
    have all : (buf.drop (blockSize * (m - 1))).take (buf.length - blockSize * (m - 1)) =
        buf.drop (blockSize * (m - 1)) := List.take_of_length_le (by simp)
    rw [all]
    simp
  obtain ⟨bm₂, out₂, wrote₂⟩ := writeBlockInInode_ok (j := m - 1)
    (reach.direct_or (by omega)) (by omega)
    (by rw [same _ (by omega)]; exact inData _ (by omega))
    (by simp) isChunk
  refine ⟨bm₂, ?_, ?_⟩
  · rw [writeContent, if_neg empty, out₁]
    simp only [bind, Except.bind, tail]
    exact out₂
  · rw [show m - 1 + 1 = m by omega] at wrote₂
    exact wrote₁.trans (by omega) (by omega) reach (fun j _ h => inData j h) wrote₂

/-! ## The reading loop -/

theorem readBlocks_ok (reach : Reaches ino (start + n)) (bound : start + n ≤ maxfile)
    (inData : ∀ j, start ≤ j → j < start + n → InData (bm.blockId ino j)) :
    bm.readBlocks ino start n = .ok (((List.range' start n).map (bm.blockId ino)).flatMap
      fun b => (bm.blocks b).toList) := by
  induction n generalizing start with
  | zero => rfl
  | succ n ih =>
      have here : bm.readBlockInInode ino start =
          .ok (bm.blocks (bm.blockId ino start)).toList := by
        rw [readBlockInInode,
          getBlockidInInode_ok (reach.direct_or (by omega)) (by omega)]
        simp [bind, Except.bind, readBlock, (inData start le_rfl (by omega)).2]
      rw [readBlocks, here, ih (reach.mono (by omega)) (by omega)
        (fun j l h => inData j (by omega) (by omega))]
      simp [bind, Except.bind, List.range'_succ]

end BlockManager

end Yfs.Storage
