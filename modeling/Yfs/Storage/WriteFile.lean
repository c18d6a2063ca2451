import Yfs.Storage.Layout

/-!
# What `write_file` does

`write_file` first makes the block list as long as the new content needs, then
writes the content, then the inode.  `Resized` is what the first part does,
`Stored` what the whole function does; both say what happens to the inode table,
to the allocation map, to the file's block list and to every block that is not
the file's.  They ask nothing of the other files, so they hold in every state in
which the file's own blocks are where they should be.

The function has one way to fail under these hypotheses: too few free blocks for
the growth (`writeFile_error`).

The specification has a part on what changes and a part on what does not, and the second is the
longer one: a file shares the disk with all others, and that they keep their blocks is what the
invariants of `Storage.Ownership` are made of.
-/

namespace Yfs.Storage

open ByteBlock

namespace BlockManager

variable {bm : BlockManager} {ino : Inode} {i j m : ℕ} {buf : List UInt8}

/-- What making a file's block list `m` blocks long does.  `ids` are the blocks allocated, empty
unless the file grows.

It is about the list only: the content of the blocks comes later.  A file that shrinks gives up
the ids behind its new end, which are unmarked here and may be marked again at once for somebody
else. -/
structure Resized (bm : BlockManager) (ino : Inode) (m : ℕ) (ids : List ℕ) (ino₁ : Inode)
    (bm₁ : BlockManager) : Prop where
  length : ids.length = m - nblk ino.size
  nodup : ids.Nodup
  inData : ∀ b ∈ ids, InData b
  wasFree : ∀ b ∈ ids, bm.usingBlocks b = 0
  fields : ino₁ = { ino with blocks := ino₁.blocks }
  indirect : ino₁.indirect = ino.indirect
  blocks_lt : ∀ k, ino₁.blocks k < 2 ^ 32
  kept : ∀ j < m, j < nblk ino.size → bm₁.blockId ino₁ j = bm.blockId ino j
  added : ∀ j < m, nblk ino.size ≤ j → ∃ h, bm₁.blockId ino₁ j = ids.get ⟨j - nblk ino.size, h⟩
  marks : ∀ b, bm₁.usingBlocks b = if b ∈ ids then 1
    else if b ∈ (List.range' m (nblk ino.size - m)).map (bm.blockId ino) then 0
    else bm.usingBlocks b
  beyond : ∀ j, m ≤ j → j < maxfile → ino.indirect = 0 → bm₁.blockId ino₁ j = bm.blockId ino j
  blocks : ∀ b, b ≠ 0 ∨ m ≤ ndirect ∨ m ≤ nblk ino.size → bm₁.blocks b = bm.blocks b

/-- **The first part of `write_file`** with room for the growth. -/
theorem resizeBlocks_ok (words : ∀ k, ino.blocks k < 2 ^ 32)
    (reachOld : Reaches ino (nblk ino.size)) (reachNew : Reaches ino m)
    (boundOld : nblk ino.size ≤ maxfile) (boundNew : m ≤ maxfile)
    (room : m - nblk ino.size ≤ bm.freeSet.card) :
    ∃ ids ino₁ bm₁, bm.resizeBlocks ino (nblk ino.size) m = .ok (ino₁, bm₁) ∧
      Resized bm ino m ids ino₁ bm₁ := by
  unfold resizeBlocks
  -- the loop of `write_file` that frees, none, or the one that allocates
  rcases Nat.lt_trichotomy m (nblk ino.size) with shrink | same | grow
  · have sum : m + (nblk ino.size - m) = nblk ino.size := by omega
    have out : freeBlocks ino m (nblk ino.size - m) bm = _ :=
      freeBlocks_ok (by rwa [sum]) (by rwa [sum])
    refine ⟨[], ino, _, by rw [if_pos shrink, out]; rfl, ?_⟩
    exact ⟨by simp; omega, List.nodup_nil, by simp, by simp, rfl, rfl, words,
      fun _ _ _ => rfl, fun j lt le => absurd lt (by omega), fun b => by simp,
      fun _ _ _ _ => rfl, fun _ _ => rfl⟩
  · refine ⟨[], ino, bm, ?_, ?_⟩
    · rw [if_neg (by omega), if_neg (by omega)]
    · exact ⟨by simp; omega, List.nodup_nil, by simp, by simp, rfl, rfl, words,
        fun _ _ _ => rfl, fun j lt le => absurd lt (by omega), fun b => by simp [same],
        fun _ _ _ _ => rfl, fun _ _ => rfl⟩
  · have sum : nblk ino.size + (m - nblk ino.size) = m := by omega
    obtain ⟨ids, ino₁, bm₁, out, grown⟩ := allocBlocks_ok
      (n := m - nblk ino.size) (by rwa [sum]) (by omega) room
    refine ⟨ids, ino₁, bm₁, ?_, ?_⟩
    · rw [if_neg (by omega), if_pos grow, out]
    · have direct : ∀ k, (h : k < ndirect) → bm₁.blockId ino₁ k = ino₁.blocks ⟨k, by omega⟩ :=
        fun k h => by simp [blockId, h]
      refine ⟨grown.length, grown.nodup, grown.inData, grown.wasFree, grown.fields,
        grown.indirect, fun k => ?_, fun j lt le => ?_, fun j lt le => ?_, fun b => ?_,
        fun j le lt zero => ?_, ?_⟩
      · rcases Fin.lt_or_eq_of_le (Fin.le_last k) with lt | rfl
        · have lt' : k.val < ndirect := lt
          rw [← direct k.val lt']
          by_cases new : nblk ino.size ≤ k.val ∧ k.val < m
          · have inside : k.val - nblk ino.size < ids.length := by
              rw [grown.length]
              omega
            have := grown.blockId_new (k.val - nblk ino.size) inside
            rw [Nat.add_sub_cancel' new.1] at this
            rw [this]
            have small := (grown.inData _ (List.getElem_mem inside)).2
            rw [blockNum_eq] at small
            omega
          · rw [grown.blockId_old k.val (by simp only [maxfile]; omega) (Or.inl lt') (by omega)]
            simpa [blockId, lt'] using words ⟨k.val, by omega⟩
        · have := grown.indirect
          simp only [Inode.indirect] at this
          rw [this]
          exact words _
      · exact grown.blockId_old j (by omega) (reachNew.direct_or (by omega)) (Or.inl le)
      · have inside : j - nblk ino.size < ids.length := by
          rw [grown.length]
          omega
        have := grown.blockId_new (j - nblk ino.size) inside
        rw [Nat.add_sub_cancel' le] at this
        exact ⟨inside, this⟩
      · have none : nblk ino.size - m = 0 := by omega
        rw [grown.marked]
        simp [none]
      · exact grown.blockId_old j lt (Or.inr zero) (Or.inr (by omega))
      · rintro b (nonzero | small | absurdly)
        · exact grown.otherBlocks b nonzero
        · rw [grown.direct (by omega)]
        · omega

/-- Without room for the growth that part stops the server. -/
theorem resizeBlocks_error (reachNew : Reaches ino m) (boundNew : m ≤ maxfile)
    (noRoom : bm.freeSet.card < m - nblk ino.size) :
    bm.resizeBlocks ino (nblk ino.size) m = .error .noFreeBlock := by
  have sum : nblk ino.size + (m - nblk ino.size) = m := by omega
  rw [resizeBlocks, if_neg (by omega), if_pos (by omega),
    allocBlocks_error (by rwa [sum]) (by omega) noRoom]

/-- What `write_file(i, buf)` does.

The new ids are given as a list, so that callers can say where the free blocks went; the fields on
`bm'` are equations for the inode table, the marks, the list and the content, and with `others`
they determine everything that the invariants look at. -/
structure Stored (bm : BlockManager) (i : ℕ) (buf : List UInt8) (ids : List ℕ)
    (bm' : BlockManager) : Prop where
  length : ids.length = nblk buf.length - nblk (bm.inodeAt i).size
  nodup : ids.Nodup
  inData : ∀ b ∈ ids, InData b
  wasFree : ∀ b ∈ ids, bm.usingBlocks b = 0
  type : (bm'.inodeAt i).type = (bm.inodeAt i).type
  size : (bm'.inodeAt i).size = buf.length
  indirect : (bm'.inodeAt i).indirect = (bm.inodeAt i).indirect
  others : ∀ k ≤ inodeNum, k ≠ i → bm'.inodeAt k = bm.inodeAt k
  kept : ∀ j < nblk buf.length, j < nblk (bm.inodeAt i).size →
    bm'.blockId (bm'.inodeAt i) j = bm.blockId (bm.inodeAt i) j
  added : ∀ j < nblk buf.length, nblk (bm.inodeAt i).size ≤ j →
    ∃ h, bm'.blockId (bm'.inodeAt i) j = ids.get ⟨j - nblk (bm.inodeAt i).size, h⟩
  marks : ∀ b, bm'.usingBlocks b = if b ∈ ids then 1
    else if b ∈ (List.range' (nblk buf.length) (nblk (bm.inodeAt i).size - nblk buf.length)).map
      (bm.blockId (bm.inodeAt i)) then 0
    else bm.usingBlocks b
  beyond : ∀ j, nblk buf.length ≤ j → j < maxfile → (bm.inodeAt i).indirect = 0 →
    bm'.blockId (bm'.inodeAt i) j = bm.blockId (bm.inodeAt i) j
  frame : ∀ b, b ≠ iblock i →
    (b ≠ 0 ∨ nblk buf.length ≤ ndirect ∨ nblk buf.length ≤ nblk (bm.inodeAt i).size) →
    (∀ j < nblk buf.length, bm'.blockId (bm'.inodeAt i) j ≠ b) → bm'.blocks b = bm.blocks b
  content : (∀ j < nblk buf.length, ∀ l < nblk buf.length,
      bm'.blockId (bm'.inodeAt i) j = bm'.blockId (bm'.inodeAt i) l → j = l) →
    ∀ j < nblk buf.length, bm'.blocks (bm'.blockId (bm'.inodeAt i) j) = chunk buf j

/-- What a file's own blocks must satisfy for `write_file` to run through.

All of it is about the file itself.  It holds of every live file of a `Placed` disk and of dead
inodes of an `AllPlaced` one, as long as the new string is not too long. -/
structure Writable (bm : BlockManager) (i : ℕ) (buf : List UInt8) : Prop where
  pos : 1 ≤ i
  le : i ≤ inodeNum
  reachOld : Reaches (bm.inodeAt i) (nblk (bm.inodeAt i).size)
  reachNew : Reaches (bm.inodeAt i) (nblk buf.length)
  sizeOld : (bm.inodeAt i).size ≤ maxfile * blockSize
  sizeNew : buf.length ≤ maxfile * blockSize
  inData : ∀ j < nblk (bm.inodeAt i).size, InData (bm.blockId (bm.inodeAt i) j)

theorem inodeAt_words (k : Fin (ndirect + 1)) : (bm.inodeAt i).blocks k < 2 ^ 32 :=
  word32_lt _ _

theorem length_mod (h : buf.length ≤ maxfile * blockSize) :
    buf.length % 2 ^ 32 = buf.length := by
  simp only [maxfile, nindirect_eq, ndirect, blockSize] at h
  omega

theorem writeFile_error (ok : Writable bm i buf) (now : Clock)
    (noRoom : bm.freeSet.card < nblk buf.length - nblk (bm.inodeAt i).size) :
    bm.writeFile i buf now = .error .noFreeBlock := by
  have new : nblk buf.length ≤ maxfile := (nblk_le_iff _ _).mpr ok.sizeNew
  have stop := resizeBlocks_error ok.reachNew new noRoom
  rw [nblk, nblk] at stop
  rw [writeFile, getInode_ok ok.pos ok.le]
  simp only [bind, Except.bind, length_mod ok.sizeNew, stop]

/-- An inode block is not a data block and not block 0. -/
theorem InData.ne_iblock {b k : ℕ} (h : InData b) (le : k ≤ inodeNum) : b ≠ iblock k := by
  intro eq
  have := h.1
  rw [eq, iblock_eq, dataStart_eq] at this
  simp only [inodeNum] at le
  omega

/-- **`write_file` with room for the growth.** -/
theorem writeFile_ok (ok : Writable bm i buf) (now : Clock)
    (room : nblk buf.length - nblk (bm.inodeAt i).size ≤ bm.freeSet.card) :
    ∃ ids bm', bm.writeFile i buf now = .ok bm' ∧ Stored bm i buf ids bm' := by
  have new : nblk buf.length ≤ maxfile := (nblk_le_iff _ _).mpr ok.sizeNew
  have old : nblk (bm.inodeAt i).size ≤ maxfile := (nblk_le_iff _ _).mpr ok.sizeOld
  obtain ⟨ids, ino₁, bm₁, out₁, resized⟩ := resizeBlocks_ok (m := nblk buf.length)
    inodeAt_words ok.reachOld ok.reachNew old new room
  -- a block of the file is an old one or was just allocated
  have inData₁ : ∀ j < nblk buf.length, InData (bm₁.blockId ino₁ j) := by
    intro j lt
    by_cases before : j < nblk (bm.inodeAt i).size
    · rw [resized.kept j lt before]
      exact ok.inData j before
    · obtain ⟨h, eq⟩ := resized.added j lt (by omega)
      rw [eq]
      exact resized.inData _ (List.get_mem _ _)
  have reach₁ : Reaches ino₁ (nblk buf.length) := by
    rw [Reaches, resized.indirect]
    exact ok.reachNew
  -- the content goes to data blocks, so it leaves the inode table and block 0 alone
  have reach₂ : Reaches { ino₁ with size := buf.length } (nblk buf.length) := reach₁
  obtain ⟨bm₂, out₂, wrote⟩ := writeContent_ok ok.sizeNew reach₂ inData₁
  have wrote : Wrote bm₁ ino₁ buf 0 (nblk buf.length) bm₂ :=
    ⟨wrote.usingBlocks, wrote.frame, wrote.content⟩
  let ino₃ : Inode := { ino₁ with
    size := buf.length, atime := now 0, mtime := now 1, ctime := now 2 }
  have out : bm.writeFile i buf now = .ok (bm₂.setInode i ino₃) := by
    rw [writeFile, getInode_ok ok.pos ok.le]
    rw [nblk, nblk] at out₁
    rw [nblk] at out₂
    simp only [bind, Except.bind, length_mod ok.sizeNew, out₁, out₂]
    rw [putInode_ok ok.le]
  have self : (bm₂.setInode i ino₃).inodeAt i = ino₃.truncate := inodeAt_setInode_self
  -- `put_inode` cuts the block ids to 32 bits, which changes none of them
  have words : ino₃.truncate.blocks = ino₁.blocks := by
    funext k
    exact Nat.mod_eq_of_lt (resized.blocks_lt k)
  have away₂ : ∀ b, (∀ j < nblk buf.length, bm₁.blockId ino₁ j ≠ b) →
      bm₂.blocks b = bm₁.blocks b := fun b h => wrote.frame b fun j _ lt => h j lt
  have zero₂ : (bm₂.setInode i ino₃).blocks 0 = bm₁.blocks 0 := by
    rw [setInode_blocks_of_ne (by rw [iblock_eq]; omega), away₂]
    intro j lt eq
    have := (inData₁ j lt).1
    rw [eq, dataStart_eq] at this
    omega
  -- so the inode on the disk has the list that was written through
  have idsAt : ∀ j, j < ndirect ∨ ino₁.indirect = 0 →
      (bm₂.setInode i ino₃).blockId ((bm₂.setInode i ino₃).inodeAt i) j = bm₁.blockId ino₁ j := by
    intro j reach
    rw [self]
    exact blockId_congr words reach fun _ => zero₂
  have ids₃ := fun j (lt : j < nblk buf.length) => idsAt j (reach₁.direct_or lt)
  have inodes₂ : ∀ k ≤ inodeNum, bm₂.blocks (iblock k) = bm.blocks (iblock k) := by
    intro k le
    rw [away₂ _ fun j lt => (inData₁ j lt).ne_iblock le,
      resized.blocks _ (Or.inl (by rw [iblock_eq]; omega))]
  refine ⟨ids, _, out, ⟨resized.length, resized.nodup, resized.inData, resized.wasFree, ?_, ?_,
    ?_, ?_, ?_, ?_, ?_, ?_, ?_, ?_⟩⟩
  · rw [self]
    have eq := congrArg Inode.type resized.fields
    simp only [Inode.truncate, ino₃] at eq ⊢
    rw [eq]
    exact Nat.mod_eq_of_lt (word16_lt _ _)
  · rw [self]
    exact length_mod ok.sizeNew
  · rw [self, Inode.indirect, words]
    exact resized.indirect
  · intro k le ne
    rw [inodeAt_setInode_of_ne ne, inodeAt, inodes₂ k le, inodeAt]
  · intro j lt before
    rw [ids₃ j lt, resized.kept j lt before]
  · intro j lt after
    obtain ⟨h, eq⟩ := resized.added j lt after
    exact ⟨h, by rw [ids₃ j lt, eq]⟩
  · intro b
    rw [setInode_usingBlocks, wrote.usingBlocks]
    exact resized.marks b
  · intro j le lt zero
    rw [idsAt j (Or.inr (by rw [resized.indirect, zero])), resized.beyond j le lt zero]
  · intro b ne table notOwn
    have notOwn₁ : ∀ j < nblk buf.length, bm₁.blockId ino₁ j ≠ b := by
      intro j lt
      rw [← ids₃ j lt]
      exact notOwn j lt
    rw [setInode_blocks_of_ne ne, away₂ b notOwn₁, resized.blocks b table]
  · intro inj j lt
    rw [ids₃ j lt, setInode_blocks_of_ne ((inData₁ j lt).ne_iblock ok.le)]
    refine wrote.content (fun k l _ hk _ hl eq => inj k hk l hl ?_) j (by omega) lt
    rw [ids₃ k hk, ids₃ l hl, eq]

end BlockManager

end Yfs.Storage
