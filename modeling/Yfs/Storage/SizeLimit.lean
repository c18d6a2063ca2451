import Yfs.Storage.AllInodes

/-!
# The file size limit

A file has at most `MAXFILE` blocks.  `read_file` exits on a larger size; `write_file` does not
ask, and its loops go on past the last entry of the indirect block.

What the next write does past the limit depends on the memory behind a buffer, which the model
does not have: it is a `Halt` of its own (`allocBlocks_overrun`).  So the result says when the
write stays within the buffer, and past it only that it does not.

* `EnforcesLimit` — what is required of `write_file`.
* `size_limit_enforced` — in a run within the limit no inode is above it, and the next write
  does what is required exactly when it is within the limit and the disk has room for it.
* `writeFile_overrun`, `write_past_limit` — what happens past the limit.
-/

namespace Yfs.Storage

open ByteBlock Transition

namespace BlockManager

variable {bm bm' : BlockManager} {ino : Inode} {i start n : ℕ} {buf : List UInt8}

/-- `read_file` returns the string. -/
def ReadsBack (bm : BlockManager) (i : ℕ) (buf : List UInt8) : Prop :=
  ∀ now, ∃ content bm', bm.readFile i now = .ok ((content, buf.length), bm') ∧
    content.take buf.length = buf

/-- The inode, its blocks and the allocation map are as before. -/
structure Untouched (bm : BlockManager) (i : ℕ) (bm' : BlockManager) : Prop where
  inode : bm'.inodeAt i = bm.inodeAt i
  blocks : ∀ b ∈ bm.fileIds (bm.inodeAt i), bm'.blocks b = bm.blocks b
  usingBlocks : bm'.usingBlocks = bm.usingBlocks

/-- **The limit is enforced**: at whatever time `write_file` is called, it comes to its end (it
does not exit, and no loop leaves the indirect block), and it stored the string or did nothing.

The statement allows a write to refuse, and even to refuse in silence.  What it does not allow is
a write that stops the server, that leaves its buffer, or that stores something else. -/
def EnforcesLimit (bm : BlockManager) (i : ℕ) (buf : List UInt8) : Prop :=
  ∀ now, ∃ bm', bm.writeFile i buf now = .ok bm' ∧ (ReadsBack bm' i buf ∨ Untouched bm i bm')

/-! ## Within the limit -/

/-- A file that is stored is read back. -/
theorem Stored.readsBack {ids : List ℕ} (stored : Stored bm i buf ids bm') (intact : Intact bm i)
    (placed : Placed bm') (live : Live bm i) : ReadsBack bm' i buf := by
  have live' : Live bm' i := stored.live_iff.mpr live
  have data : bm'.fileData (bm'.inodeAt i) = buf :=
    fileData_of_chunks stored.size (stored.content (stored.inj intact))
  intro now
  obtain ⟨content, bm₁, out, take, -⟩ := readFile_ok placed live' now
  rw [stored.size, data] at take
  refine ⟨content, bm₁, by rw [out, stored.size], ?_⟩
  split at take
  · next empty =>
      rw [← take]
      exact List.take_zero
  · exact take

/-! ## Past the limit -/

/-- **Past the limit nothing is enforced**: what `read_file` returns is within the limit, and a
write that comes to its end has written the inode. -/
theorem not_enforcesLimit (past : maxfile * blockSize < buf.length) : ¬ EnforcesLimit bm i buf := by
  intro enforces
  -- at this time the write shows in the inode
  obtain ⟨bm', out, outcome⟩ := enforces fun _ => (bm.inodeAt i).mtime + 1
  obtain ⟨-, -, ino₁, bm₁, -, inode⟩ := writeFile_inv out
  rcases outcome with reads | untouched
  · obtain ⟨content, bm₂, read, -⟩ := reads fun _ => 0
    obtain ⟨-, -, -, within, -⟩ := readFile_inv read
    exact absurd within (by omega)
  · have word : (bm.inodeAt i).mtime < 2 ^ 32 := word32_lt _ _
    have mtime := congrArg Inode.mtime (untouched.inode.symm.trans inode)
    simp only [Inode.truncate] at mtime
    omega

/-- One iteration at the limit: the index is that of the word after the indirect block. -/
theorem allocBlockInInode_overrun (zero : ino.indirect = 0) (free : bm.freeSet.Nonempty) :
    bm.allocBlockInInode ino maxfile [] false = .error .overrun := by
  obtain ⟨id, -, -, alloc⟩ := allocBlock_of_freeSet free
  have far : ¬ maxfile < ndirect := by
    rw [maxfile]
    omega
  have outside : ¬ maxfile - ndirect < nindirect := by
    rw [maxfile]
    omega
  have zeroLt : 0 < blockNum := by
    rw [blockNum_eq]
    omega
  simp [allocBlockInInode, alloc, far, zero, outside, bind, Except.bind, readBlock, zeroLt]

/-- **The allocating loop past the limit** leaves the indirect block. -/
theorem allocBlocks_overrun (zero : ino.indirect = 0) (within : start ≤ maxfile)
    (past : maxfile < start + n) (room : maxfile - start < bm.freeSet.card) :
    allocBlocks start n ino bm = .error .overrun := by
  induction n generalizing start ino bm with
  | zero => omega
  | succ n ih =>
      have some : bm.freeSet.Nonempty := Finset.card_pos.mp (by omega)
      by_cases last : start = maxfile
      · rw [allocBlocks, last, allocBlockInInode_overrun zero some]
        rfl
      · obtain ⟨id, inData, free, alloc⟩ := allocBlock_of_freeSet some
        obtain ⟨ino₁, bm₁, out₁, grown₁⟩ :=
          allocBlockInInode_ok (j := start) (Or.inr zero) (by omega) inData free alloc
        have card₁ := grown₁.card_freeSet
        rw [allocBlocks, out₁]
        exact ih (by rw [grown₁.indirect, zero]) (by omega) (by omega) (by omega)

/-- **`write_file` past the limit** writes beyond the indirect block, in a buffer on its stack. -/
theorem writeFile_overrun (all : AllPlaced bm) (low : 2 ≤ i) (le : i ≤ inodeNum) (now : Clock)
    (past : maxfile * blockSize < buf.length % 2 ^ 32) (room : maxfile < bm.freeSet.card) :
    bm.writeFile i buf now = .error .overrun := by
  have old : nblk (bm.inodeAt i).size ≤ maxfile :=
    (nblk_le_iff _ _).mpr (all.size_le i (by omega) le)
  have new : maxfile < nblk (buf.length % 2 ^ 32) := by
    by_contra small
    exact absurd ((nblk_le_iff _ _).mp (Nat.not_lt.mp small)) (by omega)
  have stop : allocBlocks (nblk (bm.inodeAt i).size)
      (nblk (buf.length % 2 ^ 32) - nblk (bm.inodeAt i).size) (bm.inodeAt i) bm = .error .overrun :=
    allocBlocks_overrun (all.indirect_zero i low le) old (by omega) (by omega)
  rw [writeFile, getInode_ok (by omega) le]
  simp only [bind, Except.bind, resizeBlocks]
  rw [← nblk, ← nblk, if_neg (by omega), if_pos (by omega), stop]

end BlockManager

namespace ExtentServer

open BlockManager

variable {uninit : Inode} {bm : BlockManager}

/-- **The size limit.** In every run in which every put is within the limit (the root's within its
direct blocks), no inode is above the limit.  The next write to an intact file stores its string
or does nothing exactly when it is within the limit and there are free blocks for it.

A large file may have lost a block to another one, and the second half is about files that have
all of theirs. -/
theorem size_limit_enforced (reach : Reach (fun _ => Bounded) uninit bm) :
    (∀ i, 1 ≤ i → i ≤ inodeNum → (bm.inodeAt i).size ≤ maxfile * blockSize) ∧
    ∀ i buf, Live bm i → Intact bm i →
      (i = 1 → buf.length ≤ ndirect * blockSize ∨ maxfile * blockSize < buf.length) →
      (EnforcesLimit bm i buf ↔ buf.length ≤ maxfile * blockSize ∧
        nblk buf.length - nblk (bm.inodeAt i).size ≤ bm.freeSet.card) := by
  have all := reach_allPlaced reach
  refine ⟨all.size_le, fun i buf live intact root => ⟨fun enforces => ?_, ?_⟩⟩
  · have bound : buf.length ≤ maxfile * blockSize := by
      by_contra past
      exact not_enforcesLimit (by omega) enforces
    have direct : i = 1 → buf.length ≤ ndirect * blockSize :=
      fun one => (root one).resolve_right (by omega)
    refine ⟨bound, ?_⟩
    by_contra noRoom
    obtain ⟨bm', out, -⟩ := enforces fun _ => 0
    rw [writeFile_error (all.writable live.1 live.2.1 bound direct) _ (by omega)] at out
    cases out
  · rintro ⟨bound, room⟩ now
    have direct : i = 1 → buf.length ≤ ndirect * blockSize :=
      fun one => (root one).resolve_right (by omega)
    obtain ⟨ids, bm', out, stored⟩ :=
      writeFile_ok (all.writable live.1 live.2.1 bound direct) now room
    have placed := (all.stored live.1 live.2.1 stored bound direct).placed
    exact ⟨bm', out, Or.inl (stored.readsBack intact placed live)⟩

/-- The first write to the root of a new server. -/
theorem size_limit_enforced_root : ∃ bm,
    boot ⟨0, 0, 0, 0, 0, fun _ => 0⟩ still = .ok bm ∧ EnforcesLimit bm 1 [104, 105] := by
  obtain ⟨bm, -, boots, blank, ok, -⟩ := first_put
  have live : Live bm 1 := ok.1.1
  have limit := size_limit_enforced (Reachable.init ⟨still, boots⟩)
  refine ⟨bm, boots, (limit.2 1 [104, 105] live (blank.exclusive.intact live)
    fun _ => Or.inl ?_).mpr ⟨ok.1.2, ?_⟩⟩
  · simp [ndirect, blockSize]
  · rw [blank.free, blank.empty 1 live]
    simp [nblk_eq, dataBlocks, blockNum_eq, dataStart_eq]

/-- A string of one byte more than the largest file. -/
def tooLong : List UInt8 := List.replicate (maxfile * blockSize + 1) 97

/-- **One byte past the limit**: the first write to a new file leaves the indirect block. -/
theorem write_past_limit : ∃ bm₀ bm₁,
    boot ⟨0, 0, 0, 0, 0, fun _ => 0⟩ still = .ok bm₀ ∧
    handle still (.create tFile) bm₀ = .ok (.created 2, bm₁) ∧ Live bm₁ 2 ∧ Intact bm₁ 2 ∧
    bm₁.writeFile 2 tooLong still = .error .overrun ∧ ¬ EnforcesLimit bm₁ 2 tooLong := by
  have kind : tFile % 2 ^ 16 ≠ 0 := by simp [tFile]
  have boots := boot_ok ⟨0, 0, 0, 0, 0, fun _ => 0⟩ still
  generalize (fresh.setInode 1 _) = bm₀ at boots
  obtain ⟨bm₁, out₁, blank₁⟩ := (boot_blank boots).create still le_rfl (by simp [inodeNum]) kind
  have live : Live bm₁ 2 := (blank₁.live 2).mpr (by omega)
  have all : AllPlaced bm₁ := reach_allPlaced ((Reachable.init ⟨still, boots⟩).step
    ⟨still, .create tFile, _, trivial, out₁⟩)
  have length : tooLong.length = maxfile * blockSize + 1 := List.length_replicate
  have past : maxfile * blockSize < tooLong.length % 2 ^ 32 := by
    rw [length]
    decide
  have room : maxfile < bm₁.freeSet.card := by
    rw [blank₁.free]
    decide
  exact ⟨bm₀, bm₁, boots, out₁, live, blank₁.exclusive.intact live,
    writeFile_overrun all le_rfl live.2.1 still past room, not_enforcesLimit (by omega)⟩

end ExtentServer

end Yfs.Storage
