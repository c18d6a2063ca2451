import Yfs.Storage.Runs

/-!
# Every inode, live or dead

The handlers do not ask whether the inode of a request is live.  `free_inode` clears the
type and nothing else, so a dead inode has a size and a block list as a live one has, and
`put`, `get` and `remove` work with them.

The lemmas are in the form of inversion: given that a request was answered, they say what it
did. That is the form that runs need, where the answer is there and the conditions for it are
not.

* `get_inv`, `getattr_inv`, `put_inv`, `remove_inv` — what a request has done that was
  answered, on any inum.
* `AllPlaced` — `Placed` for every inode; any run of puts within the size limits keeps it.
* `Intact` — a block list without repetition; `Stored.inj` keeps it so.
-/

namespace Yfs.Storage

open ByteBlock Transition

namespace BlockManager

variable {bm bm' : BlockManager} {ino : Inode} {i j k : ℕ} {buf : List UInt8} {now : Clock}

/-! ## What was answered -/

theorem getInode_inv (out : bm.getInode i = .ok ino) :
    1 ≤ i ∧ i ≤ inodeNum ∧ ino = bm.inodeAt i := by
  have range : ¬ (i = 0 ∨ inodeNum < i) := by
    intro bad
    rw [getInode, if_pos bad] at out
    cases out
  rw [getInode_ok (by omega) (by omega)] at out
  cases out
  exact ⟨by omega, by omega, rfl⟩

/-- A read returns a size within the limit, and changes at most the access time. -/
theorem readFile_inv {r : List UInt8 × ℕ} (out : bm.readFile i now = .ok (r, bm')) :
    1 ≤ i ∧ i ≤ inodeNum ∧ r.2 = (bm.inodeAt i).size ∧ r.2 ≤ maxfile * blockSize ∧
      (bm' = bm ∨ bm' = bm.setInode i { bm.inodeAt i with atime := now 0 }) := by
  rw [readFile] at out
  cases first : bm.getInode i with
  | error e =>
      rw [first] at out
      cases out
  | ok ino =>
      obtain ⟨pos, le, rfl⟩ := getInode_inv first
      refine ⟨pos, le, ?_⟩
      rw [first] at out
      simp only [bind, Except.bind] at out
      split at out
      · next empty =>
          cases out
          exact ⟨empty.symm, Nat.zero_le _, Or.inl rfl⟩
      · split at out
        · cases out
        · next small =>
            split at out
            · cases out
            · rw [putInode_ok le] at out
              cases out
              exact ⟨rfl, Nat.not_lt.mp small, Or.inr rfl⟩

/-- A write that comes to its end has written the inode, with the block list of its first part. -/
theorem writeFile_inv (out : bm.writeFile i buf now = .ok bm') :
    1 ≤ i ∧ i ≤ inodeNum ∧ ∃ ino₁ bm₁,
      bm.resizeBlocks (bm.inodeAt i) (nblk (bm.inodeAt i).size) (nblk (buf.length % 2 ^ 32)) =
        .ok (ino₁, bm₁) ∧
      bm'.inodeAt i = { ino₁ with
        size := buf.length % 2 ^ 32, atime := now 0, mtime := now 1, ctime := now 2 }.truncate := by
  rw [writeFile] at out
  cases first : bm.getInode i with
  | error e =>
      rw [first] at out
      cases out
  | ok ino =>
      obtain ⟨pos, le, rfl⟩ := getInode_inv first
      rw [first] at out
      simp only [bind, Except.bind] at out
      split at out
      · cases out
      · next r resized =>
          split at out
          · cases out
          · rw [putInode_ok le] at out
            cases out
            exact ⟨pos, le, r.1, r.2, resized, inodeAt_setInode_self⟩

/-! ## Where every inode's blocks are -/

/-- `Placed` for every inode.

The difference to `Placed` is that nothing is asked to be live.  A dead inode keeps its size and
its list, and a late `put` or `get` follows that list; so the bounds have to hold for it as well.
-/
structure AllPlaced (bm : BlockManager) : Prop where
  indirect_zero : ∀ i, 2 ≤ i → i ≤ inodeNum → (bm.inodeAt i).indirect = 0
  size_le : ∀ i, 1 ≤ i → i ≤ inodeNum → (bm.inodeAt i).size ≤ maxfile * blockSize
  root_direct : ¬ Large bm 1
  inData : ∀ i j, 1 ≤ i → i ≤ inodeNum → j < nblk (bm.inodeAt i).size →
    InData (bm.blockId (bm.inodeAt i) j)

namespace AllPlaced

theorem placed (all : AllPlaced bm) : Placed bm where
  indirect_zero := all.indirect_zero
  size_le i live := all.size_le i live.1 live.2.1
  root_direct _ := all.root_direct
  inData := by
    rintro i j b ⟨live, lt, rfl⟩
    exact all.inData i j live.1 live.2.1 lt

theorem reaches (all : AllPlaced bm) (pos : 1 ≤ i) (le : i ≤ inodeNum) :
    Reaches (bm.inodeAt i) (nblk (bm.inodeAt i).size) := by
  by_cases root : i = 1
  · subst root
    exact Or.inl (not_large_iff.mp all.root_direct)
  · exact Or.inr (all.indirect_zero i (by omega) le)

/-- What an inode must look like for `put` to be possible. -/
theorem writable (all : AllPlaced bm) (pos : 1 ≤ i) (le : i ≤ inodeNum)
    (bound : buf.length ≤ maxfile * blockSize)
    (root : i = 1 → buf.length ≤ ndirect * blockSize) : Writable bm i buf := by
  refine ⟨pos, le, all.reaches pos le, ?_, all.size_le i pos le, bound,
    fun j lt => all.inData i j pos le lt⟩
  by_cases h : i = 1
  · exact Or.inl ((nblk_le_iff _ _).mpr (root h))
  · exact Or.inr (all.indirect_zero i (by omega) le)

/-- Storing an inode with its block list, its size being the old one or 0. -/
theorem setInode (all : AllPlaced bm) (keeps : ino.blocks = (bm.inodeAt i).blocks)
    (shorter : ino.size = 0 ∨ ino.size = (bm.inodeAt i).size) : AllPlaced (bm.setInode i ino) := by
  have size : ∀ k, ((bm.setInode i ino).inodeAt k).size = 0 ∨
      ((bm.setInode i ino).inodeAt k).size = (bm.inodeAt k).size := by
    intro k
    by_cases h : k = i
    · subst h
      rw [inodeAt_setInode_self]
      rcases shorter with zero | same
      · exact Or.inl (by simp [Inode.truncate, zero])
      · exact Or.inr (by rw [Inode.truncate, same]; exact Nat.mod_eq_of_lt (word32_lt _ _))
    · rw [inodeAt_setInode_of_ne h]
      exact Or.inr rfl
  refine ⟨fun k low high => ?_, fun k pos le => ?_, ?_, fun k j pos le lt => ?_⟩
  · rw [setInode_indirect keeps]
    exact all.indirect_zero k low high
  · rcases size k with zero | same
    · omega
    · rw [same]
      exact all.size_le k pos le
  · rw [Large]
    rcases size 1 with zero | same
    · omega
    · rw [same]
      exact all.root_direct
  · rcases size k with zero | same
    · rw [zero] at lt
      simp [nblk_eq] at lt
    · rw [same] at lt
      rw [setInode_blockId keeps ((all.reaches pos le).direct_or lt)]
      exact all.inData k j pos le lt

theorem removed (all : AllPlaced bm) (i : ℕ) : AllPlaced (bm.removed i) := by
  have released : AllPlaced (bm.released i) :=
    ⟨all.indirect_zero, all.size_le, all.root_direct, all.inData⟩
  exact released.setInode (i := i) rfl (Or.inr rfl)

/-- An entry of the indirect table, as the inode `i` finds it. -/
theorem blockId_table (zero : (bm.inodeAt i).indirect = 0) (far : ndirect ≤ j) :
    bm.blockId (bm.inodeAt i) j = word32 (bm.blocks 0) (4 * (j - ndirect)) := by
  rw [blockId, dif_neg (by omega), zero]

/-- **`write_file` keeps every block in the data region.**  The other inodes may lose entries of
the indirect table to this one; the entries are data blocks either way. -/
theorem stored (all : AllPlaced bm) (pos : 1 ≤ i) (le : i ≤ inodeNum) {ids : List ℕ}
    (stored : Stored bm i buf ids bm') (bound : buf.length ≤ maxfile * blockSize)
    (root : i = 1 → buf.length ≤ ndirect * blockSize) : AllPlaced bm' := by
  have new := stored.inData_new fun j lt => all.inData i j pos le lt
  have zero : ∀ k, 2 ≤ k → k ≤ inodeNum → (bm'.inodeAt k).indirect = 0 := by
    intro k low high
    by_cases h : k = i
    · rw [h, stored.indirect]
      exact all.indirect_zero i (by omega) le
    · rw [stored.others k high h]
      exact all.indirect_zero k low high
  refine ⟨zero, fun k posK leK => ?_, ?_, fun k j posK leK lt => ?_⟩
  · by_cases h : k = i
    · rw [h, stored.size]
      exact bound
    · rw [stored.others k leK h]
      exact all.size_le k posK leK
  · rw [Large]
    by_cases h : i = 1
    · subst h
      rw [stored.size]
      have := root rfl
      omega
    · rw [stored.others 1 (by decide) (Ne.symm h)]
      exact all.root_direct
  · by_cases h : k = i
    · subst h
      rw [stored.size] at lt
      exact new j lt
    · have same := stored.others k leK h
      rw [same] at lt
      have old := all.inData k j posK leK lt
      have reach := (all.reaches posK leK).direct_or lt
      by_cases direct : j < ndirect
      · rw [same, blockId_congr rfl (Or.inl direct) fun far => absurd direct far]
        exact old
      · have zeroK : (bm.inodeAt k).indirect = 0 := reach.resolve_left direct
        rw [blockId_table zeroK (by omega)] at old
        rw [blockId_table (by rw [same, zeroK]) (by omega)]
        -- an entry of the table in block 0, which the write may have moved or replaced
        by_cases one : i = 1
        · -- the root stays direct, so block 0 is not written
          rw [stored.frame 0 (by rw [iblock_eq]; omega)
            (Or.inr (Or.inl ((nblk_le_iff _ _).mpr (root one)))) fun l hl => (new l hl).ne_zero]
          exact old
        · have zeroI := all.indirect_zero i (by omega) le
          rw [← blockId_table (i := i) (by rw [stored.indirect, zeroI]) (by omega)]
          by_cases inside : j < nblk buf.length
          · exact new j inside
          · have small : j < maxfile :=
              lt_of_lt_of_le lt ((nblk_le_iff _ _).mpr (all.size_le k posK leK))
            rw [stored.beyond j (by omega) small zeroI, blockId_table zeroI (by omega)]
            exact old

end AllPlaced

/-! ## Intact block lists -/

/-- The blocks of a file are distinct and in use.  This can be lost when two files are large. -/
structure Intact (bm : BlockManager) (i : ℕ) : Prop where
  inj : ∀ j < nblk (bm.inodeAt i).size, ∀ l < nblk (bm.inodeAt i).size,
    bm.blockId (bm.inodeAt i) j = bm.blockId (bm.inodeAt i) l → j = l
  inUse : ∀ j < nblk (bm.inodeAt i).size, bm.usingBlocks (bm.blockId (bm.inodeAt i) j) ≠ 0

theorem Exclusive.intact (excl : Exclusive bm) (live : Live bm i) : Intact bm i where
  inj j hj l hl eq := (excl.inj i j i l _ ⟨live, hj, rfl⟩ ⟨live, hl, eq.symm⟩).2
  inUse j lt := (excl.used _).mpr ⟨i, j, live, lt, rfl⟩

/-- The blocks of the stored file are distinct: those it keeps were in use, those it got were
not. -/
theorem Stored.inj {ids : List ℕ} (stored : Stored bm i buf ids bm') (intact : Intact bm i) :
    ∀ j < nblk buf.length, ∀ l < nblk buf.length,
      bm'.blockId (bm'.inodeAt i) j = bm'.blockId (bm'.inodeAt i) l → j = l := by
  have apart : ∀ j < nblk buf.length, ∀ l < nblk buf.length, j < nblk (bm.inodeAt i).size →
      nblk (bm.inodeAt i).size ≤ l →
      bm'.blockId (bm'.inodeAt i) j ≠ bm'.blockId (bm'.inodeAt i) l := by
    intro j hj l hl before after eq
    obtain ⟨h, new⟩ := stored.added l hl after
    rw [stored.kept j hj before, new] at eq
    refine intact.inUse j before ?_
    rw [eq]
    exact stored.wasFree _ (List.get_mem _ _)
  intro j hj l hl eq
  by_cases beforeJ : j < nblk (bm.inodeAt i).size
  · by_cases beforeL : l < nblk (bm.inodeAt i).size
    · rw [stored.kept j hj beforeJ, stored.kept l hl beforeL] at eq
      exact intact.inj j beforeJ l beforeL eq
    · exact absurd eq (apart j hj l hl beforeJ (by omega))
  · by_cases beforeL : l < nblk (bm.inodeAt i).size
    · exact absurd eq.symm (apart l hl j hj beforeL (by omega))
    · obtain ⟨hj', newJ⟩ := stored.added j hj (by omega)
      obtain ⟨hl', newL⟩ := stored.added l hl (by omega)
      rw [newJ, newL, stored.nodup.get_inj_iff, Fin.mk.injEq] at eq
      omega

end BlockManager

namespace ExtentServer

open BlockManager

variable {uninit : Inode} {bm bm' : BlockManager} {now : Clock} {id : ℕ} {buf : List UInt8}
  {reply : Reply}

/-! ## Requests on any inum -/

/-- A `get` that is answered changed at most an access time. -/
theorem get_inv (out : handle now (.get id) bm = .ok (reply, bm')) :
    maskId id ≤ inodeNum ∧ (bm' = bm ∨
      bm' = bm.setInode (maskId id) { bm.inodeAt (maskId id) with atime := now 0 }) := by
  rw [handle, get] at out
  cases read : bm.readFile (maskId id) now with
  | error e =>
      rw [read] at out
      cases out
  | ok r =>
      obtain ⟨⟨cbuf, size⟩, bm₁⟩ := r
      obtain ⟨pos, le, -, -, same⟩ := readFile_inv read
      rw [read] at out
      simp only [bind, Except.bind, attr_ok pos le] at out
      cases out
      exact ⟨le, same⟩

@[inherit_doc get_inv]
theorem getattr_inv (out : handle now (.getattr id) bm = .ok (reply, bm')) :
    maskId id ≤ inodeNum ∧ (bm' = bm ∨
      bm' = bm.setInode (maskId id) { bm.inodeAt (maskId id) with atime := now 0 }) := by
  rw [handle, getattr] at out
  cases attr : bm.getattr (maskId id) with
  | error e =>
      rw [attr] at out
      cases out
  | ok a =>
      cases read : bm.readFile (maskId id) now with
      | error e =>
          rw [attr, read] at out
          cases out
      | ok r =>
          obtain ⟨⟨cbuf, size⟩, bm₁⟩ := r
          obtain ⟨-, le, -, -, same⟩ := readFile_inv read
          rw [attr, read] at out
          cases out
          exact ⟨le, same⟩

/-- A `put` that is answered has stored its string. -/
theorem put_inv (all : AllPlaced bm) (bound : buf.length ≤ maxfile * blockSize)
    (root : maskId id = 1 → buf.length ≤ ndirect * blockSize)
    (out : handle now (.put id buf) bm = .ok (reply, bm')) :
    1 ≤ maskId id ∧ maskId id ≤ inodeNum ∧ reply = .done ∧
      ∃ ids, Stored bm (maskId id) buf ids bm' := by
  rw [handle, put] at out
  cases wrote : bm.writeFile (maskId id) buf now with
  | error e =>
      rw [wrote] at out
      cases out
  | ok bm₁ =>
      rw [wrote] at out
      cases out
      obtain ⟨pos, le, -⟩ := writeFile_inv wrote
      have ok := all.writable pos le bound root
      by_cases room : nblk buf.length - nblk (bm.inodeAt (maskId id)).size ≤ bm.freeSet.card
      · obtain ⟨ids, bm₂, out₂, stored⟩ := writeFile_ok ok now room
        rw [wrote] at out₂
        cases out₂
        exact ⟨pos, le, rfl, ids, stored⟩
      · rw [writeFile_error ok now (by omega)] at wrote
        cases wrote

/-- A `remove` that is answered. -/
theorem remove_inv (all : AllPlaced bm) (out : handle now (.remove id) bm = .ok (reply, bm')) :
    1 ≤ maskId id ∧ maskId id ≤ inodeNum ∧ bm' = bm.removed (maskId id) := by
  rw [handle, remove] at out
  cases first : bm.getInode (maskId id) with
  | error e =>
      rw [removeFile, first] at out
      cases out
  | ok ino =>
      obtain ⟨pos, le, -⟩ := getInode_inv first
      rw [removeFile_ok pos le (all.reaches pos le) (all.size_le _ pos le)] at out
      cases out
      exact ⟨pos, le, rfl⟩

/-- Puts of at most `MAXFILE` blocks, the root's of at most `NDIRECT`; any inums.

`maskId` is what the handlers do to an inum before they use it.  These are the only conditions,
and both are on the length of a string. -/
def Bounded : Request → Prop
  | .put id buf => buf.length ≤ maxfile * blockSize ∧
      (maskId id = 1 → buf.length ≤ ndirect * blockSize)
  | _ => True

/-- **One request keeps `AllPlaced`.** -/
theorem step_allPlaced (all : AllPlaced bm) (step : Step (fun _ => Bounded) bm bm') :
    AllPlaced bm' := by
  obtain ⟨now, req, reply, ok, out⟩ := step
  have read : ∀ {i}, bm' = bm ∨ bm' = bm.setInode i { bm.inodeAt i with atime := now 0 } →
      AllPlaced bm' := by
    rintro i (rfl | rfl)
    · exact all
    · exact all.setInode rfl (Or.inr rfl)
  cases req with
  | create type =>
      obtain ⟨k, -, -, -, -, rfl⟩ := create_inv out
      exact all.setInode rfl (Or.inl rfl)
  | put id buf =>
      obtain ⟨pos, le, -, ids, stored⟩ := put_inv all ok.1 ok.2 out
      exact all.stored pos le stored ok.1 ok.2
  | get id => exact read (get_inv out).2
  | getattr id => exact read (getattr_inv out).2
  | remove id =>
      obtain ⟨-, -, rfl⟩ := remove_inv all out
      exact all.removed _

/-- A formatted disk has no bytes in any inode. -/
theorem boot_empty (boots : boot uninit now = .ok bm) (i : ℕ) : (bm.inodeAt i).size = 0 := by
  by_cases h : i = 1
  · rw [h, boot_size boots]
  · rw [boot_ok, Except.ok.injEq] at boots
    rw [← boots, inodeAt_setInode_of_ne h, inodeAt_fresh]

/-- **Every disk of a run within the size limits is `AllPlaced`.** -/
theorem reach_allPlaced (reach : Reach (fun _ => Bounded) uninit bm) : AllPlaced bm := by
  refine reach.invariant (fun bm h => ?_) fun bm bm' _ all step => step_allPlaced all step
  obtain ⟨now, boots⟩ := h
  refine ⟨fun i low _ => boot_indirect boots (by omega), fun i _ _ => ?_, ?_, fun i j _ _ lt => ?_⟩
  · rw [boot_empty boots i]
    exact Nat.zero_le _
  · rw [Large, boot_empty boots 1]
    omega
  · rw [boot_empty boots i] at lt
    simp [nblk_eq] at lt

end ExtentServer

end Yfs.Storage
