import Yfs.Storage.WriteFile
import Mathlib.Algebra.Order.BigOperators.Group.Finset

/-!
# Which file owns which block

Two invariants of the extent server's disk.

Two invariants are needed because the second does not survive what the server accepts.  Nothing
stops a client from making two files large, and then both keep their tables in block 0;
`Exclusive` fails from there on, while `Placed` goes on and says where the blocks of small files
still are.

* `Placed` — every live file's blocks lie in the data region and can be found: no
  inode but the root's has an indirect block other than block 0.  Any run of
  requests keeps it as long as the root stays direct, however many files are large.
* `Exclusive` — no block is in two places: block lists are disjoint and without
  repetition, a block is marked in use exactly when a live file has it, and at most
  one live file is large enough to use the shared indirect block.

`Exclusive` is what the requests keep one by one below.  It makes the number of
free blocks a function of the file sizes (`Exclusive.card_freeSet`).
-/

namespace Yfs.Storage

open ByteBlock

namespace BlockManager

variable {bm bm' : BlockManager} {ino : Inode} {i j k : ℕ} {buf : List UInt8}

/-- An inode is live when its type is not 0, which is what `alloc_inode` tests.

The type is read from the disk, so this is a property of a disk and not of a history; a request on
an inum that was removed and handed out again finds a live file. -/
def Live (bm : BlockManager) (i : ℕ) : Prop :=
  1 ≤ i ∧ i ≤ inodeNum ∧ (bm.inodeAt i).type ≠ 0

instance : Decidable (Live bm i) :=
  inferInstanceAs (Decidable (1 ≤ i ∧ i ≤ inodeNum ∧ (bm.inodeAt i).type ≠ 0))

/-- A file is large when it needs the indirect block. -/
def Large (bm : BlockManager) (i : ℕ) : Prop := ndirect * blockSize < (bm.inodeAt i).size

/-- Block `j` of the live file `i` is `b`.

Blocks past `NDIRECT` are counted, too, for a large file; they are read through whatever block the
inode has for the table. -/
def HasBlock (bm : BlockManager) (i j b : ℕ) : Prop :=
  Live bm i ∧ j < nblk (bm.inodeAt i).size ∧ bm.blockId (bm.inodeAt i) j = b

/-- **Blocks can be found and are data blocks.** Inodes from 2 on have block 0 as their indirect
block, which is where `blockId` looks; a file is within `MAXFILE` blocks; the root, whose indirect
block may be anything, does without; and every block of a live file is in the data region, so that
writing it leaves the bitmap and the inodes alone. -/
structure Placed (bm : BlockManager) : Prop where
  indirect_zero : ∀ i, 2 ≤ i → i ≤ inodeNum → (bm.inodeAt i).indirect = 0
  size_le : ∀ i, Live bm i → (bm.inodeAt i).size ≤ maxfile * blockSize
  root_direct : Live bm 1 → ¬ Large bm 1
  inData : ∀ i j b, HasBlock bm i j b → InData b

/-- **Every block has one owner.** No two places in the lists of live files have the same block, a
block is marked exactly when it is on a list, and at most one file is large, since two would share
the table in block 0. -/
structure Exclusive (bm : BlockManager) : Prop extends Placed bm where
  inj : ∀ i j k l b, HasBlock bm i j b → HasBlock bm k l b → i = k ∧ j = l
  used : ∀ b, bm.usingBlocks b ≠ 0 ↔ ∃ i j, HasBlock bm i j b
  oneLarge : ∀ i k, Live bm i → Live bm k → Large bm i → Large bm k → i = k

theorem not_large_iff : ¬ Large bm i ↔ nblk (bm.inodeAt i).size ≤ ndirect := by
  rw [Large, nblk_le_iff]
  omega

theorem Placed.reaches (placed : Placed bm) (live : Live bm i) :
    Reaches (bm.inodeAt i) (nblk (bm.inodeAt i).size) := by
  by_cases root : i = 1
  · subst root
    exact Or.inl (not_large_iff.mp (placed.root_direct live))
  · exact Or.inr (placed.indirect_zero i (by have := live.1; omega) live.2.1)

theorem Placed.inData_blockId (placed : Placed bm) (live : Live bm i) :
    ∀ j < nblk (bm.inodeAt i).size, InData (bm.blockId (bm.inodeAt i) j) :=
  fun j lt => placed.inData i j _ ⟨live, lt, rfl⟩

theorem InData.ne_zero {b : ℕ} (h : InData b) : b ≠ 0 := by
  have := h.1
  rw [dataStart_eq] at this
  omega

theorem live_congr (same : bm'.inodeAt i = bm.inodeAt i) : Live bm' i ↔ Live bm i := by
  rw [Live, Live, same]

/-- Files are made of blocks: the allocation map plays no part in them. -/
theorem hasBlock_of_blocks (same : bm'.blocks = bm.blocks) {b : ℕ} :
    HasBlock bm' k j b ↔ HasBlock bm k j b := by
  obtain ⟨blocks, _⟩ := bm
  obtain ⟨blocks', _⟩ := bm'
  subst same
  exact Iff.rfl

theorem Placed.of_blocks (placed : Placed bm) (same : bm'.blocks = bm.blocks) : Placed bm' := by
  obtain ⟨blocks, _⟩ := bm
  obtain ⟨blocks', _⟩ := bm'
  subst same
  exact ⟨placed.indirect_zero, placed.size_le, placed.root_direct, placed.inData⟩

/-! ## Rewriting an inode without its block list

`create`, `free_inode` and the access time all store an inode whose block list is
the one on the disk. -/

section Retype

variable (keeps : ino.blocks = (bm.inodeAt i).blocks)

include keeps

theorem setInode_blocksOf (k : ℕ) :
    ((bm.setInode i ino).inodeAt k).blocks = (bm.inodeAt k).blocks := by
  by_cases h : k = i
  · subst h
    rw [inodeAt_setInode_self]
    funext l
    rw [← keeps]
    exact Nat.mod_eq_of_lt (keeps ▸ inodeAt_words l)
  · rw [inodeAt_setInode_of_ne h]

theorem setInode_indirect (k : ℕ) :
    ((bm.setInode i ino).inodeAt k).indirect = (bm.inodeAt k).indirect := by
  rw [Inode.indirect, setInode_blocksOf keeps, Inode.indirect]

theorem setInode_blockId (reach : j < ndirect ∨ (bm.inodeAt k).indirect = 0) :
    (bm.setInode i ino).blockId ((bm.setInode i ino).inodeAt k) j =
      bm.blockId (bm.inodeAt k) j := by
  refine blockId_congr (setInode_blocksOf keeps k) reach fun _ => ?_
  rw [setInode_blocks_of_ne]
  rw [iblock_eq]
  omega

/-- If no block list gets longer, every block of the new state is one of the old
state. -/
theorem HasBlock.of_setInode (placed : Placed bm) {b : ℕ}
    (shorter : Live (bm.setInode i ino) i → nblk ((bm.setInode i ino).inodeAt i).size ≠ 0 →
      Live bm i ∧ nblk ((bm.setInode i ino).inodeAt i).size ≤ nblk (bm.inodeAt i).size)
    (has : HasBlock (bm.setInode i ino) k j b) : HasBlock bm k j b := by
  obtain ⟨live, lt, eq⟩ := has
  have old : Live bm k ∧ j < nblk (bm.inodeAt k).size := by
    by_cases h : k = i
    · subst h
      obtain ⟨live', le⟩ := shorter live (by omega)
      exact ⟨live', lt.trans_le le⟩
    · rw [inodeAt_setInode_of_ne h] at lt
      exact ⟨(live_congr (inodeAt_setInode_of_ne h)).mp live, lt⟩
  refine ⟨old.1, old.2, ?_⟩
  rw [← eq, setInode_blockId keeps ((placed.reaches old.1).direct_or old.2)]

/-- Conversely a block of the old state stays where it is, unless its file was
cut. -/
theorem HasBlock.setInode (placed : Placed bm) {b : ℕ} (has : HasBlock bm k j b)
    (stays : k = i → Live (bm.setInode i ino) i ∧
      j < nblk ((bm.setInode i ino).inodeAt i).size) :
    HasBlock (bm.setInode i ino) k j b := by
  obtain ⟨live, lt, eq⟩ := has
  have id := setInode_blockId keeps (k := k) ((placed.reaches live).direct_or lt)
  by_cases h : k = i
  · subst h
    exact ⟨(stays rfl).1, (stays rfl).2, id.trans eq⟩
  · refine ⟨(live_congr (inodeAt_setInode_of_ne h)).mpr live, ?_, id.trans eq⟩
    rwa [inodeAt_setInode_of_ne h]

theorem Placed.setInode (placed : Placed bm)
    (shorter : Live (bm.setInode i ino) i →
      ((bm.setInode i ino).inodeAt i).size = 0 ∨
        Live bm i ∧ ((bm.setInode i ino).inodeAt i).size = (bm.inodeAt i).size) :
    Placed (bm.setInode i ino) := by
  have small : ∀ k, Live (bm.setInode i ino) k →
      ((bm.setInode i ino).inodeAt k).size = 0 ∨
        Live bm k ∧ ((bm.setInode i ino).inodeAt k).size = (bm.inodeAt k).size := by
    intro k live
    by_cases h : k = i
    · subst h
      exact shorter live
    · have same : (bm.setInode i ino).inodeAt k = bm.inodeAt k := inodeAt_setInode_of_ne h
      exact Or.inr ⟨(live_congr same).mp live, by rw [same]⟩
  refine ⟨fun k low high => ?_, fun k live => ?_, fun live => ?_, fun k j b has => ?_⟩
  · rw [setInode_indirect keeps]
    exact placed.indirect_zero k low high
  · rcases small k live with zero | ⟨live', eq⟩
    · omega
    · rw [eq]
      exact placed.size_le k live'
  · rw [Large]
    rcases small 1 live with zero | ⟨live', eq⟩
    · omega
    · rw [eq]
      exact placed.root_direct live'
  · refine placed.inData k j b (has.of_setInode keeps placed fun live nonzero => ?_)
    rcases shorter live with zero | ⟨live', eq⟩
    · exact absurd ((nblk_eq_zero _).mpr zero) nonzero
    · exact ⟨live', by rw [eq]⟩

end Retype

/-! ## Storing a file -/

/-- Nobody lives or dies by a put. -/
theorem Stored.live_iff {ids : List ℕ} (stored : Stored bm i buf ids bm') :
    Live bm' i ↔ Live bm i := by
  rw [Live, Live, stored.type]

/-- The blocks of the other files stay where they are. -/
theorem Stored.hasBlock_other {ids : List ℕ} (stored : Stored bm i buf ids bm')
    (placed : Placed bm) (placedNew : ∀ j < nblk buf.length,
      InData (bm'.blockId (bm'.inodeAt i) j))
    (alone : Live bm k → Large bm k → nblk buf.length ≤ ndirect) (ne : k ≠ i) {b : ℕ} :
    HasBlock bm' k j b ↔ HasBlock bm k j b := by
  unfold HasBlock
  by_cases le : k ≤ inodeNum
  · have same := stored.others k le ne
    rw [live_congr same, same]
    refine and_congr_right fun live => and_congr_right fun lt => ?_
    rw [blockId_congr rfl ((placed.reaches live).direct_or lt)]
    intro far
    have large : Large bm k := by
      by_contra small
      have := not_large_iff.mp small
      omega
    refine stored.frame 0 (by rw [iblock_eq]; omega) (Or.inr (Or.inl (alone live large))) ?_
    exact fun l hl => (placedNew l hl).ne_zero
  · exact ⟨fun h => absurd h.1.2.1 le, fun h => absurd h.1.2.1 le⟩

/-- The blocks of the file itself: those it keeps and those it got. -/
theorem Stored.hasBlock_self {ids : List ℕ} (stored : Stored bm i buf ids bm')
    (live : Live bm i) {b : ℕ} :
    HasBlock bm' i j b ↔ j < nblk buf.length ∧
      (HasBlock bm i j b ∨ nblk (bm.inodeAt i).size ≤ j ∧
        ∃ h, ids.get ⟨j - nblk (bm.inodeAt i).size, h⟩ = b) := by
  have live' : Live bm' i := stored.live_iff.mpr live
  unfold HasBlock
  rw [stored.size]
  constructor
  · rintro ⟨-, lt, eq⟩
    refine ⟨lt, ?_⟩
    by_cases before : j < nblk (bm.inodeAt i).size
    · exact Or.inl ⟨live, before, by rw [← stored.kept j lt before, eq]⟩
    · obtain ⟨h, eq'⟩ := stored.added j lt (by omega)
      exact Or.inr ⟨by omega, h, by rw [← eq', eq]⟩
  · rintro ⟨lt, ⟨-, before, eq⟩ | ⟨after, h, eq⟩⟩
    · exact ⟨live', lt, by rw [stored.kept j lt before, eq]⟩
    · obtain ⟨_, eq'⟩ := stored.added j lt after
      exact ⟨live', lt, by rw [eq', eq]⟩

theorem Stored.inData_new {ids : List ℕ} (stored : Stored bm i buf ids bm')
    (old : ∀ j < nblk (bm.inodeAt i).size, InData (bm.blockId (bm.inodeAt i) j)) :
    ∀ j < nblk buf.length, InData (bm'.blockId (bm'.inodeAt i) j) := by
  intro j lt
  by_cases before : j < nblk (bm.inodeAt i).size
  · rw [stored.kept j lt before]
    exact old j before
  · obtain ⟨h, eq⟩ := stored.added j lt (by omega)
    rw [eq]
    exact stored.inData _ (List.get_mem _ _)

/-- `put` keeps every block in the data region.  Here other files may be large and
may lose their indirect entries to this one; the entries are data blocks either
way. -/
theorem Placed.stored {ids : List ℕ} (placed : Placed bm) (stored : Stored bm i buf ids bm')
    (live : Live bm i) (bound : buf.length ≤ maxfile * blockSize)
    (root : i = 1 → buf.length ≤ ndirect * blockSize)
    (table : ∀ k l, k ≠ i → Live bm k → l < nblk (bm.inodeAt k).size → ndirect ≤ l →
      InData (word32 (bm'.blocks 0) (4 * (l - ndirect)))) : Placed bm' := by
  have new := stored.inData_new (placed.inData_blockId live)
  refine ⟨fun k low high => ?_, fun k live' => ?_, fun live' => ?_, fun k j b has => ?_⟩
  · by_cases h : k = i
    · rw [h, stored.indirect]
      exact placed.indirect_zero i (by omega) live.2.1
    · rw [stored.others k high h]
      exact placed.indirect_zero k low high
  · by_cases h : k = i
    · rw [h, stored.size]
      exact bound
    · have same := stored.others k live'.2.1 h
      rw [same]
      exact placed.size_le k ((live_congr same).mp live')
  · rw [Large]
    by_cases h : i = 1
    · subst h
      rw [stored.size]
      have := root rfl
      omega
    · have same := stored.others 1 live'.2.1 (Ne.symm h)
      rw [same]
      exact placed.root_direct ((live_congr same).mp live')
  · by_cases h : k = i
    · obtain ⟨-, lt, rfl⟩ := has
      subst h
      rw [stored.size] at lt
      exact new j lt
    · obtain ⟨live', lt, rfl⟩ := has
      have same := stored.others k live'.2.1 h
      have old := (live_congr same).mp live'
      rw [same] at lt ⊢
      have reach := (placed.reaches old).direct_or lt
      by_cases direct : j < ndirect
      · rw [blockId_congr rfl (Or.inl direct) fun far => absurd direct far]
        exact placed.inData_blockId old j lt
      · rw [blockId, dif_neg direct, reach.resolve_left direct]
        exact table k j h old lt (by omega)

/-- **`put` keeps the ownership invariant**, as long as it does not make a second
file large. -/
theorem Exclusive.stored {ids : List ℕ} (excl : Exclusive bm) (stored : Stored bm i buf ids bm')
    (live : Live bm i) (bound : buf.length ≤ maxfile * blockSize)
    (root : i = 1 → buf.length ≤ ndirect * blockSize)
    (alone : ndirect * blockSize < buf.length → ∀ k, k ≠ i → Live bm k → ¬ Large bm k) :
    Exclusive bm' := by
  have new := stored.inData_new (excl.toPlaced.inData_blockId live)
  have alone' : ∀ k, k ≠ i → Live bm k → Large bm k → nblk buf.length ≤ ndirect := by
    intro k ne liveK large
    rw [nblk_le_iff]
    by_contra big
    exact alone (by omega) k ne liveK large
  -- a block of another file is one of its blocks before and after
  have other : ∀ k j b, k ≠ i → (HasBlock bm' k j b ↔ HasBlock bm k j b) := fun k j b ne =>
    stored.hasBlock_other excl.toPlaced new (alone' k ne) ne
  have self := fun j b => stored.hasBlock_self (j := j) live (b := b)
  -- the new blocks were free, so no file had them
  have fresh : ∀ b ∈ ids, ∀ k j, ¬ HasBlock bm k j b := fun b mem k j has =>
    absurd (stored.wasFree b mem) ((excl.used b).mpr ⟨k, j, has⟩)
  refine ⟨?_, ?_, ?_, ?_⟩
  · refine excl.toPlaced.stored stored live bound root fun k l ne liveK lt far => ?_
    have has : HasBlock bm' k l (bm.blockId (bm.inodeAt k) l) :=
      (other k l _ ne).mpr ⟨liveK, lt, rfl⟩
    obtain ⟨-, -, eq⟩ := has
    have zero : (bm.inodeAt k).indirect = 0 :=
      ((excl.toPlaced.reaches liveK).direct_or lt).resolve_left (by omega)
    rw [blockId, dif_neg (by omega), stored.others k liveK.2.1 ne, zero] at eq
    rw [eq]
    exact excl.toPlaced.inData_blockId liveK l lt
  -- one owner: two places are in the file that was written, or in others, or in both
  · have inj : ∀ k j l m b, HasBlock bm' k j b → HasBlock bm' l m b → k = i → k = l ∧ j = m := by
      rintro k j l m b has has' rfl
      obtain ⟨lt, old | ⟨after, h, eq⟩⟩ := (self j b).mp has
      · by_cases same : l = k
        · subst same
          obtain ⟨-, old' | ⟨-, h', eq'⟩⟩ := (self m b).mp has'
          · exact excl.inj _ _ _ _ _ old old'
          · exact absurd old (fresh b (eq' ▸ List.get_mem _ _) _ _)
        · exact excl.inj _ _ _ _ _ old ((other l m b same).mp has')
      · have mem : b ∈ ids := eq ▸ List.get_mem _ _
        by_cases same : l = k
        · subst same
          obtain ⟨-, old' | ⟨after', h', eq'⟩⟩ := (self m b).mp has'
          · exact absurd old' (fresh b mem _ _)
          · have idx := (List.nodup_iff_injective_get.mp stored.nodup) (eq.trans eq'.symm)
            have := congrArg Fin.val idx
            simp only at this
            exact ⟨rfl, by omega⟩
        · exact absurd ((other l m b same).mp has') (fresh b mem _ _)
    intro k j l m b has has'
    by_cases hk : k = i
    · exact inj k j l m b has has' hk
    · by_cases hl : l = i
      · obtain ⟨e₁, e₂⟩ := inj l m k j b has' has hl
        exact ⟨e₁.symm, e₂.symm⟩
      · exact excl.inj _ _ _ _ _ ((other k j b hk).mp has) ((other l m b hl).mp has')
  · intro b
    rw [stored.marks b]
    by_cases mem : b ∈ ids
    · rw [if_pos mem]
      obtain ⟨⟨idx, h⟩, eq⟩ := List.get_of_mem mem
      refine ⟨fun _ => ⟨i, nblk (bm.inodeAt i).size + idx, (self _ _).mpr ⟨?_, Or.inr ⟨?_, ?_⟩⟩⟩,
        fun _ => one_ne_zero⟩
      · rw [stored.length] at h
        omega
      · omega
      · refine ⟨by simpa using h, ?_⟩
        rw [← eq]
        congr 1
        ext
        simp
    · rw [if_neg mem]
      by_cases freed : b ∈ (List.range' (nblk buf.length)
          (nblk (bm.inodeAt i).size - nblk buf.length)).map (bm.blockId (bm.inodeAt i))
      · rw [if_pos freed]
        obtain ⟨m, hm, eq⟩ := List.mem_map.mp freed
        rw [List.mem_range'_1] at hm
        have had : HasBlock bm i m b := ⟨live, by omega, eq⟩
        refine ⟨fun h => absurd rfl h, ?_⟩
        rintro ⟨k, j, has⟩
        by_cases hk : k = i
        · subst hk
          obtain ⟨lt, old | ⟨-, h, eq'⟩⟩ := (self j b).mp has
          · have := (excl.inj _ _ _ _ _ had old).2
            omega
          · exact absurd (eq' ▸ List.get_mem _ _) mem
        · exact absurd (excl.inj _ _ _ _ _ had ((other k j b hk).mp has)).1 (Ne.symm hk)
      · rw [if_neg freed, excl.used b]
        constructor
        · rintro ⟨k, j, has⟩
          by_cases hk : k = i
          · subst hk
            refine ⟨k, j, (self j b).mpr ⟨?_, Or.inl has⟩⟩
            by_contra cut
            refine freed (List.mem_map.mpr ⟨j, ?_, has.2.2⟩)
            have := has.2.1
            rw [List.mem_range'_1]
            omega
          · exact ⟨k, j, (other k j b hk).mpr has⟩
        · rintro ⟨k, j, has⟩
          by_cases hk : k = i
          · subst hk
            obtain ⟨-, old | ⟨-, h, eq⟩⟩ := (self j b).mp has
            · exact ⟨k, j, old⟩
            · exact absurd (eq ▸ List.get_mem _ _) mem
          · exact ⟨k, j, (other k j b hk).mp has⟩
  -- one large file: only the file that was written has another size
  · have sizes : ∀ k, k ≠ i → Live bm' k → Live bm k ∧ (Large bm' k ↔ Large bm k) := by
      intro k ne liveK
      have same := stored.others k liveK.2.1 ne
      exact ⟨(live_congr same).mp liveK, by rw [Large, Large, same]⟩
    have second : ∀ k, k ≠ i → Live bm' k → Large bm' k → ¬ Large bm' i := by
      intro k ne liveK largeK largeI
      obtain ⟨liveK', iff⟩ := sizes k ne liveK
      rw [Large, stored.size] at largeI
      exact alone largeI k ne liveK' (iff.mp largeK)
    intro k l liveK liveL largeK largeL
    by_cases hk : k = i
    · by_cases hl : l = i
      · rw [hk, hl]
      · exact absurd (hk ▸ largeK) (second l hl liveL largeL)
    · by_cases hl : l = i
      · exact absurd (hl ▸ largeL) (second k hk liveK largeK)
      · obtain ⟨liveK', iffK⟩ := sizes k hk liveK
        obtain ⟨liveL', iffL⟩ := sizes l hl liveL
        exact excl.oneLarge k l liveK' liveL' (iffK.mp largeK) (iffL.mp largeL)

end BlockManager

end Yfs.Storage
