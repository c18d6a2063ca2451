import Yfs.Storage.Ownership

/-!
# The extent server as a map of files

`FileMap` is what the extent server is for: a finite map from inums to files, a
file being a type and a byte string.  `files` reads the map off a disk.  Each
request is then one lemma: from an `Exclusive` disk the handler answers, the disk it
leaves is `Exclusive`, and the map it holds is the old one changed at one inum.

The map forgets where the bytes are, which inode is how large on the disk, the times and the
allocation map.  It keeps types, since handlers answer them, and it keeps dead inums apart from
live ones, although the handlers do not ask.
-/

namespace Yfs.Storage

open ByteBlock

/-- A file as its users see it.

The size is the length of the string, and times are left out: `Storage.Times` is about them. -/
structure File where
  type : ℕ
  data : List UInt8
  deriving DecidableEq, Repr

/-- The files by inum. -/
abbrev FileMap := ℕ → Option File

namespace BlockManager

variable {bm bm' : BlockManager} {ino : Inode} {i j k : ℕ} {buf : List UInt8}

/-- The files on a disk. -/
def files (bm : BlockManager) : FileMap := fun i =>
  if Live bm i then some ⟨(bm.inodeAt i).type, bm.fileData (bm.inodeAt i)⟩ else none

theorem files_of_live (live : Live bm i) :
    bm.files i = some ⟨(bm.inodeAt i).type, bm.fileData (bm.inodeAt i)⟩ :=
  if_pos live

theorem files_of_not_live (dead : ¬ Live bm i) : bm.files i = none :=
  if_neg dead

theorem files_of_blocks (same : bm'.blocks = bm.blocks) : bm'.files = bm.files := by
  obtain ⟨blocks, _⟩ := bm
  obtain ⟨blocks', _⟩ := bm'
  subst same
  rfl

theorem files_eq_none_iff : bm.files i = none ↔ ¬ Live bm i := by
  unfold files
  split <;> simp_all

/-- A file's bytes are determined by its size, its block ids and those blocks. -/
theorem fileData_congr {ino' : Inode} (size : ino'.size = ino.size)
    (ids : ∀ j < nblk ino.size, bm'.blockId ino' j = bm.blockId ino j)
    (same : ∀ j < nblk ino.size, bm'.blocks (bm.blockId ino j) = bm.blocks (bm.blockId ino j)) :
    bm'.fileData ino' = bm.fileData ino := by
  have lists : bm'.fileIds ino' = bm.fileIds ino := by
    rw [fileIds, fileIds, size]
    exact List.map_congr_left fun j mem => ids j (List.mem_range.mp mem)
  rw [fileData, fileData, lists, size]
  congr 1
  refine List.flatMap_congr fun b mem => ?_
  obtain ⟨j, hj, rfl⟩ := List.mem_map.mp mem
  rw [same j (List.mem_range.mp hj)]

theorem some_file_congr {type : ℕ} {data data' : List UInt8} (eq : data = data') :
    some (File.mk type data) = some (File.mk type data') := by
  rw [eq]

theorem length_fileIds_flatMap (bm : BlockManager) (ino : Inode) :
    ((bm.fileIds ino).flatMap fun b => (bm.blocks b).toList).length =
      blockSize * nblk ino.size := by
  rw [List.length_flatMap]
  simp only [Vector.length_toList, List.map_const', List.sum_replicate_nat]
  rw [fileIds, List.length_map, List.length_range, Nat.mul_comm]

theorem length_fileData (bm : BlockManager) (ino : Inode) :
    (bm.fileData ino).length = ino.size := by
  rw [fileData, List.length_take, length_fileIds_flatMap]
  exact Nat.min_eq_left (le_mul_nblk _)

/-- A file whose blocks are the chunks of `buf` is `buf`. -/
theorem fileData_of_chunks (size : ino.size = buf.length)
    (chunks : ∀ j < nblk buf.length, bm.blocks (bm.blockId ino j) = chunk buf j) :
    bm.fileData ino = buf := by
  have eq : ((bm.fileIds ino).flatMap fun b => (bm.blocks b).toList) =
      (List.range (nblk buf.length)).flatMap fun j => (chunk buf j : Block).toList := by
    rw [fileIds, size, List.flatMap_map]
    refine List.flatMap_congr fun j mem => ?_
    rw [chunks j (List.mem_range.mp mem)]
  rw [fileData, eq, size]
  exact take_flatMap_chunk buf (le_mul_nblk _)

/-! ## Free blocks are counted by the file sizes -/

/-- The number of blocks of the data region. -/
def dataBlocks : ℕ := blockNum - dataStart

/-- The blocks that the live files need, all together. -/
def totalBlocks (bm : BlockManager) : ℕ :=
  ∑ k ∈ (Finset.Icc 1 inodeNum).filter (Live bm), nblk (bm.inodeAt k).size

/-- **Every block of the data region is free or counted by a file.** -/
theorem Exclusive.card_freeSet (excl : Exclusive bm) :
    bm.freeSet.card + bm.totalBlocks = dataBlocks := by
  let owned : ℕ → Finset ℕ := fun k =>
    (Finset.range (nblk (bm.inodeAt k).size)).image (bm.blockId (bm.inodeAt k))
  have card : ∀ k ∈ (Finset.Icc 1 inodeNum).filter (Live bm),
      (owned k).card = nblk (bm.inodeAt k).size := by
    intro k mem
    have live := (Finset.mem_filter.mp mem).2
    rw [Finset.card_image_of_injOn, Finset.card_range]
    intro j hj l hl eq
    rw [Finset.coe_range, Set.mem_Iio] at hj hl
    exact (excl.inj k j k l _ ⟨live, hj, rfl⟩ ⟨live, hl, eq.symm⟩).2
  -- no block is counted twice
  have disjoint : Set.PairwiseDisjoint
      (((Finset.Icc 1 inodeNum).filter (Live bm) : Finset ℕ) : Set ℕ) owned := by
    intro k hk l hl ne
    rw [Function.onFun, Finset.disjoint_left]
    intro b memK memL
    obtain ⟨j, hj, eqJ⟩ := Finset.mem_image.mp memK
    obtain ⟨m, hm, eqM⟩ := Finset.mem_image.mp memL
    have liveK := (Finset.mem_filter.mp hk).2
    have liveL := (Finset.mem_filter.mp hl).2
    exact ne (excl.inj k j l m b ⟨liveK, Finset.mem_range.mp hj, eqJ⟩
      ⟨liveL, Finset.mem_range.mp hm, eqM⟩).1
  have used : (Finset.Ico dataStart blockNum).filter (fun b => ¬ bm.usingBlocks b = 0) =
      ((Finset.Icc 1 inodeNum).filter (Live bm)).biUnion owned := by
    ext b
    simp only [Finset.mem_filter, Finset.mem_Ico, Finset.mem_biUnion, Finset.mem_Icc,
      Finset.mem_image, Finset.mem_range, owned]
    constructor
    · rintro ⟨-, marked⟩
      obtain ⟨k, j, live, lt, eq⟩ := (excl.used b).mp marked
      exact ⟨k, ⟨⟨live.1, live.2.1⟩, live⟩, j, lt, eq⟩
    · rintro ⟨k, ⟨-, live⟩, j, lt, eq⟩
      have has : HasBlock bm k j b := ⟨live, lt, eq⟩
      exact ⟨excl.inData k j b has, (excl.used b).mpr ⟨k, j, has⟩⟩
  have split := Finset.card_filter_add_card_filter_not (s := Finset.Ico dataStart blockNum)
    (fun b => bm.usingBlocks b = 0)
  rw [used, Finset.card_biUnion disjoint, Finset.sum_congr rfl card, Nat.card_Ico] at split
  exact split

/-! ## Requests that keep every block list -/

section Retype

variable (keeps : ino.blocks = (bm.inodeAt i).blocks)

include keeps

/-- If the rewritten inode keeps its blocks, or had and has none, the owners are
the same. -/
theorem hasBlock_setInode_iff (placed : Placed bm)
    (same : ((bm.setInode i ino).inodeAt i).size = 0 ∧ ¬ Live bm i ∨
      ((bm.setInode i ino).inodeAt i).size = (bm.inodeAt i).size ∧
        ((bm.setInode i ino).inodeAt i).type = (bm.inodeAt i).type) {b : ℕ} :
    HasBlock (bm.setInode i ino) k j b ↔ HasBlock bm k j b := by
  have live : ((bm.setInode i ino).inodeAt i).type = (bm.inodeAt i).type →
      (Live (bm.setInode i ino) i ↔ Live bm i) := by
    intro type
    rw [Live, Live, type]
  constructor
  · intro has
    refine has.of_setInode keeps placed fun live' nonzero => ?_
    rcases same with ⟨zero, -⟩ | ⟨size, type⟩
    · exact absurd ((nblk_eq_zero _).mpr zero) nonzero
    · exact ⟨(live type).mp live', by rw [size]⟩
  · intro has
    refine has.setInode keeps placed fun eq => ?_
    subst eq
    rcases same with ⟨-, dead⟩ | ⟨size, type⟩
    · exact absurd has.1 dead
    · exact ⟨(live type).mpr has.1, by rw [size]; exact has.2.1⟩

theorem Exclusive.setInode (excl : Exclusive bm)
    (same : ((bm.setInode i ino).inodeAt i).size = 0 ∧ ¬ Live bm i ∨
      ((bm.setInode i ino).inodeAt i).size = (bm.inodeAt i).size ∧
        ((bm.setInode i ino).inodeAt i).type = (bm.inodeAt i).type) :
    Exclusive (bm.setInode i ino) := by
  have owners : ∀ k j b, HasBlock (bm.setInode i ino) k j b ↔ HasBlock bm k j b := fun k j b =>
    hasBlock_setInode_iff keeps excl.toPlaced same
  have large : ∀ k, Live (bm.setInode i ino) k → Large (bm.setInode i ino) k →
      Live bm k ∧ Large bm k := by
    intro k liveK largeK
    by_cases h : k = i
    · subst h
      rw [Large] at largeK
      rcases same with ⟨zero, -⟩ | ⟨size, type⟩
      · omega
      · rw [size] at largeK
        exact ⟨⟨liveK.1, liveK.2.1, by rw [← type]; exact liveK.2.2⟩, largeK⟩
    · have eq : (bm.setInode i ino).inodeAt k = bm.inodeAt k := inodeAt_setInode_of_ne h
      exact ⟨(live_congr eq).mp liveK, by rwa [Large, eq] at largeK⟩
  refine ⟨excl.toPlaced.setInode keeps fun live => ?_, fun k j l m b has has' => ?_, fun b => ?_,
    fun k l liveK liveL largeK largeL => ?_⟩
  · rcases same with ⟨zero, -⟩ | ⟨size, type⟩
    · exact Or.inl zero
    · exact Or.inr ⟨⟨live.1, live.2.1, by rw [← type]; exact live.2.2⟩, size⟩
  · exact excl.inj k j l m b ((owners k j b).mp has) ((owners l m b).mp has')
  · rw [setInode_usingBlocks, excl.used b]
    exact exists_congr fun k => exists_congr fun j => (owners k j b).symm
  · exact excl.oneLarge k l (large k liveK largeK).1 (large l liveL largeL).1
      (large k liveK largeK).2 (large l liveL largeL).2

/-- The map changes at `i` only. -/
theorem files_setInode_of_ne (placed : Placed bm) (le : i ≤ inodeNum) (ne : k ≠ i) :
    (bm.setInode i ino).files k = bm.files k := by
  have same : (bm.setInode i ino).inodeAt k = bm.inodeAt k := inodeAt_setInode_of_ne ne
  by_cases live : Live bm k
  · rw [files_of_live ((live_congr same).mpr live), files_of_live live, same]
    refine some_file_congr (fileData_congr rfl (fun j lt => ?_) (fun j lt => ?_))
    · have := setInode_blockId keeps (k := k) ((placed.reaches live).direct_or lt)
      rwa [same] at this
    · exact setInode_blocks_of_ne ((placed.inData_blockId live j lt).ne_iblock le)
  · rw [files_of_not_live live, files_of_not_live (mt (live_congr same).mp live)]

end Retype

/-- A new access time changes no file. -/
theorem files_setInode_atime (placed : Placed bm) (live : Live bm i) (t : ℕ) :
    (bm.setInode i { bm.inodeAt i with atime := t }).files = bm.files := by
  have keeps : ({ bm.inodeAt i with atime := t } : Inode).blocks = (bm.inodeAt i).blocks := rfl
  have type : ((bm.setInode i { bm.inodeAt i with atime := t }).inodeAt i).type =
      (bm.inodeAt i).type := by
    rw [inodeAt_setInode_self]
    exact Nat.mod_eq_of_lt (word16_lt _ _)
  have size : ((bm.setInode i { bm.inodeAt i with atime := t }).inodeAt i).size =
      (bm.inodeAt i).size := by
    rw [inodeAt_setInode_self]
    exact Nat.mod_eq_of_lt (word32_lt _ _)
  funext k
  by_cases h : k = i
  · subst h
    have live' : Live (bm.setInode k { bm.inodeAt k with atime := t }) k :=
      ⟨live.1, live.2.1, by rw [type]; exact live.2.2⟩
    rw [files_of_live live', files_of_live live, type]
    refine some_file_congr (fileData_congr size (fun j lt => ?_) (fun j lt => ?_))
    · exact setInode_blockId keeps ((placed.reaches live).direct_or lt)
    · exact setInode_blocks_of_ne ((placed.inData_blockId live j lt).ne_iblock live.2.1)
  · exact files_setInode_of_ne keeps placed live.2.1 h

theorem Exclusive.setInode_atime (excl : Exclusive bm) (i t : ℕ) :
    Exclusive (bm.setInode i { bm.inodeAt i with atime := t }) := by
  have keeps : ({ bm.inodeAt i with atime := t } : Inode).blocks = (bm.inodeAt i).blocks := rfl
  refine excl.setInode keeps (Or.inr ?_)
  rw [inodeAt_setInode_self]
  exact ⟨Nat.mod_eq_of_lt (word32_lt _ _), Nat.mod_eq_of_lt (word16_lt _ _)⟩

/-! ## Reading a file -/

/-- The inode of a file after it was read: an empty file keeps its access time. -/
def accessed (ino : Inode) (now : Clock) : Inode :=
  if ino.size = 0 then ino else { ino with atime := now 0 % 2 ^ 32 }

@[simp] theorem accessed_type (ino : Inode) (now : Clock) : (accessed ino now).type = ino.type := by
  unfold accessed
  split <;> rfl

@[simp] theorem accessed_size (ino : Inode) (now : Clock) : (accessed ino now).size = ino.size := by
  unfold accessed
  split <;> rfl

/-- `read_file` returns the file and changes at most its access time. -/
theorem readFile_ok (placed : Placed bm) (live : Live bm i) (now : Clock) :
    ∃ content bm', bm.readFile i now = .ok ((content, (bm.inodeAt i).size), bm') ∧
      (if (bm.inodeAt i).size = 0 then [] else content.take (bm.inodeAt i).size) =
        bm.fileData (bm.inodeAt i) ∧ bm'.inodeAt i = accessed (bm.inodeAt i) now ∧
      (bm' = bm ∨ bm' = bm.setInode i { bm.inodeAt i with atime := now 0 }) := by
  rw [readFile, getInode_ok live.1 live.2.1]
  simp only [bind, Except.bind]
  by_cases empty : (bm.inodeAt i).size = 0
  · refine ⟨[], bm, by rw [if_pos empty, empty], ?_, by rw [accessed, if_pos empty], Or.inl rfl⟩
    rw [if_pos empty]
    refine (List.eq_nil_of_length_eq_zero ?_).symm
    rw [length_fileData, empty]
  · have bound := placed.size_le i live
    have blocks := readBlocks_ok (n := nblk (bm.inodeAt i).size)
      (by rw [Nat.zero_add]; exact placed.reaches live)
      (by rw [Nat.zero_add]; exact (nblk_le_iff _ _).mpr bound)
      (fun j _ lt => placed.inData_blockId live j (by omega))
    rw [nblk] at blocks
    rw [if_neg empty, if_neg (by omega)]
    simp only [blocks, putInode_ok live.2.1]
    refine ⟨_, _, rfl, ?_, ?_, Or.inr rfl⟩
    · rw [if_neg empty, ← List.range_eq_range']
      rfl
    · rw [inodeAt_setInode_self, accessed, if_neg empty]
      refine Inode.ext (Nat.mod_eq_of_lt (word16_lt _ _)) (Nat.mod_eq_of_lt (word32_lt _ _)) rfl
        (Nat.mod_eq_of_lt (word32_lt _ _)) (Nat.mod_eq_of_lt (word32_lt _ _)) ?_
      funext l
      exact Nat.mod_eq_of_lt (inodeAt_words l)

/-! ## Creating and removing a file -/

/-- The inode that `alloc_inode` stores. -/
def newInode (ino : Inode) (type : ℕ) (now : Clock) : Inode :=
  { ino with type := type % 2 ^ 16, size := 0, atime := now 0 }

/-- **`alloc_inode` takes the first dead inode.** -/
theorem allocInode_eq (type : ℕ) (now : Clock) (low : 2 ≤ k) (high : k ≤ inodeNum)
    (dead : ¬ Live bm k) (first : ∀ l, 2 ≤ l → l < k → Live bm l) :
    bm.allocInode type now = .ok (k, bm.setInode k (newInode (bm.inodeAt k) type now)) := by
  have zero : (bm.inodeAt k).type = 0 := by
    by_contra nonzero
    exact dead ⟨by omega, high, nonzero⟩
  have found : (List.range' 2 (inodeNum - 1)).find?
      (fun i => (Inode.ofBlock (bm.blocks (iblock i))).type == 0) = some k := by
    rw [List.find?_range'_eq_some]
    refine ⟨by simpa [inodeAt] using zero, ?_, fun l low' lt => ?_⟩
    · rw [List.mem_range'_1]
      simp only [inodeNum] at high ⊢
      omega
    · simpa [inodeAt] using (first l low' lt).2.2
  rw [allocInode, found]
  simp only [getInode_ok (show 1 ≤ k by omega) high, bind, Except.bind, putInode_ok high]
  rfl

theorem setInode_newInode (type : ℕ) (now : Clock) :
    ((bm.setInode k (newInode (bm.inodeAt k) type now)).inodeAt k).size = 0 ∧
      ((bm.setInode k (newInode (bm.inodeAt k) type now)).inodeAt k).type = type % 2 ^ 16 := by
  rw [inodeAt_setInode_self]
  exact ⟨rfl, Nat.mod_mod _ _⟩

theorem Exclusive.newInode (excl : Exclusive bm) (type : ℕ) (now : Clock)
    (dead : ¬ Live bm k) :
    Exclusive (bm.setInode k (newInode (bm.inodeAt k) type now)) := by
  have keeps : (BlockManager.newInode (bm.inodeAt k) type now).blocks = (bm.inodeAt k).blocks :=
    rfl
  exact excl.setInode keeps (Or.inl ⟨(setInode_newInode type now).1, dead⟩)

/-- A new inode is an empty file of its type; with type 0 it stays dead. -/
theorem files_newInode (placed : Placed bm) (type : ℕ) (now : Clock) (low : 2 ≤ k)
    (high : k ≤ inodeNum) (dead : ¬ Live bm k) :
    (bm.setInode k (newInode (bm.inodeAt k) type now)).files =
      if type % 2 ^ 16 = 0 then bm.files
      else Function.update bm.files k (some ⟨type % 2 ^ 16, []⟩) := by
  obtain ⟨size, type'⟩ := setInode_newInode (k := k) type now
  have keeps : (newInode (bm.inodeAt k) type now).blocks = (bm.inodeAt k).blocks := rfl
  have others := fun l (ne : l ≠ k) => files_setInode_of_ne keeps placed high ne
  split
  · rename_i zero
    funext l
    by_cases h : l = k
    · rw [h, files_of_not_live dead, files_of_not_live]
      exact fun live' => live'.2.2 (by rw [type', zero])
    · exact others l h
  · rename_i nonzero
    funext l
    by_cases h : l = k
    · have live' : Live (bm.setInode k (newInode (bm.inodeAt k) type now)) k :=
        ⟨by omega, high, by rw [type']; exact nonzero⟩
      have nil := List.eq_nil_of_length_eq_zero ((length_fileData
        (bm.setInode k (newInode (bm.inodeAt k) type now)) _).trans size)
      rw [h, files_of_live live', Function.update_self, type', nil]
    · rw [Function.update_of_ne h, others l h]

/-- There is a first dead inode if there is one at all. -/
theorem exists_first_dead (left : ∃ k, 2 ≤ k ∧ k ≤ inodeNum ∧ ¬ Live bm k) :
    ∃ k, 2 ≤ k ∧ k ≤ inodeNum ∧ ¬ Live bm k ∧ ∀ l, 2 ≤ l → l < k → Live bm l := by
  obtain ⟨low, high, dead⟩ := Nat.find_spec left
  refine ⟨Nat.find left, low, high, dead, fun l low' lt => ?_⟩
  by_contra dead'
  exact Nat.find_min left lt ⟨low', by omega, dead'⟩

/-- Without one it stops the server. -/
theorem allocInode_error (type : ℕ) (now : Clock)
    (none : ∀ k, 2 ≤ k → k ≤ inodeNum → Live bm k) :
    bm.allocInode type now = .error .noFreeInode := by
  have found : (List.range' 2 (inodeNum - 1)).find?
      (fun i => (Inode.ofBlock (bm.blocks (iblock i))).type == 0) = Option.none := by
    rw [List.find?_eq_none]
    intro k mem zero
    rw [List.mem_range'_1] at mem
    have high : k ≤ inodeNum := by
      have := mem.2
      simp only [inodeNum] at this ⊢
      omega
    exact (none k mem.1 high).2.2 (by simpa [inodeAt] using zero)
  rw [allocInode, found]

/-- The allocation map after the blocks of file `i` were given back. -/
def released (bm : BlockManager) (i : ℕ) : BlockManager :=
  { bm with
    usingBlocks := fun b => if b ∈ bm.fileIds (bm.inodeAt i) then 0 else bm.usingBlocks b }

/-- The disk after `remove_file`. -/
def removed (bm : BlockManager) (i : ℕ) : BlockManager :=
  (bm.released i).setInode i { bm.inodeAt i with type := 0 }

/-- **`remove_file`** gives the blocks back and clears the type, if the block list can be read. -/
theorem removeFile_ok (pos : 1 ≤ i) (le : i ≤ inodeNum)
    (reach : Reaches (bm.inodeAt i) (nblk (bm.inodeAt i).size))
    (bound : (bm.inodeAt i).size ≤ maxfile * blockSize) :
    bm.removeFile i = .ok (bm.removed i) := by
  have out₁ : freeBlocks (bm.inodeAt i) 0 (nblk (bm.inodeAt i).size) bm =
      .ok (bm.released i) := by
    rw [freeBlocks_ok (by rwa [Nat.zero_add])
      (by rw [Nat.zero_add]; exact (nblk_le_iff _ _).mpr bound), ← List.range_eq_range']
    rfl
  rw [removeFile, getInode_ok pos le]
  simp only [bind, Except.bind, nblk_eq_removeFile, out₁, freeInode, getInode_ok pos le,
    putInode_ok le]
  rfl

theorem removed_not_live (bm : BlockManager) (i : ℕ) : ¬ Live (bm.removed i) i := by
  intro h
  refine h.2.2 ?_
  rw [removed, inodeAt_setInode_self]
  rfl

theorem removed_others (live : Live (bm.removed i) k) : k ≠ i := by
  intro eq
  rw [eq] at live
  exact removed_not_live bm i live

theorem inodeAt_removed_of_ne (ne : k ≠ i) : (bm.removed i).inodeAt k = bm.inodeAt k := by
  rw [removed, inodeAt_setInode_of_ne ne]
  rfl

theorem Placed.removed (placed : Placed bm) (i : ℕ) : Placed (bm.removed i) := by
  have placed₁ : Placed (bm.released i) := placed.of_blocks rfl
  exact placed₁.setInode (i := i) rfl
    fun h => absurd h (removed_not_live bm i)

theorem hasBlock_removed (placed : Placed bm) {b : ℕ} :
    HasBlock (bm.removed i) k j b ↔ k ≠ i ∧ HasBlock bm k j b := by
  have placed₁ : Placed (bm.released i) := placed.of_blocks rfl
  have same : (bm.released i).blocks = bm.blocks := rfl
  have keeps : ({ bm.inodeAt i with type := 0 } : Inode).blocks =
      ((bm.released i).inodeAt i).blocks := rfl
  constructor
  · intro has
    exact ⟨removed_others has.1, (hasBlock_of_blocks same).mp
      (has.of_setInode keeps placed₁ fun h => absurd h (removed_not_live bm i))⟩
  · rintro ⟨ne, has⟩
    exact ((hasBlock_of_blocks same).mpr has).setInode keeps placed₁ fun eq => absurd eq ne

theorem Exclusive.removed (excl : Exclusive bm) (live : Live bm i) : Exclusive (bm.removed i) := by
  have owners := fun k j b =>
    hasBlock_removed (i := i) (k := k) (j := j) excl.toPlaced (b := b)
  refine ⟨excl.toPlaced.removed i, fun k j l m b has has' => ?_, fun b => ?_,
    fun k l liveK liveL largeK largeL => ?_⟩
  · exact excl.inj k j l m b ((owners k j b).mp has).2 ((owners l m b).mp has').2
  · have mem : b ∈ bm.fileIds (bm.inodeAt i) ↔ ∃ j, HasBlock bm i j b := by
      simp [fileIds, HasBlock, live]
    have map : (bm.removed i).usingBlocks b =
        if b ∈ bm.fileIds (bm.inodeAt i) then 0 else bm.usingBlocks b := rfl
    rw [map]
    by_cases own : ∃ j, HasBlock bm i j b
    · obtain ⟨j, has⟩ := own
      rw [if_pos (mem.mpr ⟨j, has⟩)]
      refine ⟨fun h => absurd rfl h, ?_⟩
      rintro ⟨k, l, has'⟩
      obtain ⟨ne, has'⟩ := (owners k l b).mp has'
      exact absurd (excl.inj k l i j b has' has).1 ne
    · rw [if_neg (mt mem.mp own), excl.used b]
      refine exists_congr fun k => exists_congr fun j => ?_
      rw [owners k j b]
      exact ⟨fun has => ⟨fun eq => own ⟨j, eq ▸ has⟩, has⟩, fun h => h.2⟩
  · have old : ∀ k, Live (bm.removed i) k → Large (bm.removed i) k → Live bm k ∧ Large bm k := by
      intro k liveK largeK
      have same : (bm.removed i).inodeAt k = bm.inodeAt k :=
        inodeAt_removed_of_ne (removed_others liveK)
      exact ⟨(live_congr same).mp liveK, by rwa [Large, same] at largeK⟩
    exact excl.oneLarge k l (old k liveK largeK).1 (old l liveL largeL).1 (old k liveK largeK).2
      (old l liveL largeL).2

theorem files_removed (placed : Placed bm) (le : i ≤ inodeNum) :
    (bm.removed i).files = Function.update bm.files i none := by
  have same : (bm.released i).blocks = bm.blocks := rfl
  have keeps : ({ bm.inodeAt i with type := 0 } : Inode).blocks =
      ((bm.released i).inodeAt i).blocks := rfl
  funext k
  by_cases h : k = i
  · rw [h, Function.update_self, files_of_not_live (removed_not_live bm i)]
  · rw [Function.update_of_ne h, removed,
      files_setInode_of_ne keeps (placed.of_blocks same) le h, files_of_blocks same]

/-! ## Storing a file -/

/-- A stored file reads back, and the other files read as before. -/
theorem Stored.files {ids : List ℕ} (stored : Stored bm i buf ids bm') (excl : Exclusive bm)
    (excl' : Exclusive bm') (live : Live bm i)
    (alone : ndirect * blockSize < buf.length → ∀ k, k ≠ i → Live bm k → ¬ Large bm k) :
    bm'.files = Function.update bm.files i (some ⟨(bm.inodeAt i).type, buf⟩) := by
  have live' : Live bm' i := stored.live_iff.mpr live
  have new := stored.inData_new (excl.toPlaced.inData_blockId live)
  funext k
  by_cases h : k = i
  · subst h
    rw [Function.update_self, files_of_live live', stored.type]
    refine some_file_congr (fileData_of_chunks stored.size
      (stored.content fun j hj l hl eq => ?_))
    rw [← stored.size] at hj hl
    exact (excl'.inj k j k l _ ⟨live', hj, rfl⟩ ⟨live', hl, eq.symm⟩).2
  · rw [Function.update_of_ne h]
    by_cases le : k ≤ inodeNum
    · have same := stored.others k le h
      by_cases liveK : Live bm k
      -- a large file has its table in block 0, so the one that was written is not large
      · have small : Large bm k → nblk buf.length ≤ ndirect := by
          intro large
          rw [nblk_le_iff]
          by_contra big
          exact alone (by omega) k h liveK large
        have ids : ∀ j < nblk (bm.inodeAt k).size,
            bm'.blockId (bm.inodeAt k) j = bm.blockId (bm.inodeAt k) j := by
          intro j lt
          have := (stored.hasBlock_other excl.toPlaced new (fun _ => small) h).mpr
            ⟨liveK, lt, rfl⟩
          rw [← same]
          rw [← same] at this
          exact this.2.2
        rw [files_of_live ((live_congr same).mpr liveK), files_of_live liveK, same]
        refine some_file_congr (fileData_congr rfl ids fun j lt => ?_)
        have data := excl.toPlaced.inData_blockId liveK j lt
        refine stored.frame _ (data.ne_iblock live.2.1) (Or.inl data.ne_zero) fun l hl eq => ?_
        -- a block of both files would have two owners
        have mine : HasBlock bm' i l (bm.blockId (bm.inodeAt k) j) :=
          ⟨live', by rw [stored.size]; exact hl, eq⟩
        have theirs := (stored.hasBlock_other excl.toPlaced new (fun _ => small) h).mpr
          (⟨liveK, lt, rfl⟩ : HasBlock bm k j _)
        exact h (excl'.inj k j i l _ theirs mine).1
      · rw [files_of_not_live liveK, files_of_not_live (mt (live_congr same).mp liveK)]
    · rw [files_of_not_live fun h => le h.2.1, files_of_not_live fun h => le h.2.1]

end BlockManager

end Yfs.Storage
