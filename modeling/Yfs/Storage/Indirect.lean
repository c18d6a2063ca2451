import Yfs.Storage.AllInodes

/-!
# The indirect block nobody allocates

`alloc_block_in_inode` reaches the blocks past `NDIRECT` through `blocks[NDIRECT]`,
and nothing ever allocates that block.  For every inode but the root it is the zero
of the formatted disk, so all large files keep their tables in block 0, outside the
data region, one over the other.

The root inode is the exception.  It is made in memory that was never initialised, so its
indirect block may be any number, and a large root directory may be kept anywhere; the runs that
are considered here leave the root small.

* `indirect_owned_and_puts_isolated` — while every put is at most
  `NDIRECT * BLOCK_SIZE` bytes there is nothing to own and no put touches another
  file; from the first larger put to a file other than the root on, in every later
  disk that still has a large file, that file does not own its indirect block.
* `large_files_share_block_zero` — two large files, and the second put changes what
  `get` returns for the first.
-/

namespace Yfs.Storage

open ByteBlock Transition

namespace ExtentServer

open BlockManager

variable {uninit : Inode} {bm bm' : BlockManager} {now : Clock}

/-! ## What a large file should own -/

/-- The indirect block of file `i` is a block of the data region, in use, of no other large file
and no file's data block.

This is what the code would have to make sure of when it uses the block, and what it has no place
to do, since no function assigns `blocks[NDIRECT]`. -/
structure OwnsIndirect (bm : BlockManager) (i : ℕ) : Prop where
  inData : InData (bm.inodeAt i).indirect
  inUse : bm.usingBlocks (bm.inodeAt i).indirect ≠ 0
  notShared : ∀ k, Live bm k → Large bm k → k ≠ i →
    (bm.inodeAt k).indirect ≠ (bm.inodeAt i).indirect
  notData : ∀ k j b, HasBlock bm k j b → b ≠ (bm.inodeAt i).indirect

/-- Every live file with more than `NDIRECT` blocks owns its indirect block. -/
def IndirectOwned (bm : BlockManager) : Prop :=
  ∀ i, Live bm i → ndirect < nblk (bm.inodeAt i).size → OwnsIndirect bm i

/-- A put of at most `limit` bytes to one file does not change what `get` returns for
another. -/
def PutsIsolated (limit : ℕ) (bm : BlockManager) : Prop :=
  ∀ id buf now bm', Live bm id → buf.length ≤ limit →
    handle now (.put id buf) bm = .ok (.done, bm') →
    ∀ k, Live bm k → k ≠ id → ∀ now',
      (handle now' (.get k) bm').map Prod.fst = (handle now' (.get k) bm).map Prod.fst

/-- Requests on live inums, puts of at most `MAXFILE` blocks, the root's of at most
`NDIRECT`. -/
def RootDirect (bm : BlockManager) (req : Request) : Prop :=
  OnLive (maxfile * blockSize) bm req ∧
    ∀ buf, req = .put 1 buf → buf.length ≤ ndirect * blockSize

theorem nblk_large {i : ℕ} : ndirect < nblk (bm.inodeAt i).size ↔ Large bm i := by
  rw [← not_iff_not, not_large_iff]
  omega

/-! ## However many files are large, no inode is overwritten -/

/-- A put stores its string, whatever the other files are. -/
theorem put_stored {id : ℕ} {buf : List UInt8} (placed : Placed bm) (live : Live bm id)
    (bound : buf.length ≤ maxfile * blockSize)
    (root : id = 1 → buf.length ≤ ndirect * blockSize)
    (room : nblk buf.length - nblk (bm.inodeAt id).size ≤ bm.freeSet.card) (now : Clock) :
    ∃ ids bm', handle now (.put id buf) bm = .ok (.done, bm') ∧ Stored bm id buf ids bm' := by
  obtain ⟨ids, bm', out, stored⟩ := writeFile_ok (writable placed live bound root) now room
  exact ⟨ids, bm', by rw [handle, put, maskId_of_live live, out]; rfl, stored⟩

theorem RootDirect.bounded {req : Request} (ok : RootDirect bm req) : Bounded req := by
  cases req with
  | put id buf =>
      refine ⟨ok.1.2, fun one => ok.2 buf ?_⟩
      rw [maskId_of_live ok.1.1] at one
      rw [one]
  | create type => trivial
  | get id => trivial
  | getattr id => trivial
  | remove id => trivial

theorem reach_placed (reach : Reach RootDirect uninit bm) : Placed bm := by
  refine (reach_allPlaced (reach.mono (fun _ start => start) ?_)).placed
  rintro bm bm' ⟨now, req, reply, ok, out⟩
  exact ⟨now, req, reply, ok.bounded, out⟩

/-- No large file ever owns its indirect block. -/
theorem not_ownsIndirect {i : ℕ} (placed : Placed bm) (live : Live bm i) (large : Large bm i) :
    ¬ OwnsIndirect bm i := by
  intro owns
  have notRoot : i ≠ 1 := by
    rintro rfl
    exact placed.root_direct live large
  exact owns.inData.ne_zero (placed.indirect_zero i (by have := live.1; omega) live.2.1)

/-! ## While every file is small -/

/-- A read makes no file large. -/
theorem read_small {i k : ℕ} (small : ∀ i, Live bm i → ¬ Large bm i) (live : Live bm i)
    (read : bm' = bm ∨ bm' = bm.setInode i { bm.inodeAt i with atime := now 0 })
    (liveK : Live bm' k) : ¬ Large bm' k := by
  rcases read with rfl | rfl
  · exact small k liveK
  · rw [Large]
    by_cases h : k = i
    · have size : ((bm.setInode i { bm.inodeAt i with atime := now 0 }).inodeAt k).size =
          (bm.inodeAt i).size := by
        rw [h, inodeAt_setInode_self]
        exact Nat.mod_eq_of_lt (word32_lt _ _)
      rw [size]
      exact small i live
    · have same : (bm.setInode i { bm.inodeAt i with atime := now 0 }).inodeAt k = bm.inodeAt k :=
        inodeAt_setInode_of_ne h
      rw [same]
      exact small k ((live_congr same).mp liveK)

/-- With puts of at most `NDIRECT` blocks no file becomes large. -/
theorem reach_small (reach : Reach (OnLive (ndirect * blockSize)) uninit bm) :
    Exclusive bm ∧ ∀ i, Live bm i → ¬ Large bm i := by
  refine reach.invariant (I := fun bm => Exclusive bm ∧ ∀ i, Live bm i → ¬ Large bm i) ?_ ?_
  · rintro bm ⟨now, boots⟩
    refine ⟨boot_exclusive boots, fun i live => ?_⟩
    rw [(boot_live boots i).mp live, Large, boot_size boots]
    omega
  · rintro bm bm' - ⟨excl, small⟩ ⟨now, req, reply, ok, out⟩
    -- small puts are permitted by ownership: none of them makes a file large
    have admissible : Admissible bm req := by
      refine ⟨?_, ?_⟩
      · cases req with
        | put id buf =>
            refine ⟨ok.1, ok.2.trans ?_⟩
            exact Nat.mul_le_mul_right _ (Nat.le_add_right _ _)
        | create type => trivial
        | get id => exact ok
        | getattr id => exact ok
        | remove id => exact ok
      · rintro id buf rfl
        exact ⟨fun _ => ok.2, fun large => absurd ok.2 (by omega)⟩
    refine ⟨step_exclusive excl ⟨now, req, reply, admissible, out⟩, fun i live => ?_⟩
    cases req with
    | create type =>
        obtain ⟨k, -, -, -, -, rfl⟩ := create_inv out
        by_cases h : i = k
        · rw [h, Large, (setInode_newInode type now).1]
          omega
        · have same : (bm.setInode k (newInode (bm.inodeAt k) type now)).inodeAt i =
              bm.inodeAt i := inodeAt_setInode_of_ne h
          rw [Large, same]
          exact small i ((live_congr same).mp live)
    | put id buf =>
        have root : id = 1 → buf.length ≤ ndirect * blockSize := fun _ => ok.2
        by_cases room : nblk buf.length - nblk (bm.inodeAt id).size ≤ bm.freeSet.card
        · obtain ⟨ids, bm₁, out₁, stored⟩ :=
            put_stored excl.toPlaced ok.1 admissible.1.2 root room now
          rw [out₁] at out
          cases out
          rw [Large]
          by_cases h : i = id
          · rw [h, stored.size]
            have := ok.2
            omega
          · have same := stored.others i live.2.1 h
            rw [same]
            exact small i ((live_congr same).mp live)
        · rw [put_error excl admissible now (by omega)] at out
          cases out
    | get id =>
        obtain ⟨bm₁, out₁, read⟩ := get_ok excl.toPlaced ok now
        rw [out₁] at out
        cases out
        exact read_small small ok read live
    | getattr id =>
        obtain ⟨bm₁, out₁, read⟩ := getattr_ok excl.toPlaced ok now
        rw [out₁] at out
        cases out
        exact read_small small ok read live
    | remove id =>
        rw [remove_ok excl.toPlaced ok now] at out
        cases out
        have same : (bm.removed id).inodeAt i = bm.inodeAt i :=
          inodeAt_removed_of_ne (removed_others live)
        rw [Large, same]
        exact small i ((live_congr same).mp live)

/-- A small put to one file leaves the reply to a `get` of another. -/
theorem puts_isolated (excl : Exclusive bm) : PutsIsolated (ndirect * blockSize) bm := by
  intro id buf now bm' live bound out k liveK ne now'
  have ok : Admissible bm (.put id buf) := by
    refine ⟨⟨live, bound.trans (Nat.mul_le_mul_right _ (Nat.le_add_right _ _))⟩, ?_⟩
    rintro _ _ ⟨rfl, rfl⟩
    exact ⟨fun _ => bound, fun large => absurd bound (by omega)⟩
  by_cases room : nblk buf.length - nblk (bm.inodeAt id).size ≤ bm.freeSet.card
  · obtain ⟨ids, bm₁, out₁, stored⟩ :=
      put_stored excl.toPlaced live ok.1.2 (fun _ => bound) room now
    obtain ⟨bm₂, out₂, excl₂, files⟩ := put_ok excl ok now room
    rw [out₁] at out out₂
    cases out
    cases out₂
    have same := stored.others k liveK.2.1 ne
    have liveK' : Live bm' k := (live_congr same).mpr liveK
    have data : bm'.fileData (bm.inodeAt k) = bm.fileData (bm.inodeAt k) := by
      have eq := congrFun files k
      rw [Function.update_of_ne ne, files_of_live liveK', files_of_live liveK, same,
        Option.some.injEq, File.mk.injEq] at eq
      exact eq.2
    obtain ⟨bm₃, out₃, -⟩ := get_ok excl₂.toPlaced liveK' now'
    obtain ⟨bm₄, out₄, -⟩ := get_ok excl.toPlaced liveK now'
    rw [out₃, out₄, same, data]
    rfl
  · rw [put_error excl ok now (by omega)] at out
    cases out

/-- **Large files do not own their indirect block.** While every put is at most `NDIRECT *
BLOCK_SIZE` bytes no file is large and no put changes what `get` returns for another file.  With
larger puts, the root's apart, a large file never owns its indirect block, in any disk of any run.

The first half is about all runs with small puts.  In the second half the bound is on the root
only, and a single large file already uses a block that it does not own. -/
theorem indirect_owned_and_puts_isolated (uninit : Inode) (bm : BlockManager) :
    (Reach (OnLive (ndirect * blockSize)) uninit bm →
      IndirectOwned bm ∧ PutsIsolated (ndirect * blockSize) bm) ∧
    (Reach RootDirect uninit bm → ∀ i, Live bm i → ndirect < nblk (bm.inodeAt i).size →
      ¬ OwnsIndirect bm i) := by
  refine ⟨fun reach => ?_, fun reach i live large => ?_⟩
  · obtain ⟨excl, small⟩ := reach_small reach
    exact ⟨fun i live large => absurd (nblk_large.mp large) (small i live), puts_isolated excl⟩
  · exact not_ownsIndirect (reach_placed reach) live (nblk_large.mp large)

/-! ## Two large files -/

/-- The first byte of a block of a file. -/
theorem fileData_getElem? {ino : Inode} {j : ℕ} (lt : blockSize * j < ino.size) :
    (bm.fileData ino)[blockSize * j]? = some (byteAt (bm.blocks (bm.blockId ino j)) 0) := by
  have inside : j < nblk ino.size := by
    rw [nblk_eq]
    simp only [blockSize] at lt
    omega
  rw [fileData, List.getElem?_take_of_lt lt,
    getElem?_flatMap_toList _ (by simp [blockSize]) _ j, fileIds, List.getElem?_map,
    List.getElem?_range inside]
  rfl

/-- **A large put to an empty file moves the table under every other large file**: what
follows the direct blocks of the other file is read from the new one. -/
theorem put_replaces_table {i k : ℕ} {ids : List ℕ} {buf : List UInt8} (placed : Placed bm)
    (stored : Stored bm k buf ids bm') (liveI : Live bm i) (large : Large bm i) (two : 2 ≤ k)
    (kle : k ≤ inodeNum) (ne : i ≠ k) (empty : (bm.inodeAt k).size = 0)
    (big : ndirect * blockSize < buf.length) :
    (bm'.fileData (bm'.inodeAt i))[blockSize * ndirect]? = buf[blockSize * ndirect]? := by
  have same := stored.others i liveI.2.1 ne
  have zero : ∀ l, 2 ≤ l → l ≤ inodeNum → (bm'.inodeAt l).indirect = 0 := by
    intro l low high
    by_cases h : l = k
    · rw [h, stored.indirect]
      exact placed.indirect_zero k two kle
    · rw [stored.others l high h]
      exact placed.indirect_zero l low high
  have notRoot : 2 ≤ i := by
    have := liveI.1
    by_contra low
    have : i = 1 := by omega
    subst this
    exact placed.root_direct liveI large
  have shared : bm'.blockId (bm'.inodeAt i) ndirect = bm'.blockId (bm'.inodeAt k) ndirect := by
    rw [blockId, blockId, dif_neg (lt_irrefl _), dif_neg (lt_irrefl _),
      zero i notRoot liveI.2.1, zero k two kle]
  have inside : ndirect < nblk buf.length := by
    by_contra small
    have := (nblk_le_iff buf.length ndirect).mp (by omega)
    omega
  have none : nblk (bm.inodeAt k).size = 0 := (nblk_eq_zero _).mpr empty
  have distinct : ∀ j < nblk buf.length, ∀ l < nblk buf.length,
      bm'.blockId (bm'.inodeAt k) j = bm'.blockId (bm'.inodeAt k) l → j = l := by
    intro j hj l hl eq
    obtain ⟨hj', eqJ⟩ := stored.added j hj (by omega)
    obtain ⟨hl', eqL⟩ := stored.added l hl (by omega)
    rw [eqJ, eqL, stored.nodup.get_inj_iff, Fin.mk.injEq] at eq
    omega
  have past : blockSize * ndirect < (bm'.inodeAt i).size := by
    rw [same, Nat.mul_comm]
    exact large
  have past' : blockSize * ndirect < buf.length := by
    rw [Nat.mul_comm]
    exact big
  rw [fileData_getElem? past, shared, stored.content distinct ndirect inside, chunk,
    byteAt_ofBytes _ (by simp [blockSize]), List.getD_eq_getElem?_getD, Nat.add_zero,
    List.getElem?_eq_getElem past', Option.getD_some]

/-- A put takes at most its own blocks from the free ones. -/
theorem stored_room {k : ℕ} {ids : List ℕ} {buf : List UInt8} (stored : Stored bm k buf ids bm') :
    bm.freeSet.card ≤ bm'.freeSet.card + nblk buf.length := by
  have subset : bm.freeSet \ ids.toFinset ⊆ bm'.freeSet := by
    intro b mem
    rw [Finset.mem_sdiff, List.mem_toFinset, mem_freeSet] at mem
    rw [mem_freeSet, stored.marks b, if_neg mem.2]
    refine ⟨mem.1.1, ?_⟩
    split
    · rfl
    · exact mem.1.2
  have card := Finset.card_le_card subset
  have split := Finset.le_card_sdiff ids.toFinset bm.freeSet
  have few := List.toFinset_card_le ids
  have := stored.length
  omega

/-- The byte strings of the run below, one byte more than the direct blocks hold. -/
def large (c : UInt8) : List UInt8 := List.replicate (ndirect * blockSize + 1) c

theorem length_large (c : UInt8) : (large c).length = 51201 := by
  rw [large, List.length_replicate, ndirect, blockSize]

theorem large_getElem? (c : UInt8) : (large c)[blockSize * ndirect]? = some c := by
  rw [large, List.getElem?_replicate, if_pos (by rw [ndirect, blockSize]; omega)]

/-- **Two files, each one byte longer than its direct blocks.**  After the first put
its file does not own an indirect block, and the second put changes what `get`
returns for the first file. -/
theorem large_files_share_block_zero : ∃ bm₀ bm₁ bm₂ bm₃ bm₄,
    boot ⟨0, 0, 0, 0, 0, fun _ => 0⟩ still = .ok bm₀ ∧
    handle still (.create tFile) bm₀ = .ok (.created 2, bm₁) ∧
    handle still (.create tFile) bm₁ = .ok (.created 3, bm₂) ∧
    handle still (.put 2 (large 97)) bm₂ = .ok (.done, bm₃) ∧
    handle still (.put 3 (large 98)) bm₃ = .ok (.done, bm₄) ∧
    Reach (OnLive (maxfile * blockSize)) ⟨0, 0, 0, 0, 0, fun _ => 0⟩ bm₃ ∧
    ¬ IndirectOwned bm₃ ∧ ¬ PutsIsolated (maxfile * blockSize) bm₃ := by
  have kind : tFile % 2 ^ 16 ≠ 0 := by simp [tFile]
  have boots := boot_ok ⟨0, 0, 0, 0, 0, fun _ => 0⟩ still
  generalize (fresh.setInode 1 _) = bm₀ at boots
  obtain ⟨bm₁, out₁, blank₁⟩ := (boot_blank boots).create still le_rfl
    (by simp [inodeNum]) kind
  obtain ⟨bm₂, out₂, blank₂⟩ := blank₁.create still (by omega)
    (by simp [inodeNum]) kind
  have excl₂ := blank₂.exclusive
  have live₂ : Live bm₂ 2 := (blank₂.live 2).mpr (by omega)
  have live₃ : Live bm₂ 3 := (blank₂.live 3).mpr (by omega)
  have bound : ∀ c, (large c).length ≤ maxfile * blockSize := by
    intro c
    rw [length_large, maxfile, ndirect, nindirect, blockSize]
    omega
  have blocks : ∀ c, nblk (large c).length = 101 := by
    intro c
    rw [length_large, nblk_eq]
  have data : dataBlocks = 31732 := by rw [dataBlocks, blockNum_eq, dataStart_eq]
  -- the first put: its file is large, and it reads back
  have ok : Admissible bm₂ (.put 2 (large 97)) := by
    refine ⟨⟨live₂, bound _⟩, ?_⟩
    rintro _ _ ⟨rfl, rfl⟩
    refine ⟨fun h => absurd h (by omega), fun _ k _ liveK => ?_⟩
    rw [Large, blank₂.empty k liveK]
    omega
  have room₂ : nblk (large 97).length - nblk (bm₂.inodeAt 2).size ≤ bm₂.freeSet.card := by
    rw [blocks, blank₂.free, data]
    omega
  obtain ⟨ids₃, bm₃, out₃, stored₃⟩ := put_stored excl₂.toPlaced live₂ (bound 97)
    (fun h => absurd h (by omega)) room₂ still
  obtain ⟨_, out₃', excl₃, files₃⟩ := put_ok excl₂ ok still room₂
  rw [out₃] at out₃'
  cases out₃'
  have live₂' : Live bm₃ 2 := stored₃.live_iff.mpr live₂
  have same₃ := stored₃.others 3 live₃.2.1 (by omega)
  have live₃' : Live bm₃ 3 := (live_congr same₃).mpr live₃
  have isLarge : Large bm₃ 2 := by
    rw [Large, stored₃.size, length_large, ndirect, blockSize]
    omega
  have read₃ : bm₃.fileData (bm₃.inodeAt 2) = large 97 := by
    have eq := congrFun files₃ 2
    rw [Function.update_self, files_of_live live₂', Option.some.injEq, File.mk.injEq] at eq
    exact eq.2
  -- the second put moves the table under the first file
  have empty₃ : (bm₃.inodeAt 3).size = 0 := by rw [same₃, blank₂.empty 3 live₃]
  have room₃ : nblk (large 98).length - nblk (bm₃.inodeAt 3).size ≤ bm₃.freeSet.card := by
    have := stored_room stored₃
    rw [blocks, blank₂.free, data] at this
    rw [blocks]
    omega
  obtain ⟨ids₄, bm₄, out₄, stored₄⟩ := put_stored excl₃.toPlaced live₃' (bound 98)
    (fun h => absurd h (by omega)) room₃ still
  have moved := put_replaces_table excl₃.toPlaced stored₄ live₂' isLarge (by omega) live₃.2.1
    (by omega) empty₃ (by rw [length_large, ndirect, blockSize]; omega)
  have live₂'' : Live bm₄ 2 :=
    (live_congr (stored₄.others 2 live₂.2.1 (by omega))).mpr live₂'
  -- two large files have one table, so ownership is lost; but all ids are still in the data
  -- region
  have placed₄ : Placed bm₄ := by
    have run : Reach (fun _ => Bounded) ⟨0, 0, 0, 0, 0, fun _ => 0⟩ bm₄ :=
      ((((Reachable.init ⟨still, boots⟩).step ⟨still, .create tFile, _, trivial, out₁⟩).step
        ⟨still, .create tFile, _, trivial, out₂⟩).step
        ⟨still, .put 2 (large 97), _, ⟨bound 97, fun root => absurd root (by decide)⟩, out₃⟩).step
        ⟨still, .put 3 (large 98), _, ⟨bound 98, fun root => absurd root (by decide)⟩, out₄⟩
    exact (reach_allPlaced run).placed
  refine ⟨bm₀, bm₁, bm₂, bm₃, bm₄, boots, out₁, out₂, out₃, out₄, ?_, fun owned => ?_,
    fun isolated => ?_⟩
  · exact (((Reachable.init ⟨still, boots⟩).step ⟨still, .create tFile, _, trivial, out₁⟩).step
      ⟨still, .create tFile, _, trivial, out₂⟩).step
      ⟨still, .put 2 (large 97), _, ⟨live₂, bound 97⟩, out₃⟩
  · exact not_ownsIndirect excl₃.toPlaced live₂' isLarge
      (owned 2 live₂' (nblk_large.mpr isLarge))
  · have same := isolated 3 (large 98) still bm₄ live₃' (bound 98) out₄ 2 live₂' (by omega) still
    obtain ⟨_, got₃, -⟩ := get_ok excl₃.toPlaced live₂' still
    obtain ⟨_, got₄, -⟩ := get_ok placed₄ live₂'' still
    rw [got₃, got₄] at same
    simp only [Except.map, Except.ok.injEq, Reply.file.injEq, FullFile.mk.injEq] at same
    rw [same.2, read₃, large_getElem?, large_getElem?] at moved
    exact absurd moved (by decide)

/-- The theorem on a run with one small put. -/
theorem indirect_owned_and_puts_isolated_root : ∃ bm₀ bm₁,
    boot ⟨0, 0, 0, 0, 0, fun _ => 0⟩ still = .ok bm₀ ∧
    handle still (.put 1 [104, 105]) bm₀ = .ok (.done, bm₁) ∧
    IndirectOwned bm₁ ∧ PutsIsolated (ndirect * blockSize) bm₁ := by
  obtain ⟨bm₀, bm₁, boots, -, ok, out⟩ := first_put
  have reach : Reach (OnLive (ndirect * blockSize)) ⟨0, 0, 0, 0, 0, fun _ => 0⟩ bm₁ :=
    (Reachable.init ⟨still, boots⟩).step
      ⟨still, .put 1 [104, 105], _, ⟨ok.1.1, by simp [ndirect, blockSize]⟩, out⟩
  exact ⟨bm₀, bm₁, boots, out, (indirect_owned_and_puts_isolated _ bm₁).1 reach⟩

end ExtentServer

end Yfs.Storage
