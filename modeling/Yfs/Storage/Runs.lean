import Yfs.Storage.FileMap
import Yfs.Lib.Transition

/-!
# Runs of the extent server

The extent server is started once and then takes requests, one after another, for
as long as none of them stops it.  `Reach P` are the disks it can hold when every
request satisfies `P`, a condition on the disk before the request.

The condition `P` is on the disk before the request and not on the request alone: whether a put
is harmless depends on which files are large and on how many blocks are free.  A run is followed
from the formatted disk, so nothing has to be assumed about it but what `boot` writes; the
memory in which the root inode was made is a parameter, since the constructor does not
initialise it.

* `reach_exclusive` — while no second file is large, every disk is `Exclusive`.
* `extentServer_refines_fileMap` — the server refines the finite map of files.
* `blocks_in_use_exact` — the blocks in use are those of the live files.
-/

namespace Yfs.Storage

open ByteBlock Transition

namespace ExtentServer

open BlockManager

variable {uninit : Inode} {bm bm' : BlockManager} {now : Clock}

/-! ## The server as a transition system -/

/-- One request that satisfies `P` and does not stop the server. -/
def Step (P : BlockManager → Request → Prop) (bm bm' : BlockManager) : Prop :=
  ∃ now req reply, P bm req ∧ handle now req bm = .ok (reply, bm')

/-- The disks of a server whose requests all satisfy `P`.

A run in which some request stops the server ends there, so what is shown of reachable disks says
nothing of requests that stop it; for that there are the lemmas by which a request is answered. -/
def Reach (P : BlockManager → Request → Prop) (uninit : Inode) : BlockManager → Prop :=
  Reachable (fun bm => ∃ now, boot uninit now = .ok bm) (Step P)

/-- Requests on live inums with puts of at most `limit` bytes. -/
def OnLive (limit : ℕ) (bm : BlockManager) : Request → Prop
  | .create _ => True
  | .put id buf => Live bm id ∧ buf.length ≤ limit
  | .get id => Live bm id
  | .getattr id => Live bm id
  | .remove id => Live bm id

/-- Requests on live inums that keep the root direct and do not make a second file large.

Everything here can be checked before the request is made, from the inodes on the disk.  It is
what a cautious user of the server would have to keep to, and nothing in the server asks for it.
-/
def Admissible (bm : BlockManager) (req : Request) : Prop :=
  OnLive (maxfile * blockSize) bm req ∧ ∀ id buf, req = .put id buf →
    (id = 1 → buf.length ≤ ndirect * blockSize) ∧
    (ndirect * blockSize < buf.length → ∀ k, k ≠ id → Live bm k → ¬ Large bm k)

theorem maskId_of_live {i : ℕ} (live : Live bm i) : maskId i = i := by
  have := live.2.1
  simp only [inodeNum] at this
  exact Nat.mod_eq_of_lt (by omega)

/-! ## The first disk -/

/-- The disk the server starts with. -/
theorem boot_ok (uninit : Inode) (now : Clock) :
    boot uninit now = .ok (fresh.setInode 1
      { uninit with type := tDir, size := 0, atime := now 0 }) :=
  putInode_ok (by simp [inodeNum])

/-- An untouched inode of the formatted disk is all zeros. -/
theorem inodeAt_fresh (i : ℕ) : fresh.inodeAt i = ⟨0, 0, 0, 0, 0, fun _ => 0⟩ := by
  have zero : ∀ off, byteAt (fresh.blocks (iblock i)) off = 0 := by
    intro off
    simp [byteAt, fresh, Vector.getElem?_replicate]
    split <;> rfl
  simp [inodeAt, Inode.ofBlock, word16, word32, zero]

/-- The root is the only live file, and it is empty. -/
theorem boot_live (boots : boot uninit now = .ok bm) (i : ℕ) : Live bm i ↔ i = 1 := by
  rw [boot_ok, Except.ok.injEq] at boots
  subst boots
  constructor
  · intro live
    by_contra ne
    have := live.2.2
    rw [inodeAt_setInode_of_ne ne, inodeAt_fresh] at this
    exact this rfl
  · rintro rfl
    refine ⟨le_rfl, by simp [inodeNum], ?_⟩
    rw [inodeAt_setInode_self]
    simp [Inode.truncate, tDir]

theorem boot_size (boots : boot uninit now = .ok bm) : (bm.inodeAt 1).size = 0 := by
  rw [boot_ok, Except.ok.injEq] at boots
  subst boots
  rw [inodeAt_setInode_self]
  rfl

theorem boot_indirect (boots : boot uninit now = .ok bm) {i : ℕ} (ne : i ≠ 1) :
    (bm.inodeAt i).indirect = 0 := by
  rw [boot_ok, Except.ok.injEq] at boots
  subst boots
  rw [inodeAt_setInode_of_ne ne, inodeAt_fresh]
  rfl

theorem boot_exclusive (boots : boot uninit now = .ok bm) : Exclusive bm := by
  have live := boot_live boots
  have none : ∀ i j b, ¬ HasBlock bm i j b := by
    rintro i j b ⟨liveI, lt, -⟩
    rw [(live i).mp liveI, boot_size boots] at lt
    simp [nblk_eq] at lt
  have small : ∀ i, Live bm i → ¬ Large bm i := by
    intro i liveI
    rw [(live i).mp liveI, Large, boot_size boots]
    omega
  have unused : ∀ b, bm.usingBlocks b = 0 := by
    rw [boot_ok, Except.ok.injEq] at boots
    subst boots
    exact fun b => rfl
  refine ⟨⟨fun i low _ => boot_indirect boots (by omega), fun i liveI => ?_, small 1,
    fun i j b has => absurd has (none i j b)⟩, fun i j _ _ b has => absurd has (none i j b),
    fun b => ?_, fun i _ liveI _ large => absurd large (small i liveI)⟩
  · rw [(live i).mp liveI, boot_size boots]
    exact Nat.zero_le _
  · simp only [unused b, ne_eq, not_true_eq_false, false_iff, not_exists]
    exact fun i j => none i j b

/-- A disk on which exactly the inums up to `n` are live and no file has any bytes. -/
structure Blank (bm : BlockManager) (n : ℕ) : Prop where
  exclusive : Exclusive bm
  live : ∀ i, Live bm i ↔ 1 ≤ i ∧ i ≤ n
  empty : ∀ i, Live bm i → (bm.inodeAt i).size = 0
  free : bm.freeSet.card = dataBlocks

theorem boot_blank (boots : boot uninit now = .ok bm) : Blank bm 1 := by
  have live := boot_live boots
  refine ⟨boot_exclusive boots, fun i => ?_, fun i liveI => ?_, ?_⟩
  · rw [live i]
    omega
  · rw [(live i).mp liveI, boot_size boots]
  · rw [boot_ok, Except.ok.injEq] at boots
    subst boots
    have all : (fresh.setInode 1 { uninit with type := tDir, size := 0, atime := now 0 }).freeSet =
        Finset.Ico dataStart blockNum :=
      Finset.filter_true_of_mem fun b _ => rfl
    rw [all, Nat.card_Ico, dataBlocks]

/-- A clock that stands still, for runs on fixed requests. -/
def still : Clock := fun _ => 0

/-! ## One request -/

/-- What a file must look like for `put` to be possible. -/
theorem writable {i : ℕ} {buf : List UInt8} (placed : Placed bm) (live : Live bm i)
    (bound : buf.length ≤ maxfile * blockSize)
    (root : i = 1 → buf.length ≤ ndirect * blockSize) : Writable bm i buf := by
  refine ⟨live.1, live.2.1, placed.reaches live, ?_, placed.size_le i live, bound,
    placed.inData_blockId live⟩
  by_cases h : i = 1
  · exact Or.inl ((nblk_le_iff _ _).mpr (root h))
  · exact Or.inr (placed.indirect_zero i (by have := live.1; omega) live.2.1)

/-- **`put`**: with room for the growth the file is stored; without it the server
stops. -/
theorem put_ok {id : ℕ} {buf : List UInt8} (excl : Exclusive bm)
    (ok : Admissible bm (.put id buf)) (now : Clock)
    (room : nblk buf.length - nblk (bm.inodeAt id).size ≤ bm.freeSet.card) :
    ∃ bm', handle now (.put id buf) bm = .ok (.done, bm') ∧ Exclusive bm' ∧
      bm'.files = Function.update bm.files id (some ⟨(bm.inodeAt id).type, buf⟩) := by
  obtain ⟨⟨live, bound⟩, rest⟩ := ok
  obtain ⟨root, alone⟩ := rest id buf rfl
  obtain ⟨ids, bm', out, stored⟩ :=
    writeFile_ok (writable excl.toPlaced live bound root) now room
  have excl' := excl.stored stored live bound root alone
  refine ⟨bm', ?_, excl', stored.files excl excl' live alone⟩
  rw [handle, put, maskId_of_live live, out]
  rfl

theorem put_error {id : ℕ} {buf : List UInt8} (excl : Exclusive bm)
    (ok : Admissible bm (.put id buf)) (now : Clock)
    (noRoom : bm.freeSet.card < nblk buf.length - nblk (bm.inodeAt id).size) :
    handle now (.put id buf) bm = .error .noFreeBlock := by
  obtain ⟨⟨live, bound⟩, rest⟩ := ok
  rw [handle, put, maskId_of_live live,
    writeFile_error (writable excl.toPlaced live bound (rest id buf rfl).1) now noRoom]
  rfl

/-- A read leaves the files as they are. -/
theorem read_keeps {i : ℕ} (excl : Exclusive bm) (live : Live bm i)
    (read : bm' = bm ∨ bm' = bm.setInode i { bm.inodeAt i with atime := now 0 }) :
    Exclusive bm' ∧ bm'.files = bm.files := by
  rcases read with rfl | rfl
  · exact ⟨excl, rfl⟩
  · exact ⟨excl.setInode_atime i _, files_setInode_atime excl.toPlaced live _⟩

/-- The inode layer's `getattr` answers for every valid inum. -/
theorem attr_ok {i : ℕ} (pos : 1 ≤ i) (le : i ≤ inodeNum) :
    bm.getattr i = .ok (attrOf (bm.inodeAt i)) := by
  rw [BlockManager.getattr, getInode_ok pos le]
  rfl

/-- **`get`** sends the file's bytes and, after the read, its attributes. -/
theorem get_ok {id : ℕ} (placed : Placed bm) (live : Live bm id) (now : Clock) :
    ∃ bm', handle now (.get id) bm = .ok (.file ⟨attrOf (accessed (bm.inodeAt id) now),
        bm.fileData (bm.inodeAt id)⟩, bm') ∧
      (bm' = bm ∨ bm' = bm.setInode id { bm.inodeAt id with atime := now 0 }) := by
  obtain ⟨content, bm', out, data, after, read⟩ := readFile_ok placed live now
  refine ⟨bm', ?_, read⟩
  rw [handle, get, maskId_of_live live, out]
  simp only [bind, Except.bind, attr_ok live.1 live.2.1, data, after]

/-- **`getattr`** sends the same, with the attributes from before the read. -/
theorem getattr_ok {id : ℕ} (placed : Placed bm) (live : Live bm id) (now : Clock) :
    ∃ bm', handle now (.getattr id) bm = .ok (.file ⟨attrOf (bm.inodeAt id),
        bm.fileData (bm.inodeAt id)⟩, bm') ∧
      (bm' = bm ∨ bm' = bm.setInode id { bm.inodeAt id with atime := now 0 }) := by
  obtain ⟨content, bm', out, data, -, read⟩ := readFile_ok placed live now
  refine ⟨bm', ?_, read⟩
  rw [handle, getattr, maskId_of_live live]
  simp only [bind, Except.bind, attr_ok live.1 live.2.1, out, data]

/-- **`remove`**. -/
theorem remove_ok {id : ℕ} (placed : Placed bm) (live : Live bm id) (now : Clock) :
    handle now (.remove id) bm = .ok (.done, bm.removed id) := by
  rw [handle, remove, maskId_of_live live,
    removeFile_ok live.1 live.2.1 (placed.reaches live) (placed.size_le id live)]
  rfl

/-- **`create`** uses the first dead inode. -/
theorem create_ok {k : ℕ} (type : ℕ) (now : Clock) (low : 2 ≤ k) (high : k ≤ inodeNum)
    (dead : ¬ Live bm k) (first : ∀ l, 2 ≤ l → l < k → Live bm l) :
    handle now (.create type) bm =
      .ok (.created k, bm.setInode k (newInode (bm.inodeAt k) type now)) := by
  rw [handle, create, allocInode_eq type now low high dead first]
  rfl

/-- A create on a blank disk takes the next inum. -/
theorem Blank.create {n type : ℕ} (blank : Blank bm n) (now : Clock) (pos : 1 ≤ n)
    (lt : n < inodeNum) (kind : type % 2 ^ 16 ≠ 0) :
    ∃ bm', handle now (.create type) bm = .ok (.created (n + 1), bm') ∧ Blank bm' (n + 1) := by
  have dead : ¬ Live bm (n + 1) := by
    rw [blank.live]
    omega
  have first : ∀ l, 2 ≤ l → l < n + 1 → Live bm l := by
    intro l low high
    rw [blank.live]
    omega
  obtain ⟨size, type'⟩ := setInode_newInode (k := n + 1) type now
  refine ⟨_, create_ok type now (by omega) lt dead first, blank.exclusive.newInode type now dead,
    fun i => ?_, fun i liveI => ?_, blank.free⟩
  · by_cases h : i = n + 1
    · subst h
      exact iff_of_true ⟨by omega, lt, by rwa [type']⟩ ⟨by omega, le_rfl⟩
    · rw [live_congr (inodeAt_setInode_of_ne h), blank.live]
      omega
  · by_cases h : i = n + 1
    · rw [h, size]
    · have same : (bm.setInode (n + 1) (newInode (bm.inodeAt (n + 1)) type now)).inodeAt i =
          bm.inodeAt i := inodeAt_setInode_of_ne h
      rw [same]
      exact blank.empty i ((live_congr same).mp liveI)

/-- A `create` that is answered found a dead inode. -/
theorem create_inv {type : ℕ} {reply : Reply}
    (out : handle now (.create type) bm = .ok (reply, bm')) :
    ∃ k, 2 ≤ k ∧ k ≤ inodeNum ∧ ¬ Live bm k ∧ reply = .created k ∧
      bm' = bm.setInode k (newInode (bm.inodeAt k) type now) := by
  by_cases left : ∃ k, 2 ≤ k ∧ k ≤ inodeNum ∧ ¬ Live bm k
  · obtain ⟨k, low, high, dead, first⟩ := exists_first_dead left
    rw [create_ok type now low high dead first] at out
    cases out
    exact ⟨k, low, high, dead, rfl, rfl⟩
  · push Not at left
    rw [handle, create, allocInode_error type now left] at out
    cases out

/-- The root of a fresh server can be written. -/
theorem first_put : ∃ bm₀ bm₁, boot ⟨0, 0, 0, 0, 0, fun _ => 0⟩ still = .ok bm₀ ∧ Blank bm₀ 1 ∧
    Admissible bm₀ (.put 1 [104, 105]) ∧
    handle still (.put 1 [104, 105]) bm₀ = .ok (.done, bm₁) := by
  have boots := boot_ok ⟨0, 0, 0, 0, 0, fun _ => 0⟩ still
  generalize (fresh.setInode 1 _) = bm₀ at boots
  have blank := boot_blank boots
  have live : Live bm₀ 1 := (blank.live 1).mpr (by omega)
  have ok : Admissible bm₀ (.put 1 [104, 105]) := by
    refine ⟨⟨live, by simp [maxfile, ndirect, nindirect, blockSize]⟩, ?_⟩
    rintro _ _ ⟨rfl, rfl⟩
    refine ⟨fun _ => by simp [ndirect, blockSize], fun _ k _ liveK => ?_⟩
    rw [Large, blank.empty k liveK]
    omega
  have room : nblk [104, 105].length - nblk (bm₀.inodeAt 1).size ≤ bm₀.freeSet.card := by
    rw [blank.free, dataBlocks, blockNum_eq, dataStart_eq, nblk_eq]
    simp
    omega
  obtain ⟨bm₁, out, -⟩ := put_ok blank.exclusive ok still room
  exact ⟨bm₀, bm₁, boots, blank, ok, out⟩

/-- **One admissible request keeps `Exclusive`.** -/
theorem step_exclusive (excl : Exclusive bm) (step : Step Admissible bm bm') :
    Exclusive bm' := by
  obtain ⟨now, req, reply, ok, out⟩ := step
  cases req with
  | create type =>
      obtain ⟨k, -, -, dead, -, rfl⟩ := create_inv out
      exact excl.newInode type now dead
  | put id buf =>
      by_cases room : nblk buf.length - nblk (bm.inodeAt id).size ≤ bm.freeSet.card
      · obtain ⟨bm₁, out₁, excl₁, -⟩ := put_ok excl ok now room
        rw [out₁] at out
        cases out
        exact excl₁
      · rw [put_error excl ok now (by omega)] at out
        cases out
  | get id =>
      obtain ⟨bm₁, out₁, read⟩ := get_ok excl.toPlaced ok.1 now
      rw [out₁] at out
      cases out
      exact (read_keeps excl ok.1 read).1
  | getattr id =>
      obtain ⟨bm₁, out₁, read⟩ := getattr_ok excl.toPlaced ok.1 now
      rw [out₁] at out
      cases out
      exact (read_keeps excl ok.1 read).1
  | remove id =>
      rw [remove_ok excl.toPlaced ok.1 now] at out
      cases out
      exact excl.removed ok.1

/-- **Every disk of an admissible run is `Exclusive`.** -/
theorem reach_exclusive (reach : Reach Admissible uninit bm) : Exclusive bm := by
  refine reach.invariant (fun bm h => ?_) fun bm bm' _ excl step => step_exclusive excl step
  obtain ⟨now, boots⟩ := h
  exact boot_exclusive boots

/-! ## Counting blocks -/

/-- Changing one summand. -/
theorem sum_change {s : Finset ℕ} {id : ℕ} (mem : id ∈ s) (f : ℕ → ℕ) (a : ℕ) :
    (∑ k ∈ s, if k = id then a else f k) + f id = (∑ k ∈ s, f k) + a := by
  rw [← Finset.add_sum_erase s _ mem, ← Finset.add_sum_erase s f mem, if_pos rfl]
  have rest : ∑ k ∈ s.erase id, (if k = id then a else f k) = ∑ k ∈ s.erase id, f k :=
    Finset.sum_congr rfl fun k mem => if_neg (Finset.ne_of_mem_erase mem)
  rw [rest]
  omega

/-- The blocks the live files need when file `id` has `len` bytes. -/
def totalBlocksWith (bm : BlockManager) (id len : ℕ) : ℕ :=
  ∑ k ∈ (Finset.Icc 1 inodeNum).filter (Live bm),
    if k = id then nblk len else nblk (bm.inodeAt k).size

/-- **The free blocks suffice for a put exactly when all files together fit.** -/
theorem room_iff {id : ℕ} (len : ℕ) (excl : Exclusive bm) (live : Live bm id) :
    nblk len - nblk (bm.inodeAt id).size ≤ bm.freeSet.card ↔
      totalBlocksWith bm id len ≤ dataBlocks := by
  have mem : id ∈ (Finset.Icc 1 inodeNum).filter (Live bm) :=
    Finset.mem_filter.mpr ⟨Finset.mem_Icc.mpr ⟨live.1, live.2.1⟩, live⟩
  have change := sum_change mem (fun k => nblk (bm.inodeAt k).size) (nblk len)
  have card := excl.card_freeSet
  have part : nblk (bm.inodeAt id).size ≤ bm.totalBlocks :=
    Finset.single_le_sum (f := fun k => nblk (bm.inodeAt k).size) (fun _ _ => Nat.zero_le _) mem
  simp only [totalBlocksWith, totalBlocks] at *
  omega

/-- **Exact block accounting.** In every disk of an admissible run the blocks in use are those of
the live files, each with exactly one owner and all of the data region; and a put stops the server
exactly when the live files, this one at its new size, need more blocks than the data region has.

Everything but the last clause is read off `Exclusive`, which every admissible request keeps.  The
last one counts: owned blocks and free blocks are all the blocks of the data region. -/
theorem blocks_in_use_exact (reach : Reach Admissible uninit bm) :
    (∀ b, bm.usingBlocks b ≠ 0 ↔ ∃ i, Live bm i ∧ b ∈ bm.fileIds (bm.inodeAt i)) ∧
    (∀ i, Live bm i → (bm.fileIds (bm.inodeAt i)).Nodup) ∧
    (∀ i k, Live bm i → Live bm k → i ≠ k →
      List.Disjoint (bm.fileIds (bm.inodeAt i)) (bm.fileIds (bm.inodeAt k))) ∧
    (∀ i, Live bm i → ∀ b ∈ bm.fileIds (bm.inodeAt i),
      iblock inodeNum + 1 ≤ b ∧ b < blockNum) ∧
    ∀ id buf now, Admissible bm (.put id buf) →
      (handle now (.put id buf) bm = .error .noFreeBlock ↔
        dataBlocks < totalBlocksWith bm id buf.length) ∧
      (totalBlocksWith bm id buf.length ≤ dataBlocks →
        ∃ bm', handle now (.put id buf) bm = .ok (.done, bm')) := by
  have excl := reach_exclusive reach
  have mem : ∀ {i b}, Live bm i → (b ∈ bm.fileIds (bm.inodeAt i) ↔ ∃ j, HasBlock bm i j b) := by
    intro i b live
    simp [fileIds, HasBlock, live]
  refine ⟨fun b => ?_, fun i live => ?_, fun i k liveI liveK ne b memI memK => ?_,
    fun i live b memB => ?_, fun id buf now ok => ?_⟩
  · rw [excl.used b]
    refine exists_congr fun i => ?_
    constructor
    · rintro ⟨j, has⟩
      exact ⟨has.1, (mem has.1).mpr ⟨j, has⟩⟩
    · rintro ⟨live, memB⟩
      exact (mem live).mp memB
  · refine List.Nodup.map_on (fun j hj l hl eq => ?_) List.nodup_range
    exact (excl.inj i j i l _ ⟨live, List.mem_range.mp hj, rfl⟩
      ⟨live, List.mem_range.mp hl, eq.symm⟩).2
  · obtain ⟨j, hasI⟩ := (mem liveI).mp memI
    obtain ⟨l, hasK⟩ := (mem liveK).mp memK
    exact ne (excl.inj i j k l b hasI hasK).1
  · obtain ⟨j, has⟩ := (mem live).mp memB
    exact excl.inData i j b has
  -- the blocks that are free are those that no file counts
  · have iff := room_iff buf.length excl ok.1.1
    constructor
    · constructor
      · intro stops
        by_contra fits
        obtain ⟨bm', out, -⟩ := put_ok excl ok now (iff.mpr (by omega))
        rw [out] at stops
        cases stops
      · intro tooMany
        exact put_error excl ok now (by omega)
    · intro fits
      obtain ⟨bm', out, -⟩ := put_ok excl ok now (iff.mpr fits)
      exact ⟨bm', out⟩

/-- The first put of a fresh server, with the accounting after it. -/
theorem blocks_in_use_exact_first_put : ∃ bm₀ bm₁,
    boot ⟨0, 0, 0, 0, 0, fun _ => 0⟩ still = .ok bm₀ ∧
    handle still (.put 1 [104, 105]) bm₀ = .ok (.done, bm₁) ∧
    (∀ b, bm₁.usingBlocks b ≠ 0 ↔ ∃ i, Live bm₁ i ∧ b ∈ bm₁.fileIds (bm₁.inodeAt i)) ∧
    ∀ i, Live bm₁ i → ∀ b ∈ bm₁.fileIds (bm₁.inodeAt i),
      iblock inodeNum + 1 ≤ b ∧ b < blockNum := by
  obtain ⟨bm₀, bm₁, boots, blank, ok, out⟩ := first_put
  have reach : Reach Admissible ⟨0, 0, 0, 0, 0, fun _ => 0⟩ bm₁ :=
    (Reachable.init ⟨still, boots⟩).step ⟨still, _, _, ok, out⟩
  obtain ⟨used, -, -, inData, -⟩ := blocks_in_use_exact reach
  exact ⟨bm₀, bm₁, boots, out, used, inData⟩

/-! ## The map of files -/

/-- The files of a new server: an empty root directory. -/
def initialFiles : FileMap := Function.update (fun _ => none) 1 (some ⟨tDir, []⟩)

/-- The blocks that the files of a map need. -/
def mapBlocks (m : FileMap) : ℕ :=
  ∑ k ∈ Finset.Icc 1 inodeNum, ((m k).elim 0 fun f => nblk f.data.length)

/-- The map after `put`: the file keeps its type. -/
def putFile (m : FileMap) (id : ℕ) (buf : List UInt8) : FileMap :=
  Function.update m id ((m id).map fun f => { f with data := buf })

/-- A request that may be made of a server with the files `m`: it names live inums, keeps to the
size limits, and neither allocator runs out on it.

This is a condition on the map and not on the disk: whoever knows the files knows which requests
are permitted.  `mapBlocks` counts the blocks that the files of the map need. -/
def Permitted (m : FileMap) : Request → Prop
  | .create type => (type = tDir ∨ type = tFile ∨ type = tSlink) ∧
      ∃ k, 2 ≤ k ∧ k ≤ inodeNum ∧ m k = none
  | .put id buf => m id ≠ none ∧ buf.length ≤ maxfile * blockSize ∧
      (id = 1 → buf.length ≤ ndirect * blockSize) ∧
      (ndirect * blockSize < buf.length →
        ∀ k f, k ≠ id → m k = some f → f.data.length ≤ ndirect * blockSize) ∧
      mapBlocks (putFile m id buf) ≤ dataBlocks
  | .get id => m id ≠ none
  | .getattr id => m id ≠ none
  | .remove id => m id ≠ none

/-- The files after a request, given the server's reply: the specification the
server is compared with. -/
def afterRequest (m : FileMap) : Request → Reply → FileMap
  | .create type, .created id => Function.update m id (some ⟨type, []⟩)
  | .put id buf, _ => putFile m id buf
  | .remove id, _ => Function.update m id none
  | _, _ => m

/-- The replies that the files allow. -/
def Answers (m : FileMap) : Request → Reply → Prop
  | .create _, .created id => 2 ≤ id ∧ id ≤ inodeNum ∧ m id = none
  | .put _ _, .done => True
  | .get id, .file f | .getattr id, .file f => ∃ file, m id = some file ∧
      f.buf = file.data ∧ f.attr.size = file.data.length ∧ f.attr.type = file.type
  | .remove _, .done => True
  | _, _ => False

/-- A server run beside the map: the disk the code holds and the files that the
requests and replies so far add up to. -/
def Serves (uninit : Inode) : BlockManager × FileMap → Prop :=
  Reachable (fun s => (∃ now, boot uninit now = .ok s.1) ∧ s.2 = initialFiles)
    (fun s s' => ∃ now req reply, Permitted s.2 req ∧
      handle now req s.1 = .ok (reply, s'.1) ∧ s'.2 = afterRequest s.2 req reply)

/-- What ties the disk to the map.

From this alone the answer to every permitted request follows, and that it holds again after the
request.  Types are small because `alloc_inode` stores them in a `short`. -/
structure Holds (bm : BlockManager) (m : FileMap) : Prop where
  exclusive : Exclusive bm
  files : bm.files = m
  types : ∀ i f, m i = some f → f.type < 2 ^ 15

namespace Holds

variable {m : FileMap}

theorem live_iff (holds : Holds bm m) (i : ℕ) : m i ≠ none ↔ Live bm i := by
  rw [← holds.files, ne_eq, files_eq_none_iff, not_not]

theorem file (holds : Holds bm m) {i : ℕ} (live : Live bm i) :
    m i = some ⟨(bm.inodeAt i).type, bm.fileData (bm.inodeAt i)⟩ := by
  rw [← holds.files, files_of_live live]

theorem small_type (holds : Holds bm m) {i : ℕ} (live : Live bm i) :
    (bm.inodeAt i).type < 2 ^ 15 :=
  holds.types i _ (holds.file live)

/-- The conditions on a put, read off the map, are those on the disk. -/
theorem admissible_put (holds : Holds bm m) {id : ℕ} {buf : List UInt8}
    (permitted : Permitted m (.put id buf)) : Admissible bm (.put id buf) := by
  obtain ⟨present, bound, root, alone, -⟩ := permitted
  refine ⟨⟨(holds.live_iff id).mp present, bound⟩, ?_⟩
  rintro _ _ ⟨rfl, rfl⟩
  refine ⟨root, fun large k ne live => ?_⟩
  have := alone large k _ ne (holds.file live)
  rw [length_fileData] at this
  rw [Large]
  omega

theorem mapBlocks_putFile (holds : Holds bm m) {id : ℕ} (buf : List UInt8) (live : Live bm id) :
    mapBlocks (putFile m id buf) = totalBlocksWith bm id buf.length := by
  rw [mapBlocks, totalBlocksWith, Finset.sum_filter]
  refine Finset.sum_congr rfl fun k _ => ?_
  by_cases h : k = id
  · subst h
    rw [if_pos live, if_pos rfl, putFile, Function.update_self, holds.file live]
    rfl
  · rw [putFile, Function.update_of_ne h]
    by_cases liveK : Live bm k
    · rw [if_pos liveK, if_neg h, holds.file liveK, Option.elim_some, length_fileData]
    · have none : m k = none := by
        rw [← holds.files, files_of_not_live liveK]
      rw [if_neg liveK, none, Option.elim_none]

/-- **One request**: the server answers as the map allows and the disk then holds
the map after the request. -/
theorem step (holds : Holds bm m) {req : Request} (permitted : Permitted m req) (now : Clock) :
    ∃ reply bm', handle now req bm = .ok (reply, bm') ∧ Answers m req reply ∧
      Holds bm' (afterRequest m req reply) := by
  have excl := holds.exclusive
  cases req with
  | create type =>
      obtain ⟨kind, k, low, high, none⟩ := permitted
      have dead : ¬ Live bm k := by rwa [← files_eq_none_iff, holds.files]
      -- a dead inode is there, and the first of them is taken
      obtain ⟨k, low, high, dead, first⟩ := exists_first_dead ⟨k, low, high, dead⟩
      have files := files_newInode excl.toPlaced type now low high dead
      have small : type < 2 ^ 15 ∧ type ≠ 0 := by
        simp only [tDir, tFile, tSlink] at kind
        omega
      have same : type % 2 ^ 16 = type := Nat.mod_eq_of_lt (by omega)
      rw [same, if_neg small.2, holds.files] at files
      refine ⟨_, _, create_ok type now low high dead first, ⟨low, high, ?_⟩,
        excl.newInode type now dead, files, fun i f eq => ?_⟩
      · rw [← holds.files, files_of_not_live dead]
      · simp only [afterRequest] at eq
        by_cases h : i = k
        · rw [h, Function.update_self, Option.some.injEq] at eq
          rw [← eq]
          exact small.1
        · rw [Function.update_of_ne h] at eq
          exact holds.types i f eq
  | put id buf =>
      -- room is counted in blocks of the map, which are those in use on the disk
      have ok := holds.admissible_put permitted
      obtain ⟨present, -, -, -, fits⟩ := permitted
      have live := (holds.live_iff id).mp present
      rw [holds.mapBlocks_putFile buf live] at fits
      obtain ⟨bm', out, excl', files⟩ := put_ok excl ok now ((room_iff _ excl live).mpr fits)
      refine ⟨_, bm', out, trivial, excl', ?_, fun i f eq => ?_⟩
      · rw [files, holds.files, afterRequest, putFile, holds.file live]
        rfl
      · simp only [afterRequest, putFile] at eq
        by_cases h : i = id
        · rw [h, Function.update_self, holds.file live, Option.map_some, Option.some.injEq] at eq
          rw [← eq]
          exact holds.small_type live
        · rw [Function.update_of_ne h] at eq
          exact holds.types i f eq
  | get id =>
      have live := (holds.live_iff id).mp permitted
      obtain ⟨bm', out, read⟩ := get_ok excl.toPlaced live now
      obtain ⟨excl', files⟩ := read_keeps excl live read
      refine ⟨_, bm', out, ⟨_, holds.file live, rfl, ?_, ?_⟩, excl', files.trans holds.files,
        holds.types⟩
      · rw [length_fileData]
        exact accessed_size _ _
      · simp only [attrOf, accessed_type]
        exact if_pos (holds.small_type live)
  | getattr id =>
      have live := (holds.live_iff id).mp permitted
      obtain ⟨bm', out, read⟩ := getattr_ok excl.toPlaced live now
      obtain ⟨excl', files⟩ := read_keeps excl live read
      refine ⟨_, bm', out, ⟨_, holds.file live, rfl, ?_, if_pos (holds.small_type live)⟩, excl',
        files.trans holds.files, holds.types⟩
      rw [length_fileData]
      rfl
  | remove id =>
      have live := (holds.live_iff id).mp permitted
      have files := files_removed excl.toPlaced live.2.1
      refine ⟨_, _, remove_ok excl.toPlaced live now, trivial, excl.removed live,
        by rw [files, holds.files]; rfl, fun i f eq => ?_⟩
      simp only [afterRequest] at eq
      by_cases h : i = id
      · rw [h, Function.update_self] at eq
        cases eq
      · rw [Function.update_of_ne h] at eq
        exact holds.types i f eq

end Holds

theorem boot_holds (boots : boot uninit now = .ok bm) : Holds bm initialFiles := by
  have live := boot_live boots
  have liveRoot : Live bm 1 := (live 1).mpr rfl
  have root : bm.files 1 = some ⟨tDir, []⟩ := by
    have type : (bm.inodeAt 1).type = tDir := by
      rw [boot_ok, Except.ok.injEq] at boots
      subst boots
      rw [inodeAt_setInode_self]
      rfl
    have nil : bm.fileData (bm.inodeAt 1) = [] := by
      refine List.eq_nil_of_length_eq_zero ?_
      rw [length_fileData, boot_size boots]
    rw [files_of_live liveRoot, type, nil]
  refine ⟨boot_exclusive boots, ?_, fun i f eq => ?_⟩
  · funext i
    by_cases h : i = 1
    · rw [h, root, initialFiles, Function.update_self]
    · rw [files_of_not_live (mt (live i).mp h), initialFiles, Function.update_of_ne h]
  · rw [initialFiles] at eq
    by_cases h : i = 1
    · rw [h, Function.update_self, Option.some.injEq] at eq
      rw [← eq]
      simp [tDir]
    · rw [Function.update_of_ne h] at eq
      cases eq

/-- Along every run the disk holds the map. -/
theorem serves_holds {s : BlockManager × FileMap} (run : Serves uninit s) : Holds s.1 s.2 := by
  refine run.invariant (I := fun s => Holds s.1 s.2) ?_ ?_
  · rintro ⟨bm, m⟩ ⟨⟨now, boots⟩, init⟩
    simp only at init
    subst init
    exact boot_holds boots
  · rintro ⟨bm, m⟩ ⟨bm', m'⟩ - holds ⟨now, req, reply, permitted, out, after⟩
    obtain ⟨reply₁, bm₁, out₁, -, holds₁⟩ := holds.step permitted now
    rw [out₁] at out
    cases out
    rw [after]
    exact holds₁

/-- **The extent server refines a finite map of files.** In every run of permitted requests the
disk holds exactly the files that the requests and replies so far add up to, and the next
permitted request is answered, and answered from that map: `get` and `getattr` report the latest
put, `create` an inum that is not live.

The map and the disk go along side by side, and `Holds` is what ties them; a request that is not
permitted ends the run here, since the server may then stop, or break the tie. -/
theorem extentServer_refines_fileMap {s : BlockManager × FileMap} (run : Serves uninit s) :
    s.1.files = s.2 ∧ ∀ req now, Permitted s.2 req →
      ∃ reply bm', handle now req s.1 = .ok (reply, bm') ∧ Answers s.2 req reply := by
  have holds := serves_holds run
  refine ⟨holds.files, fun req now permitted => ?_⟩
  obtain ⟨reply, bm', out, answers, -⟩ := holds.step permitted now
  exact ⟨reply, bm', out, answers⟩

/-- A fresh server returns what was put into its root. -/
theorem extentServer_refines_fileMap_first_put : ∃ bm₀ bm₁ attr bm₂,
    boot ⟨0, 0, 0, 0, 0, fun _ => 0⟩ still = .ok bm₀ ∧
    handle still (.put 1 [104, 105]) bm₀ = .ok (.done, bm₁) ∧
    handle still (.get 1) bm₁ = .ok (.file ⟨attr, [104, 105]⟩, bm₂) ∧ attr.size = 2 ∧
      attr.type = tDir := by
  obtain ⟨bm₀, bm₁, boots, blank, ok, out⟩ := first_put
  have holds := boot_holds boots
  have live : Live bm₀ 1 := ok.1.1
  have one : initialFiles 1 = some ⟨tDir, []⟩ := Function.update_self ..
  have permitted : Permitted initialFiles (.put 1 [104, 105]) := by
    refine ⟨by simp [one], ok.1.2, (ok.2 1 _ rfl).1, fun large => ?_, ?_⟩
    · simp [ndirect, blockSize] at large
    · rw [holds.mapBlocks_putFile _ live, ← room_iff _ holds.exclusive live, blank.free,
        blank.empty 1 live]
      simp [nblk_eq, dataBlocks, blockNum_eq, dataStart_eq]
  have run : Serves ⟨0, 0, 0, 0, 0, fun _ => 0⟩ (bm₁, putFile initialFiles 1 [104, 105]) :=
    (Reachable.init (s := (bm₀, initialFiles)) ⟨⟨still, boots⟩, rfl⟩).step
      ⟨still, .put 1 [104, 105], .done, permitted, out, rfl⟩
  have root : putFile initialFiles 1 [104, 105] 1 = some ⟨tDir, [104, 105]⟩ := by
    rw [putFile, Function.update_self, one]
    rfl
  obtain ⟨reply, bm₂, got, answers⟩ :=
    (extentServer_refines_fileMap run).2 (.get 1) still (by simp [Permitted, root])
  cases reply with
  | file f =>
      obtain ⟨file, eq, buf, size, type⟩ := answers
      have same : file = ⟨tDir, [104, 105]⟩ := Option.some.inj (eq.symm.trans root)
      subst same
      obtain ⟨attr, _⟩ := f
      simp only at buf
      subst buf
      exact ⟨bm₀, bm₁, attr, bm₂, boots, out, got, size, type⟩
  | created k => exact answers.elim
  | done => exact answers.elim

end ExtentServer

end Yfs.Storage
