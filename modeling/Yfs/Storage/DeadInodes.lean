import Yfs.Storage.AllInodes

/-!
# Requests that come too late

A client flushes a file that another client has unlinked, or removes it once more.  The inode is
dead, but its size and its block list are those of its last day, and its blocks may be another
file's by now.

The condition under which a late request does no harm cannot be read off the request.  It is
about the stale list of the dead inode and the lists of all live files at that moment, so the
invariant keeps track of both: live lists are disjoint and marked, and stale lists are what they
were when their files were removed or what late puts have made of them since.

* `LateRun` — runs with puts and removals on dead inums; `LiveFilesIntact` is what is required
  of them.
* `Kept` — the invariant.  Blocks that a dead inode got stay marked, so marked no longer means
  owned.
* `late_requests_harmless` — a late request whose stale blocks belong to no live file is
  harmless, and so are all that follow.
* `late_put_overwrites` — a late put into the block of another file.
-/

namespace Yfs.Storage

open ByteBlock Transition

namespace BlockManager

variable {bm bm' : BlockManager} {ino : Inode} {i j k : ℕ} {buf : List UInt8}
  {latest latest' : ℕ → List UInt8}

theorem mem_fileIds {b : ℕ} :
    b ∈ bm.fileIds ino ↔ ∃ j, j < nblk ino.size ∧ bm.blockId ino j = b := by
  simp [fileIds]

/-- The blocks on the list of inode `i` are blocks of no other live file. -/
def Separate (bm : BlockManager) (i : ℕ) : Prop :=
  ∀ b ∈ bm.fileIds (bm.inodeAt i), ∀ k j, HasBlock bm k j b → k = i

/-- **What every request keeps**: the live files have their blocks for themselves, all marked, and
in them the string that was put last.

Disjointness is asked of live files only, and `used` is an implication: the blocks of a dead inode
that was written to are marked, and stay so for ever, though no live file has them. -/
structure Kept (bm : BlockManager) (latest : ℕ → List UInt8) : Prop where
  all : AllPlaced bm
  inj : ∀ i j k l b, HasBlock bm i j b → HasBlock bm k l b → i = k ∧ j = l
  used : ∀ i j b, HasBlock bm i j b → bm.usingBlocks b ≠ 0
  data : ∀ i, Live bm i → bm.fileData (bm.inodeAt i) = latest i

namespace Kept

theorem intact (kept : Kept bm latest) (live : Live bm i) : Intact bm i where
  inj j hj l hl eq := (kept.inj i j i l _ ⟨live, hj, rfl⟩ ⟨live, hl, eq.symm⟩).2
  inUse j lt := kept.used i j _ ⟨live, lt, rfl⟩

theorem separate (kept : Kept bm latest) (live : Live bm i) : Separate bm i := by
  intro b mem k l has
  obtain ⟨j, lt, eq⟩ := mem_fileIds.mp mem
  exact (kept.inj k l i j b has ⟨live, lt, eq⟩).1

/-- The data of the files that did not change. -/
theorem data_of_files (kept : Kept bm latest) (same : bm'.files k = bm.files k)
    (live : Live bm' k) : bm'.fileData (bm'.inodeAt k) = latest k := by
  have old : Live bm k := by
    by_contra dead
    rw [files_of_live live, files_of_not_live dead] at same
    cases same
  rw [files_of_live live, files_of_live old, Option.some.injEq, File.mk.injEq] at same
  rw [same.2, kept.data k old]

/-- Storing an inode with its block list: an access time, or a new file. -/
theorem setInode (kept : Kept bm latest) (le : i ≤ inodeNum)
    (keeps : ino.blocks = (bm.inodeAt i).blocks)
    (size : ino.size = 0 ∨ ino.size = (bm.inodeAt i).size)
    (same : ((bm.setInode i ino).inodeAt i).size = 0 ∧ ¬ Live bm i ∨
      ((bm.setInode i ino).inodeAt i).size = (bm.inodeAt i).size ∧
        ((bm.setInode i ino).inodeAt i).type = (bm.inodeAt i).type)
    (others : ∀ k, k ≠ i → latest' k = latest k)
    (own : Live (bm.setInode i ino) i →
      (bm.setInode i ino).fileData ((bm.setInode i ino).inodeAt i) = latest' i) :
    Kept (bm.setInode i ino) latest' := by
  have placed := kept.all.placed
  have owners : ∀ k j b, HasBlock (bm.setInode i ino) k j b ↔ HasBlock bm k j b :=
    fun k j b => hasBlock_setInode_iff keeps placed same
  refine ⟨kept.all.setInode keeps size, fun k j l m b has has' => ?_, fun k j b has => ?_,
    fun k live => ?_⟩
  · exact kept.inj k j l m b ((owners k j b).mp has) ((owners l m b).mp has')
  · exact kept.used k j b ((owners k j b).mp has)
  · by_cases h : k = i
    · subst h
      exact own live
    · rw [others k h]
      exact kept.data_of_files (files_setInode_of_ne keeps placed le h) live

/-- **`remove`** of a file, or of an inode whose blocks are nobody else's. -/
theorem removed (kept : Kept bm latest) (le : i ≤ inodeNum) (separate : Separate bm i) :
    Kept (bm.removed i) latest := by
  have placed := kept.all.placed
  refine ⟨kept.all.removed i, fun k j l m b has has' => ?_, fun k j b has => ?_, fun k live => ?_⟩
  · exact kept.inj k j l m b ((hasBlock_removed placed).mp has).2
      ((hasBlock_removed placed).mp has').2
  · obtain ⟨ne, old⟩ := (hasBlock_removed placed).mp has
    have map : (bm.removed i).usingBlocks b =
        if b ∈ bm.fileIds (bm.inodeAt i) then 0 else bm.usingBlocks b := rfl
    rw [map, if_neg fun mem => ne (separate b mem k j old)]
    exact kept.used k j b old
  · have ne := removed_others live
    refine kept.data_of_files ?_ live
    rw [files_removed placed le, Function.update_of_ne ne]

section Stored

variable {ids : List ℕ} (kept : Kept bm latest) (pos : 1 ≤ i) (le : i ≤ inodeNum)
  (stored : Stored bm i buf ids bm') (bound : buf.length ≤ ndirect * blockSize)

include kept pos le stored bound

/-- The other files have the blocks that they had. -/
theorem hasBlock_other (ne : k ≠ i) {b : ℕ} : HasBlock bm' k j b ↔ HasBlock bm k j b :=
  stored.hasBlock_other kept.all.placed (stored.inData_new fun j => kept.all.inData i j pos le)
    (fun _ _ => (nblk_le_iff _ _).mpr bound) ne

omit pos le bound in
/-- A block that was free is nobody's. -/
theorem fresh {b : ℕ} (mem : b ∈ ids) : ¬ HasBlock bm k j b :=
  fun has => kept.used k j b has (stored.wasFree b mem)

omit pos le bound in
/-- The blocks that are written are not those of another file. -/
theorem apart (separate : Separate bm i) {l : ℕ} (lt : l < nblk buf.length) (ne : k ≠ i) :
    ¬ HasBlock bm k j (bm'.blockId (bm'.inodeAt i) l) := by
  intro has
  by_cases before : l < nblk (bm.inodeAt i).size
  · rw [stored.kept l lt before] at has
    exact ne (separate _ (mem_fileIds.mpr ⟨l, before, rfl⟩) k j has)
  · obtain ⟨h, eq⟩ := stored.added l lt (by omega)
    rw [eq] at has
    exact kept.fresh stored (List.get_mem _ _) has

/-- No block gets a second owner. -/
theorem store_inj (separate : Separate bm i) {k j l m b : ℕ} (has : HasBlock bm' k j b)
    (has' : HasBlock bm' l m b) : k = l ∧ j = m := by
  have inside : ∀ {j b}, HasBlock bm' i j b → j < nblk buf.length := by
    rintro j b ⟨-, lt, -⟩
    rwa [stored.size] at lt
  have mixed : ∀ {j k l b}, k ≠ i → HasBlock bm' i j b → ¬ HasBlock bm' k l b := by
    intro j k l b ne mine theirs
    rw [← mine.2.2] at theirs
    exact kept.apart stored separate (inside mine) ne
      ((kept.hasBlock_other pos le stored bound ne).mp theirs)
  by_cases hk : k = i
  · subst hk
    by_cases hl : l = k
    · subst hl
      refine ⟨rfl,
        stored.inj (kept.intact (stored.live_iff.mp has.1)) j (inside has) m (inside has') ?_⟩
      rw [has.2.2, has'.2.2]
    · exact absurd has' (mixed hl has)
  · by_cases hl : l = i
    · subst hl
      exact absurd has (mixed hk has')
    · exact kept.inj k j l m b ((kept.hasBlock_other pos le stored bound hk).mp has)
        ((kept.hasBlock_other pos le stored bound hl).mp has')

/-- Every block of a live file is marked: what is given back is neither kept by the file nor
another's. -/
theorem store_used (separate : Separate bm i) {k j b : ℕ} (has : HasBlock bm' k j b) :
    bm'.usingBlocks b ≠ 0 := by
  rw [stored.marks b]
  by_cases mem : b ∈ ids
  · rw [if_pos mem]
    exact one_ne_zero
  · have old : HasBlock bm k j b ∧ b ∉ (List.range' (nblk buf.length)
        (nblk (bm.inodeAt i).size - nblk buf.length)).map (bm.blockId (bm.inodeAt i)) := by
      by_cases hk : k = i
      · subst hk
        obtain ⟨live', lt, eq⟩ := has
        have live := stored.live_iff.mp live'
        rw [stored.size] at lt
        have before : j < nblk (bm.inodeAt k).size := by
          by_contra after
          obtain ⟨h, new⟩ := stored.added j lt (by omega)
          rw [eq] at new
          exact mem (new ▸ List.get_mem _ _)
        rw [stored.kept j lt before] at eq
        refine ⟨⟨live, before, eq⟩, fun freed => ?_⟩
        obtain ⟨m, hm, eq'⟩ := List.mem_map.mp freed
        rw [List.mem_range'_1] at hm
        have := (kept.intact live).inj j before m (by omega) (eq.trans eq'.symm)
        omega
      · have old := (kept.hasBlock_other pos le stored bound hk).mp has
        refine ⟨old, fun freed => ?_⟩
        obtain ⟨m, hm, eq⟩ := List.mem_map.mp freed
        rw [List.mem_range'_1] at hm
        exact hk (separate b (mem_fileIds.mpr ⟨m, by omega, eq⟩) k j old)
    rw [if_neg mem, if_neg old.2]
    exact kept.used k j b old.1

/-- The other files have the bytes that they had. -/
theorem store_data (separate : Separate bm i) (ne : k ≠ i) (live : Live bm' k) :
    bm'.fileData (bm'.inodeAt k) = latest k := by
  have same := stored.others k live.2.1 ne
  have old := (live_congr same).mp live
  rw [← kept.data k old, same]
  refine fileData_congr rfl (fun j lt => ?_) fun j lt => ?_
  · have has := (kept.hasBlock_other pos le stored bound ne).mpr ⟨old, lt, rfl⟩
    have eq := has.2.2
    rwa [same] at eq
  · have inData := kept.all.inData k j old.1 old.2.1 lt
    refine stored.frame _ (inData.ne_iblock le) (Or.inl inData.ne_zero) fun l hl eq => ?_
    have has : HasBlock bm k j (bm'.blockId (bm'.inodeAt i) l) := ⟨old, lt, eq.symm⟩
    exact kept.apart stored separate hl ne has

/-- **`put`** into a file, or into an inode whose blocks are nobody else's. -/
theorem store (separate : Separate bm i) : Kept bm' (Function.update latest i buf) := by
  have limit : buf.length ≤ maxfile * blockSize :=
    bound.trans (Nat.mul_le_mul_right _ (Nat.le_add_right _ _))
  refine ⟨kept.all.stored pos le stored limit fun _ => bound,
    fun _ _ _ _ _ has has' => kept.store_inj pos le stored bound separate has has',
    fun _ _ _ has => kept.store_used pos le stored bound separate has, fun k live => ?_⟩
  by_cases hk : k = i
  · subst hk
    have old := stored.live_iff.mp live
    rw [Function.update_self]
    exact fileData_of_chunks stored.size (stored.content (stored.inj (kept.intact old)))
  · rw [Function.update_of_ne hk]
    exact kept.store_data pos le stored bound separate hk live

end Stored

end Kept

end BlockManager

namespace ExtentServer

open BlockManager

variable {uninit : Inode} {bm bm' : BlockManager} {now : Clock} {latest : ℕ → List UInt8}

/-! ## Runs with late requests -/

/-- Puts of at most `NDIRECT` blocks and removals, on live inums or, where `late` allows it, on
inums from 2 on that are not live.

The predicate `late` is the condition under which a request on a dead inum is allowed; it sees the
disk before the request.  The root is not a dead inum and is left out. -/
def Late (late : BlockManager → ℕ → Prop) (bm : BlockManager) : Request → Prop
  | .put id buf => buf.length ≤ ndirect * blockSize ∧
      (Live bm id ∨ 2 ≤ id ∧ id ≤ inodeNum ∧ late bm id)
  | .remove id => Live bm id ∨ 2 ≤ id ∧ id ≤ inodeNum ∧ late bm id
  | _ => True

/-- The latest put of every file; a new file is empty. -/
def latestPut (latest : ℕ → List UInt8) : Request → Reply → ℕ → List UInt8
  | .create _, .created id => Function.update latest id []
  | .put id buf, _ => Function.update latest id buf
  | _, _ => latest

/-- **A server run with late requests**, and what has been put so far. -/
def LateRun (late : BlockManager → ℕ → Prop) (uninit : Inode) :
    BlockManager × (ℕ → List UInt8) → Prop :=
  Reachable (fun s => (∃ now, boot uninit now = .ok s.1) ∧ s.2 = fun _ => [])
    (fun s s' => ∃ now req reply, Late late s.1 req ∧ handle now req s.1 = .ok (reply, s'.1) ∧
      s'.2 = latestPut s.2 req reply)

theorem LateRun.start {late : BlockManager → ℕ → Prop} (boots : boot uninit now = .ok bm) :
    LateRun late uninit (bm, fun _ => []) :=
  Reachable.init ⟨⟨now, boots⟩, rfl⟩

theorem LateRun.next {late : BlockManager → ℕ → Prop} {req : Request} {reply : Reply}
    (run : LateRun late uninit (bm, latest)) (out : handle now req bm = .ok (reply, bm'))
    (ok : Late late bm req) :
    LateRun late uninit (bm', latestPut latest req reply) :=
  Reachable.step run ⟨now, req, reply, ok, out, rfl⟩

/-- **The live files are intact**: no block is owned by two of them, and `get` returns the latest
put of each. -/
structure LiveFilesIntact (bm : BlockManager) (latest : ℕ → List UInt8) : Prop where
  owned : ∀ b i k, Live bm i → Live bm k → b ∈ bm.fileIds (bm.inodeAt i) →
    b ∈ bm.fileIds (bm.inodeAt k) → i = k
  returned : ∀ i, Live bm i → ∀ now, ∃ attr bm',
    handle now (.get i) bm = .ok (.file ⟨attr, latest i⟩, bm')

/-- No block on the list of the inode is a block of a live file. -/
def Unowned (bm : BlockManager) (id : ℕ) : Prop :=
  ∀ b ∈ bm.fileIds (bm.inodeAt id), ∀ k, Live bm k → b ∉ bm.fileIds (bm.inodeAt k)

theorem Unowned.separate {id : ℕ} (unowned : Unowned bm id) : Separate bm id := by
  rintro b mem k j ⟨live, lt, eq⟩
  exact absurd (mem_fileIds.mpr ⟨j, lt, eq⟩) (unowned b mem k live)

/-- What a put or a removal may be made on. -/
theorem target_of_kept (kept : Kept bm latest) {id : ℕ}
    (target : Live bm id ∨ 2 ≤ id ∧ id ≤ inodeNum ∧ Unowned bm id) :
    maskId id = id ∧ 1 ≤ id ∧ id ≤ inodeNum ∧ Separate bm id := by
  rcases target with live | ⟨low, high, unowned⟩
  · exact ⟨maskId_of_live live, live.1, live.2.1, kept.separate live⟩
  · have mask : maskId id = id := by
      simp only [inodeNum] at high
      exact Nat.mod_eq_of_lt (by omega)
    exact ⟨mask, by omega, high, unowned.separate⟩

theorem boot_kept (boots : boot uninit now = .ok bm) : Kept bm fun _ => [] := by
  have excl := boot_exclusive boots
  refine ⟨reach_allPlaced (Reachable.init ⟨now, boots⟩), excl.inj,
    fun i j b has => (excl.used b).mpr ⟨i, j, has⟩, fun i live => ?_⟩
  refine List.eq_nil_of_length_eq_zero ?_
  rw [length_fileData, (boot_live boots i).mp live, boot_size boots]

/-- A read keeps everything. -/
theorem kept_read (kept : Kept bm latest) {i : ℕ} (le : i ≤ inodeNum)
    (read : bm' = bm ∨ bm' = bm.setInode i { bm.inodeAt i with atime := now 0 }) :
    Kept bm' latest := by
  rcases read with rfl | rfl
  · exact kept
  · have type : ((bm.setInode i { bm.inodeAt i with atime := now 0 }).inodeAt i).type =
        (bm.inodeAt i).type := by
      rw [inodeAt_setInode_self]
      exact Nat.mod_eq_of_lt (word16_lt _ _)
    have size : ((bm.setInode i { bm.inodeAt i with atime := now 0 }).inodeAt i).size =
        (bm.inodeAt i).size := by
      rw [inodeAt_setInode_self]
      exact Nat.mod_eq_of_lt (word32_lt _ _)
    refine kept.setInode le rfl (Or.inr rfl) (Or.inr ⟨size, type⟩) (fun _ _ => rfl) fun live => ?_
    have old : Live bm i := ⟨live.1, live.2.1, by rw [← type]; exact live.2.2⟩
    exact kept.data_of_files (congrFun (files_setInode_atime kept.all.placed old _) i) live

/-- **One request, late or not.** -/
theorem kept_step (kept : Kept bm latest) {req : Request} {reply : Reply}
    (ok : Late Unowned bm req) (out : handle now req bm = .ok (reply, bm')) :
    Kept bm' (latestPut latest req reply) := by
  cases req with
  -- a new file is empty, whatever list its inode had before
  | create type =>
      obtain ⟨k, low, high, dead, rfl, rfl⟩ := create_inv out
      have empty : ((bm.setInode k (newInode (bm.inodeAt k) type now)).inodeAt k).size = 0 :=
        (setInode_newInode type now).1
      refine kept.setInode high rfl (Or.inl rfl) (Or.inl ⟨empty, dead⟩)
        (fun _ ne => Function.update_of_ne ne ..) fun _ => ?_
      rw [latestPut, Function.update_self]
      refine List.eq_nil_of_length_eq_zero ?_
      rw [length_fileData, empty]
  | put id buf =>
      obtain ⟨bound, target⟩ := ok
      -- live or dead: no live file has a block on the list that is written through
      obtain ⟨mask, pos, le, separate⟩ := target_of_kept kept target
      have limit : buf.length ≤ maxfile * blockSize :=
        bound.trans (Nat.mul_le_mul_right _ (Nat.le_add_right _ _))
      obtain ⟨-, -, -, ids, stored⟩ := put_inv kept.all limit (fun _ => bound) out
      rw [mask] at stored
      exact kept.store pos le stored bound separate
  | get id =>
      obtain ⟨le, read⟩ := get_inv out
      exact kept_read kept le read
  | getattr id =>
      obtain ⟨le, read⟩ := getattr_inv out
      exact kept_read kept le read
  | remove id =>
      obtain ⟨mask, pos, le, separate⟩ := target_of_kept kept ok
      obtain ⟨-, -, rfl⟩ := remove_inv kept.all out
      rw [mask]
      exact kept.removed le separate

theorem kept_intact (kept : Kept bm latest) : LiveFilesIntact bm latest := by
  refine ⟨fun b i k liveI liveK memI memK => ?_, fun i live now => ?_⟩
  · obtain ⟨j, lt, eq⟩ := mem_fileIds.mp memK
    exact (kept.separate liveI b memI k j ⟨liveK, lt, eq⟩).symm
  · obtain ⟨bm', out, -⟩ := get_ok kept.all.placed live now
    rw [kept.data i live] at out
    exact ⟨_, bm', out⟩

/-- **Late requests are harmless** in every run in which none of them finds a block of a live file
on the list of its inode.

The condition is on the disk that the late request finds, and is the same for a `put`, which would
write the blocks on the list of its inode, and for a `remove`, which would unmark them. -/
theorem late_requests_harmless {s : BlockManager × (ℕ → List UInt8)}
    (run : LateRun Unowned uninit s) : LiveFilesIntact s.1 s.2 := by
  have invariant : Kept s.1 s.2 := by
    refine run.invariant (I := fun s => Kept s.1 s.2) ?_ ?_
    · rintro ⟨bm, latest⟩ ⟨⟨now, boots⟩, init⟩
      simp only at init
      subst init
      exact boot_kept boots
    · rintro ⟨bm, latest⟩ ⟨bm', latest'⟩ - kept ⟨now, req, reply, ok, out, after⟩
      simp only at after
      subst after
      exact kept_step kept ok out
  exact kept_intact invariant

/-! ## The first block -/

/-- `alloc_block` takes the first block, if it is free. -/
theorem allocBlock_first (free : bm.usingBlocks dataStart = 0) : bm.allocBlock =
    .ok (dataStart, { bm with usingBlocks := Function.update bm.usingBlocks dataStart 1 }) := by
  have range : List.range' dataStart (blockNum - dataStart) =
      dataStart :: List.range' (dataStart + 1) (blockNum - dataStart - 1) := by
    rw [← List.range'_succ]
    rfl
  simp [allocBlock, range, free]

/-- **At most one block into an empty file**: it goes to the first block, if that is free. -/
theorem put_first_block {i : ℕ} {buf : List UInt8} (all : AllPlaced bm) (low : 2 ≤ i)
    (le : i ≤ inodeNum) (empty : (bm.inodeAt i).size = 0) (free : bm.usingBlocks dataStart = 0)
    (one : nblk buf.length = 1) (now : Clock) :
    ∃ ids bm', handle now (.put i buf) bm = .ok (.done, bm') ∧ Stored bm i buf ids bm' ∧
      bm'.blockId (bm'.inodeAt i) 0 = dataStart := by
  have bound : buf.length ≤ maxfile * blockSize := by
    rw [← nblk_le_iff, one]
    decide
  have none : nblk (bm.inodeAt i).size = 0 := (nblk_eq_zero _).mpr empty
  have mask : maskId i = i := by
    simp only [inodeNum] at le
    exact Nat.mod_eq_of_lt (by omega)
  have room : nblk buf.length - nblk (bm.inodeAt i).size ≤ bm.freeSet.card := by
    have mem : dataStart ∈ bm.freeSet := mem_freeSet.mpr ⟨⟨le_rfl, by decide⟩, free⟩
    have := Finset.card_pos.mpr ⟨_, mem⟩
    omega
  obtain ⟨ids, bm', out, stored⟩ := writeFile_ok
    (all.writable (by omega) le bound (fun root => absurd root (by omega))) now room
  refine ⟨ids, bm', by rw [handle, put, mask, out]; rfl, stored, ?_⟩
  obtain ⟨-, -, ino₁, bm₁, resized, inode⟩ := writeFile_inv out
  have alloc : bm.resizeBlocks (bm.inodeAt i) 0 1 = .ok ({ bm.inodeAt i with
      blocks := Function.update (bm.inodeAt i).blocks ⟨0, by decide⟩ dataStart },
      { bm with usingBlocks := Function.update bm.usingBlocks dataStart 1 }) := by
    simp [resizeBlocks, allocBlocks, allocBlockInInode, allocBlock_first free, bind, Except.bind,
      ndirect]
  rw [length_mod bound, one, none, alloc] at resized
  cases resized
  rw [inode, blockId, dif_pos (by decide)]
  simp only [Inode.truncate, Function.update_self]
  exact Nat.mod_eq_of_lt (by rw [dataStart_eq]; omega)

/-- A file of one byte, read off its block. -/
theorem fileData_one {i : ℕ} {c : UInt8} (size : (bm.inodeAt i).size = 1)
    (block : bm.blocks (bm.blockId (bm.inodeAt i) 0) = chunk [c] 0) :
    bm.fileData (bm.inodeAt i) = [c] := by
  refine fileData_of_chunks size fun j lt => ?_
  have zero : j = 0 := by
    rw [List.length_singleton, nblk_eq] at lt
    omega
  rw [zero, block]

/-- On a blank disk every block is free. -/
theorem Blank.unused {n : ℕ} (blank : Blank bm n) (b : ℕ) : bm.usingBlocks b = 0 := by
  by_contra marked
  obtain ⟨i, j, live, lt, -⟩ := (blank.exclusive.used b).mp marked
  rw [blank.empty i live] at lt
  simp [nblk_eq] at lt

/-- A flush of a file that was never made: it takes a block, and the root is as before. -/
theorem late_requests_harmless_unmade : ∃ bm₀ bm₁,
    boot ⟨0, 0, 0, 0, 0, fun _ => 0⟩ still = .ok bm₀ ∧ ¬ Live bm₀ 2 ∧
    handle still (.put 2 [104, 105]) bm₀ = .ok (.done, bm₁) ∧
    LiveFilesIntact bm₁ (Function.update (fun _ => []) 2 [104, 105]) := by
  have boots := boot_ok ⟨0, 0, 0, 0, 0, fun _ => 0⟩ still
  generalize (fresh.setInode 1 _) = bm₀ at boots
  have empty := boot_empty boots 2
  have dead : ¬ Live bm₀ 2 := fun live => absurd ((boot_live boots 2).mp live) (by decide)
  have one : nblk [(104 : UInt8), 105].length = 1 := by decide
  obtain ⟨ids, bm₁, out, -⟩ := put_first_block (boot_kept boots).all le_rfl (by decide) empty
    ((boot_blank boots).unused _) one still
  have unowned : Unowned bm₀ 2 := by
    intro b mem
    rw [fileIds, empty] at mem
    cases mem
  have run : LateRun Unowned ⟨0, 0, 0, 0, 0, fun _ => 0⟩
      (bm₁, Function.update (fun _ => []) 2 [104, 105]) :=
    (LateRun.start boots).next out ⟨by decide, Or.inr ⟨le_rfl, by decide, unowned⟩⟩
  exact ⟨bm₀, bm₁, boots, dead, out, late_requests_harmless run⟩

/-! ## A block that has a new owner -/

/-- **A dead inode keeps its size and its blocks.** -/
theorem removed_keeps_list (bm : BlockManager) (i : ℕ) {j : ℕ} (direct : j < ndirect) :
    ((bm.removed i).inodeAt i).size = (bm.inodeAt i).size ∧
      (bm.removed i).blockId ((bm.removed i).inodeAt i) j = bm.blockId (bm.inodeAt i) j := by
  constructor
  · rw [removed, inodeAt_setInode_self]
    exact Nat.mod_eq_of_lt (word32_lt _ _)
  · have keeps : ({ bm.inodeAt i with type := 0 } : Inode).blocks =
        ((bm.released i).inodeAt i).blocks := rfl
    exact setInode_blockId keeps (Or.inl direct)

/-- A put leaves the direct blocks of the other inodes, live or dead. -/
theorem stored_keeps_list {i j k : ℕ} {buf : List UInt8} {ids : List ℕ}
    (stored : Stored bm i buf ids bm') (le : k ≤ inodeNum) (ne : k ≠ i) (direct : j < ndirect) :
    bm'.blockId (bm'.inodeAt k) j = bm.blockId (bm.inodeAt k) j := by
  rw [stored.others k le ne]
  exact blockId_congr rfl (Or.inl direct) fun far => absurd direct far

/-- **A late put into the block of another file.**  File 2 is written and removed, file 3 gets
its block, and a client flushes file 2: `get` returns the flushed byte for file 3. -/
theorem late_put_overwrites : ∃ bm₀ bm₁ bm₂ bm₃ bm₄ bm₅ bm₆ latest,
    boot ⟨0, 0, 0, 0, 0, fun _ => 0⟩ still = .ok bm₀ ∧
    handle still (.create tFile) bm₀ = .ok (.created 2, bm₁) ∧
    handle still (.create tFile) bm₁ = .ok (.created 3, bm₂) ∧
    handle still (.put 2 [97]) bm₂ = .ok (.done, bm₃) ∧
    handle still (.remove 2) bm₃ = .ok (.done, bm₄) ∧
    handle still (.put 3 [98]) bm₄ = .ok (.done, bm₅) ∧
    handle still (.put 2 [99]) bm₅ = .ok (.done, bm₆) ∧
    LateRun (fun _ _ => True) ⟨0, 0, 0, 0, 0, fun _ => 0⟩ (bm₆, latest) ∧
    ¬ LiveFilesIntact bm₆ latest := by
  have kind : tFile % 2 ^ 16 ≠ 0 := by simp [tFile]
  have one : ∀ c : UInt8, nblk [c].length = 1 := by
    intro c
    rw [List.length_singleton, nblk_eq]
  have bound : ∀ c : UInt8, [c].length ≤ ndirect * blockSize := by
    intro c
    simp [ndirect, blockSize]
  have limit : ∀ c : UInt8, [c].length ≤ maxfile * blockSize :=
    fun c => (bound c).trans (Nat.mul_le_mul_right _ (Nat.le_add_right _ _))
  have boots := boot_ok ⟨0, 0, 0, 0, 0, fun _ => 0⟩ still
  generalize (fresh.setInode 1 _) = bm₀ at boots
  obtain ⟨bm₁, out₁, blank₁⟩ := (boot_blank boots).create still le_rfl (by simp [inodeNum]) kind
  obtain ⟨bm₂, out₂, blank₂⟩ := blank₁.create still (by omega) (by simp [inodeNum]) kind
  have all₁ := step_allPlaced (boot_kept boots).all ⟨still, .create tFile, _, trivial, out₁⟩
  have all₂ := step_allPlaced all₁ ⟨still, .create tFile, _, trivial, out₂⟩
  have live₂ : Live bm₂ 2 := (blank₂.live 2).mpr (by omega)
  have live₃ : Live bm₂ 3 := (blank₂.live 3).mpr (by omega)
  -- file 2 gets the first block, and keeps it on its list when it dies
  obtain ⟨ids₃, bm₃, out₃, stored₃, first₃⟩ := put_first_block all₂ le_rfl live₂.2.1
    (blank₂.empty 2 live₂) (blank₂.unused _) (one 97) still
  have all₃ := step_allPlaced all₂ ⟨still, .put 2 [97], _, ⟨limit 97, fun _ => bound 97⟩, out₃⟩
  have out₄ := remove_ok all₃.placed (stored₃.live_iff.mpr live₂) still
  have all₄ := all₃.removed 2
  obtain ⟨size₄, list₄⟩ := removed_keeps_list bm₃ 2 (j := 0) (by decide)
  rw [stored₃.size] at size₄
  rw [first₃] at list₄
  have same₄ : (bm₃.removed 2).inodeAt 3 = bm₂.inodeAt 3 := by
    rw [inodeAt_removed_of_ne (by decide), stored₃.others 3 live₃.2.1 (by decide)]
  have free₄ : (bm₃.removed 2).usingBlocks dataStart = 0 := by
    refine if_pos (mem_fileIds.mpr ⟨0, ?_, first₃⟩)
    rw [stored₃.size, one]
    exact Nat.one_pos
  -- file 3 gets it next
  obtain ⟨ids₅, bm₅, out₅, stored₅, first₅⟩ := put_first_block all₄ (i := 3) (by decide)
    live₃.2.1 (by rw [same₄, blank₂.empty 3 live₃]) free₄ (one 98) still
  have all₅ := step_allPlaced all₄ ⟨still, .put 3 [98], _, ⟨limit 98, fun _ => bound 98⟩, out₅⟩
  have live₅ : Live bm₅ 3 := stored₅.live_iff.mpr ((live_congr same₄).mpr live₃)
  have list₅ := stored_keeps_list stored₅ (k := 2) (j := 0) live₂.2.1 (by decide) (by decide)
  have size₅ : (bm₅.inodeAt 2).size = 1 := by
    rw [stored₅.others 2 live₂.2.1 (by decide), size₄]
    rfl
  -- the flush of file 2 needs no block and writes the one on its list
  obtain ⟨ids₆, bm₆, wrote₆, stored₆⟩ := writeFile_ok
    (all₅.writable (by decide) live₂.2.1 (limit 99) fun _ => bound 99) still
    (by rw [one, size₅]; exact Nat.zero_le _)
  have out₆ : handle still (.put 2 [99]) bm₅ = .ok (.done, bm₆) := by
    rw [handle, put, maskId_of_live live₂, wrote₆]
    rfl
  have all₆ := step_allPlaced all₅ ⟨still, .put 2 [99], _, ⟨limit 99, fun _ => bound 99⟩, out₆⟩
  have live₆ : Live bm₆ 3 :=
    (live_congr (stored₆.others 3 live₃.2.1 (by decide))).mpr live₅
  -- so the block of file 3 now holds what was put for file 2
  have written : bm₆.blocks dataStart = chunk [99] 0 := by
    have content := stored₆.content (fun j hj l hl _ => ?_) 0 (by rw [one]; decide)
    · rw [stored₆.kept 0 (by rw [one]; decide) (by rw [size₅]; decide), list₅, list₄] at content
      exact content
    · rw [one] at hj hl
      omega
  have read : bm₆.fileData (bm₆.inodeAt 3) = [99] := by
    refine fileData_one ?_ ?_
    · rw [stored₆.others 3 live₃.2.1 (by decide), stored₅.size]
      rfl
    · rw [stored_keeps_list stored₆ live₃.2.1 (by decide) (by decide), first₅, written]
  have run₀ : LateRun (fun _ _ => True) ⟨0, 0, 0, 0, 0, fun _ => 0⟩ (bm₀, fun _ => []) :=
    LateRun.start boots
  have run₃ := ((run₀.next out₁ trivial).next out₂ trivial).next out₃ ⟨bound 97, Or.inl live₂⟩
  have run₅ := (run₃.next out₄ (Or.inl (stored₃.live_iff.mpr live₂))).next out₅
    ⟨bound 98, Or.inl ((live_congr same₄).mpr live₃)⟩
  have run₆ := run₅.next out₆ ⟨bound 99, Or.inr ⟨le_rfl, live₂.2.1, trivial⟩⟩
  refine ⟨bm₀, bm₁, bm₂, bm₃, _, bm₅, bm₆, _, boots, out₁, out₂, out₃, out₄, out₅, out₆, run₆,
    fun intact => ?_⟩
  obtain ⟨attr, bm₇, got⟩ := intact.returned 3 live₆ still
  obtain ⟨bm₇', got', -⟩ := get_ok all₆.placed live₆ still
  rw [got', read] at got
  cases got

end ExtentServer

end Yfs.Storage
