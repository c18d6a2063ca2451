import Yfs.Storage.AllInodes

/-!
# Modification times at the extent server

What the requests do to `mtime` and `ctime` of the inodes.  `write_file` sets them, reads leave
them as they are, and so does `alloc_inode`, which sets the access time only: a new file has the
times of the file that had its inum before.

The clock is a function from the number of the call of `time` within a request to a value, and
nothing is assumed of it; it need not even go forward.

* `times_of_file` — what `get` and `getattr` send.
* `times_put` — what `put` sets.
* `times_of_apart` — every other inode keeps its times.
-/

namespace Yfs.Storage

open ByteBlock

/-- `mtime` and `ctime` of attributes. -/
def Attr.times (attr : Attr) : ℕ × ℕ := (attr.mtime, attr.ctime)

namespace BlockManager

variable {bm bm' : BlockManager} {ino : Inode} {i k : ℕ}

/-- `mtime` and `ctime` of an inode. -/
def times (bm : BlockManager) (i : ℕ) : ℕ × ℕ := ((bm.inodeAt i).mtime, (bm.inodeAt i).ctime)

/-- Storing an inode with its times. -/
theorem times_setInode (mtime : ino.mtime = (bm.inodeAt i).mtime)
    (ctime : ino.ctime = (bm.inodeAt i).ctime) (k : ℕ) :
    (bm.setInode i ino).times k = bm.times k := by
  by_cases same : k = i
  · subst same
    rw [times, times, inodeAt_setInode_self, Inode.truncate, mtime, ctime]
    exact Prod.ext (Nat.mod_eq_of_lt (word32_lt _ _)) (Nat.mod_eq_of_lt (word32_lt _ _))
  · rw [times, times, inodeAt_setInode_of_ne same]

/-- A read changes at most the access time. -/
theorem times_of_read {t : ℕ}
    (read : bm' = bm ∨ bm' = bm.setInode i { bm.inodeAt i with atime := t }) (k : ℕ) :
    bm'.times k = bm.times k := by
  rcases read with rfl | rfl
  · rfl
  · refine times_setInode ?_ ?_ k
    · rfl
    · rfl

end BlockManager

namespace ExtentServer

open BlockManager

variable {bm bm' : BlockManager} {now : Clock} {req : Request} {reply : Reply} {id k : ℕ}

/-- **The times in a reply are those of the inode.** -/
theorem times_of_file (asks : req = .get id ∨ req = .getattr id)
    (out : handle now req bm = .ok (reply, bm')) :
    ∃ f, reply = .file f ∧ f.attr.times = bm.times (maskId id) := by
  rcases asks with rfl | rfl
  · rw [handle, get] at out
    cases read : bm.readFile (maskId id) now with
    | error e =>
        rw [read] at out
        cases out
    | ok r =>
        obtain ⟨⟨cbuf, size⟩, bm₁⟩ := r
        obtain ⟨pos, le, -, -, same⟩ := readFile_inv read
        rw [read] at out
        simp only [bind, Except.bind, attr_ok pos le] at out
        cases out
        exact ⟨_, rfl, times_of_read same (maskId id)⟩
  · rw [handle, getattr] at out
    cases read : bm.readFile (maskId id) now with
    | error e =>
        rw [read] at out
        cases attr : bm.getattr (maskId id) with
        | error e =>
            rw [attr] at out
            cases out
        | ok a =>
            rw [attr] at out
            cases out
    | ok r =>
        obtain ⟨⟨cbuf, size⟩, bm₁⟩ := r
        obtain ⟨pos, le, -, -, -⟩ := readFile_inv read
        rw [read] at out
        simp only [bind, Except.bind, attr_ok pos le] at out
        cases out
        exact ⟨_, rfl, rfl⟩

/-- **`put` sets the times**, to what the clock then shows. -/
theorem times_put {buf : List UInt8} (out : handle now (.put id buf) bm = .ok (reply, bm')) :
    bm'.times (maskId id) = (now 1 % 2 ^ 32, now 2 % 2 ^ 32) := by
  rw [handle, put] at out
  cases wrote : bm.writeFile (maskId id) buf now with
  | error e =>
      rw [wrote] at out
      cases out
  | ok bm₁ =>
      rw [wrote] at out
      cases out
      obtain ⟨-, -, ino₁, bm₁, -, inode⟩ := writeFile_inv wrote
      rw [times, inode]
      rfl

/-- A request that does not change or free inode `k`. -/
def Apart (k : ℕ) : Request → Prop
  | .put id _ | .remove id => maskId id ≠ k
  | _ => True

/-- **Every other inode keeps its times**, a new one as well. -/
theorem times_of_apart (all : AllPlaced bm) (bounded : Bounded req) (apart : Apart k req)
    (le : k ≤ inodeNum) (out : handle now req bm = .ok (reply, bm')) :
    bm'.times k = bm.times k := by
  cases req with
  | create type =>
      obtain ⟨new, -, -, -, -, rfl⟩ := create_inv out
      refine times_setInode ?_ ?_ k
      · rfl
      · rfl
  | put id buf =>
      obtain ⟨-, -, -, ids, stored⟩ := put_inv all bounded.1 bounded.2 out
      rw [times, times, stored.others k le (Ne.symm apart)]
  | get id => exact times_of_read (get_inv out).2 k
  | getattr id => exact times_of_read (getattr_inv out).2 k
  | remove id =>
      obtain ⟨-, -, rfl⟩ := remove_inv all out
      rw [times, times, inodeAt_removed_of_ne (Ne.symm apart)]

end ExtentServer

end Yfs.Storage
