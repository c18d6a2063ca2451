import Yfs.Client.Calls
import Yfs.Client.DirFormat

/-!
# Directory records, written and read back

`create`, `mkdir` and `symlink` append a record to the string of a directory, `rmdir` writes
all the records that are left.  The loop of `readdir_no_seria` is to give the entries back,
whatever the memory held in which the records were made.

It counts the records in an `unsigned int`, and this is all that can go wrong: a string of
`2^32` bytes or more is read only as far as its length modulo `2^32` goes.

Records are made in memory that is not cleared, so a list has many strings (`Encodes`), and a
round trip has to hold for each of them.

* `Encodes.decodeDir_eq_iff` — the string of a list is read back exactly if its length fits.
* `encodes_of_encodeDir` — what the loop of `rmdir` writes is the string of a list.
* `directory_round_trip_iff` — reading back a list, a list with one more record, and a list
  that `rmdir` has decoded, cut and written again.
-/

namespace Yfs.Client

open Storage ByteBlock

theorem length_decodeDir (stack : ℕ → UInt8) (buf : List UInt8) :
    (decodeDir stack buf).length = buf.length % 2 ^ 32 / direntSize := by
  simp [decodeDir]

/-- A string that is too long loses at least as many entries as fit into `2^32` bytes. -/
theorem records_lost {n : ℕ} (long : 2 ^ 32 ≤ direntSize * n) :
    direntSize * n % 2 ^ 32 / direntSize + 53687091 < n := by
  have wraps : direntSize * n % 2 ^ 32 ≤ direntSize * n - 2 ^ 32 := by
    rw [Nat.mod_eq_sub_mod long]
    exact Nat.mod_le _ _
  simp only [direntSize] at *
  omega

/-- One more record. -/
theorem Encodes.append {buf : List UInt8} {entries : List Dirent} (encodes : Encodes buf entries)
    (bytes : ℕ → UInt8) (ent : Dirent) :
    Encodes (buf ++ encodeDirent bytes ent) (entries ++ [ent]) := by
  obtain ⟨records, rfl, all⟩ := encodes
  refine ⟨records ++ [encodeDirent bytes ent], by simp, ?_⟩
  exact List.rel_append all (.cons ⟨bytes, rfl⟩ .nil)

/-- **The string of a list is read back** exactly if its length is an `unsigned int`. -/
theorem Encodes.decodeDir_eq_iff {buf : List UInt8} {entries : List Dirent}
    (encodes : Encodes buf entries) (fits : ∀ ent ∈ entries, ent.Fits) (stack : ℕ → UInt8) :
    decodeDir stack buf = entries ↔ direntSize * entries.length < 2 ^ 32 := by
  constructor
  · intro read
    by_contra long
    have lost := records_lost (not_lt.mp long)
    have length := length_decodeDir stack buf
    rw [read, encodes.length] at length
    omega
  · intro bound
    rw [← encodes.length] at bound
    have back := (encodes.decode (fun ent mem bytes =>
      decodeDirent_encodeDirent _ bytes (fits ent mem)) bound).2
    rw [decodeDir_eq_entriesOf _ stack, back]
    intro ent mem
    rw [back] at mem
    exact (fits ent mem).name.trans (by decide)

/-- The loop of `rmdir` writes the string of its list. -/
theorem encodes_of_encodeDir {answers : ℕ → Answer} {i : ℕ} {entries : List Dirent}
    {buf : List UInt8} (wrote : ((Routine.encodeDir entries).calls answers i).result = some buf) :
    Encodes buf entries := by
  obtain ⟨made, encodes, calls⟩ := Routine.calls_encodeDir answers i entries
  rw [calls] at wrote
  obtain rfl : made = buf := Option.some.inj wrote
  exact encodes

/-- What `rmdir` writes for a list that it read wrong is read as another list. -/
theorem erase_lost {stack stack' : ℕ → UInt8} {buf rest : List UInt8} {entries : List Dirent}
    {p : Dirent → Bool} (encodes : Encodes buf entries)
    (again : Encodes rest ((decodeDir stack buf).eraseP p))
    (read : decodeDir stack' rest = entries.eraseP p) : direntSize * entries.length < 2 ^ 32 := by
  by_contra long
  have lost := records_lost (not_lt.mp long)
  have kept : entries.length - 1 ≤ (entries.eraseP p).length := by
    rw [List.length_eraseP]
    split <;> omega
  have fewer : (decodeDir stack' rest).length ≤ (decodeDir stack buf).length := by
    rw [length_decodeDir, again.length]
    calc direntSize * ((decodeDir stack buf).eraseP p).length % 2 ^ 32 / direntSize
        ≤ direntSize * ((decodeDir stack buf).eraseP p).length / direntSize :=
          Nat.div_le_div_right (Nat.mod_le _ _)
      _ = ((decodeDir stack buf).eraseP p).length := Nat.mul_div_cancel_left _ (by decide)
      _ ≤ (decodeDir stack buf).length := List.eraseP_sublist.length_le
  rw [read, length_decodeDir, encodes.length] at fewer
  omega

/-- **Records are read back**: as they were written, with one more record behind them, and when
`rmdir` has decoded them, taken one entry out and written the others again.  All three hold
exactly while the string that is read has fewer than `2^32` bytes.

The size is an `unsigned int` in the loop of `readdir_no_seria`; from `2 ^ 32` on it wraps around,
and entries at the end are not seen. -/
theorem directory_round_trip_iff {entries : List Dirent} {buf : List UInt8}
    (fits : ∀ ent ∈ entries, ent.Fits) (encodes : Encodes buf entries) (stack : ℕ → UInt8) :
    (decodeDir stack buf = entries ↔ direntSize * entries.length < 2 ^ 32) ∧
      (∀ ent bytes, Dirent.Fits ent →
        (decodeDir stack (buf ++ encodeDirent bytes ent) = entries ++ [ent] ↔
          direntSize * (entries.length + 1) < 2 ^ 32)) ∧
      ∀ name answers i rest,
        ((Routine.encodeDir ((decodeDir stack buf).eraseP fun ent => ent.name = name)).calls
          answers i).result = some rest →
        ∀ stack', decodeDir stack' rest = entries.eraseP (fun ent => ent.name = name) ↔
          direntSize * entries.length < 2 ^ 32 := by
  have whole := encodes.decodeDir_eq_iff fits stack
  refine ⟨whole, ?_, ?_⟩
  · intro ent bytes fit
    have all : ∀ e ∈ entries ++ [ent], e.Fits := by
      intro e mem
      rcases List.mem_append.mp mem with mem | mem
      · exact fits e mem
      · rw [List.mem_singleton.mp mem]
        exact fit
    have more := (encodes.append bytes ent).decodeDir_eq_iff all stack
    rwa [List.length_append, List.length_singleton] at more
  · intro name answers i rest wrote stack'
    have again := encodes_of_encodeDir wrote
    refine ⟨fun read => erase_lost encodes again read, fun bound => ?_⟩
    rw [whole.mpr bound] at again
    have sub : (entries.eraseP fun ent => ent.name = name).Sublist entries := List.eraseP_sublist
    refine (again.decodeDir_eq_iff (fun ent mem => fits ent (sub.subset mem)) stack').mpr ?_
    exact (Nat.mul_le_mul_left _ sub.length_le).trans_lt bound

/-- A name of 64 bytes, which has no terminator, and one of no bytes at all. -/
theorem directory_round_trip_full_name :
    ∃ entries buf, (∀ ent ∈ entries, Dirent.Fits ent) ∧ Encodes buf entries ∧
      decodeDir (fun _ => 170) buf = [⟨List.replicate 64 97, 2 ^ 64 - 1⟩, ⟨[], 2⟩] := by
  have fits : ∀ ent ∈ [⟨List.replicate 64 97, 2 ^ 64 - 1⟩, (⟨[], 2⟩ : Dirent)], ent.Fits := by
    intro ent mem
    rcases List.mem_cons.mp mem with rfl | mem
    · exact ⟨by simp, by simp⟩
    · rw [List.mem_singleton.mp mem]
      exact ⟨by simp, by simp⟩
  have encodes : Encodes _ [⟨List.replicate 64 97, 2 ^ 64 - 1⟩, (⟨[], 2⟩ : Dirent)] :=
    (encodes_nil.cons (fun _ => 255) ⟨[], 2⟩).cons (fun _ => 0) ⟨List.replicate 64 97, 2 ^ 64 - 1⟩
  exact ⟨_, _, fits, encodes,
    (directory_round_trip_iff fits encodes fun _ => 170).1.mpr (by decide)⟩

/-- A directory with that many entries looks empty. -/
theorem long_directory_looks_empty :
    ∃ buf, (∀ ent ∈ List.replicate 53687092 (⟨[97], 2⟩ : Dirent), ent.Fits) ∧
      Encodes buf (List.replicate 53687092 ⟨[97], 2⟩) ∧
      decodeDir (fun _ => 0) buf = [] ∧
      decodeDir (fun _ => 0) buf ≠ List.replicate 53687092 ⟨[97], 2⟩ := by
  have encodes : ∀ n, Encodes (List.replicate n (encodeDirent (fun _ => 0) ⟨[97], 2⟩)).flatten
      (List.replicate n ⟨[97], 2⟩) := by
    intro n
    induction n with
    | zero => exact encodes_nil
    | succ n ih => exact ih.cons (fun _ => 0) ⟨[97], 2⟩
  have empty : decodeDir (fun _ => 0)
      (List.replicate 53687092 (encodeDirent (fun _ => 0) ⟨[97], 2⟩)).flatten = [] := by
    rw [← List.length_eq_zero_iff, length_decodeDir, (encodes _).length, List.length_replicate]
    rfl
  refine ⟨_, ?_, encodes _, empty, ?_⟩
  · intro ent mem
    rw [(List.mem_replicate.mp mem).2]
    exact ⟨by simp, by simp⟩
  · rw [empty]
    intro same
    have lengths := congrArg List.length same
    rw [List.length_replicate] at lengths
    exact absurd lengths (by simp)

end Yfs.Client
