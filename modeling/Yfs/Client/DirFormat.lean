import Yfs.Client.YfsClient

/-!
# The directory format

A directory is a sequence of records of `direntSize` bytes.  Decoding one record after
another gives back the entries that were written, whatever the memory held in which a
record was made.

Entries are compared as a map from names to inums (`bindings`), with the first entry for a name.
The order of the records matters to listings only.

* `decodeDirent_encodeDirent` — one record.
* `decodeDir_append`, `entriesOf_flatten` — sequences of records; `decodeDir_eq_entriesOf`: names
  within their records do not depend on the stack.
* `Directory`, `binding` — the map from names to inums that a directory stands for, and what
  adding and removing an entry does to it.
-/

namespace Yfs.Client

open Storage ByteBlock

/-! ## One record -/

@[simp] theorem length_encodeDirent (bytes : ℕ → UInt8) (ent : Dirent) :
    (encodeDirent bytes ent).length = direntSize := by
  simp [encodeDirent]

/-- An entry that fits into a record. -/
structure Dirent.Fits (ent : Dirent) : Prop where
  name : ent.name.length ≤ 64
  inum : ent.inum < 2 ^ 64

theorem getD_encodeDirent (bytes : ℕ → UInt8) (ent : Dirent) (short : ent.name.length < 2 ^ 16)
    {k : ℕ} (bound : k < 80) : (encodeDirent bytes ent).getD k 0 =
      if 8 ≤ k ∧ k < 8 + ent.name.length then ent.name.getD (k - 8) 0
      else if k < 8 then leByte ent.inum k
      else if 72 ≤ k ∧ k < 74 then leByte ent.name.length (k - 72)
      else bytes k := by
  have same : ent.name.length % 65536 = ent.name.length := by omega
  simp [encodeDirent, same, direntSize, bound, List.getD_eq_getElem?_getD]

/-- The `name_length` of a record is the length of the name, or bytes of the name itself. -/
theorem nameLength_encodeDirent (bytes : ℕ → UInt8) {ent : Dirent}
    (short : ent.name.length < 2 ^ 16) : nameLength (encodeDirent bytes ent) =
      (if 64 < ent.name.length then (ent.name.getD 64 0).toNat else ent.name.length % 256) +
        256 * (if 65 < ent.name.length then (ent.name.getD 65 0).toNat
          else ent.name.length / 256 % 256) := by
  rw [nameLength, getD_encodeDirent bytes ent short (by omega),
    getD_encodeDirent bytes ent short (by omega)]
  congr 1
  · by_cases long : 64 < ent.name.length
    · rw [if_pos (by omega), if_pos long]
    · rw [if_neg (by omega), if_neg (by omega), if_pos (by omega), if_neg long]
      simp [toNat_leByte]
  · congr 1
    by_cases long : 65 < ent.name.length
    · rw [if_pos (by omega), if_pos long]
    · rw [if_neg (by omega), if_neg (by omega), if_pos (by omega), if_neg long]
      simp [toNat_leByte]

/-- Eight bytes of a 64-bit number. -/
theorem sum_leByte {v : ℕ} (bound : v < 2 ^ 64) :
    ((List.range 8).map fun k => 256 ^ k * (leByte v k).toNat).sum = v := by
  simp only [List.range, List.range.loop, List.map, List.sum_cons, List.sum_nil, toNat_leByte]
  omega

/-- A record whose `name_length` is right is read back as it was written. -/
theorem decodeDirent_of_nameLength (beyond bytes : ℕ → UInt8) {ent : Dirent}
    (within : ent.name.length ≤ 72) (bound : ent.inum < 2 ^ 64)
    (length : nameLength (encodeDirent bytes ent) = ent.name.length) :
    decodeDirent beyond (encodeDirent bytes ent) = ent := by
  obtain ⟨name, inum⟩ := ent
  simp only at within bound length
  have short : name.length < 2 ^ 16 := by omega
  have nothing : name.length - (direntSize - 8) = 0 := by
    simp only [direntSize]
    omega
  unfold decodeDirent
  rw [length, nothing, List.range_zero, List.map_nil, List.append_nil]
  congr 1
  · refine List.ext_getElem? fun k => ?_
    by_cases inside : k < name.length
    · have here := getD_encodeDirent bytes ⟨name, inum⟩ short (k := 8 + k) (by omega)
      rw [if_pos (by simp only; omega)] at here
      have bound : 8 + k < (encodeDirent bytes ⟨name, inum⟩).length := by
        simp [direntSize]
        omega
      rw [List.getD_eq_getElem _ 0 bound] at here
      rw [List.getElem?_take_of_lt inside, List.getElem?_drop, List.getElem?_eq_getElem bound,
        List.getElem?_eq_getElem inside, here]
      simp [List.getD_eq_getElem?_getD, inside]
    · rw [List.getElem?_eq_none (by simp; omega), List.getElem?_eq_none (by omega)]
  · rw [← sum_leByte bound]
    refine congrArg List.sum (List.map_congr_left fun k mem => ?_)
    rw [List.mem_range] at mem
    rw [getD_encodeDirent bytes _ short (by omega), if_neg (by omega), if_pos mem, sum_leByte bound]

/-- **A record is read back as it was written.** -/
theorem decodeDirent_encodeDirent (beyond bytes : ℕ → UInt8) {ent : Dirent} (fits : ent.Fits) :
    decodeDirent beyond (encodeDirent bytes ent) = ent := by
  have short := fits.name
  refine decodeDirent_of_nameLength beyond bytes (by omega) fits.inum ?_
  rw [nameLength_encodeDirent bytes (by omega), if_neg (by omega), if_neg (by omega)]
  omega

/-- The inum in a record is a 64-bit number. -/
theorem decodeDirent_inum_lt (beyond : ℕ → UInt8) (record : List UInt8) :
    (decodeDirent beyond record).inum < 2 ^ 64 := by
  have byte : ∀ k, (record.getD k 0).toNat < 256 := fun k => (record.getD k 0).toNat_lt
  have b0 := byte 0
  have b1 := byte 1
  have b2 := byte 2
  have b3 := byte 3
  have b4 := byte 4
  have b5 := byte 5
  have b6 := byte 6
  have b7 := byte 7
  simp only [decodeDirent, List.range, List.range.loop, List.map, List.sum_cons, List.sum_nil]
  omega

/-! ## Sequences of records -/

/-- The entry of a record, with zeros on the stack. -/
def entryOf (record : List UInt8) : Dirent := decodeDirent (fun _ => 0) record

/-- **The entries of a directory**, with zeros on the stack. -/
def entriesOf (buf : List UInt8) : List Dirent := decodeDir (fun _ => 0) buf

/-- The name of an entry is as long as its record says. -/
theorem length_name_decodeDirent (beyond : ℕ → UInt8) {record : List UInt8}
    (whole : record.length = direntSize) :
    (decodeDirent beyond record).name.length = nameLength record := by
  simp only [decodeDirent, List.length_append, List.length_take, List.length_drop, List.length_map,
    List.length_range, whole, direntSize]
  omega

/-- The stack does not matter to a name that is within its record. -/
theorem decodeDirent_eq_entryOf (beyond : ℕ → UInt8) {record : List UInt8}
    (short : nameLength record ≤ 72) : decodeDirent beyond record = entryOf record := by
  have within : nameLength record - (direntSize - 8) = 0 := by
    simp only [direntSize]
    omega
  rw [entryOf, decodeDirent, decodeDirent, within, List.range_zero, List.map_nil, List.map_nil]

/-- The stack does not matter to names that are within their records. -/
theorem decodeDir_eq_entriesOf {buf : List UInt8}
    (names : ∀ ent ∈ entriesOf buf, ent.name.length ≤ 72) (stack : ℕ → UInt8) :
    decodeDir stack buf = entriesOf buf := by
  refine List.map_congr_left fun i mem => ?_
  have whole : ((buf.drop (direntSize * i)).take direntSize).length = direntSize := by
    have below := List.mem_range.mp mem
    have := Nat.mod_le buf.length (2 ^ 32)
    rw [List.length_take, List.length_drop]
    simp only [direntSize] at *
    omega
  have short := names _ (List.mem_map.mpr ⟨i, mem, rfl⟩)
  rw [length_name_decodeDirent _ whole] at short
  exact decodeDirent_eq_entryOf _ short

@[simp] theorem entriesOf_nil : entriesOf [] = [] := rfl

/-- The first record and the rest. -/
theorem entriesOf_cons {record rest : List UInt8} (whole : record.length = direntSize)
    (bound : (record ++ rest).length < 2 ^ 32) :
    entriesOf (record ++ rest) = entryOf record :: entriesOf rest := by
  rw [List.length_append, whole] at bound
  have count : (record ++ rest).length % 2 ^ 32 / direntSize = rest.length / direntSize + 1 := by
    rw [List.length_append, whole, Nat.mod_eq_of_lt bound]
    simp only [direntSize]
    omega
  have countRest : rest.length % 2 ^ 32 / direntSize = rest.length / direntSize := by
    rw [Nat.mod_eq_of_lt (by omega)]
  rw [entriesOf, entriesOf, decodeDir, decodeDir, count, countRest, List.range_succ_eq_map,
    List.map_cons, List.map_map]
  congr 1
  · rw [Nat.mul_zero, List.drop_zero, ← whole, List.take_left]
    rfl
  · refine List.map_congr_left fun i _ => ?_
    have skip : direntSize * (i + 1) = record.length + direntSize * i := by
      rw [whole, Nat.mul_succ, Nat.add_comm]
    simp only [Function.comp, Nat.succ_eq_add_one, skip, List.drop_length_add_append]

/-- A sequence of records. -/
theorem entriesOf_flatten {records : List (List UInt8)}
    (whole : ∀ record ∈ records, record.length = direntSize)
    (bound : records.flatten.length < 2 ^ 32) :
    entriesOf records.flatten = records.map entryOf := by
  induction records with
  | nil => rfl
  | cons record rest ih =>
      rw [List.flatten_cons] at bound ⊢
      rw [entriesOf_cons (whole record List.mem_cons_self) bound, List.map_cons,
        ih (fun r mem => whole r (List.mem_cons_of_mem _ mem))
          (by rw [List.length_append] at bound; omega)]

/-- **One more record.** -/
theorem decodeDir_append (stack : ℕ → UInt8) {buf record : List UInt8} {n : ℕ}
    (records : buf.length = direntSize * n) (whole : record.length = direntSize)
    (bound : (buf ++ record).length < 2 ^ 32) :
    decodeDir stack (buf ++ record) =
      decodeDir stack buf ++ [decodeDirent (fun k => stack (2 ^ 16 * n + k)) record] := by
  have total : (buf ++ record).length = direntSize * (n + 1) := by
    rw [List.length_append, records, whole, Nat.mul_succ]
  have pos : 0 < direntSize := by decide
  have count : (buf ++ record).length % 2 ^ 32 / direntSize = n + 1 := by
    rw [Nat.mod_eq_of_lt bound, total, Nat.mul_div_cancel_left _ pos]
  have countRest : buf.length % 2 ^ 32 / direntSize = n := by
    rw [List.length_append] at bound
    rw [Nat.mod_eq_of_lt (by omega), records, Nat.mul_div_cancel_left _ pos]
  rw [decodeDir, decodeDir, count, countRest, List.range_succ, List.map_append, List.map_singleton]
  congr 1
  · refine List.map_congr_left fun i mem => ?_
    have inside : direntSize * (i + 1) ≤ buf.length := by
      rw [records]
      exact Nat.mul_le_mul_left _ (List.mem_range.mp mem)
    rw [Nat.mul_succ] at inside
    rw [List.drop_append_of_le_length (by omega),
      List.take_append_of_le_length (by rw [List.length_drop]; omega)]
  · rw [← records, List.drop_left, ← whole, List.take_length]

theorem entriesOf_append {buf record : List UInt8} (records : direntSize ∣ buf.length)
    (whole : record.length = direntSize) (bound : (buf ++ record).length < 2 ^ 32) :
    entriesOf (buf ++ record) = entriesOf buf ++ [entryOf record] := by
  obtain ⟨n, length⟩ := records
  exact decodeDir_append _ length whole bound

/-! ## Directories as maps -/

/-- What a directory is for: a map from names to inums. -/
abbrev Directory := List UInt8 → Option ℕ

/-- The map of a list of entries. -/
def bindings (entries : List Dirent) : Directory := fun name =>
  (entries.find? fun ent => ent.name = name).map Dirent.inum

/-- The map of a directory's string. -/
def directoryOf (buf : List UInt8) : Directory := bindings (entriesOf buf)

/-- The list enumerates the map, each name once.

The list is a list of the map in some order.  It is not determined by the map, and the order is
what `readdir` shows. -/
structure Lists (entries : List Dirent) (map : Directory) : Prop where
  nodup : (entries.map Dirent.name).Nodup
  mem_iff : ∀ name inum, ⟨name, inum⟩ ∈ entries ↔ map name = some inum

/-- **A string that is a directory**: whole records, no name twice, names that fit.

The bound is that of the `unsigned int` in which `readdir_no_seria` has the size; no file of the
server comes near it. -/
structure IsDirectory (buf : List UInt8) : Prop where
  records : direntSize ∣ buf.length
  bound : buf.length < 2 ^ 32
  names : ∀ ent ∈ entriesOf buf, ent.name.length ≤ 64
  nodup : ((entriesOf buf).map Dirent.name).Nodup

/-- A name that is bound. -/
theorem mem_iff_bindings {entries : List Dirent} (nodup : (entries.map Dirent.name).Nodup)
    (name : List UInt8) (inum : ℕ) :
    ⟨name, inum⟩ ∈ entries ↔ bindings entries name = some inum := by
  induction entries with
  | nil => simp [bindings]
  | cons ent rest ih =>
      obtain ⟨n, i⟩ := ent
      rw [List.map_cons, List.nodup_cons] at nodup
      obtain ⟨new, nodup⟩ := nodup
      by_cases eq : n = name
      · subst eq
        have absent : (⟨n, inum⟩ : Dirent) ∉ rest := fun mem =>
          new (List.mem_map.mpr ⟨_, mem, rfl⟩)
        simp [bindings, absent, eq_comm]
      · rw [List.mem_cons, ih nodup]
        simp [bindings, eq, Ne.symm eq]

theorem lists_bindings {entries : List Dirent} (nodup : (entries.map Dirent.name).Nodup) :
    Lists entries (bindings entries) :=
  ⟨nodup, mem_iff_bindings nodup⟩

theorem bindings_eq_none {entries : List Dirent} {name : List UInt8} :
    bindings entries name = none ↔ name ∉ entries.map Dirent.name := by
  simp [bindings]

/-- An entry is added. -/
theorem bindings_append {entries : List Dirent} {name : List UInt8} {inum : ℕ}
    (new : bindings entries name = none) :
    bindings (entries ++ [⟨name, inum⟩]) = Function.update (bindings entries) name (some inum) := by
  funext other
  by_cases eq : other = name
  · subst eq
    have absent : entries.find? (fun ent => ent.name = other) = none := by
      simpa [bindings] using new
    simp [bindings, List.find?_append, absent]
  · rw [Function.update_of_ne eq]
    simp [bindings, List.find?_append, Ne.symm eq]

/-- An entry is removed. -/
theorem bindings_eraseP {entries : List Dirent} (nodup : (entries.map Dirent.name).Nodup)
    (name : List UInt8) :
    bindings (entries.eraseP fun ent => ent.name = name) =
      Function.update (bindings entries) name none := by
  induction entries with
  | nil =>
      funext other
      by_cases eq : other = name <;> simp [bindings, eq]
  | cons ent rest ih =>
      rw [List.map_cons, List.nodup_cons] at nodup
      obtain ⟨new, nodup⟩ := nodup
      funext other
      by_cases here : ent.name = name
      · rw [List.eraseP_cons_of_pos (by simpa using here)]
        by_cases eq : other = name
        · subst eq
          rw [Function.update_self, bindings_eq_none, ← here]
          exact new
        · rw [Function.update_of_ne eq]
          have ne : ent.name ≠ other := fun h => eq (h.symm.trans here)
          simp [bindings, ne]
      · rw [List.eraseP_cons_of_neg (by simpa using here)]
        have step := congrFun (ih nodup) other
        by_cases eq : other = name
        · subst eq
          rw [Function.update_self] at step ⊢
          simpa [bindings, here] using step
        · rw [Function.update_of_ne eq] at step ⊢
          by_cases first : ent.name = other
          · simp [bindings, first]
          · simpa [bindings, first] using step

/-! ## Changes to a directory's string -/

/-- The string is made of records of these entries. -/
def Encodes (buf : List UInt8) (entries : List Dirent) : Prop :=
  ∃ records : List (List UInt8), buf = records.flatten ∧
    List.Forall₂ (fun record ent => ∃ bytes, record = encodeDirent bytes ent) records entries

theorem encodes_nil : Encodes [] [] := ⟨[], rfl, .nil⟩

theorem Encodes.cons {buf : List UInt8} {entries : List Dirent} (encodes : Encodes buf entries)
    (bytes : ℕ → UInt8) (ent : Dirent) :
    Encodes (encodeDirent bytes ent ++ buf) (ent :: entries) := by
  obtain ⟨records, rfl, all⟩ := encodes
  exact ⟨encodeDirent bytes ent :: records, rfl, .cons ⟨bytes, rfl⟩ all⟩

theorem Encodes.length {buf : List UInt8} {entries : List Dirent} (encodes : Encodes buf entries) :
    buf.length = direntSize * entries.length := by
  obtain ⟨records, rfl, all⟩ := encodes
  induction all with
  | nil => rfl
  | cons encoded _ ih =>
      obtain ⟨bytes, rfl⟩ := encoded
      rw [List.flatten_cons, List.length_append, length_encodeDirent, ih, List.length_cons,
        Nat.mul_succ, Nat.add_comm]

/-- The entries are read back. -/
theorem Encodes.decode {buf : List UInt8} {entries : List Dirent} (encodes : Encodes buf entries)
    (reads : ∀ ent ∈ entries, ∀ bytes, entryOf (encodeDirent bytes ent) = ent)
    (bound : buf.length < 2 ^ 32) : direntSize ∣ buf.length ∧ entriesOf buf = entries := by
  refine ⟨⟨_, encodes.length⟩, ?_⟩
  obtain ⟨records, rfl, all⟩ := encodes
  have shape : (∀ record ∈ records, record.length = direntSize) ∧
      records.map entryOf = entries := by
    clear bound
    induction all with
    | nil => simp
    | cons encoded _ ih =>
        obtain ⟨bytes, rfl⟩ := encoded
        obtain ⟨whole, decoded⟩ := ih fun ent mem => reads ent (List.mem_cons_of_mem _ mem)
        refine ⟨?_, ?_⟩
        · intro record mem
          rcases List.mem_cons.mp mem with rfl | mem
          · exact length_encodeDirent bytes _
          · exact whole record mem
        · rw [List.map_cons, decoded, reads _ List.mem_cons_self bytes]
  obtain ⟨whole, decoded⟩ := shape
  exact (entriesOf_flatten whole bound).trans decoded

namespace IsDirectory

variable {buf : List UInt8}

theorem nil : IsDirectory [] := ⟨by simp, by simp, by simp, by simp⟩

/-- The stack does not matter. -/
theorem decode (isDirectory : IsDirectory buf) (stack : ℕ → UInt8) :
    decodeDir stack buf = entriesOf buf :=
  decodeDir_eq_entriesOf (fun ent mem => Nat.le_trans (isDirectory.names ent mem) (by decide)) stack

theorem lists (isDirectory : IsDirectory buf) : Lists (entriesOf buf) (directoryOf buf) :=
  lists_bindings isDirectory.nodup

theorem fits (isDirectory : IsDirectory buf) : ∀ ent ∈ entriesOf buf, ent.Fits := by
  intro ent mem
  refine ⟨isDirectory.names ent mem, ?_⟩
  obtain ⟨i, -, rfl⟩ := List.mem_map.mp mem
  exact decodeDirent_inum_lt _ _

/-- The entries with one more record. -/
theorem entriesOf_append (isDirectory : IsDirectory buf) {bytes : ℕ → UInt8} {ent : Dirent}
    (fits : ent.Fits) (bound : (buf ++ encodeDirent bytes ent).length < 2 ^ 32) :
    entriesOf (buf ++ encodeDirent bytes ent) = entriesOf buf ++ [ent] := by
  rw [Client.entriesOf_append isDirectory.records (length_encodeDirent _ _) bound, entryOf,
    decodeDirent_encodeDirent _ bytes fits]

/-- **An entry is added.** -/
theorem append (isDirectory : IsDirectory buf) {bytes : ℕ → UInt8} {name : List UInt8} {inum : ℕ}
    (short : name.length ≤ 64) (small : inum < 2 ^ 64) (new : directoryOf buf name = none)
    (bound : (buf ++ encodeDirent bytes ⟨name, inum⟩).length < 2 ^ 32) :
    IsDirectory (buf ++ encodeDirent bytes ⟨name, inum⟩) ∧
      directoryOf (buf ++ encodeDirent bytes ⟨name, inum⟩) =
        Function.update (directoryOf buf) name (some inum) := by
  have decoded := isDirectory.entriesOf_append ⟨short, small⟩ bound
  refine ⟨⟨?_, bound, ?_, ?_⟩, ?_⟩
  · rw [List.length_append, length_encodeDirent]
    exact Nat.dvd_add isDirectory.records (Nat.dvd_refl _)
  · rw [decoded]
    intro ent mem
    rcases List.mem_append.mp mem with mem | mem
    · exact isDirectory.names ent mem
    · rw [List.mem_singleton.mp mem]
      exact short
  · rw [decoded, List.map_append, List.map_singleton, List.nodup_append]
    refine ⟨isDirectory.nodup, by simp, ?_⟩
    rintro n mem _ last rfl
    rw [List.mem_singleton] at last
    rw [last] at mem
    exact bindings_eq_none.mp new mem
  · rw [directoryOf, decoded, bindings_append new]
    rfl

/-- **An entry is removed** and the others are written again. -/
theorem erase (isDirectory : IsDirectory buf) {rest name : List UInt8}
    (encodes : Encodes rest ((entriesOf buf).eraseP fun ent => ent.name = name))
    (bound : rest.length < 2 ^ 32) :
    IsDirectory rest ∧ directoryOf rest = Function.update (directoryOf buf) name none := by
  have sub : ((entriesOf buf).eraseP fun ent => ent.name = name).Sublist (entriesOf buf) :=
    List.eraseP_sublist
  obtain ⟨records, decoded⟩ := encodes.decode (fun ent mem bytes =>
    decodeDirent_encodeDirent _ bytes (isDirectory.fits ent (sub.subset mem))) bound
  refine ⟨⟨records, bound, ?_, ?_⟩, ?_⟩
  · rw [decoded]
    exact fun ent mem => isDirectory.names ent (sub.subset mem)
  · rw [decoded]
    exact (sub.map Dirent.name).nodup isDirectory.nodup
  · rw [directoryOf, decoded]
    exact bindings_eraseP isDirectory.nodup name

end IsDirectory

end Yfs.Client
