import Mathlib.Algebra.Group.Nat.Defs
import Mathlib.Data.Nat.Bits
import Mathlib.Data.List.GetD

/-!
# Fixed-size byte blocks and little-endian words

A block is a `Vector UInt8 n`: the length is carried by the type, so a block of
the wrong size cannot be built.  This file fixes the three views a storage layer
takes of such a block and how they fit together:

Nothing here is about disks.  The laws come in two kinds, as for any memory: what was written is
read back, and what was not written stays.

* `byteAt` — one byte, total in its index (`0` past the end);
* `word16`/`word32` — little-endian words at a byte offset, written by
  `storeWord32`, with the read-back law `word32_storeWord32_self` and the frame law
  `word32_storeWord32_of_disjoint`;
* `chunk` — the `j`-th block of a byte string, zero-padded at the end, with the
  reassembly law `take_flatMap_chunk`: the blocks of a string, concatenated and
  cut to the string's length, are the string.

`resize` is the byte-string operation behind the padding: cut or zero-fill to an
exact length.
-/

namespace Yfs.ByteBlock

variable {n : ℕ}

/-! ## Bytes of a block -/

/-- The byte at position `k`, `0` past the end. -/
def byteAt (b : Vector UInt8 n) (k : ℕ) : UInt8 :=
  (b[k]?).getD 0

/-- The block whose byte at every position below `n` is given by `f`. -/
def ofBytes (f : ℕ → UInt8) : Vector UInt8 n :=
  Vector.ofFn fun k => f k

@[simp] theorem byteAt_ofBytes (f : ℕ → UInt8) {k : ℕ} (h : k < n) :
    byteAt (ofBytes f : Vector UInt8 n) k = f k := by
  simp [byteAt, ofBytes, h]

/-- Blocks are equal when they agree on every byte in range. -/
theorem ext_byteAt {b c : Vector UInt8 n}
    (h : ∀ k < n, byteAt b k = byteAt c k) : b = c := by
  refine Vector.ext fun k hk => ?_
  simpa [byteAt, hk] using h k hk

/-- The byte list of a block read off position by position. -/
theorem toList_eq_map_byteAt (b : Vector UInt8 n) :
    b.toList = (List.range n).map (byteAt b) := by
  apply List.ext_getElem
  · simp
  · intro k h _
    have hk : k < n := by simpa using h
    simp [byteAt, hk]

/-! ## Little-endian words -/

/-- Byte `k` of the little-endian encoding of `v`. -/
def leByte (v k : ℕ) : UInt8 :=
  UInt8.ofNat (v / 256 ^ k)

theorem toNat_leByte (v k : ℕ) : (leByte v k).toNat = v / 256 ^ k % 256 := by
  simp [leByte]

/-- The 16-bit little-endian word at byte offset `off`. -/
def word16 (b : Vector UInt8 n) (off : ℕ) : ℕ :=
  (byteAt b off).toNat + 256 * (byteAt b (off + 1)).toNat

/-- The 32-bit little-endian word at byte offset `off`. -/
def word32 (b : Vector UInt8 n) (off : ℕ) : ℕ :=
  (byteAt b off).toNat + 256 * (byteAt b (off + 1)).toNat +
    65536 * (byteAt b (off + 2)).toNat + 16777216 * (byteAt b (off + 3)).toNat

theorem word16_lt (b : Vector UInt8 n) (off : ℕ) : word16 b off < 2 ^ 16 := by
  have h0 := (byteAt b off).toNat_lt
  have h1 := (byteAt b (off + 1)).toNat_lt
  unfold word16
  omega

theorem word32_lt (b : Vector UInt8 n) (off : ℕ) : word32 b off < 2 ^ 32 := by
  have h0 := (byteAt b off).toNat_lt
  have h1 := (byteAt b (off + 1)).toNat_lt
  have h2 := (byteAt b (off + 2)).toNat_lt
  have h3 := (byteAt b (off + 3)).toNat_lt
  unfold word32
  omega

/-- A word whose bytes are the encoding of `v` reads back as `v mod 2^16`. -/
theorem word16_eq_of_bytes {b : Vector UInt8 n} {off v : ℕ}
    (h : ∀ k < 2, byteAt b (off + k) = leByte v k) : word16 b off = v % 2 ^ 16 := by
  have h0 : byteAt b off = leByte v 0 := h 0 (by omega)
  rw [word16, h0, h 1 (by omega), toNat_leByte, toNat_leByte]
  omega

/-- A word whose bytes are the encoding of `v` reads back as `v mod 2^32`. -/
theorem word32_eq_of_bytes {b : Vector UInt8 n} {off v : ℕ}
    (h : ∀ k < 4, byteAt b (off + k) = leByte v k) : word32 b off = v % 2 ^ 32 := by
  have h0 : byteAt b off = leByte v 0 := h 0 (by omega)
  rw [word32, h0, h 1 (by omega), h 2 (by omega), h 3 (by omega)]
  simp only [toNat_leByte]
  omega

/-- Words are equal when their four bytes are. -/
theorem word32_congr {m : ℕ} {b : Vector UInt8 n} {c : Vector UInt8 m} {off : ℕ}
    (h : ∀ k < 4, byteAt b (off + k) = byteAt c (off + k)) :
    word32 b off = word32 c off := by
  have h0 : byteAt b off = byteAt c off := h 0 (by omega)
  rw [word32, word32, h0, h 1 (by omega), h 2 (by omega), h 3 (by omega)]

/-- Overwrite the four bytes at `off` with the little-endian encoding of `v`. -/
def storeWord32 (b : Vector UInt8 n) (off v : ℕ) : Vector UInt8 n :=
  ofBytes fun k => if off ≤ k ∧ k < off + 4 then leByte v (k - off) else byteAt b k

theorem word32_storeWord32_self (b : Vector UInt8 n) {off : ℕ} (v : ℕ)
    (h : off + 4 ≤ n) : word32 (storeWord32 b off v) off = v % 2 ^ 32 := by
  apply word32_eq_of_bytes
  intro k hk
  rw [storeWord32, byteAt_ofBytes _ (by omega), if_pos (by omega)]
  congr 1
  omega

theorem word32_storeWord32_of_disjoint (b : Vector UInt8 n) {off off' : ℕ} (v : ℕ)
    (bound : off' + 4 ≤ n) (disjoint : off + 4 ≤ off' ∨ off' + 4 ≤ off) :
    word32 (storeWord32 b off v) off' = word32 b off' := by
  apply word32_congr
  intro k hk
  rw [storeWord32, byteAt_ofBytes _ (by omega), if_neg (by omega)]

/-! ## Byte strings cut into blocks -/

/-- The first byte of block `j` of a concatenation of blocks. -/
theorem getElem?_flatMap_toList {α : Type*} (f : α → Vector UInt8 n) (pos : 0 < n)
    (l : List α) (j : ℕ) :
    (l.flatMap fun a => (f a).toList)[n * j]? = l[j]?.map fun a => byteAt (f a) 0 := by
  induction l generalizing j with
  | nil => simp
  | cons a l ih =>
      cases j with
      | zero =>
          rw [List.flatMap_cons, List.getElem?_append_left (by simpa using pos)]
          simp [byteAt, pos]
      | succ j =>
          have past : (f a).toList.length ≤ n * (j + 1) := by
            rw [Vector.length_toList]
            exact Nat.le_mul_of_pos_right n (Nat.succ_pos j)
          rw [List.flatMap_cons, List.getElem?_append_right past]
          have shift : n * (j + 1) - (f a).toList.length = n * j := by
            rw [Vector.length_toList, Nat.mul_succ, Nat.add_sub_cancel]
          rw [shift, ih j, List.getElem?_cons_succ]

/-- Cut or zero-fill a byte string to exactly `len` bytes. -/
def resize (len : ℕ) (s : List UInt8) : List UInt8 :=
  s.take len ++ List.replicate (len - s.length) 0

@[simp] theorem length_resize (len : ℕ) (s : List UInt8) : (resize len s).length = len := by
  simp [resize]
  omega

/-- Position by position, `resize` reads the string and then zeros. -/
theorem getD_resize {len k : ℕ} (s : List UInt8) (h : k < len) :
    (resize len s).getD k 0 = s.getD k 0 := by
  by_cases hk : k < s.length
  · rw [resize, List.getD_append _ _ _ _ (by simp; omega)]
    simp [h]
  · rw [resize, List.getD_append_right _ _ _ _ (by simp; omega)]
    rw [List.getD_eq_default s 0 (by omega)]
    simp

/-- The `j`-th block of a byte string, zero-padded past the string's end. -/
def chunk (s : List UInt8) (j : ℕ) : Vector UInt8 n :=
  ofBytes fun k => s.getD (n * j + k) 0

/-- Concatenating the first `m` chunks reads the string's first `n * m` bytes. -/
theorem flatMap_chunk (s : List UInt8) (m : ℕ) :
    (List.range m).flatMap (fun j => (chunk s j : Vector UInt8 n).toList) =
      (List.range (n * m)).map fun k => s.getD k 0 := by
  induction m with
  | zero => simp
  | succ m ih =>
      rw [List.range_succ, List.flatMap_append, ih, Nat.mul_succ, List.range_add,
        List.map_append, List.map_map]
      congr 1
      rw [List.flatMap_singleton, toList_eq_map_byteAt]
      apply List.map_congr_left
      intro k hk
      rw [chunk, byteAt_ofBytes _ (List.mem_range.mp hk)]
      rfl

/-- **Reassembly**: the blocks of a string, cut to its length, are the string. -/
theorem take_flatMap_chunk (s : List UInt8) {m : ℕ} (enough : s.length ≤ n * m) :
    ((List.range m).flatMap (fun j => (chunk s j : Vector UInt8 n).toList)).take s.length
      = s := by
  rw [flatMap_chunk, ← List.map_take, List.take_range, Nat.min_eq_left enough]
  apply List.ext_getElem
  · simp
  · intro k h _
    have hk : k < s.length := by simpa using h
    simp [hk]

end Yfs.ByteBlock
