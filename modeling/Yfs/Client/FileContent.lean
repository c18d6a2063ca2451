import Mathlib.Data.List.Pairwise
import Yfs.Client.YfsClient

/-!
# The content of a file

What `read`, `write` and `setattr` of `yfs_client` do to the string of a file, and what they
should do: `overwritten` fills the string with zeros up to the offset and replaces bytes
there.

These are facts about byte strings, apart from the caches and the locks: the code cuts, fills
and concatenates with the methods of `std::string`, and the results here say what that comes to
in terms of positions.

* `contentWritten_eq` — below `2 ^ 32` the two branches of `write` are `overwritten`.
* `overwritten_comm` — writes to ranges that are apart may change places.
* `foldl_overwritten_perm` — so a sequence of such writes has one outcome in every order.
-/

namespace Yfs.Client

open Storage ByteBlock

/-- What `read` returns of a string, when it returns. -/
def bytesRead (content : List UInt8) (size off : ℕ) : List UInt8 :=
  if content.length ≤ off % 2 ^ 32 then [] else (content.drop off).take size

/-- What `write` stores in place of a string, when it stores. -/
def contentWritten (content : List UInt8) (off : ℕ) (data : List UInt8) : List UInt8 :=
  if off % 2 ^ 32 ≤ content.length then YfsClient.replace content off data.length data
  else YfsClient.replace (resize (data.length + off) content) off data.length data

/-! ## What the operations are for -/

/-- The string with zeros up to `off`, if it is shorter. -/
def padded (content : List UInt8) (off : ℕ) : List UInt8 :=
  content ++ List.replicate (off - content.length) 0

/-- **The bytes from `off` on are replaced by `data`**, all others are kept. -/
def overwritten (content : List UInt8) (off : ℕ) (data : List UInt8) : List UInt8 :=
  (padded content off).take off ++ data ++ (padded content off).drop (off + data.length)

/-- A write: its offset and its bytes. -/
abbrev Write := ℕ × List UInt8

/-- Position `k` is in the range of the write. -/
def Write.Covers (w : Write) (k : ℕ) : Prop := w.1 ≤ k ∧ k < w.1 + w.2.length

/-- The ranges of two writes are disjoint. -/
def Write.Apart (v w : Write) : Prop := ∀ k, ¬ (v.Covers k ∧ w.Covers k)

instance : Std.Symm Write.Apart where
  symm _ _ apart k both := apart k ⟨both.2, both.1⟩

/-! ## Strings byte by byte -/

/-- Strings of one length are equal when their bytes are. -/
theorem eq_of_getD {s t : List UInt8} (length : s.length = t.length)
    (bytes : ∀ k, s.getD k 0 = t.getD k 0) : s = t := by
  refine List.ext_getElem length fun k hs ht => ?_
  have here := bytes k
  rwa [List.getD_eq_getElem _ _ hs, List.getD_eq_getElem _ _ ht] at here

theorem getD_padded (content : List UInt8) (off k : ℕ) :
    (padded content off).getD k 0 = content.getD k 0 := by
  by_cases inside : k < content.length
  · exact List.getD_append _ _ _ _ inside
  · rw [padded, List.getD_append_right _ _ _ _ (by omega),
      List.getD_eq_default content 0 (by omega)]
    simp

theorem length_overwritten (content : List UInt8) (off : ℕ) (data : List UInt8) :
    (overwritten content off data).length = max content.length (off + data.length) := by
  simp only [overwritten, padded, List.length_append, List.length_take, List.length_drop,
    List.length_replicate]
  omega

/-- **`overwritten` byte by byte.** -/
theorem getD_overwritten (content : List UInt8) (off : ℕ) (data : List UInt8) (k : ℕ) :
    (overwritten content off data).getD k 0 =
      if off ≤ k ∧ k < off + data.length then data.getD (k - off) 0 else content.getD k 0 := by
  have first : ((padded content off).take off).length = off := by
    simp only [padded, List.length_take, List.length_append, List.length_replicate]
    omega
  rw [overwritten]
  by_cases before : k < off
  · rw [if_neg (by omega), List.append_assoc, List.getD_append _ _ _ _ (by omega),
      List.getD_eq_getElem?_getD, List.getElem?_take_of_lt before, ← List.getD_eq_getElem?_getD,
      getD_padded]
  · by_cases inside : k < off + data.length
    · rw [if_pos ⟨by omega, inside⟩, List.getD_append _ _ _ _ (by simp [first]; omega),
        List.getD_append_right _ _ _ _ (by omega), first]
    · rw [if_neg (by omega), List.getD_append_right _ _ _ _ (by simp [first]; omega),
        List.length_append, first, List.getD_eq_getElem?_getD, List.getElem?_drop,
        ← List.getD_eq_getElem?_getD, getD_padded]
      congr 1
      omega

/-! ## The operations do what they are for -/

/-- `std::string::replace` within the string. -/
theorem replace_eq_overwritten {content : List UInt8} {off : ℕ} (data : List UInt8)
    (inside : off ≤ content.length) :
    YfsClient.replace content off data.length data = overwritten content off data := by
  rw [YfsClient.replace, overwritten, padded, Nat.sub_eq_zero_of_le inside, List.replicate_zero,
    List.append_nil]

/-- **`write` at an offset below `2 ^ 32`.** -/
theorem contentWritten_eq (content : List UInt8) {off : ℕ} (data : List UInt8)
    (bound : off < 2 ^ 32) : contentWritten content off data = overwritten content off data := by
  rw [contentWritten, Nat.mod_eq_of_lt bound]
  split
  next inside => exact replace_eq_overwritten data inside
  next past =>
      -- the hole is zeros already, and nothing lies behind the new bytes
      rw [replace_eq_overwritten data (by rw [length_resize]; omega)]
      refine eq_of_getD ?_ fun k => ?_
      · rw [length_overwritten, length_overwritten, length_resize]
        omega
      · rw [getD_overwritten, getD_overwritten]
        by_cases covered : off ≤ k ∧ k < off + data.length
        · rw [if_pos covered, if_pos covered]
        · rw [if_neg covered, if_neg covered]
          by_cases inside : k < data.length + off
          · exact getD_resize content inside
          · rw [List.getD_eq_default _ _ (by rw [length_resize]; omega),
              List.getD_eq_default _ _ (by omega)]

/-- **`read` at an offset below `2 ^ 32`.** -/
theorem bytesRead_eq (content : List UInt8) (size : ℕ) {off : ℕ} (bound : off < 2 ^ 32) :
    bytesRead content size off = (content.drop off).take size := by
  rw [bytesRead, Nat.mod_eq_of_lt bound]
  split
  next past => rw [List.drop_eq_nil_of_le past, List.take_nil]
  next => rfl

/-! ## Writes that are apart -/

/-- **Writes to ranges that are apart may change places.** -/
theorem overwritten_comm {v w : Write} (apart : v.Apart w) (content : List UInt8) :
    overwritten (overwritten content v.1 v.2) w.1 w.2 =
      overwritten (overwritten content w.1 w.2) v.1 v.2 := by
  refine eq_of_getD ?_ fun k => ?_
  · simp only [length_overwritten]
    omega
  · simp only [getD_overwritten]
    have atMost := apart k
    simp only [Write.Covers] at atMost
    by_cases inV : v.1 ≤ k ∧ k < v.1 + v.2.length
    · rw [if_pos inV, if_pos inV, if_neg fun inW => atMost ⟨inV, inW⟩]
    · rw [if_neg inV, if_neg inV]

/-- **A sequence of writes to disjoint ranges has one outcome in every order.** -/
theorem foldl_overwritten_perm {writes writes' : List Write} (perm : writes.Perm writes')
    (apart : writes.Pairwise Write.Apart) (content : List UInt8) :
    writes.foldl (fun c w => overwritten c w.1 w.2) content =
      writes'.foldl (fun c w => overwritten c w.1 w.2) content := by
  apply perm.foldl_eq'
  intro v memV w memW c
  by_cases same : v = w
  · rw [same]
  · exact overwritten_comm (apart.forall memV memW same) c

end Yfs.Client
