import Mathlib.Algebra.Group.Nat.Defs
import Mathlib.Data.List.Basic
import Mathlib.Data.List.Infix

/-!
# Values as bytes

A codec writes values as bytes and reads one value off the front of a byte string, so that
values can stand one behind the other.

`Codec.wholes` is what a reader makes of a stream that was cut anywhere: the values that are
there as a whole.  For a codec that tells whether its bytes are complete (`Framed`),
`wholes_take` says that these are the first values of the stream, and that there is at least
one of them if the first one fits before the cut.

`Codec.word n` is the little-endian number of `n` bytes.

A codec is its two functions and the law that reading gives back what was written, whatever comes
behind it.  That is enough for sequences, since the rest of a sequence is such a thing.  It says
nothing of bytes that no value was written as: these may be read as any value, or not at all.
-/

namespace Yfs

universe u

/-- **A codec**: valid values are read back, whatever follows them. -/
structure Codec (α : Type u) where
  Valid : α → Prop
  encode : α → List UInt8
  decode : List UInt8 → Option (α × List UInt8)
  decode_encode : ∀ a rest, Valid a → decode (encode a ++ rest) = some (a, rest)

namespace Codec

variable {α : Type u} (c : Codec α)

/-- Reading a value from its own bytes leaves nothing. -/
theorem decode_encode_self {a : α} (valid : c.Valid a) : c.decode (c.encode a) = some (a, []) := by
  have back := c.decode_encode a [] valid
  rwa [List.append_nil] at back

/-- The bytes of a value are known to be incomplete until they are all there.

So a reader that is given a prefix of a stream never takes the beginning of one value for another
value. -/
structure Framed : Prop where
  empty : c.decode [] = none
  incomplete : ∀ a bytes, c.Valid a → bytes <+: c.encode a → bytes ≠ c.encode a →
    c.decode bytes = none

/-- The decoder looks no further than it reads. -/
def Extends : Prop := ∀ bytes more a rest, c.decode bytes = some (a, rest) →
  c.decode (bytes ++ more) = some (a, rest ++ more)

/-- **The values that are there as a whole**, from the front on; `fuel` bounds their number. -/
def wholes : ℕ → List UInt8 → List α
  | 0, _ => []
  | fuel + 1, bytes =>
      match c.decode bytes with
      | some (a, rest) => a :: wholes fuel rest
      | none => []

variable {c}

/-- A decoder that looks no further than it reads knows what is incomplete. -/
theorem Extends.framed (ext : c.Extends) (empty : c.decode [] = none) : c.Framed where
  empty := empty
  incomplete := by
    rintro a bytes valid ⟨more, whole⟩ cut
    by_contra read
    obtain ⟨⟨b, rest⟩, found⟩ := Option.ne_none_iff_exists'.mp read
    -- with the missing bytes behind it, the same value is read and the rest is longer
    have longer := ext bytes more b rest found
    rw [whole, c.decode_encode_self valid] at longer
    obtain ⟨-, none⟩ := Prod.mk.inj (Option.some.inj longer)
    obtain ⟨-, rfl⟩ := List.append_eq_nil_iff.mp none.symm
    rw [List.append_nil] at whole
    exact cut whole

theorem wholes_cons {fuel : ℕ} {a : α} {rest : List UInt8} (valid : c.Valid a) :
    c.wholes (fuel + 1) (c.encode a ++ rest) = a :: c.wholes fuel rest := by
  rw [wholes, c.decode_encode a rest valid]

theorem wholes_of_incomplete (framed : c.Framed) {fuel : ℕ} {a : α} {bytes : List UInt8}
    (valid : c.Valid a) (part : bytes <+: c.encode a) (cut : bytes ≠ c.encode a) :
    c.wholes fuel bytes = [] := by
  cases fuel with
  | zero => rfl
  | succ fuel => rw [wholes, framed.incomplete a bytes valid part cut]

/-- Of nothing there is nothing to read. -/
theorem wholes_nil (framed : c.Framed) (fuel : ℕ) : c.wholes fuel [] = [] := by
  cases fuel with
  | zero => rfl
  | succ fuel => rw [wholes, framed.empty]

theorem Framed.length_pos (framed : c.Framed) {a : α} (valid : c.Valid a) :
    0 < (c.encode a).length := by
  refine List.length_pos_of_ne_nil fun none => ?_
  have back := c.decode_encode_self valid
  rw [none, framed.empty] at back
  cases back

/-- **A stream that is cut** gives its first values, among them the very first if it fits. -/
theorem wholes_take (framed : c.Framed) {values : List α} (valid : ∀ a ∈ values, c.Valid a)
    (size : ℕ) {fuel : ℕ} (enough : ((values.flatMap c.encode).take size).length ≤ fuel) :
    ∃ j, c.wholes fuel ((values.flatMap c.encode).take size) = values.take j ∧
      ∀ a rest, values = a :: rest → (c.encode a).length ≤ size → 0 < j := by
  induction values generalizing size fuel with
  | nil =>
      refine ⟨0, ?_, nofun⟩
      rw [List.flatMap_nil, List.take_nil, wholes_nil framed, List.take_nil]
  | cons a values ih =>
      have valid_a := valid a List.mem_cons_self
      rw [List.flatMap_cons] at enough ⊢
      by_cases fits : (c.encode a).length ≤ size
      · -- the first value is there, and the others are cut at what is left of the size
        have cut : (c.encode a ++ values.flatMap c.encode).take size =
            c.encode a ++ (values.flatMap c.encode).take (size - (c.encode a).length) := by
          rw [List.take_append, List.take_of_length_le fits]
        have pos := framed.length_pos valid_a
        rw [cut] at enough ⊢
        rw [List.length_append] at enough
        obtain ⟨fuel, rfl⟩ : ∃ f, fuel = f + 1 := ⟨fuel - 1, by omega⟩
        have left :
            ((values.flatMap c.encode).take (size - (c.encode a).length)).length ≤ fuel := by
          omega
        obtain ⟨j, others, -⟩ := ih (fun b mem => valid b (List.mem_cons_of_mem _ mem)) _ left
        refine ⟨j + 1, ?_, fun _ _ _ _ => Nat.succ_pos j⟩
        rw [wholes_cons valid_a, others, List.take_succ_cons]
      · refine ⟨0, ?_, ?_⟩
        · rw [List.take_append_of_le_length (by omega)]
          refine wholes_of_incomplete framed valid_a (List.take_prefix ..) fun whole => ?_
          have length := congrArg List.length whole
          rw [List.length_take] at length
          omega
        · rintro b rest eq room
          obtain ⟨rfl, -⟩ := List.cons.inj eq
          exact absurd room fits

/-! ## Numbers -/

/-- The last `n` bytes of a number, the lowest first. -/
def leBytes : ℕ → ℕ → List UInt8
  | 0, _ => []
  | n + 1, v => .ofNat v :: leBytes n (v / 256)

/-- The number of little-endian bytes. -/
def leValue : List UInt8 → ℕ
  | [] => 0
  | byte :: bytes => byte.toNat + 256 * leValue bytes

@[simp] theorem length_leBytes (n v : ℕ) : (leBytes n v).length = n := by
  induction n generalizing v with
  | zero => rfl
  | succ n ih => rw [leBytes, List.length_cons, ih]

theorem leValue_leBytes {n v : ℕ} (small : v < 256 ^ n) : leValue (leBytes n v) = v := by
  induction n generalizing v with
  | zero =>
      rw [Nat.pow_zero] at small
      exact (Nat.lt_one_iff.mp small).symm
  | succ n ih =>
      have high : v / 256 < 256 ^ n := by
        rw [Nat.pow_succ] at small
        exact Nat.div_lt_of_lt_mul (by rwa [Nat.mul_comm])
      rw [leBytes, leValue, ih high, UInt8.toNat_ofNat']
      exact Nat.mod_add_div v 256

/-- **Numbers of `n` bytes.** -/
def word (n : ℕ) : Codec ℕ where
  Valid := fun v => v < 256 ^ n
  encode := leBytes n
  decode := fun bytes =>
    if bytes.length < n then none else some (leValue (bytes.take n), bytes.drop n)
  decode_encode := by
    intro v rest small
    have front : (leBytes n v ++ rest).take n = leBytes n v := by
      rw [List.take_left' (length_leBytes n v)]
    rw [if_neg (by simp), front, leValue_leBytes small, List.drop_left' (length_leBytes n v)]

theorem word_extends (n : ℕ) : (word n).Extends := by
  intro bytes more v rest read
  change (if bytes.length < n then none else _) = _ at read
  change (if (bytes ++ more).length < n then none else _) = _
  split at read
  next => cases read
  next enough =>
    obtain ⟨rfl, rfl⟩ := Prod.mk.inj (Option.some.inj read)
    rw [List.length_append, if_neg (by omega), List.take_append_of_le_length (by omega),
      List.drop_append_of_le_length (by omega)]

end Codec

end Yfs
