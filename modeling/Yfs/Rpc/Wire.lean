import Yfs.Lib.Codec

/-!
# Stubs and handlers on the wire

A stub marshals its arguments one behind the other; the handler that the server registered
under the number of the call unmarshals them with the types of its own parameters.  Nothing
but this number connects the two argument lists.

The primitive operators of librpc are a parameter.  The operators for `attr` and `full_file`
(`extent_protocol.h`), the stubs, the registrations and the templates `rpcs::reg` and
`rpcc::call_m` are the code.

The question is whether the two ends agree on the types, for every procedure number and all
arguments.  It is a question about lists of types: the stub sends its arguments in their order, and
the handler reads as many as its method has parameters, in the order of these.  So the agreement is
the equality of two lists for each number, and `stat` is the one for which they differ.

What is assumed of librpc is in `Librpc`: a primitive value that was written is read back, whatever
stands behind it, and numbers have a size that does not depend on their value.

* `marshall`, `unmarshall` — values and their types on the wire.
* `Proc.stub`, `Server.procs` — what the clients send, what the servers registered.
* `fn`, `callM` — a call at the server, and the rest of it at the client.
* `wire_agreement_iff` — stub and handler agree on every call but `stat`.
-/

namespace Yfs.Rpc

/-! ## Values -/

/-- `extent_protocol::attr`. -/
structure Attr where
  type : UInt32
  atime : UInt32
  mtime : UInt32
  ctime : UInt32
  size : UInt32
  deriving DecidableEq, Repr

/-- `extent_protocol::full_file`. -/
structure FullFile where
  attr : Attr
  buf : List UInt8
  deriving DecidableEq, Repr

/-- The types of arguments and results: `int`, `unsigned int` (which is `uint32_t`),
`unsigned long long` (which is `lockid_t` and `extentid_t`), `std::string` and two structs. -/
inductive WireType where
  | int | uint | ull | string | attr | fullFile
  deriving DecidableEq, Repr

/-- A value of one of these types. -/
inductive Value where
  | int (v : Int32)
  | uint (v : UInt32)
  | ull (v : UInt64)
  | string (v : List UInt8)
  | attr (v : Attr)
  | fullFile (v : FullFile)
  deriving DecidableEq

def Value.type : Value → WireType
  | .int _ => .int
  | .uint _ => .uint
  | .ull _ => .ull
  | .string _ => .string
  | .attr _ => .attr
  | .fullFile _ => .fullFile

/-- **The primitive operators of librpc**, each with the bytes that `<<` writes and what `>>`
reads.  Numbers have a fixed size.

Nothing else is asked of them.  In particular a reader need not fail on bytes that nobody wrote,
apart from reading a number from too few bytes. -/
structure Librpc where
  int : Codec Int32
  uint : Codec UInt32
  ull : Codec UInt64
  string : Codec (List UInt8)
  int_valid : ∀ v, int.Valid v
  uint_valid : ∀ v, uint.Valid v
  ull_valid : ∀ v, ull.Valid v
  string_valid : ∀ v, string.Valid v
  uintSize : ℕ
  ullSize : ℕ
  uintSize_pos : 0 < uintSize
  uint_length : ∀ v, (uint.encode v).length = uintSize
  ull_length : ∀ v, (ull.encode v).length = ullSize
  ull_reads : ∀ bytes v rest, ull.decode bytes = some (v, rest) →
    bytes.length = ullSize + rest.length

section Marshalling

variable (lib : Librpc)

/-- `operator<<` for `attr`. -/
def marshallAttr (a : Attr) : List UInt8 :=
  lib.uint.encode a.type ++ (lib.uint.encode a.atime ++ (lib.uint.encode a.mtime ++
    (lib.uint.encode a.ctime ++ lib.uint.encode a.size)))

/-- `operator>>` for `attr`. -/
def unmarshallAttr (u : List UInt8) : Option (Attr × List UInt8) := do
  let (type, u) ← lib.uint.decode u
  let (atime, u) ← lib.uint.decode u
  let (mtime, u) ← lib.uint.decode u
  let (ctime, u) ← lib.uint.decode u
  let (size, u) ← lib.uint.decode u
  some (⟨type, atime, mtime, ctime, size⟩, u)

/-- `operator<<` for `full_file`, which lists the fields of `attr` once more. -/
def marshallFile (f : FullFile) : List UInt8 :=
  lib.uint.encode f.attr.type ++ (lib.uint.encode f.attr.atime ++ (lib.uint.encode f.attr.mtime ++
    (lib.uint.encode f.attr.ctime ++ (lib.uint.encode f.attr.size ++ lib.string.encode f.buf))))

/-- `operator>>` for `full_file`. -/
def unmarshallFile (u : List UInt8) : Option (FullFile × List UInt8) := do
  let (type, u) ← lib.uint.decode u
  let (atime, u) ← lib.uint.decode u
  let (mtime, u) ← lib.uint.decode u
  let (ctime, u) ← lib.uint.decode u
  let (size, u) ← lib.uint.decode u
  let (buf, u) ← lib.string.decode u
  some (⟨⟨type, atime, mtime, ctime, size⟩, buf⟩, u)

/-- `m << v`. -/
def marshall : Value → List UInt8
  | .int v => lib.int.encode v
  | .uint v => lib.uint.encode v
  | .ull v => lib.ull.encode v
  | .string v => lib.string.encode v
  | .attr v => marshallAttr lib v
  | .fullFile v => marshallFile lib v

/-- `u >> v` for a variable of that type; `none` when `u` is no longer `ok`. -/
def unmarshall (type : WireType) (u : List UInt8) : Option (Value × List UInt8) :=
  match type with
  | .int => (lib.int.decode u).map fun r => (.int r.1, r.2)
  | .uint => (lib.uint.decode u).map fun r => (.uint r.1, r.2)
  | .ull => (lib.ull.decode u).map fun r => (.ull r.1, r.2)
  | .string => (lib.string.decode u).map fun r => (.string r.1, r.2)
  | .attr => (unmarshallAttr lib u).map fun r => (.attr r.1, r.2)
  | .fullFile => (unmarshallFile lib u).map fun r => (.fullFile r.1, r.2)

/-- The arguments of a call, `m << a1; m << a2; …`. -/
def marshallArgs (args : List Value) : List UInt8 := args.flatMap (marshall lib)

/-- `args >> a1; args >> a2; …`. -/
def unmarshallArgs : List WireType → List UInt8 → Option (List Value × List UInt8)
  | [], u => some ([], u)
  | type :: types, u => do
      let (v, u) ← unmarshall lib type u
      let (vs, u) ← unmarshallArgs types u
      some (v :: vs, u)

/-! ## What is marshalled is read back -/

theorem unmarshallAttr_marshallAttr (a : Attr) (rest : List UInt8) :
    unmarshallAttr lib (marshallAttr lib a ++ rest) = some (a, rest) := by
  have uint := fun v rest => lib.uint.decode_encode v rest (lib.uint_valid v)
  simp only [unmarshallAttr, marshallAttr, List.append_assoc, Option.bind_eq_bind, uint,
    Option.bind_some]

theorem unmarshallFile_marshallFile (f : FullFile) (rest : List UInt8) :
    unmarshallFile lib (marshallFile lib f ++ rest) = some (f, rest) := by
  have uint := fun v rest => lib.uint.decode_encode v rest (lib.uint_valid v)
  have string := fun v rest => lib.string.decode_encode v rest (lib.string_valid v)
  simp only [unmarshallFile, marshallFile, List.append_assoc, Option.bind_eq_bind, uint, string,
    Option.bind_some]

/-- **A value is read back with its own type.** -/
theorem unmarshall_marshall (v : Value) (rest : List UInt8) :
    unmarshall lib v.type (marshall lib v ++ rest) = some (v, rest) := by
  cases v with
  | int v =>
      rw [Value.type, marshall, unmarshall, lib.int.decode_encode v rest (lib.int_valid v)]
      rfl
  | uint v =>
      rw [Value.type, marshall, unmarshall, lib.uint.decode_encode v rest (lib.uint_valid v)]
      rfl
  | ull v =>
      rw [Value.type, marshall, unmarshall, lib.ull.decode_encode v rest (lib.ull_valid v)]
      rfl
  | string v =>
      rw [Value.type, marshall, unmarshall, lib.string.decode_encode v rest (lib.string_valid v)]
      rfl
  | attr v =>
      rw [Value.type, marshall, unmarshall, unmarshallAttr_marshallAttr]
      rfl
  | fullFile v =>
      rw [Value.type, marshall, unmarshall, unmarshallFile_marshallFile]
      rfl

/-- **Arguments are read back with their own types**, and nothing is left. -/
theorem unmarshallArgs_marshallArgs (args : List Value) :
    unmarshallArgs lib (args.map Value.type) (marshallArgs lib args) = some (args, []) := by
  induction args with
  | nil => rfl
  | cons v vs ih =>
      rw [List.map_cons, marshallArgs, List.flatMap_cons, unmarshallArgs, unmarshall_marshall,
        Option.bind_eq_bind, Option.bind_some]
      rw [marshallArgs] at ih
      dsimp only
      rw [ih]
      rfl

end Marshalling

/-! ## Stubs and registrations -/

/-- What a stub passes to `rpcc::call`: the number, the types of the arguments and of `r`. -/
structure Stub where
  proc : ℕ
  args : List WireType
  ret : WireType

/-- What `rpcs::reg` takes from the method it is given. -/
structure Handler where
  args : List WireType
  ret : WireType

/-- The calls that the clients make. -/
inductive Proc where
  | create | put | get | getattr | remove
  | acquire | release | stat
  | revoke | retry
  deriving DecidableEq, Repr

/-- `extent_protocol::rpc_numbers`, `lock_protocol::rpc_numbers`, `rlock_protocol::rpc_numbers`. -/
def Proc.number : Proc → ℕ
  | .put => 0x6001
  | .get => 0x6002
  | .getattr => 0x6003
  | .remove => 0x6004
  | .create => 0x6005
  | .acquire => 0x7001
  | .release => 0x7002
  | .stat => 0x7003
  | .revoke => 0x8001
  | .retry => 0x8002

/-- **The stubs**: `extent_client`, `lock_client_cache` (and `stat`, which it has from
`lock_client` and which sends `cl->id()` first), `lock_server_cache`. -/
def Proc.stub (rpc : Proc) : Stub where
  proc := rpc.number
  args := match rpc with
    | .create => [.uint]
    | .put => [.ull, .string]
    | .get | .getattr | .remove => [.ull]
    | .acquire | .release => [.ull, .string]
    | .stat => [.uint, .ull]
    | .revoke | .retry => [.ull]
  ret := match rpc with
    | .create => .ull
    | .get | .getattr => .fullFile
    | .put | .remove | .acquire | .release | .stat | .revoke | .retry => .int

/-- The processes that register handlers. -/
inductive Server where
  | extentServer | lockServer | lockClient

/-- **The registrations** of `extent_smain.cc`, `lock_smain.cc` and of the constructor of
`lock_client_cache`, with the parameters of the methods as the classes declare them. -/
def Server.procs : Server → List (ℕ × Handler)
  | .extentServer =>
      [(Proc.get.number, ⟨[.ull], .fullFile⟩),
       (Proc.getattr.number, ⟨[.ull], .fullFile⟩),
       (Proc.put.number, ⟨[.ull, .string], .int⟩),
       (Proc.remove.number, ⟨[.ull], .int⟩),
       (Proc.create.number, ⟨[.uint], .ull⟩)]
  | .lockServer =>
      [(Proc.stat.number, ⟨[.ull], .int⟩),
       (Proc.release.number, ⟨[.ull, .string], .int⟩),
       (Proc.acquire.number, ⟨[.ull, .string], .int⟩)]
  | .lockClient =>
      [(Proc.revoke.number, ⟨[.ull], .int⟩),
       (Proc.retry.number, ⟨[.ull], .int⟩)]

/-- The server that a call is sent to. -/
def Proc.server : Proc → Server
  | .create | .put | .get | .getattr | .remove => .extentServer
  | .acquire | .release | .stat => .lockServer
  | .revoke | .retry => .lockClient

/-- The handler that runs for a call. -/
def Proc.handler (rpc : Proc) : Option Handler := rpc.server.procs.lookup rpc.stub.proc

/-! ## Calls -/

/-- `rpc_const::unmarshal_args_failure`. -/
def unmarshalArgsFailure : Int32 := -2

/-- `fn` of the handler that `rpcs::reg` makes: the status, and the marshalled result. -/
def fn (lib : Librpc) (handler : Handler) (meth : List Value → Int32 × Value) (args : List UInt8) :
    Int32 × List UInt8 :=
  match unmarshallArgs lib handler.args args with
  | some (values, []) => ((meth values).1, marshall lib (meth values).2)
  | _ => (unmarshalArgsFailure, [])

/-- `rpcc::call_m` once the reply is there: the status, and the result if one was read; `none`
is the failure of `VERIFY`. -/
def callM (lib : Librpc) (ret : WireType) (reply : Int32 × List UInt8) :
    Option (Int32 × Option Value) :=
  if reply.1 < 0 then some (reply.1, none)
  else match unmarshall lib ret reply.2 with
    | some (r, []) => some (reply.1, some r)
    | _ => none

/-- **Stub and handler agree on these arguments**: the handler's types read what was sent and
leave nothing, and the stub's type reads every result that the handler may have. -/
def Agrees (lib : Librpc) (rpc : Proc) (args : List Value) : Prop :=
  ∃ handler, rpc.handler = some handler ∧
    unmarshallArgs lib handler.args (marshallArgs lib args) = some (args, []) ∧
    ∀ result : Value, result.type = handler.ret →
      unmarshall lib rpc.stub.ret (marshall lib result) = some (result, [])

variable {lib : Librpc} {rpc : Proc} {args : List Value}

/-- All handlers but that of `stat` have the types of their stub. -/
theorem exists_handler (other : rpc ≠ .stat) : ∃ handler, rpc.handler = some handler ∧
    handler.args = rpc.stub.args ∧ handler.ret = rpc.stub.ret := by
  cases rpc with
  | stat => exact absurd rfl other
  | _ => exact ⟨_, rfl, rfl, rfl⟩

/-- **The handler of `stat` leaves bytes** of what the stub sends: it reads one number of two. -/
theorem stat_args_left (lib : Librpc) {args values : List Value}
    (sent : args.map Value.type = Proc.stat.stub.args) :
    unmarshallArgs lib [.ull] (marshallArgs lib args) ≠ some (values, []) := by
  obtain ⟨id, lid, rfl⟩ : ∃ id lid, args = [.uint id, .ull lid] := by
    match args, sent with
    | [.uint id, .ull lid], _ => exact ⟨id, lid, rfl⟩
  intro read
  obtain ⟨⟨v, u⟩, first, read⟩ := Option.bind_eq_some_iff.mp read
  obtain ⟨-, rfl⟩ := Prod.mk.inj (Option.some.inj read)
  obtain ⟨⟨n, u⟩, decoded, eq⟩ := Option.map_eq_some_iff.mp first
  obtain ⟨-, rfl⟩ := Prod.mk.inj eq
  have size := lib.ull_reads _ n _ decoded
  have sizes : (marshallArgs lib [.uint id, .ull lid]).length = lib.uintSize + lib.ullSize := by
    show (lib.uint.encode id ++ (lib.ull.encode lid ++ [])).length = _
    rw [List.append_nil, List.length_append, lib.uint_length, lib.ull_length]
  have pos := lib.uintSize_pos
  rw [sizes] at size
  simp only [List.length_nil] at size
  omega

/-- **Client and server agree on every call but `stat`**: for all arguments of the stub's types,
they are what the handler gets, with no byte left, and its result is what the client gets.  The
arguments of `stat` the handler never accepts. -/
theorem wire_agreement_iff (lib : Librpc) (rpc : Proc) {args : List Value}
    (sent : args.map Value.type = rpc.stub.args) : Agrees lib rpc args ↔ rpc ≠ .stat := by
  constructor
  · rintro ⟨handler, found, read, -⟩ rfl
    obtain rfl : (⟨[.ull], .int⟩ : Handler) = handler := Option.some.inj found
    exact stat_args_left lib sent read
  · intro other
    obtain ⟨handler, found, types, ret⟩ := exists_handler other
    refine ⟨handler, found, ?_, ?_⟩
    · rw [types, ← sent]
      exact unmarshallArgs_marshallArgs lib args
    · intro result typed
      have back := unmarshall_marshall lib result []
      rwa [List.append_nil, typed, ret] at back

/-! ## Whole calls -/

/-- Where stub and handler agree, a call is a call of the method. -/
theorem Agrees.call (agrees : Agrees lib rpc args) {handler : Handler}
    (found : rpc.handler = some handler) {meth : List Value → Int32 × Value}
    (typed : (meth args).2.type = handler.ret) (ok : ¬ (meth args).1 < 0) :
    callM lib rpc.stub.ret (fn lib handler meth (marshallArgs lib args)) =
      some ((meth args).1, some (meth args).2) := by
  obtain ⟨other, known, read, result⟩ := agrees
  obtain rfl := Option.some.inj (found.symm.trans known)
  have back := result _ typed
  rw [fn, read, callM, if_neg ok]
  dsimp only
  rw [back]

/-- The handler of `stat` answers every call with `unmarshal_args_failure`: it reads an argument
that the caller does not send.  This is the handler's answer only, which `lock_client::stat` would
end on in its `VERIFY`; the `dispatch` of the `librpc` that is shipped does not send this answer,
but stops the server on it. -/
theorem stat_fails (lib : Librpc) (sent : args.map Value.type = Proc.stat.stub.args)
    (meth : List Value → Int32 × Value) :
    callM lib .int (fn lib ⟨[.ull], .int⟩ meth (marshallArgs lib args)) =
      some (unmarshalArgsFailure, none) := by
  have refused :
      fn lib ⟨[.ull], .int⟩ meth (marshallArgs lib args) = (unmarshalArgsFailure, []) := by
    unfold fn
    split
    next values read => exact absurd read (stat_args_left lib sent)
    next => rfl
  rw [refused]
  rfl

/-! ## librpc -/

/-- Numbers of `n` bytes, the highest first. -/
def bigEndian (n : ℕ) : Codec ℕ where
  Valid := fun v => v < 256 ^ n
  encode := fun v => (Codec.leBytes n v).reverse
  decode := fun u =>
    if u.length < n then none else some (Codec.leValue (u.take n).reverse, u.drop n)
  decode_encode := by
    intro v rest small
    have length : (Codec.leBytes n v).reverse.length = n := by
      rw [List.length_reverse, Codec.length_leBytes]
    rw [if_neg (by rw [List.length_append, length]; omega), List.take_left' length,
      List.drop_left' length, List.reverse_reverse, Codec.leValue_leBytes small]

/-- A codec for the numbers of another type. -/
def viaNat {α : Type} (n : ℕ) (toNat : α → ℕ) (ofNat : ℕ → α) (back : ∀ a, ofNat (toNat a) = a)
    (small : ∀ a, toNat a < 256 ^ n) : Codec α where
  Valid := fun _ => True
  encode := fun a => (bigEndian n).encode (toNat a)
  decode := fun u => ((bigEndian n).decode u).map fun r => (ofNat r.1, r.2)
  decode_encode := by
    intro a rest _
    rw [(bigEndian n).decode_encode _ rest (small a), Option.map_some, back]

/-- Bytes with a mark before each and after the last. -/
def marked : List UInt8 → List UInt8
  | [] => [0]
  | byte :: bytes => 1 :: byte :: marked bytes

def unmarked : List UInt8 → Option (List UInt8 × List UInt8)
  | 0 :: rest => some ([], rest)
  | 1 :: byte :: rest => (unmarked rest).map fun r => (byte :: r.1, r.2)
  | _ => none

theorem unmarked_marked (bytes rest : List UInt8) :
    unmarked (marked bytes ++ rest) = some (bytes, rest) := by
  induction bytes with
  | nil => rfl
  | cons byte bytes ih =>
      show (unmarked (marked bytes ++ rest)).map _ = _
      rw [ih]
      rfl

/-- Strings behind their length.  A length that does not fit is written as `2^32 - 1`, and the
bytes then have marks. -/
def lengthPrefixed : Codec (List UInt8) where
  Valid := fun _ => True
  encode := fun s =>
    if s.length < 2 ^ 32 - 1 then (bigEndian 4).encode s.length ++ s
    else (bigEndian 4).encode (2 ^ 32 - 1) ++ marked s
  decode := fun u => do
    let (length, u) ← (bigEndian 4).decode u
    if length < 2 ^ 32 - 1 then
      if u.length < length then none else some (u.take length, u.drop length)
    else unmarked u
  decode_encode := by
    intro s rest _
    by_cases short : s.length < 2 ^ 32 - 1
    · have prefixed := (bigEndian 4).decode_encode s.length (s ++ rest)
        (show s.length < 256 ^ 4 by omega)
      rw [if_pos short, List.append_assoc, prefixed]
      show (if s.length < 2 ^ 32 - 1 then _ else _) = _
      rw [if_pos short, if_neg (by simp), List.take_left, List.drop_left]
    · have prefixed := (bigEndian 4).decode_encode (2 ^ 32 - 1) (marked s ++ rest)
        (show 2 ^ 32 - 1 < 256 ^ 4 by decide)
      rw [if_neg short, List.append_assoc, prefixed]
      exact unmarked_marked s rest

/-- **The operators of librpc**: numbers in network order, strings behind their length. -/
def netRpc : Librpc where
  int := viaNat 4 (fun v => v.toUInt32.toNat) (fun n => (UInt32.ofNat n).toInt32)
    (fun v => by simp) fun v => v.toUInt32.toNat_lt
  uint := viaNat 4 UInt32.toNat UInt32.ofNat (fun v => by simp) UInt32.toNat_lt
  ull := viaNat 8 UInt64.toNat UInt64.ofNat (fun v => by simp) UInt64.toNat_lt
  string := lengthPrefixed
  int_valid := fun _ => trivial
  uint_valid := fun _ => trivial
  ull_valid := fun _ => trivial
  string_valid := fun _ => trivial
  uintSize := 4
  ullSize := 8
  uintSize_pos := by decide
  uint_length := fun v => by simp [viaNat, bigEndian]
  ull_length := fun v => by simp [viaNat, bigEndian]
  ull_reads := by
    intro bytes v rest read
    obtain ⟨⟨n, u⟩, decoded, eq⟩ := Option.map_eq_some_iff.mp read
    obtain ⟨-, rfl⟩ := Prod.mk.inj eq
    change (if bytes.length < 8 then none else _) = _ at decoded
    split at decoded
    next => cases decoded
    next enough =>
      obtain ⟨-, rfl⟩ := Prod.mk.inj (Option.some.inj decoded)
      rw [List.length_drop]
      omega

/-- Lock 1 for the client `c1`. -/
theorem wire_agreement_acquire : Agrees netRpc .acquire [.ull 1, .string [99, 49]] :=
  (wire_agreement_iff netRpc .acquire rfl).mpr nofun

/-- The statistics of lock 1 for a client with the nonce 7. -/
theorem stat_disagrees :
    [Value.uint 7, Value.ull 1].map Value.type = Proc.stat.stub.args ∧
      ¬ Agrees netRpc .stat [.uint 7, .ull 1] := by
  refine ⟨rfl, ?_⟩
  rintro ⟨handler, found, read, -⟩
  obtain rfl : (⟨[.ull], .int⟩ : Handler) = handler := Option.some.inj found
  exact stat_args_left netRpc rfl read

end Yfs.Rpc
