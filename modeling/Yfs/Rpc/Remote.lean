import Yfs.Rpc.Wire
import Yfs.Storage.AllInodes

/-!
# The extent server behind the wire

A request of `extent_client` goes through its stub, `operator<<`, the handler that
`extent_smain.cc` registered, the method, and back.  Numbers change their types on the way: an
`extentid_t` has 64 bits, a type and the fields of `attr` have 32.

Only the extent server is done here, since its numbers are the ones that clients make up from the
sizes of their strings.  What is too large for its type is cut, so `remote_eq` has the condition
that the numbers fit; `Client.OverWire` shows that those of the clients do.

* `argsOf`, `resultOf`, `replyOf` — a request and its result as values.
* `method`, `dispatch`, `remote` — the call, at the server and as a whole.
* `handle_inRange` — what the server answers has numbers of these sizes.
* `remote_eq` — for a request that has them, the remote call is the call.
-/

namespace Yfs.Storage

/-- The numbers of a request are numbers of their types: `uint32_t` and `extentid_t`. -/
def Request.InRange : Request → Prop
  | .create type => type < 2 ^ 32
  | .put id _ | .get id | .getattr id | .remove id => id < 2 ^ 64

/-- The numbers of a reply are numbers of their types. -/
def Reply.InRange : Reply → Prop
  | .created id => id < 2 ^ 64
  | .done => True
  | .file f => f.attr.type < 2 ^ 32 ∧ f.attr.atime < 2 ^ 32 ∧ f.attr.mtime < 2 ^ 32 ∧
      f.attr.ctime < 2 ^ 32 ∧ f.attr.size < 2 ^ 32

end Yfs.Storage

namespace Yfs.Rpc

open ByteBlock Storage Storage.ExtentServer Storage.BlockManager

/-! ## Requests and replies as values -/

/-- The number that `extent_client` calls for a request. -/
def procOf : Request → Proc
  | .create _ => .create
  | .put _ _ => .put
  | .get _ => .get
  | .getattr _ => .getattr
  | .remove _ => .remove

/-- The arguments that it passes to `cl->call`. -/
def argsOf : Request → List Value
  | .create type => [.uint (.ofNat type)]
  | .put id buf => [.ull (.ofNat id), .string buf]
  | .get id | .getattr id | .remove id => [.ull (.ofNat id)]

/-- What the method of a handler is called with. -/
def requestOf : Proc → List Value → Option Request
  | .create, [.uint type] => some (.create type.toNat)
  | .put, [.ull id, .string buf] => some (.put id.toNat buf)
  | .get, [.ull id] => some (.get id.toNat)
  | .getattr, [.ull id] => some (.getattr id.toNat)
  | .remove, [.ull id] => some (.remove id.toNat)
  | _, _ => none

/-- What is in `r` after the method; `put` and `remove` leave it as it was. -/
def resultOf (r : Int32) : Reply → Value
  | .created id => .ull (.ofNat id)
  | .done => .int r
  | .file f => .fullFile
      ⟨⟨.ofNat f.attr.type, .ofNat f.attr.atime, .ofNat f.attr.mtime, .ofNat f.attr.ctime,
        .ofNat f.attr.size⟩, f.buf⟩

/-- What `extent_client` makes of the `r` it gets; it does not look at an `int`. -/
def replyOf : Value → Option Reply
  | .ull id => some (.created id.toNat)
  | .int _ => some .done
  | .fullFile f => some (.file ⟨⟨f.attr.type.toNat, f.attr.atime.toNat, f.attr.mtime.toNat,
      f.attr.ctime.toNat, f.attr.size.toNat⟩, f.buf⟩)
  | _ => none

/-! ## The call -/

/-- `(sob->*meth)(a1, …, r)`, with its status. -/
def method (now : Clock) (r : Int32) (rpc : Proc) (values : List Value) (bm : BlockManager) :
    Except Halt ((Int32 × Value) × BlockManager) :=
  match requestOf rpc values with
  | some req => do
      let (reply, bm) ← handle now req bm
      .ok ((0, resultOf r reply), bm)
  | none => .ok ((0, .int r), bm)

/-- `fn` of the handler, and what its method does to the server. -/
def dispatch (lib : Librpc) (now : Clock) (r : Int32) (rpc : Proc) (handler : Handler)
    (args : List UInt8) (bm : BlockManager) : Except Halt ((Int32 × List UInt8) × BlockManager) :=
  match unmarshallArgs lib handler.args args with
  | some (values, []) => do
      let (result, bm) ← method now r rpc values bm
      .ok (fn lib handler (fun _ => result) args, bm)
  | _ => .ok ((unmarshalArgsFailure, []), bm)

/-- **A request as a remote call**: `rpcc::call`, over a transport that delivers. -/
def remote (lib : Librpc) (now : Clock) (r : Int32) (req : Request) (bm : BlockManager) :
    Except Halt (Option (Int32 × Option Value) × BlockManager) :=
  match (procOf req).handler with
  | some handler => do
      let (reply, bm) ←
        dispatch lib now r (procOf req) handler (marshallArgs lib (argsOf req)) bm
      .ok (callM lib (procOf req).stub.ret reply, bm)
  | none => .ok (none, bm)

/-! ## There and back -/

theorem types_argsOf (req : Request) : (argsOf req).map Value.type = (procOf req).stub.args := by
  cases req <;> rfl

/-- The method gets the request that was made. -/
theorem requestOf_argsOf {req : Request} (inRange : req.InRange) :
    requestOf (procOf req) (argsOf req) = some req := by
  have ull : ∀ {id : ℕ}, id < 2 ^ 64 → (UInt64.ofNat id).toNat = id := fun lt => by
    rw [UInt64.toNat_ofNat', Nat.mod_eq_of_lt lt]
  cases req with
  | create type =>
      have uint : (UInt32.ofNat type).toNat = type := by
        rw [UInt32.toNat_ofNat', Nat.mod_eq_of_lt inRange]
      simp only [procOf, argsOf, requestOf, uint]
  | _ => simp only [procOf, argsOf, requestOf, ull inRange]

/-- The client gets the reply that was given. -/
theorem replyOf_resultOf {reply : Reply} (r : Int32) (inRange : reply.InRange) :
    replyOf (resultOf r reply) = some reply := by
  have uint : ∀ {n : ℕ}, n < 2 ^ 32 → (UInt32.ofNat n).toNat = n := fun lt => by
    rw [UInt32.toNat_ofNat', Nat.mod_eq_of_lt lt]
  cases reply with
  | created id =>
      have ull : (UInt64.ofNat id).toNat = id := by
        rw [UInt64.toNat_ofNat', Nat.mod_eq_of_lt inRange]
      simp only [resultOf, replyOf, ull]
  | done => rfl
  | file f =>
      obtain ⟨type, atime, mtime, ctime, size⟩ := inRange
      simp only [resultOf, replyOf, uint type, uint atime, uint mtime, uint ctime, uint size]

/-- The replies that the methods give: an inum of the inode table, or the attributes of an inode. -/
inductive Answers : Request → Reply → Prop
  | created (type id : ℕ) (le : id ≤ inodeNum) : Answers (.create type) (.created id)
  | put (id : ℕ) (buf : List UInt8) : Answers (.put id buf) .done
  | got (id : ℕ) (b : Block) (buf : List UInt8) :
      Answers (.get id) (.file ⟨attrOf (Inode.ofBlock b), buf⟩)
  | gotAttr (id : ℕ) (b : Block) (buf : List UInt8) :
      Answers (.getattr id) (.file ⟨attrOf (Inode.ofBlock b), buf⟩)
  | removed (id : ℕ) : Answers (.remove id) .done

section Answers

variable {now : Clock} {req : Request} {reply : Reply} {bm bm' : BlockManager}

theorem getattr_eq {i : ℕ} {attr : Storage.Attr} (out : bm.getattr i = .ok attr) :
    ∃ b, attr = attrOf (Inode.ofBlock b) := by
  rw [BlockManager.getattr] at out
  cases first : bm.getInode i with
  | error e =>
      rw [first] at out
      cases out
  | ok ino =>
      obtain ⟨-, -, rfl⟩ := getInode_inv first
      rw [first] at out
      cases out
      exact ⟨_, rfl⟩

theorem handle_answers (handled : handle now req bm = .ok (reply, bm')) : Answers req reply := by
  cases req with
  | create type =>
      obtain ⟨id, -, le, -, rfl, -⟩ := create_inv handled
      exact .created type id le
  | put id buf =>
      rw [handle, put] at handled
      cases wrote : bm.writeFile (maskId id) buf now with
      | error e =>
          rw [wrote] at handled
          cases handled
      | ok bm₁ =>
          rw [wrote] at handled
          cases handled
          exact .put id buf
  | get id =>
      rw [handle, ExtentServer.get] at handled
      cases read : bm.readFile (maskId id) now with
      | error e =>
          rw [read] at handled
          cases handled
      | ok r =>
          cases attr : r.2.getattr (maskId id) with
          | error e =>
              rw [read] at handled
              simp only [bind, Except.bind, attr] at handled
              cases handled
          | ok a =>
              rw [read] at handled
              simp only [bind, Except.bind, attr] at handled
              obtain ⟨b, rfl⟩ := getattr_eq attr
              cases handled
              exact .got id b _
  | getattr id =>
      rw [handle, ExtentServer.getattr] at handled
      cases attr : bm.getattr (maskId id) with
      | error e =>
          rw [attr] at handled
          cases handled
      | ok a =>
          obtain ⟨b, rfl⟩ := getattr_eq attr
          cases read : bm.readFile (maskId id) now with
          | error e =>
              rw [attr, read] at handled
              cases handled
          | ok r =>
              rw [attr, read] at handled
              cases handled
              exact .gotAttr id b _
  | remove id =>
      rw [handle, remove] at handled
      cases removed : bm.removeFile (maskId id) with
      | error e =>
          rw [removed] at handled
          cases handled
      | ok bm₁ =>
          rw [removed] at handled
          cases handled
          exact .removed id

/-- **What the server answers fits into its types.** -/
theorem Answers.inRange (answers : Answers req reply) : reply.InRange := by
  have file : ∀ (b : Block) (buf : List UInt8),
      (Reply.file ⟨attrOf (Inode.ofBlock b), buf⟩).InRange := by
    intro b buf
    refine ⟨?_, word32_lt b 8, word32_lt b 12, word32_lt b 16, word32_lt b 4⟩
    show (if word16 b 0 < 2 ^ 15 then word16 b 0 else word16 b 0 + (2 ^ 32 - 2 ^ 16)) < 2 ^ 32
    have lt := word16_lt b 0
    split <;> omega
  cases answers with
  | created type id le =>
      show id < 2 ^ 64
      rw [inodeNum] at le
      omega
  | put id buf => trivial
  | got id b buf => exact file b buf
  | gotAttr id b buf => exact file b buf
  | removed id => trivial

/-- **It has the type that the handler declares.** -/
theorem Answers.type (answers : Answers req reply) (r : Int32) :
    (resultOf r reply).type = (procOf req).stub.ret := by
  cases answers <;> rfl

end Answers

/-! ## The remote call -/

/-- **The remote call is the call**: the method of the server runs once, for the request that was
made, and the client has its reply. -/
theorem remote_eq (lib : Librpc) (now : Clock) (r : Int32) {req : Request} (bm : BlockManager)
    (inRange : req.InRange) : remote lib now r req bm =
      (handle now req bm).map fun p => (some (0, some (resultOf r p.1)), p.2) := by
  have other : procOf req ≠ .stat := by cases req <;> simp [procOf]
  obtain ⟨handler, found, args, ret⟩ := exists_handler other
  have read :
      unmarshallArgs lib handler.args (marshallArgs lib (argsOf req)) = some (argsOf req, []) := by
    rw [args, ← types_argsOf]
    exact unmarshallArgs_marshallArgs lib (argsOf req)
  have agrees : Agrees lib (procOf req) (argsOf req) := by
    refine ⟨handler, found, read, fun result typed => ?_⟩
    have back := unmarshall_marshall lib result []
    rwa [List.append_nil, typed, ret] at back
  rw [remote, found]
  simp only [dispatch, read, method, requestOf_argsOf inRange]
  cases handled : handle now req bm with
  | error e => rfl
  | ok p =>
      obtain ⟨reply, bm'⟩ := p
      have typed : (resultOf r reply).type = handler.ret := by
        rw [(handle_answers handled).type, ret]
      have granted : ¬ (0 : Int32) < 0 := by decide
      have call : callM lib (procOf req).stub.ret (fn lib handler (fun _ => (0, resultOf r reply))
          (marshallArgs lib (argsOf req))) = some (0, some (resultOf r reply)) :=
        agrees.call found typed granted
      simp only [bind, Except.bind, call]
      rfl

end Yfs.Rpc
