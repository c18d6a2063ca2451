import Yfs.Client.ExtentRules
import Yfs.Client.Files
import Yfs.Client.Schedule
import Yfs.Client.YfsClient

/-!
# Write-back coherence under locks

Clients that use an extent only under its lock, and read it before they write it, share
it as if there were no caches.  The programs that do so are `Disciplined`; the clients run
any number of them, in any number of threads.

A thread needs the read before the write for one reason: a put to an entry that is not valid
makes the entry dirty without attributes, and the next `getattr` overwrites it
(`Client.ExtentCalls`).  The operations of `yfs_client` read first, so nothing is lost by asking
for it.

* `gets_return_latest_put` — every get returns the string of the latest put of any client,
  and when no client has the lock the server has that string.
-/

namespace Yfs.Client

open Storage Lock

variable {C T R σ α : Type}

/-! ## The discipline -/

/-- A request that does not name extent `eid`. -/
def Elsewhere (eid : ℕ) : Request → Prop
  | .create _ => True
  | .put id _ | .get id | .getattr id | .remove id => id ≠ eid

/-- **A program that uses extent `eid` under its lock**: it calls `get`, `getattr` and `put` of
the extent between an `acquire` and a `release`, with a `get` before the first `put`. It is
outside such a section (`none`), or inside, before its first `get` (`some false`) or after it
(`some true`).  What it does elsewhere is arbitrary.

The constructors from `acquireOther` on are about what the program does elsewhere; there it may
use other locks and other extents in any order, but not create, put, fetch or remove this one. -/
inductive Disciplined (eid : ℕ) : Option Bool → Prog α → Prop where
  | ret (place : Option Bool) (a : α) : Disciplined eid place (.ret a)
  | exit (place : Option Bool) : Disciplined eid place .exit
  | acquire {next : Prog α} (rest : Disciplined eid (some false) next) :
      Disciplined eid none (.acquire eid next)
  | release {got : Bool} {next : Prog α} (rest : Disciplined eid none next) :
      Disciplined eid (some got) (.release eid next)
  | get {got : Bool} {k : List UInt8 → Prog α} (rest : ∀ buf, Disciplined eid (some true) (k buf)) :
      Disciplined eid (some got) ((ExtentClient.get eid).bind k)
  | getattr {got : Bool} {k : Attr → Prog α} (rest : ∀ attr, Disciplined eid (some got) (k attr)) :
      Disciplined eid (some got) ((ExtentClient.getattr eid).bind k)
  | put {buf : List UInt8} {k : Unit → Prog α} (rest : Disciplined eid (some true) (k ())) :
      Disciplined eid (some true) ((ExtentClient.put eid buf).bind k)
  | acquireOther {place : Option Bool} {lid : ℕ} {next : Prog α} (other : lid ≠ eid)
      (rest : Disciplined eid place next) : Disciplined eid place (.acquire lid next)
  | releaseOther {place : Option Bool} {lid : ℕ} {next : Prog α} (other : lid ≠ eid)
      (rest : Disciplined eid place next) : Disciplined eid place (.release lid next)
  | callOther {place : Option Bool} {req : Request} {next : Reply → Prog α}
      (other : Elsewhere eid req) (rest : ∀ reply,
        (∀ type, req = .create type → ∃ id, reply = .created id ∧ id ≠ eid) →
          Disciplined eid place (next reply)) : Disciplined eid place (.call req next)
  | entryOther {place : Option Bool} {id : ℕ} {update : Entry → Entry} {note : Entry → Option Note}
      {next : Entry → Prog α} (other : id ≠ eid)
      (notes : ∀ entry n, note entry = some n → n.eid ≠ eid)
      (rest : ∀ entry, Disciplined eid place (next entry)) :
      Disciplined eid place (.entry id update note next)
  | time {place : Option Bool} {next : ℕ → Prog α}
      (rest : ∀ now, Disciplined eid place (next now)) :
      Disciplined eid place (.time next)
  | memory {place : Option Bool} {next : (ℕ → UInt8) → Prog α}
      (rest : ∀ bytes, Disciplined eid place (next bytes)) : Disciplined eid place (.memory next)

/-! ### Operations on files -/

/-- `read` is disciplined. -/
theorem disciplined_read (ino size off : ℕ) : Disciplined ino none (Op.read ino size off).prog := by
  simp only [Op.prog, Prog.result, YfsClient.read, Prog.bind_eq, Prog.lock_bind, Prog.unlock_bind,
    Prog.acquire_bind, Prog.release_bind, Prog.bind_assoc]
  refine .acquire (.get fun content => .release ?_)
  by_cases past : content.length ≤ off % 2 ^ 32
  · rw [if_pos past]
    exact .ret _ _
  · rw [if_neg past]
    by_cases throws : content.length < off
    · rw [if_pos throws]
      exact .exit _
    · rw [if_neg throws]
      exact .ret _ _

/-- `write` is disciplined. -/
theorem disciplined_write (ino off : ℕ) (data : List UInt8) :
    Disciplined ino none (Op.write ino off data).prog := by
  simp only [Op.prog, Prog.result, YfsClient.write, Prog.bind_eq, Prog.lock_bind, Prog.unlock_bind,
    Prog.acquire_bind, Prog.bind_assoc]
  refine .acquire (.get fun content => ?_)
  by_cases within : off % 2 ^ 32 ≤ content.length
  · rw [if_pos within]
    by_cases throws : content.length < off
    · rw [if_pos throws]
      exact .exit _
    · rw [if_neg throws, Prog.bind_assoc]
      exact .put (.release (.ret _ _))
  · rw [if_neg within, Prog.bind_assoc]
    exact .put (.release (.ret _ _))

/-- `setattr` is disciplined. -/
theorem disciplined_setattr (ino size : ℕ) : Disciplined ino none (Op.setattr ino size).prog := by
  simp only [Op.prog, Prog.result, YfsClient.setattr, Prog.bind_eq, Prog.lock_bind,
    Prog.unlock_bind, Prog.acquire_bind, Prog.release_bind, Prog.bind_assoc]
  exact .acquire (.get fun buf => .put (.release (.ret _ _)))

/-- The clients, each running any disciplined programs, with the extent server `serve`. -/
def sharing (eid : ℕ) (serve : σ → Request → Reply → σ → Prop) : Machine C T (Prog R) R σ where
  prog := id
  serve := serve
  mayInvoke _ prog := Disciplined eid none prog
  mayStore _ _ _ _ _ _ := True
  mayCall _ _ _ := True

/-! ## The entry between two sections -/

/-- **What a cache entry and the server have of the content.**  Attributes are valid when
the buffer is, so `getattr` never fetches an old file over a buffer that was written. -/
def Coherent (entry : Entry) (data content : List UInt8) : Prop :=
  match entry with
  | none => data = content
  | some file => (file.bufValid = true → file.buf = content) ∧
      (file.dirty = true → file.bufValid = true) ∧ file.attrValid = file.bufValid ∧
      (file.dirty = false → data = content)

namespace Coherent

variable {entry : Entry} {data content : List UInt8}

theorem of_quiet (quiet : Quiet entry) : Coherent entry data data := by
  match entry, quiet with
  | none, _ => rfl
  | some file, quiet =>
      obtain ⟨buf, attr, dirty⟩ := quiet file rfl
      simp [Coherent, buf, attr, dirty]

/-- Without a valid buffer the content is at the server. -/
theorem settled (coherent : Coherent entry data content)
    (invalid : ∀ f, entry = some f → f.bufValid = false) : data = content := by
  match entry, coherent with
  | none, coherent => exact coherent
  | some file, coherent =>
      obtain ⟨-, dirty, -, clean⟩ := coherent
      refine clean ?_
      cases eq : file.dirty with
      | false => rfl
      | true =>
          have valid := dirty eq
          rw [invalid file rfl] at valid
          cases valid

/-- The entry after a file was fetched. -/
theorem filled (settled : data = content)
    {bytes : ℕ → UInt8} {f : FullFile} (buf : f.buf = data) :
    Coherent (some ((entry.getD (.blank bytes)).filled f)) data content :=
  ⟨fun _ => buf.trans settled, fun _ => rfl, rfl, fun _ => settled⟩

/-- The entry after `put`, with valid attributes before it. -/
theorem written {file : CachedFile} (coherent : Coherent (some file) data content)
    (valid : file.bufValid = true) {bytes : ℕ → UInt8} {buf : List UInt8} {atime ctime mtime : ℕ} :
    Coherent (some (((some file : Entry).getD (.blank bytes)).written buf atime ctime mtime))
      data buf :=
  ⟨fun _ => rfl, fun _ => rfl, coherent.2.2.1.trans valid, by simp [CachedFile.written]⟩

end Coherent

/-- The contract of a shared extent. -/
def shared (eid : ℕ) : Contract Unit (Prog R) where
  eid := eid
  abs _ := ()
  kind _ := True
  good _ := True
  fits := Coherent
  guard _ _ _ _ := True
  allows _ := True
  fresh entry data quiet _ := .of_quiet quiet
  sound _ _ _ _ := trivial
  dirty file data content fits eq := fits.1 (fits.2.1 eq)
  clean entry data content fits clean := by
    match entry, fits with
    | none, fits => exact fits
    | some file, fits => exact fits.2.2.2 (clean file rfl)

/-- Nothing is asked of the results. -/
def anyResult : Spec Unit (Prog R) R where
  Own := Unit
  begins _ := ()
  enter _ _ := True
  hear _ _ _ := ()
  commit _ _ _ _ := True
  finish _ _ _ := True

/-- **A disciplined program keeps the contract.** -/
theorem Disciplined.wp {eid : ℕ} {op prog : Prog R} {place : Option Bool}
    (disciplined : Disciplined eid place prog) :
    match place with
    | none => Wp (shared eid) anyResult op (Finishes (shared eid) anyResult op) prog () none
    | some got => ∀ v : View, Coherent v.entry v.data v.content →
        (got = true → ∃ f, v.entry = some f ∧ f.bufValid = true) →
        Wp (shared eid) anyResult op (Finishes (shared eid) anyResult op) prog () (some v) := by
  -- on the discipline; what it keeps is that the entry is coherent, and buffered after the first
  -- get
  induction disciplined with
  | ret place a =>
      cases place with
      | none => trivial
      | some got => exact fun v _ _ => ⟨(), trivial, trivial⟩
  | exit place =>
      cases place with
      | none => trivial
      | some got => exact fun v _ _ => trivial
  | acquire _ ih =>
      exact .enter fun entry data content fits =>
        ⟨(), trivial, ih _ fits (by simp)⟩
  | release _ ih =>
      exact fun v coherent _ => .leave coherent trivial ih
  | get _ ih =>
      intro v coherent _
      refine Wp.get (fun _ _ _ => rfl) (fun f here valid => ?_) (fun invalid => ?_)
      · refine ⟨?_, ih _ v coherent fun _ => ⟨f, here, valid⟩⟩
        rw [here] at coherent
        exact coherent.1 valid
      · have settled := coherent.settled invalid
        exact ⟨settled, fun bytes f buf _ => ih _ _ (.filled settled buf)
          fun _ => ⟨_, rfl, rfl⟩⟩
  | getattr _ ih =>
      intro v coherent got
      refine Wp.getattr (fun _ _ _ => rfl) (fun f here valid => ih _ v coherent got)
        (fun invalid bytes f buf _ => ?_)
      -- attributes and buffer are valid together, so nothing is lost by the fetch
      have settled := coherent.settled fun f here => by
        rw [here] at coherent
        rw [← coherent.2.2.1]
        exact invalid f here
      exact ih _ _ (.filled settled buf) fun _ => ⟨_, rfl, rfl⟩
  | put _ ih =>
      intro v coherent got
      obtain ⟨f, here, valid⟩ := got rfl
      refine Wp.put fun bytes atime ctime mtime _ => ?_
      rw [here] at coherent ⊢
      exact ih _ (coherent.written valid) fun _ => ⟨_, rfl, rfl⟩
  | @acquireOther place lid next other _ ih =>
      cases place with
      | none => exact .acquire_of_ne other ih
      | some got => exact fun v coherent read => .acquire_of_ne other (ih v coherent read)
  | @releaseOther place lid next other _ ih =>
      cases place with
      | none => exact .release_of_ne other ih
      | some got => exact fun v coherent read => .release_of_ne other (ih v coherent read)
  | @callOther place req next other _ ih =>
      -- a call about another extent leaves this one alone, and `create` hands out another inum
      have spares : Spares eid req := by cases req <;> first | exact other | trivial
      have new : ∀ {data reply data'}, Serves eid (fun _ => True) data req reply data' →
          ∀ type, req = .create type → ∃ id, reply = .created id ∧ id ≠ eid := by
        intro data reply data' serves type creates
        obtain ⟨id, eq, ne, -⟩ := serves.new creates
        exact ⟨id, eq, ne⟩
      cases place with
      | none => exact fun _ => ⟨spares, fun data reply data' serves => ih reply (new serves)⟩
      | some got =>
          intro v coherent read _ reply data' serves
          rw [serves.same spares]
          exact ih reply (new serves) v coherent read
  | @entryOther place id update note next other notes _ ih =>
      cases place with
      | none => exact .entry_of_ne other fun entry => ⟨notes entry, ih entry⟩
      | some got =>
          exact fun v coherent read =>
            .entry_of_ne other fun entry => ⟨notes entry, ih entry v coherent read⟩
  | @time place next _ ih =>
      cases place with
      | none => exact fun now => ih now
      | some got => exact fun v coherent read now => ih now v coherent read
  | @memory place next _ ih =>
      cases place with
      | none => exact fun bytes => ih bytes
      | some got => exact fun v coherent read bytes => ih bytes v coherent read

/-- The clients keep the contract of the extent. -/
theorem sharing_sectioned {eid : ℕ} {serve : σ → Request → Reply → σ → Prop}
    {dataOf : σ → List UInt8}
    (faithful : ∀ x req reply y, serve x req reply y →
      Serves eid (fun _ => True) (dataOf x) req reply (dataOf y)) :
    Sectioned (shared eid) anyResult dataOf (sharing eid serve : Machine C T (Prog R) R σ) where
  ops _ _ may := may.wp
  serves := faithful
  guard _ _ _ _ _ _ := trivial
  allows _ _ _ _ := trivial

variable [LinearOrder C] [DecidableEq T]

/-- **Write-back coherence.** The clients run any disciplined programs on extent `eid`, with a
server that stores the extent faithfully and has `init` in it at first.  Then every get of the
extent returns the string of the latest put before it, by whichever client, or `init`; and when no
client has the lock, the server has that string, so that no put is lost.

The lock puts the sections in an order, `sync` takes the string from one client to the next, and
in between the entry of the owner has it.  The rules for sections are used with a specification
that allows every result. -/
theorem gets_return_latest_put {eid : ℕ} {init : List UInt8}
    {serve : σ → Request → Reply → σ → Prop} {dataOf : σ → List UInt8} {start : σ → Prop}
    {s : State C T (Prog R) R σ}
    (faithful : ∀ x req reply y, serve x req reply y →
      Serves eid (fun _ => True) (dataOf x) req reply (dataOf y))
    (begins : ∀ server, start server → dataOf server = init)
    (reach : Reach (sharing eid serve) start s) :
    GetsLatest eid init s.history ∧
      ((s.locks eid).In .nobody → dataOf s.server = latest eid init s.history) := by
  obtain ⟨a, k, inv⟩ := reach_sections (sharing_sectioned faithful) begins trivial reach
  refine ⟨inv.gets, fun nobody => ?_⟩
  obtain rfl := inv.custody.unique nobody
  cases inv.held with
  | nobody settled good state => exact settled

/-! ### A run -/

/-- Clients that share file 2, run by a schedule. -/
def sharingDriver : Driver ℕ Unit (Prog Res) Res FileMap where
  prog := id
  handle := handleFilesAt 2 tFile
  mayStore _ _ _ _ _ _ := true
  mayCall _ _ _ := true

/-- Client 0 writes to file 2, and then client 1 reads it, which takes the lock away from
client 0. -/
def writeThenRead : List (Move ℕ Unit (Prog Res)) :=
  turn 2 0 () (Op.write 2 0 [120]).prog 2 13 ++ turn 2 1 () (Op.read 2 5 0).prog 13 8

/-- Client 1 gets what client 0 put, through a revoke. -/
theorem gets_return_latest_put_shared : ∃ s : State ℕ Unit (Prog Res) Res FileMap,
    Reach (sharing 2 (fileServerAt 2 tFile)) (· = oneFile) s ∧
      notes s.history = [(0, .got 2 []), (0, .put 2 [120]), (1, .got 2 [120])] ∧
      GetsLatest 2 [] s.history := by
  have drives : sharingDriver.Drives
      (sharing 2 (fileServerAt 2 tFile) : Machine ℕ Unit (Prog Res) Res FileMap) :=
    ⟨rfl, fun _ _ _ _ => handleFilesAt_serves, fun _ _ _ _ _ _ _ => trivial,
      fun _ _ _ _ => trivial⟩
  have may : ∀ c t op, .invoke c t op ∈ writeThenRead →
      (sharing 2 (fileServerAt 2 tFile) :
        Machine ℕ Unit (Prog Res) Res FileMap).mayInvoke c op := by
    intro c t op mem
    simp only [writeThenRead, List.mem_append, invoke_mem_turn] at mem
    rcases mem with ⟨-, -, rfl⟩ | ⟨-, -, rfl⟩
    · exact disciplined_write 2 0 [120]
    · exact disciplined_read 2 5 0
  obtain ⟨s, reach, shows⟩ := Driver.exists_reach drives (· = oneFile) may rfl
    (P := fun s => notes s.history = [(0, .got 2 []), (0, .put 2 [120]), (1, .got 2 [120])])
    (by decide +kernel)
  have faithful : ∀ x req reply y, fileServerAt 2 tFile x req reply y →
      Serves 2 (fun _ => True) (dataAt 2 x) req reply (dataAt 2 y) :=
    fun x req reply y serves => (fileServerAt_serves serves).mono fun _ _ => trivial
  refine ⟨s, reach, by simpa using shows, (gets_return_latest_put faithful ?_ reach).1⟩
  rintro server rfl
  rfl

end Yfs.Client
