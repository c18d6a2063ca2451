import Yfs.Client.Endings
import Yfs.Client.OverDisk
import Yfs.Rpc.Remote

/-!
# The clients over the wire

Between the clients and the extent server are stubs and handlers, and everything that goes from
one to the other is written as bytes in the types of the protocol.  For operations on inums of 64
bits that makes no difference: no number that a client sends is cut, so the clients reach
the same states with the wire in between as they do without it.

There is a simulation in both directions, since a step of one machine is the same step of the
other for every request in range; that the requests are in range is an invariant of runs,
because what a client sends depends on what it was sent.

* `SendsInRange` — a program that sends no number that is too large; `sendsInRange_prog` has it
  for every operation.
* `wireServer_iff` — for such a request the server behind the wire does what the server does.
* `reach_over_wire_iff` — any number of clients reach the same states.
-/

namespace Yfs.Client

open Storage Storage.ExtentServer Lock Rpc Transition

variable {C T σ α β : Type}

/-! ## The server behind the wire -/

/-- **The extent server, called through its stubs**, whatever the handlers leave in `r`. -/
def wireServer (lib : Librpc) (bm : BlockManager) (req : Request) (reply : Reply)
    (bm' : BlockManager) : Prop :=
  Permitted bm.files req ∧ ∃ now r value,
    remote lib now r req bm = .ok (some (0, some value), bm') ∧ replyOf value = some reply

/-- **Behind the wire is the same server.** -/
theorem wireServer_iff (lib : Librpc) {bm bm' : BlockManager} {req : Request} {reply : Reply}
    (inRange : req.InRange) : wireServer lib bm req reply bm' ↔ blockServer bm req reply bm' := by
  refine and_congr_right fun _ => ?_
  constructor
  · rintro ⟨now, r, value, called, read⟩
    rw [remote_eq lib now r bm inRange] at called
    cases handled : handle now req bm with
    | error e =>
        rw [handled] at called
        cases called
    | ok p =>
        rw [handled] at called
        cases called
        rw [replyOf_resultOf r (handle_answers handled).inRange] at read
        cases read
        exact ⟨now, handled⟩
  · rintro ⟨now, handled⟩
    refine ⟨now, 0, resultOf 0 reply, ?_, replyOf_resultOf 0 (handle_answers handled).inRange⟩
    rw [remote_eq lib now 0 bm inRange, handled]
    rfl

/-! ## What operations send -/

/-- **A program that sends no number that is too large**, to either server. -/
def SendsInRange (post : α → Prop) : Prog α → Prop
  | .ret a => post a
  | .acquire lid next | .release lid next => lid < 2 ^ 64 ∧ SendsInRange post next
  | .call req next => req.InRange ∧ ∀ reply, SendsInRange post (next reply)
  | .entry _ _ _ next => ∀ entry, SendsInRange post (next entry)
  | .time next => ∀ now, SendsInRange post (next now)
  | .memory next => ∀ bytes, SendsInRange post (next bytes)
  | .exit => True

namespace SendsInRange

/-- The rule of sequences. -/
theorem bind {post : β → Prop} {p : Prog α} {k : α → Prog β}
    (first : SendsInRange (fun a => SendsInRange post (k a)) p) : SendsInRange post (p.bind k) := by
  induction p with
  | ret a => exact first
  | acquire lid next ih => exact ⟨first.1, ih first.2⟩
  | release lid next ih => exact ⟨first.1, ih first.2⟩
  | call req next ih => exact ⟨first.1, fun reply => ih reply (first.2 reply)⟩
  | entry eid update note next ih => exact fun entry => ih entry (first entry)
  | time next ih => exact fun now => ih now (first now)
  | memory next ih => exact fun bytes => ih bytes (first bytes)
  | exit => trivial

variable {id : ℕ} (small : id < 2 ^ 64)

include small

theorem lock {post : β → Prop} {k : Unit → Prog β} (rest : SendsInRange post (k ())) :
    SendsInRange post ((Prog.lock id).bind k) :=
  ⟨small, rest⟩

theorem unlock {post : β → Prop} {k : Unit → Prog β} (rest : SendsInRange post (k ())) :
    SendsInRange post ((Prog.unlock id).bind k) :=
  ⟨small, rest⟩

theorem get {post : List UInt8 → Prop} (rest : ∀ buf, post buf) :
    SendsInRange post (ExtentClient.get id) := by
  intro entry
  dsimp only
  split
  · exact rest _
  · exact ⟨small, fun reply bytes entry => rest _⟩

theorem getattr {post : Storage.Attr → Prop} (rest : ∀ attr, post attr) :
    SendsInRange post (ExtentClient.getattr id) := by
  intro entry
  dsimp only
  split
  · exact rest _
  · exact ⟨small, fun reply bytes entry => rest _⟩

theorem remove {post : Unit → Prop} (rest : post ()) : SendsInRange post (ExtentClient.remove id) :=
  fun _ => ⟨small, fun _ => rest⟩

theorem sync : SendsInRange (fun _ => True) (ExtentClient.sync id) := by
  intro entry
  dsimp only
  split
  · exact ⟨small, fun reply entry => trivial⟩
  · trivial

omit small in
theorem put {eid : ℕ} {buf : List UInt8} {post : Unit → Prop} (rest : post ()) :
    SendsInRange post (ExtentClient.put eid buf) :=
  fun _ _ _ _ _ => rest

omit small in
theorem create {type : ℕ} {post : ℕ → Prop} (known : type < 2 ^ 32) (rest : ∀ ino, post ino) :
    SendsInRange post (ExtentClient.create type) :=
  fun _ _ _ _ => ⟨known, fun _ _ => rest _⟩

omit small in
theorem memory {post : β → Prop} {k : (ℕ → UInt8) → Prog β}
    (rest : ∀ bytes, SendsInRange post (k bytes)) : SendsInRange post (Prog.uninitialised.bind k) :=
  rest

omit small in
theorem newEntry {name : List UInt8} {inum : ℕ} {post : List UInt8 → Prop}
    (rest : ∀ record, post record) : SendsInRange post (YfsClient.newEntry name inum) :=
  fun _ => rest _

omit small in
theorem encodeDir {entries : List Dirent} {post : List UInt8 → Prop} (rest : ∀ buf, post buf) :
    SendsInRange post (YfsClient.encodeDir entries) := by
  induction entries generalizing post with
  | nil => exact rest []
  | cons ent entries ih => exact memory fun bytes => bind (ih fun buf => rest _)

/-- The inums of a directory are read from eight bytes each. -/
theorem readdirNoSeria {post : List Dirent → Prop}
    (rest : ∀ list : List Dirent, (∀ ent ∈ list, ent.inum < 2 ^ 64) → post list) :
    SendsInRange post (YfsClient.readdirNoSeria id) := by
  refine bind (get small fun buf => bind (getattr small fun attr => ?_))
  split
  · trivial
  · refine memory fun stack => rest _ fun ent mem => ?_
    obtain ⟨i, -, rfl⟩ := List.mem_map.mp mem
    exact decodeDirent_inum_lt _ _

theorem lookupNoSeria {name : List UInt8} {post : Option ℕ → Prop} (rest : ∀ found, post found) :
    SendsInRange post (YfsClient.lookupNoSeria id name) :=
  bind (readdirNoSeria small fun _ _ => rest _)

theorem rmdir {name : List UInt8} {post : YfsStatus → Prop} (rest : ∀ status, post status) :
    SendsInRange post (YfsClient.rmdir id name) := by
  refine lock small (bind (readdirNoSeria small fun entries range => ?_))
  split
  · exact unlock small (rest _)
  · next ent found =>
      have known := range ent (List.mem_of_find?_eq_some found)
      exact bind (remove known (bind (encodeDir fun buf => bind (put (unlock small (rest _))))))

theorem attributes {post : Storage.Attr → Prop} (rest : ∀ attr, post attr) :
    SendsInRange post (YfsClient.attributes id) :=
  lock small (bind (getattr small fun attr => unlock small (rest attr)))

end SendsInRange

/-- **Every operation on an inum of 64 bits sends no number that is too large.** -/
theorem sendsInRange_prog {op : Op} (small : op.target < 2 ^ 64) :
    SendsInRange (fun _ => True) op.prog := by
  cases op with
  | create parent name =>
      refine .bind (.lock small (.bind (.lookupNoSeria small fun found => ?_)))
      cases found with
      | some ino => exact .unlock small trivial
      | none =>
          exact .bind (.create (by decide) fun ino => .bind (.get small fun buf =>
            .bind (.newEntry fun record => .bind (.put (.unlock small trivial)))))
  | mkdir parent name =>
      refine .bind (.lock small (.bind (.lookupNoSeria small fun found => ?_)))
      cases found with
      | some ino => exact .unlock small trivial
      | none =>
          exact .bind (.get small fun buf => .bind (.create (by decide) fun ino =>
            .bind (.newEntry fun record => .bind (.put (.unlock small trivial)))))
  | symlink parent name link =>
      refine .bind (.lock small (.bind (.get small fun content =>
        .bind (.lookupNoSeria small fun found => ?_))))
      cases found with
      | some ino => trivial
      | none =>
          exact .bind (.create (by decide) fun ino => .bind (.put (.bind (.newEntry fun record =>
            .bind (.put (.unlock small trivial))))))
  | unlink parent name => exact .bind (.rmdir small fun status => trivial)
  | rmdir parent name => exact .bind (.rmdir small fun status => trivial)
  | lookup parent name =>
      exact .bind (.lock small (.bind (.lookupNoSeria small fun found => .unlock small trivial)))
  | readdir dir =>
      exact .bind (.lock small (.bind (.readdirNoSeria small fun list _ => .unlock small trivial)))
  | read ino size off =>
      refine .bind (.lock small (.bind (.get small fun content => .unlock small ?_)))
      split_ifs <;> trivial
  | write ino off data =>
      refine .bind (.lock small (.bind (.get small fun content => ?_)))
      split_ifs
      · trivial
      · exact .bind (.put (.unlock small trivial))
      · exact .bind (.put (.unlock small trivial))
  | setattr ino size =>
      exact .bind (.lock small (.bind (.get small fun buf => .bind (.put (.unlock small trivial)))))
  | readlink ino => exact .bind (.lock small (.bind (.get small fun buf => .unlock small trivial)))
  | getfile ino => exact .bind (.attributes small fun attr => trivial)
  | getdir ino => exact .bind (.attributes small fun attr => trivial)
  | isfile ino => exact .bind (.bind (.attributes small fun attr => trivial))
  | isdir ino => exact .bind (.bind (.attributes small fun attr => trivial))
  | issymlink ino => exact .bind (.bind (.attributes small fun attr => trivial))
  | mount => exact .bind (.lock small (.bind (.put (.unlock small trivial))))

/-! ## Any number of clients -/

/-- Clients that run any operations on inums of 64 bits. -/
def numbered (serve : σ → Request → Reply → σ → Prop) : Machine C T Op Res σ where
  prog := Op.prog
  serve := serve
  mayInvoke _ op := op.target < 2 ^ 64
  mayStore _ _ _ _ _ _ := True
  mayCall _ _ _ := True

/-- The rest of a thread's program. -/
def Thread.SendsInRange : Thread Op Res → Prop
  | .idle => True
  | .run _ prog => Client.SendsInRange (fun _ => True) prog
  | .acquiring _ lid next | .releasing _ lid next =>
      lid < 2 ^ 64 ∧ Client.SendsInRange (fun _ => True) next

theorem Thread.Goes.sendsInRange {thread thread' : Thread Op Res} (goes : thread.Goes thread')
    (sends : thread.SendsInRange) : thread'.SendsInRange := by
  cases goes with
  | acquire op lid next => exact sends
  | acquired op lid next => exact sends.2
  | release op lid next => exact sends
  | released op lid next => exact sends.2
  | call op req next reply => exact sends.2 reply
  | entry op eid update note next entry => exact sends entry
  | time op next now => exact sends now
  | memory op next bytes => exact sends bytes
  | returned op res => trivial

section System

variable [LinearOrder C] [DecidableEq T] {serve serve' : σ → Request → Reply → σ → Prop}
  {start : σ → Prop} {s s' : State C T Op Res σ}

/-- What holds while clients run operations on inums of 64 bits: what threads and syncs send is in
range, and the locks of other numbers are not used.

Inums are `unsigned long long`, and an operation that is invoked on one of 64 bits sends no other:
those of the entries of a directory are read from 8 bytes, and those that the server hands out are
small. -/
structure InRange (s : State C T Op Res σ) : Prop where
  threads : ∀ c t, (s.thread c t).SendsInRange
  syncs : ∀ lid c t, lid < 2 ^ 64 → SendsInRange (fun _ => True) (s.sync lid c t)
  unused : ∀ lid c t, 2 ^ 64 ≤ lid → (s.locks lid).pc c t = .idle

namespace InRange

omit [LinearOrder C] [DecidableEq T] in
theorem initial (server : σ) : InRange (.initial server : State C T Op Res σ) where
  threads _ _ := trivial
  syncs _ _ _ small := SendsInRange.sync small
  unused _ _ _ _ := rfl

/-- A thread comes to a lock by calling `acquire`. -/
theorem stays_unused (inv : InRange s) (step : Step (numbered serve) s s') {lid : ℕ}
    (large : 2 ^ 64 ≤ lid) (c : C) (t : T) : (s'.locks lid).pc c t = .idle := by
  have idle := inv.unused lid c t large
  have moves : ∀ {l : ℕ} {label : Label C T} {lock : LockState C T},
      Lock.Step false label (s.locks l) lock → (l = lid → label ≠ .acquire c t) →
      ((s.setLock l lock).locks lid).pc c t = .idle := by
    intro l label lock step other
    by_cases here : lid = l
    · subst here
      rw [State.setLock_locks_self]
      exact step.idle (other rfl) idle
    · rwa [State.setLock_locks_of_ne here]
  cases step with
  | @acquire b u op l next lock here step mutex =>
      refine moves step ?_
      rintro rfl
      have sends := inv.threads b u
      rw [here] at sends
      exact absurd sends.1 (Nat.not_lt.mpr large)
  | release here step mutex => exact moves step (by rintro _ ⟨⟩)
  | lock step inside other mutex =>
      refine moves step ?_
      rintro _ rfl
      cases inside
  | synced runs here => exact moves (.synced runs) (by rintro _ ⟨⟩)
  | entry here may => rwa [State.recordNote_locks]
  | _ => exact idle

/-- **Every step keeps it.** -/
theorem step (inv : InRange s) (step : Step (numbered serve) s s') : InRange s' where
  threads c t := by
    cases step.sorts with
    | starts b u op may runs history others =>
        by_cases here : c = b ∧ t = u
        · obtain ⟨rfl, rfl⟩ := here
          rw [runs]
          exact sendsInRange_prog may
        · rw [others c t here]
          exact inv.threads c t
    | goes b u goes others =>
        by_cases here : c = b ∧ t = u
        · obtain ⟨rfl, rfl⟩ := here
          exact goes.sendsInRange (inv.threads c t)
        · rw [others c t here]
          exact inv.threads c t
    | inside same inside =>
        rw [same]
        exact inv.threads c t
  syncs lid c t small := step.syncs
    (P := fun lid prog => lid < 2 ^ 64 → SendsInRange (fun _ => True) prog)
    (fun _ small => SendsInRange.sync small) (fun _ _ _ reply rest small => (rest small).2 reply)
    (fun _ _ _ _ _ x rest small => rest small x) inv.syncs lid c t small
  unused lid c t large := inv.stays_unused step large c t

/-- **Two servers that do the same for requests in range do the same for the clients.** -/
theorem step_congr (inv : InRange s) (same : ∀ x req reply y, req.InRange → serve x req reply y →
    serve' x req reply y) (step : Step (numbered serve) s s') : Step (numbered serve') s s' := by
  cases step with
  | invoke idle may => exact .invoke idle may
  | acquire here step mutex => exact .acquire here step mutex
  | acquired here done => exact .acquired here done
  | release here step mutex => exact .release here step mutex
  | released here done => exact .released here done
  | @call c t op req next reply server here serves may =>
      have sends := inv.threads c t
      rw [here] at sends
      exact .call here (same _ _ _ _ sends.1 serves) may
  | entry here may => exact .entry here may
  | time here => exact .time here
  | memory here => exact .memory here
  | returned here => exact .returned here
  | lock step inside other mutex => exact .lock step inside other mutex
  | @syncCall lid c t who req next reply server runs here serves may =>
      have small : lid < 2 ^ 64 := by
        by_contra large
        rw [inv.unused lid c t (Nat.not_lt.mp large)] at runs
        cases runs
      have sends := inv.syncs lid c t small
      rw [here] at sends
      exact .syncCall runs here (same _ _ _ _ sends.1 serves) may
  | syncEntry runs here => exact .syncEntry runs here
  | synced runs here => exact .synced runs here

/-- A run over one of them is a run over the other. -/
theorem reach (same : ∀ x req reply y, req.InRange → serve x req reply y → serve' x req reply y)
    (reach : Reach (numbered serve) start s) : InRange s ∧ Reach (numbered serve') start s := by
  induction reach with
  | init h =>
      obtain ⟨server, starts, rfl⟩ := h
      exact ⟨initial server, .init ⟨server, starts, rfl⟩⟩
  | step _ step ih => exact ⟨ih.1.step step, ih.2.step (ih.1.step_congr same step)⟩

end InRange

end System

/-- **The wire is transparent.**  Any number of clients run any operations on inums of 64 bits.  The
states that they reach over the extent server are those that they reach when every request and
every reply is marshalled, handed to the handler that is registered for its number, and
unmarshalled. -/
theorem reach_over_wire_iff [LinearOrder C] [DecidableEq T] (lib : Librpc)
    {start : BlockManager → Prop}
    {s : State C T Op Res BlockManager} :
    Reach (numbered (wireServer lib)) start s ↔ Reach (numbered blockServer) start s := by
  constructor
  · exact fun reach =>
      (InRange.reach (fun _ _ _ _ inRange => (wireServer_iff lib inRange).mp) reach).2
  · exact fun reach =>
      (InRange.reach (fun _ _ _ _ inRange => (wireServer_iff lib inRange).mpr) reach).2

end Yfs.Client
