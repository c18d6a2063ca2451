import Yfs.Client.Directories
import Yfs.Client.FileContent
import Yfs.Client.Files
import Yfs.Client.Schedule

/-!
# Inums that are used again

An inum that was removed is handed out again by `alloc_inode`.  Whether the old file shows
in the new one depends on what the clients still have of it: `unlink` clears the cache of
its own client only.

The lifetime of an inum begins when the server hands it out.  What is shown for a lifetime is
that strings were made by operations of this lifetime; entries, replies on their way, `sync`s
that have read an entry and threads in the middle of a program all carry such strings, and the
invariant has a clause for each of these places where an old string could wait.

* `lifetime` — the events since an inum was last handed out.
* `Made` — a string made by the writes to the new file.
* `no_resurrection` — while an inum is handed out only when no client has anything of the
  old file, reads of the new file return what was written to it.
* `old_file_resurrected` — a run in which a client reads the old file.
-/

namespace Yfs.Client

open Storage Storage.ExtentServer Lock ByteBlock

variable {C T : Type} {α β : Type}

/-! ## The life of a file -/

/-- The events since inum `i` was last handed out, when it ever was. -/
def lifetime (i : ℕ) (history : List (Event C T Op Res)) : Option (List (Event C T Op Res)) :=
  history.foldl (fun events event =>
    if event.creates i then some [] else events.map (· ++ [event])) none

/-- **The strings that the writes among `events` can make of a new file** `i`.

The order is left open, a write may be left out and may count twice: this is an upper bound on
what the new file can have in it. -/
inductive Made (i : ℕ) (events : List (Event C T Op Res)) : List UInt8 → Prop where
  | empty : Made i events []
  | write {c : C} {t : T} {content : List UInt8} {off : ℕ} {data : List UInt8}
      (old : Made i events content) (mem : .invoked c t (.write i off data) ∈ events) :
      Made i events (contentWritten content off data)
  | setattr {c : C} {t : T} {content : List UInt8} {size : ℕ}
      (old : Made i events content) (mem : .invoked c t (.setattr i size) ∈ events) :
      Made i events (resize size content)

/-- **Nothing of an old file shows in a new one**: what was read of file `i` since it was
created, and what the server has of it, was written to it since. -/
structure NoResurrection (s : State C T Op Res FileMap) : Prop where
  reads : ∀ i events, lifetime i s.history = some events → ∀ c t size off bytes,
    .returned c t (.read i size off) (.data bytes) ∈ events →
      ∃ content, Made i events content ∧ bytes = bytesRead content size off
  stored : ∀ i events, lifetime i s.history = some events → ∀ file, s.server i = some file →
    Made i events file.data

section Lifetime

variable {i : ℕ} {history events events' : List (Event C T Op Res)} {event : Event C T Op Res}

theorem lifetime_snoc : lifetime i (history ++ [event]) =
    if event.creates i then some [] else (lifetime i history).map (· ++ [event]) := by
  simp [lifetime]

theorem Made.mono {content : List UInt8} (made : Made i events content)
    (sub : ∀ event ∈ events, event ∈ events') : Made i events' content := by
  induction made with
  | empty => exact .empty
  | write _ mem ih => exact .write ih (sub _ mem)
  | setattr _ mem ih => exact .setattr ih (sub _ mem)

/-- A new file is empty until it is written to. -/
theorem Made.eq_nil {content : List UInt8} (made : Made i events content)
    (notWritten : ∀ c t off data, .invoked c t (.write i off data) ∉ events)
    (notSet : ∀ c t size, .invoked c t (.setattr i size) ∉ events) : content = [] := by
  cases made with
  | empty => rfl
  | write _ mem => exact absurd mem (notWritten _ _ _ _)
  | setattr _ mem => exact absurd mem (notSet _ _ _)

end Lifetime

/-! ## Programs that keep to the new file -/

section Clean

variable (i : ℕ) (events : List (Event C T Op Res))

/-- An entry of file `i` that has nothing of an old file.

An entry that is neither valid nor dirty may have anything in its buffer, as nobody looks at it
before it is filled. -/
structure EntryOk (entry : Entry) : Prop where
  buf : ∀ file, entry = some file → file.bufValid = true ∨ file.dirty = true →
    Made i events file.buf
  attr : ∀ file, entry = some file → file.attrValid = true → file.attr.type = tFile

/-- A reply about file `i` that has nothing of an old file. -/
def ReplyOk (req : Request) (reply : Reply) : Prop :=
  req = .get i ∨ req = .getattr i →
    Made i events (replyFile reply).buf ∧ (replyFile reply).attr.type = tFile

theorem replyOk_create {type : ℕ} {reply : Reply} : ReplyOk i events (.create type) reply := by
  rintro (get | getattr)
  · cases get
  · cases getattr

/-- **A program that stores nothing of an old file** in the entry of file `i` or at the server;
it ends with a result in `post`.  A program that is about file `i` (`own`) finds nothing of an
old file there; another program does not look. -/
def Clean (own : Prop) (post : α → Prop) : Prog α → Prop
  | .ret a => post a
  | .acquire _ next | .release _ next => Clean own post next
  | .call req next => (∀ buf, req = .put i buf → own ∧ Made i events buf) ∧
      (req = .get i ∨ req = .getattr i → own) ∧ (∀ type, req = .create type → type = tFile) ∧
      ∀ reply, ReplyOk i events req reply → Clean own post (next reply)
  | .entry id update _ next => ∀ entry, (own → id = i → EntryOk i events entry) →
      (id = i → EntryOk i events (update entry)) ∧ Clean own post (next entry)
  | .time next => ∀ now, Clean own post (next now)
  | .memory next => ∀ bytes, Clean own post (next bytes)
  | .exit => True

end Clean

section Entries

variable {i : ℕ} {events events' : List (Event C T Op Res)} {entry : Entry}

theorem EntryOk.mono (ok : EntryOk i events entry) (sub : ∀ event ∈ events, event ∈ events') :
    EntryOk i events' entry :=
  ⟨fun file here valid => (ok.buf file here valid).mono sub, ok.attr⟩

theorem EntryOk.of_quiet (quiet : Quiet entry) : EntryOk i events entry := by
  refine ⟨fun file here valid => ?_, fun file here valid => ?_⟩
  · obtain ⟨buf, -, dirty⟩ := quiet file here
    rw [buf, dirty] at valid
    simp at valid
  · rw [(quiet file here).2.1] at valid
    cases valid

theorem EntryOk.filled {bytes : ℕ → UInt8} {f : FullFile} (made : Made i events f.buf)
    (type : f.attr.type = tFile) :
    EntryOk i events (some ((entry.getD (.blank bytes)).filled f)) := by
  refine ⟨?_, ?_⟩
  · rintro _ ⟨⟩ -
    exact made
  · rintro _ ⟨⟩ -
    exact type

theorem EntryOk.written (ok : EntryOk i events entry) {bytes : ℕ → UInt8} {buf : List UInt8}
    {atime ctime mtime : ℕ} (made : Made i events buf) :
    EntryOk i events (some ((entry.getD (.blank bytes)).written buf atime ctime mtime)) := by
  refine ⟨?_, ?_⟩
  · rintro _ ⟨⟩ -
    exact made
  · rintro _ ⟨⟩ valid
    cases entry with
    | none => cases valid
    | some file => exact ok.attr file rfl valid

end Entries

namespace Clean

variable {i : ℕ} {events : List (Event C T Op Res)} {own : Prop}

/-- The rule of sequences. -/
theorem bind {post : β → Prop} {p : Prog α} {k : α → Prog β}
    (first : Clean i events own (fun a => Clean i events own post (k a)) p) :
    Clean i events own post (p.bind k) := by
  induction p with
  | ret a => exact first
  | acquire lid next ih => exact ih first
  | release lid next ih => exact ih first
  | call req next ih =>
      exact ⟨first.1, first.2.1, first.2.2.1, fun reply ok => ih reply (first.2.2.2 reply ok)⟩
  | entry id update note next ih =>
      exact fun entry ok => ⟨(first entry ok).1, ih entry (first entry ok).2⟩
  | time next ih => exact fun now => ih now (first now)
  | memory next ih => exact fun bytes => ih bytes (first bytes)
  | exit => trivial

theorem lock {lid : ℕ} {post : β → Prop} {k : Unit → Prog β}
    (rest : Clean i events own post (k ())) :
    Clean i events own post ((Prog.lock lid).bind k) :=
  rest

theorem unlock {lid : ℕ} {post : β → Prop} {k : Unit → Prog β}
    (rest : Clean i events own post (k ())) :
    Clean i events own post ((Prog.unlock lid).bind k) :=
  rest

theorem memory {post : β → Prop} {k : (ℕ → UInt8) → Prog β}
    (rest : ∀ bytes, Clean i events own post (k bytes)) :
    Clean i events own post (Prog.uninitialised.bind k) :=
  rest

/-- A miss: the file is fetched and stored. -/
theorem miss {id : ℕ} {req : Request} {note : Reply → Option Note} {post : β → Prop}
    {k : FullFile → Prog β} (use : id = i → own) (fetch : req = .get id ∨ req = .getattr id)
    (rest : ∀ f, (id = i → Made i events f.buf ∧ f.attr.type = tFile) →
      Clean i events own post (k f)) :
    Clean i events own post ((Prog.rpc req).bind fun reply =>
      (ExtentClient.fill id (note reply) (replyFile reply)).bind k) := by
  have asked : ∀ reply, ReplyOk i events req reply → id = i →
      Made i events (replyFile reply).buf ∧ (replyFile reply).attr.type = tFile := by
    rintro reply ok rfl
    exact ok fetch
  refine ⟨?_, ?_, ?_, fun reply ok bytes entry _ => ⟨fun same => ?_, rest _ (asked reply ok)⟩⟩
  · rintro buf rfl
    rcases fetch with eq | eq <;> cases eq
  · intro named
    refine use ?_
    rcases fetch with rfl | rfl <;> rcases named with eq | eq <;> cases eq <;> rfl
  · rintro type rfl
    rcases fetch with eq | eq <;> cases eq
  · obtain ⟨made, type⟩ := asked reply ok same
    exact .filled made type

theorem get {id : ℕ} {post : List UInt8 → Prop} (use : id = i → own)
    (rest : ∀ buf, (id = i → Made i events buf) → post buf) :
    Clean i events own post (ExtentClient.get id) := by
  have missed : Clean i events own post ((Prog.rpc (.get id)).bind fun reply =>
      (ExtentClient.fill id (some (.got id (replyFile reply).buf)) (replyFile reply)).bind fun f =>
        .ret f.buf) :=
    miss use (Or.inl rfl) fun f made => rest f.buf fun same => (made same).1
  intro entry known
  refine ⟨fun same => known (use same) same, ?_⟩
  match entry, known with
  | none, _ => exact missed
  | some ⟨_, _, false, _, _⟩, _ => exact missed
  | some ⟨_, buf, true, _, _⟩, known =>
      exact rest buf fun same => (known (use same) same).buf _ rfl (Or.inl rfl)

theorem getattr {id : ℕ} {post : Attr → Prop} (use : id = i → own)
    (rest : ∀ attr, (id = i → attr.type = tFile) → post attr) :
    Clean i events own post (ExtentClient.getattr id) := by
  have missed : Clean i events own post ((Prog.rpc (.getattr id)).bind fun reply =>
      (ExtentClient.fill id none (replyFile reply)).bind fun f => .ret f.attr) :=
    miss use (Or.inr rfl) fun f made => rest f.attr fun same => (made same).2
  intro entry known
  refine ⟨fun same => known (use same) same, ?_⟩
  match entry, known with
  | none, _ => exact missed
  | some ⟨_, _, _, false, _⟩, _ => exact missed
  | some ⟨attr, _, _, true, _⟩, known =>
      exact rest attr fun same => (known (use same) same).attr _ rfl rfl

theorem put {id : ℕ} {buf : List UInt8} {post : Unit → Prop} (use : id = i → own)
    (made : id = i → Made i events buf) (rest : post ()) :
    Clean i events own post (ExtentClient.put id buf) := by
  intro bytes atime ctime mtime entry known
  exact ⟨fun same => (known (use same) same).written (made same), rest⟩

theorem create {post : ℕ → Prop} (rest : ∀ id, post id) :
    Clean i events own post (ExtentClient.create tFile) := by
  intro bytes atime ctime mtime
  refine ⟨nofun, nofun, by rintro type ⟨⟩; rfl, fun reply _ entry _ => ⟨fun _ => ⟨?_, ?_⟩, rest _⟩⟩
  · rintro _ ⟨⟩ -
    exact .empty
  · rintro _ ⟨⟩ -
    rfl

theorem remove {id : ℕ} {post : Unit → Prop} (rest : post ()) :
    Clean i events own post (ExtentClient.remove id) := by
  refine fun entry _ => ⟨fun _ => ⟨nofun, nofun⟩, nofun, nofun, nofun, fun _ _ => rest⟩

/-- A directory is not file `i`: the type of a file ends the program. -/
theorem readdirNoSeria {dir : ℕ} {post : List Dirent → Prop} (use : dir = i → own)
    (rest : ∀ list, dir ≠ i → post list) :
    Clean i events own post (YfsClient.readdirNoSeria dir) := by
  refine bind (get use fun buf _ => bind (getattr use fun attr type => ?_))
  split
  next => trivial
  next directory =>
      refine memory fun stack => rest _ fun same => directory ?_
      rw [type same]
      decide

theorem lookupNoSeria {dir : ℕ} {name : List UInt8} {post : Option ℕ → Prop} (use : dir = i → own)
    (rest : ∀ found, dir ≠ i → post found) :
    Clean i events own post (YfsClient.lookupNoSeria dir name) :=
  bind (readdirNoSeria use fun _ ne => rest _ ne)

theorem encodeDir {list : List Dirent} {post : List UInt8 → Prop} (rest : ∀ buf, post buf) :
    Clean i events own post (YfsClient.encodeDir list) := by
  induction list generalizing post with
  | nil => exact rest []
  | cons ent list ih => exact memory fun bytes => bind (ih fun buf => rest _)

theorem sync : Clean i events True (fun _ => True) (ExtentClient.sync i) := by
  intro entry known
  have ok := known trivial rfl
  refine ⟨fun _ => ?_, ?_⟩
  · match entry, ok with
    | none, _ => exact ⟨nofun, nofun⟩
    | some file, ok =>
        refine ⟨?_, ?_⟩
        · rintro _ ⟨⟩ (valid | dirty)
          · cases valid
          · exact ok.buf file rfl (Or.inr dirty)
        · rintro _ ⟨⟩ valid
          cases valid
  · match entry, ok with
    | none, _ => trivial
    | some ⟨_, _, _, _, false⟩, _ => trivial
    | some ⟨_, buf, _, _, true⟩, ok =>
        refine ⟨?_, nofun, nofun, fun reply _ entry known => ⟨fun _ => ?_, trivial⟩⟩
        · rintro _ ⟨⟩
          exact ⟨trivial, ok.buf _ rfl (Or.inr rfl)⟩
        · have ok := known trivial rfl
          match entry, ok with
          | none, _ => exact ⟨nofun, nofun⟩
          | some file, ok =>
              refine ⟨?_, ?_⟩
              · rintro _ ⟨⟩ (valid | dirty)
                · exact ok.buf file rfl (Or.inl valid)
                · cases dirty
              · rintro _ ⟨⟩ valid
                exact ok.attr file rfl valid

end Clean

/-- The operations of the clients. -/
def ReuseOp : Op → Prop
  | .create .. | .write .. | .setattr .. | .read .. | .lookup .. | .unlink .. => True
  | _ => False

/-- What an operation may return: `read` of file `i` returns what was written to it. -/
def ResultOk (i : ℕ) (events : List (Event C T Op Res)) (op : Op) (res : Res) : Prop :=
  ∀ size off bytes, op = .read i size off → res = .data bytes →
    ∃ content, Made i events content ∧ bytes = bytesRead content size off

/-- **The operations store nothing of an old file.** -/
theorem clean_prog {i : ℕ} {events : List (Event C T Op Res)} {own : Prop} {op : Op}
    (may : ReuseOp op) (use : op.target = i → own)
    (invoked : op.target = i → ∃ c t, .invoked c t op ∈ events) :
    Clean i events own (ResultOk i events op) op.prog := by
  cases op with
  | create parent name =>
      refine .bind (.lock (.bind (.lookupNoSeria use fun found ne => ?_)))
      have apart : ∀ {P : Prop}, parent = i → P := fun same => absurd same ne
      cases found with
      | some ino => exact .unlock (by rintro _ _ _ ⟨⟩)
      | none =>
          exact .bind (.create fun ino => .bind (.get apart fun buf _ => .bind (.memory fun bytes =>
            .bind (.put apart apart (.unlock (by rintro _ _ _ ⟨⟩))))))
  | lookup parent name =>
      exact .bind (.lock (.bind (.lookupNoSeria use fun found ne => .unlock (by rintro _ _ _ ⟨⟩))))
  | unlink parent name =>
      refine .bind (.lock (.bind (.readdirNoSeria use fun list ne => ?_)))
      have apart : ∀ {P : Prop}, parent = i → P := fun same => absurd same ne
      split
      · exact .unlock (by rintro _ _ _ ⟨⟩)
      · exact .bind (.remove (.bind (.encodeDir fun buf => .bind (.put apart apart
          (.unlock (by rintro _ _ _ ⟨⟩))))))
  | read ino size off =>
      refine .bind (.lock (.bind (.get use fun content made => .unlock ?_)))
      have returns : ∀ bytes, bytes = bytesRead content size off →
          ResultOk i events (.read ino size off) (.data bytes) := by
        rintro bytes eq size' off' bytes' ⟨⟩ ⟨⟩
        exact ⟨content, made rfl, eq⟩
      split_ifs with past far
      · exact returns _ (by rw [bytesRead, if_pos past])
      · trivial
      · exact returns _ (by rw [bytesRead, if_neg past])
  | write ino off data =>
      refine .bind (.lock (.bind (.get use fun content made => ?_)))
      -- what the write stores is made by the write, from what could be made before
      have stores : ino = i → Made i events (contentWritten content off data) := by
        intro same
        obtain ⟨c, t, mem⟩ := invoked same
        have old := made same
        subst same
        exact .write old mem
      split_ifs with inside far
      · trivial
      · rw [contentWritten, if_pos inside] at stores
        exact .bind (.put use stores (.unlock (by rintro _ _ _ ⟨⟩)))
      · rw [contentWritten, if_neg inside] at stores
        exact .bind (.put use stores (.unlock (by rintro _ _ _ ⟨⟩)))
  | setattr ino size =>
      refine .bind (.lock (.bind (.get use fun content made =>
        .bind (.put use ?_ (.unlock (by rintro _ _ _ ⟨⟩))))))
      intro same
      obtain ⟨c, t, mem⟩ := invoked same
      have old := made same
      subst same
      exact .setattr old mem
  | _ => exact may.elim

/-! ## The invariant -/

/-- The operation that a thread runs, and what is left of it. -/
def Thread.rest : Thread Op Res → Option (Op × Prog Res)
  | .idle => none
  | .run op prog | .acquiring op _ prog | .releasing op _ prog => some (op, prog)

/-- **No client has anything of file `i`**: no valid or dirty entry, no operation on it, no
release at its `sync`.

This is asked of an inum when the server hands it out.  The server does not know; clients would
have to drop what they have when a file is removed. -/
structure Forgotten (s : State C T Op Res FileMap) (i : ℕ) : Prop where
  quiet : ∀ c, Quiet (s.cache c i)
  apart : ∀ c t op prog, (s.thread c t).rest = some (op, prog) → op.target ≠ i
  sync : ∀ c t who, (s.locks i).pc c t ≠ .releasing who .sync

/-- The extent that a request names. -/
def named : Request → Option ℕ
  | .create _ => none
  | .put id _ | .get id | .getattr id | .remove id => some id

/-- Clients of the extent server, whose requests name live inums.  When an inum is handed
out, `cond` holds of it. -/
def reusing (cond : State C T Op Res FileMap → ℕ → Prop) : Machine C T Op Res FileMap where
  prog := Op.prog
  serve := fileServer
  mayInvoke _ op := ReuseOp op
  mayStore _ _ _ _ _ _ := True
  mayCall s req reply := (∀ id, named req = some id → s.server id ≠ none) ∧
    ∀ type id, req = .create type → reply = .created id → cond s id

/-- What is left of a thread's operation stores nothing of an old file.

While the thread works in a directory it may touch another file, the one that it makes or removes;
that is the first field. -/
structure ThreadClean (history : List (Event C T Op Res)) (thread : Thread Op Res) : Prop where
  apart : ∀ op prog, thread.rest = some (op, prog) → ∀ i, op.target ≠ i →
    ∀ events : List (Event C T Op Res), Clean i events False (ResultOk i events op) prog
  own : ∀ op prog, thread.rest = some (op, prog) → ∀ old, lifetime op.target history = some old →
    ∀ events, old ⊆ events → Clean op.target events True (ResultOk op.target events op) prog

/-- **Nothing of an old file is left** of an inum that was handed out. -/
structure ReuseInv (s : State C T Op Res FileMap) : Prop where
  threads : ∀ c t, ThreadClean s.history (s.thread c t)
  only : ∀ lid c t, SyncOnly lid (s.sync lid c t)
  server : ∀ i events, lifetime i s.history = some events → ∀ file, s.server i = some file →
    Made i events file.data ∧ file.type = tFile
  cache : ∀ i events, lifetime i s.history = some events → ∀ c, EntryOk i events (s.cache c i)
  sync : ∀ i old, lifetime i s.history = some old → ∀ c t events, old ⊆ events →
    Clean i events True (fun _ => True) (s.sync i c t)
  reads : ∀ i events, lifetime i s.history = some events → ∀ c t op res,
    .returned c t op res ∈ events → ResultOk i events op res

section Histories

variable {i : ℕ} {history history' events : List (Event C T Op Res)} {event : Event C T Op Res}

/-- `history'` goes on from `history` and hands out nothing. -/
def Goes (history history' : List (Event C T Op Res)) : Prop :=
  ∀ i events, lifetime i history' = some events →
    ∃ old, lifetime i history = some old ∧ old ⊆ events ∧
      ∀ c t op res, .returned c t op res ∈ events → .returned c t op res ∈ old

/-- The events since an inum was handed out go on. -/
theorem lifetime_of_snoc (here : lifetime i (history ++ [event]) = some events)
    (other : event.creates i = false) :
    ∃ old, lifetime i history = some old ∧ events = old ++ [event] := by
  rw [lifetime_snoc, other, if_neg Bool.false_ne_true] at here
  obtain ⟨old, before, rfl⟩ := Option.map_eq_some_iff.mp here
  exact ⟨old, before, rfl⟩

theorem Goes.refl : Goes history history :=
  fun _ events here => ⟨events, here, fun _ mem => mem, fun _ _ _ _ mem => mem⟩

theorem Goes.snoc (other : ∀ i, event.creates i = false)
    (notReturned : ∀ c t op res, event ≠ .returned c t op res) :
    Goes history (history ++ [event]) := by
  intro i events here
  obtain ⟨old, before, rfl⟩ := lifetime_of_snoc here (other i)
  refine ⟨old, before, List.subset_append_left _ _, fun c t op res mem => ?_⟩
  rcases List.mem_append.mp mem with mem | mem
  · exact mem
  · exact absurd (List.mem_singleton.mp mem).symm (notReturned c t op res)

theorem ResultOk.mono {events' : List (Event C T Op Res)} {op : Op} {res : Res}
    (ok : ResultOk i events op res) (sub : events ⊆ events') : ResultOk i events' op res := by
  intro size off bytes reads returns
  obtain ⟨content, made, eq⟩ := ok size off bytes reads returns
  exact ⟨content, made.mono fun _ mem => sub mem, eq⟩

theorem ThreadClean.goes {thread : Thread Op Res} (clean : ThreadClean history thread)
    (goes : Goes history history') : ThreadClean history' thread := by
  refine ⟨clean.apart, fun op prog rest events here events' sub => ?_⟩
  obtain ⟨old, before, le, -⟩ := goes _ _ here
  exact clean.own op prog rest old before events' fun _ mem => sub (le mem)

/-- A thread goes on, whatever file it is about. -/
theorem ThreadClean.next {thread thread' : Thread Op Res} {op : Op} {prog prog' : Prog Res}
    (clean : ThreadClean history thread) (rest : thread.rest = some (op, prog))
    (rest' : thread'.rest = some (op, prog'))
    (step : ∀ i (events : List (Event C T Op Res)) own,
      Clean i events own (ResultOk i events op) prog →
      Clean i events own (ResultOk i events op) prog') : ThreadClean history thread' := by
  refine ⟨fun op' next here i ne events => ?_, fun op' next here old before events sub => ?_⟩ <;>
    rw [rest'] at here <;> cases here
  · exact step i events False (clean.apart op prog rest i ne events)
  · exact step _ events True (clean.own op prog rest old before events sub)

theorem ThreadClean.idle : ThreadClean history .idle := ⟨nofun, nofun⟩

end Histories

/-! ### The server -/

section Server

variable {i : ℕ} {events : List (Event C T Op Res)} {x y : FileMap} {req : Request} {reply : Reply}

/-- A request that stores nothing of an old file, and does not hand out `i`. -/
theorem clean_of_serves (serves : fileServer x req reply y)
    (put : ∀ buf, req = .put i buf → Made i events buf)
    (other : ∀ type, req = .create type → reply ≠ .created i)
    (old : ∀ file, x i = some file → Made i events file.data ∧ file.type = tFile) (file : File)
    (live : y i = some file) : Made i events file.data ∧ file.type = tFile := by
  obtain ⟨answers, rfl⟩ := serves
  cases req with
  | create type =>
      match reply, answers with
      | .created id, _ =>
          have ne : i ≠ id := by
            rintro rfl
            exact other type rfl rfl
          rw [afterRequest, Function.update_of_ne ne] at live
          exact old file live
  | put id buf =>
      by_cases same : i = id
      · subst same
        rw [afterRequest, putFile, Function.update_self] at live
        obtain ⟨before, here, rfl⟩ := Option.map_eq_some_iff.mp live
        exact ⟨put buf rfl, (old before here).2⟩
      · rw [afterRequest, putFile, Function.update_of_ne same] at live
        exact old file live
  | get id => exact old file live
  | getattr id => exact old file live
  | remove id =>
      by_cases same : i = id
      · subst same
        rw [afterRequest, Function.update_self] at live
        cases live
      · rw [afterRequest, Function.update_of_ne same] at live
        exact old file live

theorem replyOk_of_serves (serves : fileServer x req reply y)
    (old : ∀ file, x i = some file → Made i events file.data ∧ file.type = tFile) :
    ReplyOk i events req reply := by
  have shown : ∀ {f : FullFile}, (∃ file, x i = some file ∧ f.buf = file.data ∧
      f.attr.size = file.data.length ∧ f.attr.type = file.type) →
      Made i events f.buf ∧ f.attr.type = tFile := by
    rintro f ⟨file, here, buf, -, type⟩
    obtain ⟨made, isFile⟩ := old file here
    rw [buf, type]
    exact ⟨made, isFile⟩
  rintro (rfl | rfl)
  · match reply, serves.1 with
    | .file f, answers => exact shown answers
  · match reply, serves.1 with
    | .file f, answers => exact shown answers

end Server

section Steps

variable [LinearOrder C] [DecidableEq T] {s s' : State C T Op Res FileMap} {c : C} {t : T}

namespace ReuseInv

omit [LinearOrder C] [DecidableEq T] in
/-- A step that hands out nothing: what the caches, the server and the `sync`s have stays
clean, and so do the threads. -/
theorem goes (inv : ReuseInv s) (goes : Goes s.history s'.history)
    (threads : ∀ c t, ThreadClean s'.history (s'.thread c t))
    (only : ∀ lid c t, SyncOnly lid (s'.sync lid c t))
    (server : ∀ i old, lifetime i s.history = some old → ∀ file, s'.server i = some file →
      Made i old file.data ∧ file.type = tFile)
    (cache : ∀ i old, lifetime i s.history = some old → ∀ c, EntryOk i old (s'.cache c i))
    (sync : ∀ i old, lifetime i s.history = some old → ∀ c t events, old ⊆ events →
      Clean i events True (fun _ => True) (s'.sync i c t)) : ReuseInv s' := by
  refine ⟨threads, only, fun i events here file live => ?_, fun i events here c => ?_,
    fun i events here c t events' sub => ?_, fun i events here c t op res mem => ?_⟩
  all_goals obtain ⟨old, before, le, returned⟩ := goes i events here
  · obtain ⟨made, type⟩ := server i old before file live
    exact ⟨made.mono fun _ mem => le mem, type⟩
  · exact (cache i old before c).mono fun _ mem => le mem
  · exact sync i old before c t events' fun _ mem => sub (le mem)
  · exact (inv.reads i old before c t op res (returned c t op res mem)).mono le

/-- A thread goes on; the caches, the server and the `sync`s stay as they are. -/
theorem runs (inv : ReuseInv s) {thread : Thread Op Res} (goes : Goes s.history s'.history)
    (cache : s'.cache = s.cache) (server : s'.server = s.server) (sync : s'.sync = s.sync)
    (threads : s'.thread = (s.setThread c t thread).thread)
    (clean : ThreadClean s'.history thread) : ReuseInv s' := by
  refine inv.goes goes (fun b u => ?_) (by rw [sync]; exact inv.only)
    (by rw [server]; exact inv.server) (by rw [cache]; exact inv.cache)
    (by rw [sync]; exact inv.sync)
  rw [threads]
  by_cases same : b = c ∧ u = t
  · obtain ⟨rfl, rfl⟩ := same
    rw [State.setThread_thread_self]
    exact clean
  · rw [State.setThread_thread_of_ne same]
    exact (inv.threads b u).goes goes

/-- A remote call that hands out nothing. -/
theorem call (inv : ReuseInv s) {op : Op} {req : Request} {next : Reply → Prog Res} {reply : Reply}
    {server : FileMap} (here : s.thread c t = .run op (.call req next))
    (serves : fileServer s.server req reply server)
    (other : ∀ type id, req = .create type → reply ≠ .created id) :
    ReuseInv (({ s with server := server }.setThread c t (.run op (next reply))).record
      (.called c t req reply)) := by
  have clean := inv.threads c t
  rw [here] at clean
  -- no lifetime begins
  have goes : Goes s.history (s.history ++ [.called c t req reply]) := by
    refine .snoc (fun i => ?_) nofun
    cases req with
    | create type =>
        cases reply with
        | created id => exact absurd rfl (other type id rfl)
        | _ => rfl
    | _ => cases reply <;> rfl
  refine inv.goes goes (fun b u => ?_) inv.only (fun i old before file live => ?_) inv.cache
    inv.sync
  · simp only [State.record_thread, State.record_history, State.setThread_history]
    by_cases same : b = c ∧ u = t
    · obtain ⟨rfl, rfl⟩ := same
      rw [State.setThread_thread_self]
      refine ThreadClean.goes ⟨fun op' prog rest i ne events => ?_,
        fun op' prog rest old before events sub => ?_⟩ goes
      · cases rest
        obtain ⟨-, use, -, rest⟩ := clean.apart _ _ rfl i ne events
        exact rest reply fun asked => (use asked).elim
      · cases rest
        obtain ⟨-, -, -, rest⟩ := clean.own _ _ rfl old before events sub
        refine rest reply (replyOk_of_serves serves fun file live => ?_)
        obtain ⟨made, type⟩ := inv.server _ old before file live
        exact ⟨made.mono fun _ mem => sub mem, type⟩
    · rw [State.setThread_thread_of_ne same]
      exact (inv.threads b u).goes goes
  -- what the server now has was there, or was put by the thread
  · refine clean_of_serves serves (fun buf put => ?_) (fun type create => other type i create)
      (inv.server i old before) file live
    by_cases same : op.target = i
    · subst same
      exact ((clean.own _ _ rfl old before old fun _ mem => mem).1 buf put).2
    · exact (((clean.apart _ _ rfl i same old).1 buf put).1).elim

/-- **An inum is handed out**, when no client has anything of the old file. -/
theorem create (inv : ReuseInv s) {op : Op} {type id : ℕ} {next : Reply → Prog Res}
    {server : FileMap} (here : s.thread c t = .run op (.call (.create type) next))
    (serves : fileServer s.server (.create type) (.created id) server) (forgotten : Forgotten s id)
    (unsynced : Unsynced s) :
    ReuseInv (({ s with server := server }.setThread c t (.run op (next (.created id)))).record
      (.called c t (.create type) (.created id))) := by
  have clean := inv.threads c t
  rw [here] at clean
  -- no operation of the machine creates anything but a file
  have isFile : type = tFile :=
    (clean.apart _ _ rfl (op.target + 1) (by omega) []).2.2.1 type rfl
  -- what was known of another inum is still known, and nothing has happened to the new one
  have life : ∀ {i events}, lifetime i (s.history ++ [.called c t (.create type) (.created id)]) =
      some events → (i = id ∧ events = []) ∨
        ∃ old, i ≠ id ∧ lifetime i s.history = some old ∧
          events = old ++ [.called c t (.create type) (.created id)] := by
    intro i events now
    by_cases same : i = id
    · subst same
      rw [lifetime_snoc] at now
      simp only [Event.creates, decide_true, if_true, Option.some.injEq] at now
      exact Or.inl ⟨rfl, now.symm⟩
    · obtain ⟨old, before, eq⟩ := lifetime_of_snoc now (decide_eq_false (Ne.symm same))
      exact Or.inr ⟨old, same, before, eq⟩
  have elsewhere : ∀ {i}, i ≠ id → server i = s.server i := by
    intro i ne
    rw [serves.2, afterRequest, Function.update_of_ne ne]
  refine ⟨fun b u => ?_, inv.only, fun i events now file live => ?_, fun i events now b => ?_,
    fun i events now b u events' sub => ?_, fun i events now b u op res mem => ?_⟩
  · simp only [State.record_thread, State.record_history, State.setThread_history]
    refine ⟨?_, fun op' prog rest events now events' sub => ?_⟩ <;> by_cases same : b = c ∧ u = t
    · obtain ⟨rfl, rfl⟩ := same
      rw [State.setThread_thread_self]
      intro op' prog rest i ne events
      cases rest
      exact (clean.apart _ _ rfl i ne events).2.2.2 _ (replyOk_create _ _)
    · rw [State.setThread_thread_of_ne same]
      exact (inv.threads b u).apart
    · obtain ⟨rfl, rfl⟩ := same
      rw [State.setThread_thread_self] at rest
      cases rest
      rcases life now with ⟨target, -⟩ | ⟨old, -, before, rfl⟩
      · exact absurd target (forgotten.apart b u op _ (by rw [here]; rfl))
      · refine (clean.own _ _ rfl old before events' fun _ mem => ?_).2.2.2 _ (replyOk_create _ _)
        exact sub (List.mem_append_left _ mem)
    · rw [State.setThread_thread_of_ne same] at rest
      rcases life now with ⟨target, -⟩ | ⟨old, -, before, rfl⟩
      · exact absurd target (forgotten.apart b u op' prog rest)
      · refine (inv.threads b u).own op' prog rest old before events' fun _ mem => ?_
        exact sub (List.mem_append_left _ mem)
  · rcases life now with ⟨rfl, rfl⟩ | ⟨old, ne, before, rfl⟩
    · have new : server i = some ⟨type, []⟩ := by
        rw [serves.2, afterRequest, Function.update_self]
      have eq : some file = some ⟨type, []⟩ := live.symm.trans new
      cases eq
      exact ⟨.empty, isFile⟩
    · obtain ⟨made, type'⟩ := inv.server i old before file ((elsewhere ne).symm.trans live)
      exact ⟨made.mono fun _ mem => List.mem_append_left _ mem, type'⟩
  · rcases life now with ⟨rfl, rfl⟩ | ⟨old, ne, before, rfl⟩
    · exact .of_quiet (forgotten.quiet b)
    · exact (inv.cache i old before b).mono fun _ mem => List.mem_append_left _ mem
  · rcases life now with ⟨rfl, rfl⟩ | ⟨old, ne, before, rfl⟩
    · have whole : s.sync i b u = ExtentClient.sync i := unsynced i b u (forgotten.sync b u)
      simp only [State.record_sync, State.setThread_sync, whole]
      exact .sync
    · exact inv.sync i old before b u events' fun _ mem => sub (List.mem_append_left _ mem)
  · rcases life now with ⟨rfl, rfl⟩ | ⟨old, ne, before, rfl⟩
    · cases mem
    · rcases List.mem_append.mp mem with mem | mem
      · exact (inv.reads i old before b u op res mem).mono (List.subset_append_left _ _)
      · cases List.mem_singleton.mp mem

omit [LinearOrder C] [DecidableEq T] in
/-- The history after a note. -/
theorem goes_recordNote {note : Option Note} :
    Goes s.history (s.recordNote c t note).history := by
  cases note with
  | none => exact .refl
  | some note => exact .snoc (fun _ => rfl) nofun

/-- An access to an entry. -/
theorem entry (inv : ReuseInv s) {op : Op} {id : ℕ} {update : Entry → Entry}
    {note : Entry → Option Note} {next : Entry → Prog Res}
    (here : s.thread c t = .run op (.entry id update note next)) :
    ReuseInv (((s.setEntry c id (update (s.cache c id))).setThread c t
      (.run op (next (s.cache c id)))).recordNote c t (note (s.cache c id))) := by
  have clean := inv.threads c t
  rw [here] at clean
  have goes : Goes s.history (((s.setEntry c id (update (s.cache c id))).setThread c t
      (.run op (next (s.cache c id)))).recordNote c t (note (s.cache c id))).history :=
    goes_recordNote
  refine inv.goes goes (fun b u => ?_) (by simpa using inv.only) (by simpa using inv.server)
    (fun i old before b => ?_) (by simpa using inv.sync)
  · simp only [State.recordNote_thread]
    by_cases same : b = c ∧ u = t
    · obtain ⟨rfl, rfl⟩ := same
      rw [State.setThread_thread_self]
      refine ThreadClean.goes ⟨fun op' prog rest i ne events => ?_,
        fun op' prog rest old before events sub => ?_⟩ goes
      · cases rest
        exact (clean.apart _ _ rfl i ne events (s.cache b id) fun own => own.elim).2
      · cases rest
        refine (clean.own _ _ rfl old before events sub (s.cache b id) fun _ same => ?_).2
        subst same
        exact (inv.cache _ old before b).mono fun _ mem => sub mem
    · rw [State.setThread_thread_of_ne same]
      exact (inv.threads b u).goes goes
  · simp only [State.recordNote_cache, State.setThread_cache]
    by_cases same : b = c ∧ i = id
    · obtain ⟨rfl, rfl⟩ := same
      rw [State.setEntry_cache_self]
      by_cases target : op.target = i
      · subst target
        exact (clean.own _ _ rfl old before old (fun _ mem => mem) _
          fun _ _ => inv.cache _ old before b).1 rfl
      · exact (clean.apart _ _ rfl i target old _ fun own => own.elim).1 rfl
    · rw [State.setEntry_cache_of_ne same]
      exact inv.cache i old before b

/-- An operation returns. -/
theorem returned (inv : ReuseInv s) {op : Op} {res : Res}
    (here : s.thread c t = .run op (.ret res)) :
    ReuseInv ((s.setThread c t .idle).record (.returned c t op res)) := by
  have clean := inv.threads c t
  rw [here] at clean
  have life : ∀ {i events}, lifetime i (s.history ++ [.returned c t op res]) = some events →
      ∃ old, lifetime i s.history = some old ∧ events = old ++ [.returned c t op res] :=
    fun now => lifetime_of_snoc now rfl
  refine ⟨fun b u => ?_, inv.only, fun i events now file live => ?_, fun i events now b => ?_,
    fun i events now b u events' sub => ?_, fun i events now b u op' res' mem => ?_⟩
  · simp only [State.record_thread]
    by_cases same : b = c ∧ u = t
    · obtain ⟨rfl, rfl⟩ := same
      rw [State.setThread_thread_self]
      exact .idle
    · rw [State.setThread_thread_of_ne same]
      refine ⟨(inv.threads b u).apart, fun op' prog rest events now events' sub => ?_⟩
      obtain ⟨old, before, rfl⟩ := life now
      exact (inv.threads b u).own op' prog rest old before events'
        fun _ mem => sub (List.mem_append_left _ mem)
  · obtain ⟨old, before, rfl⟩ := life now
    obtain ⟨made, type⟩ := inv.server i old before file live
    exact ⟨made.mono fun _ mem => List.mem_append_left _ mem, type⟩
  · obtain ⟨old, before, rfl⟩ := life now
    exact (inv.cache i old before b).mono fun _ mem => List.mem_append_left _ mem
  · obtain ⟨old, before, rfl⟩ := life now
    exact inv.sync i old before b u events' fun _ mem => sub (List.mem_append_left _ mem)
  · obtain ⟨old, before, rfl⟩ := life now
    rcases List.mem_append.mp mem with mem | mem
    · exact (inv.reads i old before b u op' res' mem).mono (List.subset_append_left _ _)
    · cases List.mem_singleton.mp mem
      -- only an operation on the file itself tells what the file has
      by_cases target : op.target = i
      · subst target
        exact clean.own op _ rfl old before _ (List.subset_append_left _ _)
      · rintro size off bytes rfl
        exact absurd rfl target

/-- What is left of the `sync`s after one of them went on. -/
theorem only_setSync (inv : ReuseInv s) {lid : ℕ} {prog : Prog Unit} (rest : SyncOnly lid prog)
    (l : ℕ) (b : C) (u : T) : SyncOnly l ((s.setSync lid c t prog).sync l b u) := by
  by_cases same : l = lid ∧ b = c ∧ u = t
  · obtain ⟨rfl, rfl, rfl⟩ := same
    rw [State.setSync_sync_self]
    exact rest
  · rw [State.setSync_sync_of_ne same]
    exact inv.only l b u

theorem sync_setSync (inv : ReuseInv s) {lid : ℕ} {prog : Prog Unit}
    (rest : ∀ old, lifetime lid s.history = some old → ∀ events, old ⊆ events →
      Clean lid events True (fun _ => True) prog) (i : ℕ) (old : List (Event C T Op Res))
    (before : lifetime i s.history = some old) (b : C) (u : T) (events : List (Event C T Op Res))
    (sub : old ⊆ events) :
    Clean i events True (fun _ => True) ((s.setSync lid c t prog).sync i b u) := by
  by_cases same : i = lid ∧ b = c ∧ u = t
  · obtain ⟨rfl, rfl, rfl⟩ := same
    rw [State.setSync_sync_self]
    exact rest old before events sub
  · rw [State.setSync_sync_of_ne same]
    exact inv.sync i old before b u events sub

/-- **Every step keeps the invariant.** -/
theorem step (inv : ReuseInv s) (unsynced : Unsynced s) (step : Step (reusing Forgotten) s s') :
    ReuseInv s' := by
  cases step with
  | @invoke c t op idle may =>
      refine inv.runs (.snoc (fun _ => rfl) nofun) rfl rfl rfl rfl
        ⟨fun op' prog rest i ne events => ?_, fun op' prog rest old now events sub => ?_⟩ <;>
        cases rest
      · exact clean_prog may (fun same => absurd same ne) fun same => absurd same ne
      · refine clean_prog may (fun _ => trivial) fun _ => ⟨c, t, sub ?_⟩
        obtain ⟨before, -, rfl⟩ := lifetime_of_snoc now rfl
        exact List.mem_append_right _ (List.mem_singleton.mpr rfl)
  | @acquire c t op lid next lock here step mutex =>
      have clean := inv.threads c t
      rw [here] at clean
      exact inv.runs .refl rfl rfl rfl rfl (clean.next rfl rfl fun _ _ _ rest => rest)
  | @acquired c t op lid next here done =>
      have clean := inv.threads c t
      rw [here] at clean
      have goes : Goes s.history (s.history ++ [.acquired c t lid]) := .snoc (fun _ => rfl) nofun
      exact inv.runs goes rfl rfl rfl rfl ((clean.next rfl rfl fun _ _ _ rest => rest).goes goes)
  | @release c t op lid next lock here step mutex =>
      have clean := inv.threads c t
      rw [here] at clean
      have goes : Goes s.history (s.history ++ [.released c t lid]) := .snoc (fun _ => rfl) nofun
      have moved : ThreadClean s.history (.releasing op lid next) :=
        clean.next rfl rfl fun _ _ _ rest => rest
      exact inv.runs goes rfl rfl rfl rfl (moved.goes goes)
  | @released c t op lid next here done =>
      have clean := inv.threads c t
      rw [here] at clean
      exact inv.runs .refl rfl rfl rfl rfl (clean.next rfl rfl fun _ _ _ rest => rest)
  | @call c t op req next reply server here serves may =>
      -- the condition of the machine is needed in the first case only
      by_cases new : ∃ type id, req = .create type ∧ reply = .created id
      · obtain ⟨type, id, rfl, rfl⟩ := new
        exact inv.create here serves (may.2 type id rfl rfl) unsynced
      · exact inv.call here serves fun type id create created => new ⟨type, id, create, created⟩
  | @entry c t op id update note next here may => exact inv.entry here
  | @time c t op next now here =>
      have clean := inv.threads c t
      rw [here] at clean
      exact inv.runs .refl rfl rfl rfl rfl (clean.next rfl rfl fun _ _ _ rest => rest now)
  | @memory c t op next bytes here =>
      have clean := inv.threads c t
      rw [here] at clean
      exact inv.runs .refl rfl rfl rfl rfl (clean.next rfl rfl fun _ _ _ rest => rest bytes)
  | @returned c t op res here => exact inv.returned here
  -- what the locks do is not looked at: the invariant is about what is stored, not about who may
  | @lock lid label lock step inside other mutex =>
      exact inv.goes .refl inv.threads inv.only inv.server inv.cache inv.sync
  | @syncCall lid c t who req next reply server runs here serves may =>
      have shape := inv.only lid c t
      rw [here] at shape
      obtain ⟨⟨buf, rfl⟩, rest⟩ := shape
      refine inv.goes .refl inv.threads (inv.only_setSync (rest reply))
        (fun i old before file live => ?_) inv.cache
        (inv.sync_setSync fun old before events sub => ?_)
      · refine clean_of_serves serves ?_ nofun (inv.server i old before) file live
        rintro buf' ⟨⟩
        have clean := inv.sync _ old before c t old fun _ mem => mem
        rw [here] at clean
        exact (clean.1 buf rfl).2
      · have clean := inv.sync lid old before c t events sub
        rw [here] at clean
        exact clean.2.2.2 reply nofun
  | @syncEntry lid c t who id update note next runs here =>
      have shape := inv.only lid c t
      rw [here] at shape
      obtain ⟨rfl, rest⟩ := shape
      refine inv.goes .refl inv.threads (inv.only_setSync (rest _)) inv.server
        (fun i old before b => ?_) (inv.sync_setSync fun old before events sub => ?_)
      · rw [State.setSync_cache]
        by_cases same : b = who.client c ∧ i = id
        · obtain ⟨rfl, rfl⟩ := same
          rw [State.setEntry_cache_self]
          have clean := inv.sync _ old before c t old fun _ mem => mem
          rw [here] at clean
          exact (clean _ fun _ _ => inv.cache _ old before _).1 rfl
        · rw [State.setEntry_cache_of_ne same]
          exact inv.cache i old before b
      · have clean := inv.sync id old before c t events sub
        rw [here] at clean
        exact (clean _ fun _ _ => (inv.cache id old before _).mono fun _ mem => sub mem).2
  | @synced lid c t who runs here =>
      exact inv.goes .refl inv.threads (inv.only_setSync (syncOnly_sync lid)) inv.server inv.cache
        (inv.sync_setSync fun _ _ _ _ => .sync)

omit [LinearOrder C] [DecidableEq T] in
theorem initial (files : FileMap) : ReuseInv (.initial files : State C T Op Res FileMap) :=
  ⟨fun _ _ => .idle, fun lid _ _ => syncOnly_sync lid, nofun, nofun, nofun, nofun⟩

end ReuseInv

end Steps

variable [LinearOrder C] [DecidableEq T]

/-- **No old file is resurrected**, in every run in which an inum is handed out only when no
client has anything of the old file.

The condition is on the replies of the server that hand an inum out.  With each of them a new
lifetime of the inum begins, and the invariant says what the server, the caches and the rest of
each operation still have of the one before. -/
theorem no_resurrection {start : FileMap → Prop} {s : State C T Op Res FileMap}
    (reach : Reach (reusing Forgotten) start s) : NoResurrection s := by
  have inv : ReuseInv s := by
    refine Transition.Reachable.invariant ?_
      (fun s s' before inv step => inv.step (Reach.unsynced before) step) reach
    rintro s ⟨files, -, rfl⟩
    exact .initial files
  refine ⟨fun i events life c t size off bytes mem => ?_, fun i events life file live => ?_⟩
  · exact inv.reads i events life c t _ _ mem size off bytes rfl rfl
  · exact (inv.server i events life file live).1

/-! ### Two runs -/

/-- Two clients, run by a schedule that keeps to `cond`. -/
def reuseDriver (cond : State (Fin 2) Unit Op Res FileMap → ℕ → Bool) :
    Driver (Fin 2) Unit Op Res FileMap where
  prog := Op.prog
  handle := handleFiles
  mayStore _ _ _ _ _ _ := true
  mayCall s req reply := (named req).all (fun id => (s.server id).isSome) &&
    match req, reply with
    | .create _, .created id => cond s id
    | _, _ => true

theorem reuseDriver_drives {cond : State (Fin 2) Unit Op Res FileMap → ℕ → Bool}
    {P : State (Fin 2) Unit Op Res FileMap → ℕ → Prop} (holds : ∀ s i, cond s i = true → P s i) :
    (reuseDriver cond).Drives (reusing P) := by
  refine ⟨rfl, fun _ _ _ _ => handleFiles_serves, fun _ _ _ _ _ _ _ => trivial,
    fun s req reply may => ?_⟩
  obtain ⟨live, may⟩ := Bool.and_eq_true_iff.mp may
  refine ⟨fun id same dead => ?_, ?_⟩
  · rw [same] at live
    simp [dead] at live
  · rintro type id rfl rfl
    exact holds s id may

/-- A release is at its `sync`. -/
def atSync : Pc C → Bool
  | .releasing _ .sync => true
  | _ => false

/-- No client has anything of file `i`, as a test. -/
def forgottenTest (s : State (Fin 2) Unit Op Res FileMap) (i : ℕ) : Bool :=
  decide (∀ c, ((s.cache c i).all fun file => !file.bufValid && !file.attrValid && !file.dirty) ∧
    ((s.thread c ()).rest.all fun rest => rest.1.target ≠ i) ∧ atSync ((s.locks i).pc c ()) = false)

theorem forgotten_of_test {s : State (Fin 2) Unit Op Res FileMap} {i : ℕ}
    (test : forgottenTest s i = true) : Forgotten s i := by
  have all := of_decide_eq_true test
  refine ⟨fun c file here => ?_, fun c t op prog rest => ?_, fun c t who syncs => ?_⟩
  · have quiet := (all c).1
    rw [here] at quiet
    simpa [and_assoc] using quiet
  · have apart := (all c).2.1
    rw [rest] at apart
    simpa using apart
  · have still := (all c).2.2
    rw [syncs] at still
    cases still

/-- Client 0 creates a file, writes to it and unlinks it; it creates another file, which gets
the same inum, and client 1 finds it empty. -/
theorem no_resurrection_reused : ∃ s : State (Fin 2) Unit Op Res FileMap,
    Reach (reusing Forgotten) (· = initialFiles) s ∧
      results s.history = [(0, .made .OK 2), (0, .written 1), (0, .status .OK), (0, .made .OK 2),
        (1, .data [])] ∧ NoResurrection s := by
  let acts : List (Move (Fin 2) Unit Op) := turn 1 0 () (.create 1 [97]) 2 23 ++
    turn 2 0 () (.write 2 0 [120]) 2 10 ++ turn 1 0 () (.unlink 1 [97]) 0 14 ++
    turn 1 0 () (.create 1 [98]) 0 20 ++ turn 2 1 () (.read 2 1 0) 11 8
  have may : ∀ c t op, .invoke c t op ∈ acts → ReuseOp op := by
    intro c t op mem
    simp only [acts, List.mem_append, invoke_mem_turn] at mem
    rcases mem with (((⟨-, -, rfl⟩ | ⟨-, -, rfl⟩) | ⟨-, -, rfl⟩) | ⟨-, -, rfl⟩) | ⟨-, -, rfl⟩ <;>
      trivial
  have drives : (reuseDriver forgottenTest).Drives (reusing Forgotten) :=
    reuseDriver_drives fun _ _ => forgotten_of_test
  obtain ⟨s, reach, shows⟩ := Driver.exists_reach drives (· = initialFiles) may rfl
    (P := fun s => results s.history = [(0, .made .OK 2), (0, .written 1), (0, .status .OK),
      (0, .made .OK 2), (1, .data [])]) (by decide +kernel)
  exact ⟨s, reach, of_decide_eq_true shows, no_resurrection reach⟩

/-- The event does not begin to change a file. -/
def leavesContent : Event (Fin 2) Unit Op Res → Bool
  | .invoked _ _ (.write ..) | .invoked _ _ (.setattr ..) => false
  | _ => true

/-- **An old file is resurrected.**  Client 1 writes to a file, client 0 unlinks it and creates
another file, which gets the same inum, and client 1 reads the old content. -/
theorem old_file_resurrected : ∃ s : State (Fin 2) Unit Op Res FileMap,
    Reach (reusing fun _ _ => True) (· = initialFiles) s ∧
      results s.history = [(0, .made .OK 2), (1, .written 1), (0, .status .OK), (0, .made .OK 2),
        (1, .data [120])] ∧ ¬ NoResurrection s := by
  let acts : List (Move (Fin 2) Unit Op) := turn 1 0 () (.create 1 [97]) 2 23 ++
    turn 2 1 () (.write 2 0 [120]) 2 13 ++ turn 1 0 () (.unlink 1 [97]) 0 14 ++
    turn 1 0 () (.create 1 [98]) 0 20 ++ turn 2 1 () (.read 2 1 0) 0 5
  have may : ∀ c t op, .invoke c t op ∈ acts → ReuseOp op := by
    intro c t op mem
    simp only [acts, List.mem_append, invoke_mem_turn] at mem
    rcases mem with (((⟨-, -, rfl⟩ | ⟨-, -, rfl⟩) | ⟨-, -, rfl⟩) | ⟨-, -, rfl⟩) | ⟨-, -, rfl⟩ <;>
      trivial
  have drives : (reuseDriver fun _ _ => true).Drives (reusing fun _ _ => True) :=
    reuseDriver_drives fun _ _ _ => trivial
  obtain ⟨s, reach, shows⟩ := Driver.exists_reach drives (· = initialFiles) may rfl
    (P := fun s => results s.history = [(0, .made .OK 2), (1, .written 1), (0, .status .OK),
        (0, .made .OK 2), (1, .data [120])] ∧
      (lifetime 2 s.history).any fun events =>
        .returned 1 () (.read 2 1 0) (.data [120]) ∈ events ∧ events.all leavesContent)
    (by decide +kernel)
  obtain ⟨results, since⟩ := of_decide_eq_true shows
  obtain ⟨events, life, tests⟩ := Option.any_eq_true _ _ |>.mp since
  obtain ⟨read, unwritten⟩ := of_decide_eq_true tests
  refine ⟨s, reach, results, fun clean => ?_⟩
  obtain ⟨content, made, eq⟩ := clean.reads 2 events life 1 () 1 0 [120] read
  have leaves := List.all_eq_true.mp unwritten
  rw [made.eq_nil (fun c t off data mem => Bool.false_ne_true (leaves _ mem))
    fun c t size mem => Bool.false_ne_true (leaves _ mem)] at eq
  cases eq

end Yfs.Client
