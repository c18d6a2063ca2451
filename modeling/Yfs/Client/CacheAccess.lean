import Yfs.Client.Coherence
import Yfs.Client.Directories

/-!
# Programs that access an extent under its lock

What a client has of an extent in its cache is worth something only while it has the lock
of the extent.  This module says what a single thread has to do for that: it acquires the
lock, fetches the extent or finds it in the cache before it puts, and does not give the
lock up before it has.

A thread that has the lock is not alone with the entry.  `create`, `mkdir` and `symlink`
store entries for the inum they were given, and the lock they have is that of the parent;
another thread of the same client may be in a section of the new inum at that time.  So a
program may rely on little between two of its actions: the entry is `Coherent`, and the
thread knows what its `Place` says, which such a store leaves true.

* `Place` — how far a thread has come, and what it knows there.
* `Access` — one action on the entry of the thread's own extent.
* `Foreign` — one action on the entry of another extent.
* `Covered` — the programs; `covered_prog` has the operations of `yfs_client` among them.
-/

namespace Yfs.Client

open Storage

variable {α β : Type}

/-! ## Places -/

/-- The entry has a valid buffer. -/
def Buffered (entry : Entry) : Prop := ∃ file, entry = some file ∧ file.bufValid = true

theorem Buffered.not_quiet {entry : Entry} (buffered : Buffered entry) : ¬ Quiet entry := by
  obtain ⟨file, rfl, valid⟩ := buffered
  intro quiet
  rw [(quiet file rfl).1] at valid
  cases valid

/-- **Where a program is.** It does not have the lock, or it has it and knows nothing yet; it
found nothing in the cache and is about to fetch the extent; it was sent `buf` for it; or the
cache has it.

Once the extent was fetched, its entry stays valid until the lock is given up, and a second get
finds it. -/
inductive Place where
  | outside
  | entered
  | missed
  | asked (buf : List UInt8)
  | fetched

/-- What a thread knows of the entry of its extent, of the string at the server and of the
content. -/
def Place.Knows (entry : Entry) (data content : List UInt8) : Place → Prop
  | .outside | .entered => True
  | .missed => data = content
  | .asked buf => data = content ∧ buf = content
  | .fetched => Buffered entry

/-- The entry that `create` stores. -/
def createdEntry (attr : Attr) : Entry := some ⟨attr, [], true, true, false⟩

/-- It fits an extent that is still empty. -/
theorem Coherent.created (attr : Attr) : Coherent (createdEntry attr) [] [] :=
  ⟨fun _ => rfl, nofun, rfl, fun _ => rfl⟩

theorem Buffered.created (attr : Attr) : Buffered (createdEntry attr) := ⟨_, rfl, rfl⟩

/-- A thread knows no less when such an entry is stored beside it. -/
theorem Place.Knows.created {place : Place} {entry : Entry} {data content : List UInt8}
    (knows : place.Knows entry data content) (attr : Attr) :
    place.Knows (createdEntry attr) data content := by
  cases place with
  | fetched => exact Buffered.created attr
  | _ => exact knows

/-! ## Actions -/

/-- **An action on the entry of a thread's own extent**, with what the thread can rely on before
it and establishes after it.  A get returns the content, a put takes the place of a valid buffer,
and an entry becomes valid only when the extent was fetched.

Actions that store nothing are accesses too, so that a program is covered step by step.
`Note.after` is the content that the note of the action leaves behind; a get leaves it as it is.
-/
structure Access (target : ℕ) (entry : Entry) (data content : List UInt8) (new : Entry)
    (note : Option Note) (place place' : Place) : Prop where
  about : ∀ n, note = some n → n.eid = target
  sound : Note.Sound target content note
  puts : ∀ buf, note = some (.put target buf) → Buffered entry
  fills : Quiet entry → Quiet new ∨ ∃ buf, place = .asked buf
  coherent : Coherent new data (Note.after target content note)
  knows : place'.Knows new data (Note.after target content note)
  unasked : ∀ buf, place' ≠ .asked buf
  inside : place' ≠ .outside

/-- **An action on the entry of another extent**: `extent_client::create` stores the empty entry
of a new inum, and `symlink` puts the target of the link to it.

Nothing else in the programs of this module stores an entry of an extent whose lock it does not
have.  Without these two no condition on a store would be needed. -/
inductive Foreign (id : ℕ) : (Entry → Entry) → (Entry → Option Note) → Prop
  | create (attr : Attr) : Foreign id (fun _ => createdEntry attr) fun _ => none
  | put (bytes : ℕ → UInt8) (buf : List UInt8) (atime ctime mtime : ℕ) :
      Foreign id (fun file => some ((file.getD (.blank bytes)).written buf atime ctime mtime))
        fun _ => some (.put id buf)

theorem Foreign.about {id : ℕ} {update : Entry → Entry} {note : Entry → Option Note}
    (foreign : Foreign id update note) {entry : Entry} (n : Note) (noted : note entry = some n) :
    n.eid = id := by
  cases foreign with
  | create => cases noted
  | put =>
      cases noted
      rfl

/-! ## Programs -/

/-- **A program that accesses extent `target` only under its lock**, asks the server only for
it and for new inums, and ends in a place of `post`. -/
def Covered (target : ℕ) (post : α → Place → Prop) : Prog α → Place → Prop
  | .ret a, place => post a place
  | .acquire lid next, place =>
      lid = target ∧ place = .outside ∧ Covered target post next .entered
  | .release lid next, place =>
      lid = target ∧ place = .fetched ∧ Covered target post next .outside
  | .call req next, place =>
      (∃ type, req = .create type ∧ place = .fetched ∧
        ∀ id, id ≠ target → Covered target post (next (.created id)) .fetched) ∨
      (req = .get target ∨ req = .getattr target) ∧ place = .missed ∧
        ∀ reply, Covered target post (next reply) (.asked (replyFile reply).buf)
  | .entry id update note next, place =>
      (id = target → place ≠ .outside ∧ ∀ entry data content, Coherent entry data content →
        place.Knows entry data content → ∃ place', Covered target post (next entry) place' ∧
          Access target entry data content (update entry) (note entry) place place') ∧
      (id ≠ target → Foreign id update note ∧ ∀ entry, Covered target post (next entry) place)
  | .time next, place => ∀ now, Covered target post (next now) place
  | .memory next, place => ∀ bytes, Covered target post (next bytes) place
  | .exit, _ => True

namespace Covered

variable {target : ℕ} {place : Place}

/-- The rule of sequences. -/
theorem bind {post : β → Place → Prop} {p : Prog α} {k : α → Prog β}
    (first : Covered target (fun a place => Covered target post (k a) place) p place) :
    Covered target post (p.bind k) place := by
  induction p generalizing place with
  | ret a => exact first
  | acquire lid next ih => exact ⟨first.1, first.2.1, ih first.2.2⟩
  | release lid next ih => exact ⟨first.1, first.2.1, ih first.2.2⟩
  | call req next ih =>
      rcases first with ⟨type, creates, at_, rest⟩ | ⟨fetches, at_, rest⟩
      · exact Or.inl ⟨type, creates, at_, fun id ne => ih _ (rest id ne)⟩
      · exact Or.inr ⟨fetches, at_, fun reply => ih reply (rest reply)⟩
  | entry id update note next ih =>
      refine ⟨fun same => ⟨(first.1 same).1, fun entry data content coherent knows => ?_⟩,
        fun other => ⟨(first.2 other).1, fun entry => ih entry ((first.2 other).2 entry)⟩⟩
      obtain ⟨place', rest, access⟩ := (first.1 same).2 entry data content coherent knows
      exact ⟨place', ih entry rest, access⟩
  | time next ih => exact fun now => ih now (first now)
  | memory next ih => exact fun bytes => ih bytes (first bytes)
  | exit => trivial

theorem lock {post : β → Place → Prop} {k : Unit → Prog β}
    (rest : Covered target post (k ()) .entered) :
    Covered target post ((Prog.lock target).bind k) .outside :=
  ⟨rfl, rfl, rest⟩

theorem unlock {post : β → Place → Prop} {k : Unit → Prog β}
    (rest : Covered target post (k ()) .outside) :
    Covered target post ((Prog.unlock target).bind k) .fetched :=
  ⟨rfl, rfl, rest⟩

theorem memory {post : β → Place → Prop} {k : (ℕ → UInt8) → Prog β}
    (rest : ∀ bytes, Covered target post (k bytes) place) :
    Covered target post (Prog.uninitialised.bind k) place :=
  rest

/-! ### The extent client -/

/-- A miss: the extent is fetched and stored. -/
theorem miss {post : β → Place → Prop} (req : Request) (note : Reply → Option Note)
    {k : FullFile → Prog β} (fetch : req = .get target ∨ req = .getattr target)
    (notes : ∀ reply, note reply = none ∨ note reply = some (.got target (replyFile reply).buf))
    (rest : ∀ f, Covered target post (k f) .fetched) :
    Covered target post ((Prog.rpc req).bind fun reply =>
      (ExtentClient.fill target (note reply) (replyFile reply)).bind k) .missed := by
  refine Or.inr ⟨fetch, rfl, fun reply bytes => ⟨fun _ => ⟨nofun, ?_⟩, fun ne => absurd rfl ne⟩⟩
  rintro entry data content coherent ⟨settled, sent⟩
  -- the note is a get of what was sent, or nothing: it does not change the content
  have still : Note.after target content (note reply) = content := by
    rcases notes reply with eq | eq <;> rw [eq] <;> rfl
  refine ⟨.fetched, rest _, ?_, ?_, ?_, fun _ => Or.inr ⟨_, rfl⟩, ?_, ⟨_, rfl, rfl⟩, nofun, nofun⟩
  · intro n eq
    rcases notes reply with none | got
    · rw [none] at eq
      cases eq
    · rw [got] at eq
      cases eq
      rfl
  · rcases notes reply with eq | eq <;> rw [eq]
    · trivial
    · exact fun _ => sent
  · intro buf eq
    rcases notes reply with none | got
    · rw [none] at eq
      cases eq
    · rw [got] at eq
      cases eq
  · rw [still]
    exact .filled settled (sent.trans settled.symm)

/-- A look at the entry that ends the program there, or goes on with a miss. -/
theorem look {post : β → Place → Prop} {note : Entry → Option Note} {next : Entry → Prog β}
    (inside : place ≠ .outside)
    (rest : ∀ entry data content, Coherent entry data content →
      (Buffered entry ∧ Covered target post (next entry) .fetched ∧
        (note entry = none ∨ note entry = some (.got target content))) ∨
      (data = content ∧ Covered target post (next entry) .missed ∧ note entry = none)) :
    Covered target post (.entry target id note next) place := by
  refine ⟨fun _ => ⟨inside, fun entry data content coherent _ => ?_⟩, fun ne => absurd rfl ne⟩
  rcases rest entry data content coherent with ⟨buffered, rest, none | got⟩ | ⟨settled, rest, none⟩
  · rw [none]
    exact ⟨.fetched, rest, nofun, trivial, nofun, Or.inl, coherent, buffered, nofun, nofun⟩
  · rw [got]
    exact ⟨.fetched, rest, by rintro _ ⟨⟩; rfl, fun _ => rfl, nofun, Or.inl, coherent, buffered,
      nofun, nofun⟩
  · rw [none]
    exact ⟨.missed, rest, nofun, trivial, nofun, Or.inl, coherent, settled, nofun, nofun⟩

theorem get {post : List UInt8 → Place → Prop} (inside : place ≠ .outside)
    (rest : ∀ buf, post buf .fetched) :
    Covered target post (ExtentClient.get target) place := by
  have missed := miss (.get target) (fun reply => some (.got target (replyFile reply).buf))
    (k := fun f => .ret f.buf) (Or.inl rfl) (fun _ => Or.inr rfl) fun f => rest f.buf
  refine look inside fun entry data content coherent => ?_
  match entry, coherent with
  | none, coherent => exact Or.inr ⟨coherent, missed, rfl⟩
  | some ⟨_, _, false, _, _⟩, coherent =>
      exact Or.inr ⟨coherent.settled (by rintro _ ⟨⟩; rfl), missed, rfl⟩
  | some ⟨_, buf, true, _, _⟩, coherent =>
      have eq : buf = content := coherent.1 rfl
      subst eq
      exact Or.inl ⟨⟨_, rfl, rfl⟩, rest buf, Or.inr rfl⟩

theorem getattr {post : Attr → Place → Prop} (inside : place ≠ .outside)
    (rest : ∀ attr, post attr .fetched) :
    Covered target post (ExtentClient.getattr target) place := by
  have missed := miss (.getattr target) (fun _ => none) (k := fun f => .ret f.attr) (Or.inr rfl)
    (fun _ => Or.inl rfl) fun f => rest f.attr
  refine look inside fun entry data content coherent => ?_
  match entry, coherent with
  | none, coherent => exact Or.inr ⟨coherent, missed, rfl⟩
  | some ⟨_, _, _, false, _⟩, coherent =>
      refine Or.inr ⟨coherent.settled ?_, missed, rfl⟩
      rintro _ ⟨⟩
      exact coherent.2.2.1.symm
  | some ⟨attr, _, _, true, _⟩, coherent =>
      exact Or.inl ⟨⟨_, rfl, coherent.2.2.1.symm⟩, rest attr, Or.inl rfl⟩

theorem put {buf : List UInt8} {post : Unit → Place → Prop} (rest : post () .fetched) :
    Covered target post (ExtentClient.put target buf) .fetched := by
  intro bytes atime ctime mtime
  refine ⟨fun _ => ⟨nofun, ?_⟩, fun ne => absurd rfl ne⟩
  rintro entry data content coherent ⟨file, rfl, valid⟩
  have buffered : Buffered (some file) := ⟨file, rfl, valid⟩
  have after : Note.after target content (some (.put target buf)) = buf := if_pos rfl
  refine ⟨.fetched, rest, by rintro _ ⟨⟩; rfl, trivial, fun _ _ => buffered,
    fun quiet => absurd quiet buffered.not_quiet, ?_, ⟨_, rfl, rfl⟩, nofun, nofun⟩
  rw [after]
  exact coherent.written valid

/-- The put of `symlink` to the inum it was given. -/
theorem putOther {id : ℕ} {buf : List UInt8} {post : Unit → Place → Prop} (other : id ≠ target)
    (rest : post () place) : Covered target post (ExtentClient.put id buf) place :=
  fun _ _ _ _ => ⟨fun same => absurd same other, fun _ => ⟨.put .., fun _ => rest⟩⟩

/-- The new inum is not that of the extent, which is live. -/
theorem create {type : ℕ} {post : ℕ → Place → Prop} (rest : ∀ id, id ≠ target → post id .fetched) :
    Covered target post (ExtentClient.create type) .fetched := by
  intro bytes atime ctime mtime
  refine Or.inl ⟨type, rfl, rfl, fun id other => ⟨fun same => absurd same other, fun _ => ?_⟩⟩
  exact ⟨.create _, fun _ => rest id other⟩

/-! ### The operations -/

theorem readdirNoSeria {post : List Dirent → Place → Prop} (inside : place ≠ .outside)
    (rest : ∀ list, post list .fetched) :
    Covered target post (YfsClient.readdirNoSeria target) place := by
  refine bind (get inside fun buf => bind (getattr nofun fun attr => ?_))
  split
  · trivial
  · exact memory fun stack => rest _

theorem lookupNoSeria {name : List UInt8} {post : Option ℕ → Place → Prop}
    (inside : place ≠ .outside) (rest : ∀ found, post found .fetched) :
    Covered target post (YfsClient.lookupNoSeria target name) place :=
  bind (readdirNoSeria inside fun _ => rest _)

theorem attributes {post : Attr → Place → Prop} (rest : ∀ attr, post attr .outside) :
    Covered target post (YfsClient.attributes target) .outside :=
  lock (bind (getattr nofun fun attr => unlock (rest attr)))

end Covered

/-- The operations of the clients. -/
def CacheOp : Op → Prop
  | .create .. | .mkdir .. | .symlink .. | .lookup .. | .readdir .. | .read .. | .write ..
  | .setattr .. | .readlink .. | .getfile .. | .getdir .. => True
  | _ => False

/-- **Every one of them accesses its own extent only under its lock.** -/
theorem covered_prog {op : Op} (may : CacheOp op) :
    Covered op.target (fun _ _ => True) op.prog .outside := by
  cases op with
  | create parent name =>
      refine .bind (.lock (.bind (.lookupNoSeria nofun fun found => ?_)))
      cases found with
      | some ino => exact .unlock trivial
      -- the entry of the new inum is stored by `create`, and has its own rule
      | none =>
          exact .bind (.create fun ino _ => .bind (.get nofun fun buf => .bind (.memory fun bytes =>
            .bind (.put (.unlock trivial)))))
  | mkdir parent name =>
      refine .bind (.lock (.bind (.lookupNoSeria nofun fun found => ?_)))
      cases found with
      | some ino => exact .unlock trivial
      | none =>
          exact .bind (.get nofun fun buf => .bind (.create fun ino _ => .bind (.memory fun bytes =>
            .bind (.put (.unlock trivial)))))
  | symlink parent name link =>
      refine .bind (.lock (.bind (.get nofun fun content =>
        .bind (.lookupNoSeria nofun fun found => ?_))))
      cases found with
      -- it returns and keeps the lock; a program may end anywhere
      | some ino => trivial
      | none =>
          exact .bind (.create fun ino other => .bind (.putOther other (.bind (.memory fun bytes =>
            .bind (.put (.unlock trivial))))))
  | lookup parent name =>
      exact .bind (.lock (.bind (.lookupNoSeria nofun fun found => .unlock trivial)))
  | readdir dir =>
      exact .bind (.lock (.bind (.readdirNoSeria nofun fun list => .unlock trivial)))
  | read ino size off =>
      refine .bind (.lock (.bind (.get nofun fun content => .unlock ?_)))
      split_ifs <;> trivial
  | write ino off data =>
      refine .bind (.lock (.bind (.get nofun fun content => ?_)))
      split_ifs
      · trivial
      · exact .bind (.put (.unlock trivial))
      · exact .bind (.put (.unlock trivial))
  | setattr ino size =>
      exact .bind (.lock (.bind (.get nofun fun buf => .bind (.put (.unlock trivial)))))
  | readlink ino =>
      exact .bind (.lock (.bind (.get nofun fun buf => .unlock trivial)))
  | getfile ino => exact .bind (.attributes fun attr => trivial)
  | getdir ino => exact .bind (.attributes fun attr => trivial)
  | _ => exact may.elim

end Yfs.Client
