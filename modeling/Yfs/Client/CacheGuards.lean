import Yfs.Client.CacheAccess

/-!
# What a lock guards

A client keeps what it knows of an extent in its cache, and the lock of the extent says
when it may.  What the locks are for is said of contents.  The content of an extent is the
string of the latest put to it, by whichever client, or what the server had at first
(`State.content`).  An entry that is valid must have it, and a get must return it; that an
entry was fetched after this or that put would say less, since a stale entry may well be
stored over one that was just fetched.

The invariant follows the lock.  For each extent there is a custody (`Lock.Custody`):
nobody has the lock, or a client has it cached, or a thread uses it, or a release is at its
`sync`; `Guarded` says for each of these what the caches and the server have.  A thread
adds what it knows at its place (`Thread.Covers`), and the history adds that gets returned
the content (`Told`).

Two assumptions carry this.  The extent server is the one of the specification
(`fileServer`), which answers for live extents only.  And an operation stores an entry for
another extent than its own, that is for a new inum, only as `UnderLock` says: `create`,
`mkdir` and `symlink` do not take the lock of the inum they were given, so nothing in the
code makes sure of it.

* `Current` — an entry that is not stale.
* `Guarded`, `Told`, `CacheInv` — the invariant.
* `UnderLock` — when an entry may be stored for a new inum.
* `CacheInv.step` — every step keeps the invariant.
-/

namespace Yfs.Client

open Storage Storage.ExtentServer Lock

variable {C T : Type}

/-! ## Contents -/

/-- **The content of an extent**: the string of the latest put to it, or what the server had
when it started with `files`. -/
def State.content (s : State C T Op Res FileMap) (files : FileMap) (eid : ℕ) : List UInt8 :=
  latest eid (dataAt eid files) s.history

/-- **What a client has of an extent is not stale**: a valid buffer is the content, and
attributes are valid only together with the buffer. -/
def Current (content : List UInt8) (entry : Entry) : Prop :=
  ∀ file, entry = some file →
    (file.bufValid = true → file.buf = content) ∧ file.attrValid = file.bufValid

namespace Current

variable {content data : List UInt8} {entry : Entry}

theorem of_quiet (quiet : Quiet entry) : Current content entry := by
  rintro file rfl
  obtain ⟨buf, attr, -⟩ := quiet file rfl
  refine ⟨fun valid => ?_, attr.trans buf.symm⟩
  rw [buf] at valid
  cases valid

theorem of_coherent (coherent : Coherent entry data content) : Current content entry := by
  rintro file rfl
  exact ⟨coherent.1, coherent.2.2.1⟩

end Current

/-- Extent `eid` stays as it is: the server has the same string of it, and nobody put to it.

This is the frame of the invariant: what was true of the extent before the step is true after it,
if the entries and the lock did not move either. -/
structure Unmoved (files : FileMap) (s s' : State C T Op Res FileMap) (eid : ℕ) : Prop where
  data : dataAt eid s'.server = dataAt eid s.server
  live : s.server eid ≠ none → s'.server eid ≠ none
  content : s'.content files eid = s.content files eid

namespace Unmoved

variable {files : FileMap} {s s' : State C T Op Res FileMap} {eid : ℕ}

theorem of_same (server : s'.server = s.server) (history : s'.history = s.history) :
    Unmoved files s s' eid where
  data := by rw [server]
  live := by rw [server]; exact id
  content := by rw [State.content, history, State.content]

/-- An event that is no note about the extent. -/
theorem of_plain {event : Event C T Op Res} (plain : event.Plain eid)
    (data : dataAt eid s'.server = dataAt eid s.server)
    (live : s.server eid ≠ none → s'.server eid ≠ none)
    (history : s'.history = s.history ++ [event]) : Unmoved files s s' eid where
  data := data
  live := live
  content := by rw [State.content, history, latest_plain plain, State.content]

end Unmoved

/-! ## The invariant -/

/-- What is left of a `sync` of extent `eid` writes the content back and leaves the entry quiet;
until then it keeps what it finds. -/
def Syncs (eid : ℕ) (content : List UInt8) : Prog Unit → Entry → List UInt8 → Prop
  | .ret _, entry, data => Quiet entry ∧ data = content
  | .call req next, entry, _ => ¬ Quiet entry ∧ ∃ buf, req = .put eid buf ∧
      ∀ reply, Syncs eid content (next reply) entry buf
  | .entry id update _ next, entry, data => id = eid ∧ (Quiet entry → Quiet (update entry)) ∧
      (Current content entry → Current content (update entry)) ∧
      Syncs eid content (next entry) (update entry) data
  | _, _, _ => False

theorem syncs_sync {eid : ℕ} {entry : Entry} {data content : List UInt8}
    (coherent : Coherent entry data content) :
    Syncs eid content (ExtentClient.sync eid) entry data := by
  refine ⟨rfl, fun quiet => ?_, fun _ => ?_, ?_⟩
  · match entry, quiet with
    | none, _ => exact quiet_none
    | some file, quiet =>
        rintro _ ⟨⟩
        exact ⟨rfl, rfl, (quiet file rfl).2.2⟩
  · match entry with
    | none => exact nofun
    | some file =>
        rintro _ ⟨⟩
        exact ⟨nofun, rfl⟩
  · match entry, coherent with
    | none, settled => exact ⟨quiet_none, settled⟩
    | some ⟨_, _, _, _, false⟩, coherent =>
        refine ⟨?_, coherent.2.2.2 rfl⟩
        rintro _ ⟨⟩
        exact ⟨rfl, rfl, rfl⟩
    | some ⟨_, buf, _, _, true⟩, coherent =>
        refine ⟨fun quiet => Bool.noConfusion (quiet _ rfl).2.2, buf, rfl,
          fun _ => ⟨rfl, ?_, ?_, ?_, ?_⟩⟩
        · rintro - _ ⟨⟩
          exact ⟨rfl, rfl, rfl⟩
        · rintro - _ ⟨⟩
          exact ⟨nofun, rfl⟩
        · rintro _ ⟨⟩
          exact ⟨rfl, rfl, rfl⟩
        · exact coherent.1 (coherent.2.1 rfl)

/-- A thread keeps to its program, has the lock where the program has it, and knows what the
program relies on. -/
def Thread.Covers (holds : ℕ → Prop) (knows : ℕ → Place → Prop) : Thread Op Res → Prop
  | .idle => True
  | .run op prog => ∃ place, Covered op.target (fun _ _ => True) prog place ∧
      (place ≠ .outside → holds op.target) ∧ knows op.target place
  | .acquiring op lid next => lid = op.target ∧ Covered op.target (fun _ _ => True) next .entered
  | .releasing op lid next => lid = op.target ∧ Covered op.target (fun _ _ => True) next .outside

/-- What a thread of client `c` knows of extent `eid` at a place.  An extent that was fetched is
live. -/
def State.Knows (s : State C T Op Res FileMap) (files : FileMap) (c : C) (eid : ℕ) (place : Place) :
    Prop :=
  place.Knows (s.cache c eid) (dataAt eid s.server) (s.content files eid) ∧
    ∀ buf, place = .asked buf → s.server eid ≠ none

/-- **What the clients have of extent `eid` when its lock is at `k`.** Only the client that has
the lock has a valid or dirty entry, and a quiet one when the lock is gone.  Where no thread uses
a cached lock the buffer is valid: the last to use it has fetched the extent.

The entry of the client that has the lock is `Coherent`: a valid buffer is the content, and the
server has the content unless the entry is dirty.  During the `sync` of a release that is not so
any more, and `Syncs` says what is left to be done. -/
structure Guarded (files : FileMap) (s : State C T Op Res FileMap) (eid : ℕ) (k : Custody C T) :
    Prop where
  custody : (s.locks eid).In k
  quiet : ∀ b, k.keeper ≠ some b → Quiet (s.cache b eid)
  live : ∀ b, ¬ Quiet (s.cache b eid) → s.server eid ≠ none
  current : ∀ b, Current (s.content files eid) (s.cache b eid)
  settled : k = .nobody → dataAt eid s.server = s.content files eid
  coherent : ∀ b, (k = .cached b ∨ ∃ t, k = .used b t) →
    Coherent (s.cache b eid) (dataAt eid s.server) (s.content files eid)
  buffered : ∀ b, k = .cached b → Buffered (s.cache b eid)
  syncing : ∀ who c t, k = .syncing who c t → Syncs eid (s.content files eid) (s.sync eid c t)
    (s.cache (who.client c) eid) (dataAt eid s.server)
  whole : ∀ c t, (∀ who, k ≠ .syncing who c t) → s.sync eid c t = ExtentClient.sync eid

/-- **What the history tells**: gets returned the content, and an inum that was handed out was not
live at first and is live now.

Strings of dead extents are empty here, as `dataAt` has them.  That an inum was not live at first
is what ties the empty entry of `create` to a content that is empty as well. -/
structure Told (files : FileMap) (s : State C T Op Res FileMap) : Prop where
  gets : ∀ eid, GetsLatest eid (dataAt eid files) s.history
  kept : ∀ eid, files eid ≠ none → s.server eid ≠ none
  born : ∀ eid, (∃ event ∈ s.history, event.creates eid = true) →
    files eid = none ∧ s.server eid ≠ none

namespace Told

variable {files : FileMap} {s s' : State C T Op Res FileMap}

/-- Nothing is recorded. -/
theorem silent (told : Told files s) (live : ∀ eid, s.server eid ≠ none → s'.server eid ≠ none)
    (history : s'.history = s.history) : Told files s' where
  gets := by rw [history]; exact told.gets
  kept eid old := live eid (told.kept eid old)
  born eid := by
    rw [history]
    exact fun created => (told.born eid created).imp_right (live eid)

/-- An event is recorded. -/
theorem snoc {event : Event C T Op Res} (told : Told files s)
    (live : ∀ eid, s.server eid ≠ none → s'.server eid ≠ none)
    (history : s'.history = s.history ++ [event])
    (got : ∀ c t eid buf, event = .noted c t (.got eid buf) → buf = s.content files eid)
    (creates : ∀ eid, event.creates eid = true → s.server eid = none ∧ s'.server eid ≠ none) :
    Told files s' where
  gets eid := by
    rw [history]
    exact (told.gets eid).snoc fun c t buf eq => got c t eid buf eq
  kept eid old := live eid (told.kept eid old)
  born eid := by
    rw [history]
    rintro ⟨e, mem, made⟩
    rcases List.mem_append.mp mem with old | new
    · exact (told.born eid ⟨e, old, made⟩).imp_right (live eid)
    · cases List.mem_singleton.mp new
      obtain ⟨free, live'⟩ := creates eid made
      exact ⟨by_contra fun old => told.kept eid old free, live'⟩

/-- An event that is neither a get nor a creation. -/
theorem plain {event : Event C T Op Res} (told : Told files s)
    (live : ∀ eid, s.server eid ≠ none → s'.server eid ≠ none)
    (history : s'.history = s.history ++ [event])
    (notGot : ∀ c t eid buf, event ≠ .noted c t (.got eid buf))
    (creates : ∀ eid, event.creates eid = false) : Told files s' :=
  told.snoc live history (fun c t eid buf eq => absurd eq (notGot c t eid buf))
    fun eid made => by rw [creates eid] at made; cases made

end Told

section Inv

variable [LinearOrder C] [DecidableEq T] {files : FileMap} {s s' : State C T Op Res FileMap}
  {k : Custody C T} {eid : ℕ} {c : C} {t : T}

/-- **The invariant of the caches.**

It holds of every extent at the same time, since a thread in an operation on one extent stores an
entry of another one, when it makes a new file. -/
structure CacheInv (files : FileMap) (s : State C T Op Res FileMap) : Prop where
  placed : Placed s
  told : Told files s
  guarded : ∀ eid, ∃ k, Guarded files s eid k
  threads : ∀ c t, (s.thread c t).Covers (fun lid => (s.locks lid).pc c t = .holding)
    (s.Knows files c)

omit [LinearOrder C] [DecidableEq T] in
theorem Thread.Covers.mono {holds holds' : ℕ → Prop} {knows knows' : ℕ → Place → Prop}
    {thread : Thread Op Res} (covers : thread.Covers holds knows)
    (held : ∀ op prog, thread = .run op prog → holds op.target → holds' op.target)
    (known : ∀ op prog place, thread = .run op prog → (place ≠ .outside → holds op.target) →
      knows op.target place → knows' op.target place) : thread.Covers holds' knows' := by
  match thread, covers with
  | .idle, _ => trivial
  | .run op prog, ⟨place, covered, inside, knows⟩ =>
      exact ⟨place, covered, fun at_ => held op prog rfl (inside at_),
        known op prog place rfl inside knows⟩
  | .acquiring op lid next, covers => exact covers
  | .releasing op lid next, covers => exact covers

omit [LinearOrder C] [DecidableEq T] in
/-- A thread knows what it knew of an extent that stays as it is. -/
theorem State.Knows.same {place : Place} (knows : s.Knows files c eid place)
    (cache : s'.cache c eid = s.cache c eid) (spared : Unmoved files s s' eid) :
    s'.Knows files c eid place := by
  obtain ⟨known, live⟩ := knows
  refine ⟨?_, fun buf at_ => spared.live (live buf at_)⟩
  rw [cache, spared.data, spared.content]
  exact known

namespace Guarded

omit [LinearOrder C] [DecidableEq T] in
/-- Nothing happens to the extent. -/
theorem same (guarded : Guarded files s eid k) (locks : s'.locks eid = s.locks eid)
    (cache : ∀ b, s'.cache b eid = s.cache b eid) (sync : s'.sync eid = s.sync eid)
    (spared : Unmoved files s s' eid) : Guarded files s' eid k where
  custody := by
    rw [locks]
    exact guarded.custody
  quiet b keeper := by
    rw [cache]
    exact guarded.quiet b keeper
  live b valid := by
    rw [cache] at valid
    exact spared.live (guarded.live b valid)
  current b := by
    rw [cache, spared.content]
    exact guarded.current b
  settled eq := by
    rw [spared.data, spared.content]
    exact guarded.settled eq
  coherent b has := by
    rw [cache, spared.data, spared.content]
    exact guarded.coherent b has
  buffered b eq := by
    rw [cache]
    exact guarded.buffered b eq
  syncing who c t eq := by
    rw [cache, sync, spared.data, spared.content]
    exact guarded.syncing who c t eq
  whole c t other := by
    rw [sync]
    exact guarded.whole c t other

omit [LinearOrder C] [DecidableEq T] in
/-- The client whose entry is valid or dirty has the lock. -/
theorem keeper (guarded : Guarded files s eid k) (valid : ¬ Quiet (s.cache c eid)) :
    k.keeper = some c := by
  by_contra other
  exact valid (guarded.quiet c other)

/-- The lock moves on, with no `sync` at its end.  A thread that gives it up has fetched the
extent. -/
theorem moves (guarded : Guarded files s eid k) (reach : ReachLock false (s.locks eid))
    {label : Label C T} {lock : LockState C T} (step : Lock.Step false label (s.locks eid) lock)
    (notSynced : ∀ c, label ≠ .synced c)
    (gives : ∀ c t, label = .release c t → Buffered (s.cache c eid)) (locks : s'.locks eid = lock)
    (cache : ∀ b, s'.cache b eid = s.cache b eid) (sync : s'.sync eid = s.sync eid)
    (spared : Unmoved files s s' eid) : ∃ k', Guarded files s' eid k' := by
  obtain ⟨k', custody, move⟩ := reach.moves guarded.custody step
  refine ⟨k', by rw [locks]; exact custody, fun b other => ?_, fun b valid => ?_, fun b => ?_,
    fun eq => ?_, fun b has => ?_, fun b eq => ?_, fun who c t eq => ?_, fun c t other => ?_⟩
  · rw [cache]
    exact guarded.quiet b fun keeper => other (move.keeper notSynced keeper)
  · rw [cache] at valid
    exact spared.live (guarded.live b valid)
  · rw [cache, spared.content]
    exact guarded.current b
  · rw [spared.data, spared.content]
    cases move with
    | stay => exact guarded.settled eq
    | synced => exact absurd rfl (notSynced _)
    | _ => cases eq
  · rw [cache, spared.data, spared.content]
    cases move with
    | stay => exact guarded.coherent b has
    | take d u =>
        rcases has with ⟨⟨⟩⟩ | ⟨t, ⟨⟩⟩
        exact guarded.coherent b (Or.inl rfl)
    -- the entry is quiet, and the server has the content: this is where a new owner starts
    | grant d u =>
        rcases has with ⟨⟨⟩⟩ | ⟨t, ⟨⟩⟩
        rw [← guarded.settled rfl]
        exact .of_quiet (guarded.quiet b nofun)
    | putBack d u =>
        rcases has with ⟨⟨⟩⟩ | ⟨t, ⟨⟩⟩
        exact guarded.coherent b (Or.inr ⟨u, rfl⟩)
    | synced => exact absurd rfl (notSynced _)
    | _ => rcases has with ⟨⟨⟩⟩ | ⟨t, ⟨⟩⟩
  · rw [cache]
    cases move with
    | stay => exact guarded.buffered b eq
    | putBack d u =>
        cases eq
        exact gives b u rfl
    | _ => cases eq
  · rw [cache, sync, spared.data, spared.content]
    cases move with
    | stay => exact guarded.syncing who c t eq
    -- a release or the revoke handler begins to write back what the client has
    | leave b u =>
        cases eq
        rw [guarded.whole c t nofun]
        exact syncs_sync (guarded.coherent c (Or.inr ⟨t, rfl⟩))
    | reclaim h status b u =>
        cases eq
        rw [guarded.whole c t nofun]
        exact syncs_sync (guarded.coherent h (Or.inl rfl))
    | _ => cases eq
  · rw [sync]
    cases move with
    | stay => exact guarded.whole c t other
    | synced => exact absurd rfl (notSynced _)
    | _ => exact guarded.whole c t nofun

omit [LinearOrder C] [DecidableEq T] in
/-- A `sync` of the extent goes on. -/
theorem syncs {who : Releaser C} (guarded : Guarded files s eid (.syncing who c t))
    (locks : s'.locks eid = s.locks eid)
    (cache : ∀ b, b ≠ who.client c → s'.cache b eid = s.cache b eid)
    (quiet : Quiet (s.cache (who.client c) eid) → Quiet (s'.cache (who.client c) eid))
    (current : Current (s.content files eid) (s'.cache (who.client c) eid))
    (others : ∀ b u, ¬ (b = c ∧ u = t) → s'.sync eid b u = s.sync eid b u)
    (live : s.server eid ≠ none → s'.server eid ≠ none) (history : s'.history = s.history)
    (rest : Syncs eid (s.content files eid) (s'.sync eid c t) (s'.cache (who.client c) eid)
      (dataAt eid s'.server)) : Guarded files s' eid (.syncing who c t) := by
  have content : s'.content files eid = s.content files eid := by
    rw [State.content, history, State.content]
  refine ⟨by rw [locks]; exact guarded.custody, fun b other => ?_, fun b valid => ?_, fun b => ?_,
    nofun, by rintro b (⟨⟨⟩⟩ | ⟨u, ⟨⟩⟩), nofun, ?_, fun b u other => ?_⟩
  · rw [cache b (by rintro rfl; exact other rfl)]
    exact guarded.quiet b other
  · refine live ?_
    by_cases eq : b = who.client c
    · subst eq
      exact guarded.live _ fun old => valid (quiet old)
    · rw [cache b eq] at valid
      exact guarded.live b valid
  · rw [content]
    by_cases eq : b = who.client c
    · subst eq
      exact current
    · rw [cache b eq]
      exact guarded.current b
  · rintro _ _ _ ⟨⟩
    rw [content]
    exact rest
  · rw [others b u (by rintro ⟨rfl, rfl⟩; exact other who rfl)]
    exact guarded.whole b u other

/-- A `sync` of the extent is over. -/
theorem synced {who : Releaser C} (guarded : Guarded files s eid (.syncing who c t))
    (reach : ReachLock false (s.locks eid)) (done : s.sync eid c t = .ret ()) :
    Guarded files ((s.setLock eid ((s.locks eid).setPc c t (.releasing who .call))).setSync eid c t
      (ExtentClient.sync eid)) eid .nobody := by
  have rest := guarded.syncing who c t rfl
  rw [done] at rest
  refine ⟨?_, fun b _ => ?_, guarded.live, guarded.current, fun _ => rest.2,
    by rintro b (⟨⟨⟩⟩ | ⟨u, ⟨⟩⟩), nofun, nofun, fun b u _ => ?_⟩
  · have runs := (guarded.custody.syncing c t who).mpr rfl
    obtain ⟨k', custody, move⟩ := reach.moves guarded.custody (.synced runs)
    rw [move.eq_nobody] at custody
    simpa using custody
  · by_cases eq : b = who.client c
    · subst eq
      exact rest.1
    · exact guarded.quiet b fun keeper => eq (Option.some_injective _ keeper).symm
  · by_cases same : b = c ∧ u = t
    · obtain ⟨rfl, rfl⟩ := same
      rw [State.setSync_sync_self]
    · rw [State.setSync_sync_of_ne fun eq => same eq.2]
      exact guarded.whole b u (by rintro who' ⟨⟩; exact same ⟨rfl, rfl⟩)

omit [LinearOrder C] [DecidableEq T] in
/-- The client that has the lock stores an entry. -/
theorem stores (guarded : Guarded files s eid k) (has : k = .cached c ∨ ∃ t, k = .used c t)
    (locks : s'.locks eid = s.locks eid) (cache : ∀ b, b ≠ c → s'.cache b eid = s.cache b eid)
    (sync : s'.sync eid = s.sync eid) (server : s'.server = s.server)
    (live : ¬ Quiet (s'.cache c eid) → s.server eid ≠ none)
    (coherent : Coherent (s'.cache c eid) (dataAt eid s.server) (s'.content files eid))
    (buffered : k = .cached c → Buffered (s'.cache c eid)) : Guarded files s' eid k := by
  have keeper : k.keeper = some c := by
    rcases has with rfl | ⟨t, rfl⟩ <;> rfl
  have others : ∀ b, b ≠ c → Quiet (s.cache b eid) := fun b ne =>
    guarded.quiet b fun eq => ne (Option.some_injective _ (eq.symm.trans keeper))
  have owner : ∀ b, k.keeper = some b → b = c :=
    fun b eq => Option.some_injective _ (eq.symm.trans keeper)
  refine ⟨by rw [locks]; exact guarded.custody, fun b other => ?_, fun b valid => ?_, fun b => ?_,
    ?_, fun b here => ?_, fun b here => ?_, ?_, fun b u other => ?_⟩
  · have ne : b ≠ c := by
      rintro rfl
      exact other keeper
    rw [cache b ne]
    exact others b ne
  · rw [server]
    by_cases eq : b = c
    · subst eq
      exact live valid
    · rw [cache b eq] at valid
      exact absurd (others b eq) valid
  · by_cases eq : b = c
    · subst eq
      exact .of_coherent coherent
    · rw [cache b eq]
      exact .of_quiet (others b eq)
  · rintro rfl
    cases keeper
  · obtain rfl : b = c := owner b (by rcases here with rfl | ⟨t, rfl⟩ <;> rfl)
    rw [server]
    exact coherent
  · obtain rfl : b = c := owner b (by rw [here]; rfl)
    exact buffered here
  · rintro who b u rfl
    rcases has with ⟨⟨⟩⟩ | ⟨t, ⟨⟩⟩
  · rw [sync]
    exact guarded.whole b u other

end Guarded

omit [LinearOrder C] [DecidableEq T] in
/-- A thread that has a lock keeps it while it makes no call. -/
theorem holding_of_goes {pc pc' : Pc C} (goes : pc.Goes pc') (holds : pc = .holding) :
    pc' = .holding := by
  cases goes with
  | stays => exact holds
  | acquires old _ => rw [holds] at old; cases old
  | releases old _ => rw [holds] at old; cases old

namespace CacheInv

variable {thread : Thread Op Res}

/-- A thread goes on, and neither a lock nor a cache nor the content of an extent changes. -/
theorem runs (inv : CacheInv files s) (placed : Placed s') (told : Told files s')
    (locks : s'.locks = s.locks) (cache : s'.cache = s.cache) (sync : s'.sync = s.sync)
    (threads : s'.thread = (s.setThread c t thread).thread)
    (spared : ∀ eid, Unmoved files s s' eid)
    (covers : thread.Covers (fun lid => (s.locks lid).pc c t = .holding) (s'.Knows files c)) :
    CacheInv files s' := by
  refine ⟨placed, told, fun eid => ?_, fun b u => ?_⟩
  · obtain ⟨k, guarded⟩ := inv.guarded eid
    exact ⟨k, guarded.same (by rw [locks]) (fun b => by rw [cache]) (by rw [sync]) (spared eid)⟩
  · rw [threads, locks]
    by_cases same : b = c ∧ u = t
    · obtain ⟨rfl, rfl⟩ := same
      rw [State.setThread_thread_self]
      exact covers
    · rw [State.setThread_thread_of_ne same]
      exact (inv.threads b u).mono (fun _ _ _ holds => holds)
        fun _ _ _ _ _ knows => knows.same (by rw [cache]) (spared _)

/-- A lock moves on, with no `sync` at its end. -/
theorem lockMoves (inv : CacheInv files s) (placed : Placed s') (told : Told files s') {lid : ℕ}
    {label : Label C T} {lock : LockState C T} (step : Lock.Step false label (s.locks lid) lock)
    (notSynced : ∀ c, label ≠ .synced c)
    (gives : ∀ c t, label = .release c t → Buffered (s.cache c lid))
    (locks : s'.locks = (s.setLock lid lock).locks) (cache : s'.cache = s.cache)
    (sync : s'.sync = s.sync) (spared : ∀ eid, Unmoved files s s' eid)
    (threads : ∀ b u, label.caller ≠ some (b, u) → s'.thread b u = s.thread b u)
    (covers : ∀ c t, label.caller = some (c, t) →
      (s'.thread c t).Covers (fun _ => False) fun _ _ => False) :
    CacheInv files s' := by
  refine ⟨placed, told, fun eid => ?_, fun b u => ?_⟩
  · obtain ⟨k, guarded⟩ := inv.guarded eid
    by_cases same : eid = lid
    · subst same
      exact guarded.moves (inv.placed.lock eid) step notSynced gives
        (by rw [locks, State.setLock_locks_self]) (fun b => by rw [cache]) (by rw [sync])
        (spared eid)
    · exact ⟨k, guarded.same (by rw [locks, State.setLock_locks_of_ne same])
        (fun b => by rw [cache]) (by rw [sync]) (spared eid)⟩
  · by_cases caller : label.caller = some (b, u)
    · exact (covers b u caller).mono (fun _ _ _ => False.elim) fun _ _ _ _ _ => False.elim
    · rw [threads b u caller, locks]
      refine (inv.threads b u).mono (fun op prog _ holds => ?_)
        fun _ _ _ _ _ knows => knows.same (by rw [cache]) (spared _)
      by_cases same : op.target = lid
      · subst same
        rw [State.setLock_locks_self]
        exact holding_of_goes (step.goes caller) holds
      · rw [State.setLock_locks_of_ne same]
        exact holds

end CacheInv

/-! ## When an entry may be stored for a new inum -/

/-- Extent `eid` was created and is still empty: the latest put to it, if any, was of the empty
string, and the server has the empty string. -/
def StillEmpty (s : State C T Op Res FileMap) (eid : ℕ) : Prop :=
  (∃ event ∈ s.history, event.creates eid = true) ∧ latest eid [] s.history = [] ∧
    dataAt eid s.server = []

/-- **When an operation may store an entry for another extent than its own**, that is for a new
inum.

The empty entry of `extent_client::create` may be stored while the client has the lock of the
inum and the extent is empty.  The lock alone would not do: between the reply of the server and
the store another client may have written to the new file, and another thread of this client may
have fetched what it wrote; the empty entry would hide it, under the lock.

The put of `symlink`, which is the store that leaves the entry dirty, may be made while no thread
of the client is in a section of the inum.  Within such a section it could fall between the
fetch of the extent and the store of what was fetched, which would then undo it. -/
def UnderLock (s : State C T Op Res FileMap) (c : C) (_ : T) (op : Op) (eid : ℕ) (entry : Entry) :
    Prop :=
  eid ≠ op.target → ∀ file ∈ entry,
    if file.dirty then ((s.locks eid).client c).clientState = .free
    else ((s.locks eid).client c).Cached ∧ StillEmpty s eid

instance (lock : ClientLock T) : Decidable lock.Cached :=
  inferInstanceAs (Decidable (_ ∨ _))

instance (s : State C T Op Res FileMap) (eid : ℕ) : Decidable (StillEmpty s eid) :=
  inferInstanceAs (Decidable (_ ∧ _ ∧ _))

instance (s : State C T Op Res FileMap) (c : C) (t : T) (op : Op) (eid : ℕ) (entry : Entry) :
    Decidable (UnderLock s c t op eid entry) :=
  inferInstanceAs (Decidable (_ → _))

/-! ## Steps -/

omit [LinearOrder C] [DecidableEq T] in
/-- A thread outside its section knows nothing. -/
theorem State.knows_outside : s.Knows files c eid .outside := ⟨trivial, nofun⟩

omit [LinearOrder C] [DecidableEq T] in
/-- The content after a note. -/
theorem State.content_recordNote {note : Option Note} :
    (s.recordNote c t note).content files eid = Note.after eid (s.content files eid) note := by
  cases note with
  | none => rfl
  | some note => exact latest_noted

omit [LinearOrder C] [DecidableEq T] in
theorem State.content_of_note {note : Option Note}
    (history : s'.history = (s.recordNote c t note).history) :
    s'.content files eid = Note.after eid (s.content files eid) note := by
  rw [← State.content_recordNote (c := c) (t := t), State.content, history, State.content]

omit [LinearOrder C] [DecidableEq T] in
/-- A note spares the other extents. -/
theorem Unmoved.of_note {note : Option Note} {i : ℕ} (server : s'.server = s.server)
    (history : s'.history = (s.recordNote c t note).history)
    (about : ∀ n, note = some n → n.eid = i) (other : eid ≠ i) : Unmoved files s s' eid where
  data := by rw [server]
  live := by rw [server]; exact id
  content := by
    rw [State.content_of_note history]
    cases note with
    | none => rfl
    | some note =>
        cases note with
        | got id' buf => rfl
        | put id' buf =>
            have eq : id' = i := about _ rfl
            exact if_neg fun same => other (same.symm.trans eq)

namespace CacheInv

variable {thread : Thread Op Res}

/-- The client that has the lock of extent `i` stores an entry, in an action of thread `t`. -/
theorem stores {i : ℕ} {new : Entry} {note : Option Note} (inv : CacheInv files s)
    (guarded : Guarded files s i k) (has : k = .cached c ∨ ∃ u, k = .used c u)
    (placed : Placed s') (locks : s'.locks = s.locks) (sync : s'.sync = s.sync)
    (server : s'.server = s.server) (cache : s'.cache = (s.setEntry c i new).cache)
    (threads : s'.thread = (s.setThread c t thread).thread)
    (history : s'.history = (s.recordNote c t note).history)
    (about : ∀ n, note = some n → n.eid = i) (sound : Note.Sound i (s.content files i) note)
    (live : ¬ Quiet new → s.server i ≠ none)
    (coherent : Coherent new (dataAt i s.server) (Note.after i (s.content files i) note))
    (buffered : k = .cached c → Buffered new)
    (covers : thread.Covers (fun lid => (s.locks lid).pc c t = .holding) (s'.Knows files c))
    (others : ∀ b u place, ¬ (b = c ∧ u = t) → (s.locks i).pc b u = .holding →
      s.Knows files b i place → s'.Knows files b i place) : CacheInv files s' := by
  have self : s'.cache c i = new := by rw [cache, State.setEntry_cache_self]
  have apart : ∀ b eid, ¬ (b = c ∧ eid = i) → s'.cache b eid = s.cache b eid := fun b eid ne => by
    rw [cache, State.setEntry_cache_of_ne ne]
  have content : s'.content files i = Note.after i (s.content files i) note :=
    State.content_of_note history
  have told : Told files s' := by
    cases note with
    | none => exact inv.told.silent (fun eid => by rw [server]; exact id) history
    | some n =>
        refine inv.told.snoc (fun eid => by rw [server]; exact id) history ?_
          (fun eid made => by cases made)
        rintro b u eid buf ⟨⟩
        obtain rfl := about _ rfl
        exact sound rfl
  refine ⟨placed, told, fun eid => ?_, fun b u => ?_⟩
  -- of the extents only this one changes
  · by_cases same : eid = i
    · subst same
      refine ⟨k, guarded.stores has (by rw [locks]) (fun b ne => apart b eid fun eq => ne eq.1)
        (by rw [sync]) server ?_ ?_ ?_⟩
      · rw [self]
        exact live
      · rw [self, content]
        exact coherent
      · rw [self]
        exact buffered
    · obtain ⟨k', guarded'⟩ := inv.guarded eid
      exact ⟨k', guarded'.same (by rw [locks]) (fun b => apart b eid fun eq => same eq.2)
        (by rw [sync]) (.of_note server history about same)⟩
  · rw [threads, locks]
    by_cases same : b = c ∧ u = t
    · obtain ⟨rfl, rfl⟩ := same
      rw [State.setThread_thread_self]
      exact covers
    · rw [State.setThread_thread_of_ne same]
      refine (inv.threads b u).mono (fun _ _ _ holds => holds) fun op _ place _ inside knows => ?_
      by_cases eq : op.target = i
      · by_cases out : place = .outside
        · rw [out]
          exact State.knows_outside
        · rw [eq] at knows ⊢
          exact others b u place same (by rw [← eq]; exact inside out) knows
      · exact knows.same (apart b _ fun at_ => eq at_.2) (.of_note server history about eq)

/-- **A thread accesses an entry.**  It is that of its own extent, and the thread has the lock; or
it is that of another extent, and is stored as `UnderLock` says. -/
theorem entry (inv : CacheInv files s) {op : Op} {i : ℕ} {update : Entry → Entry}
    {note : Entry → Option Note} {next : Entry → Prog Res}
    (here : s.thread c t = .run op (.entry i update note next))
    (may : UnderLock s c t op i (update (s.cache c i)))
    (placed : Placed (((s.setEntry c i (update (s.cache c i))).setThread c t
      (.run op (next (s.cache c i)))).recordNote c t (note (s.cache c i)))) :
    CacheInv files (((s.setEntry c i (update (s.cache c i))).setThread c t
      (.run op (next (s.cache c i)))).recordNote c t (note (s.cache c i))) := by
  have covers := inv.threads c t
  rw [here] at covers
  obtain ⟨place, ⟨own, other⟩, inside, knows⟩ := covers
  obtain ⟨k, guarded⟩ := inv.guarded i
  -- all that matters of the new state are its parts
  generalize new : ((s.setEntry c i (update (s.cache c i))).setThread c t
    (.run op (next (s.cache c i)))).recordNote c t (note (s.cache c i)) = s' at placed ⊢
  have locks : s'.locks = s.locks := by rw [← new]; simp
  have sync : s'.sync = s.sync := by rw [← new]; simp
  have server : s'.server = s.server := by rw [← new]; simp
  have cache : s'.cache = (s.setEntry c i (update (s.cache c i))).cache := by rw [← new]; simp
  have threads : s'.thread = (s.setThread c t (.run op (next (s.cache c i)))).thread := by
    rw [← new, State.recordNote_thread]
    rfl
  have history : s'.history = (s.recordNote c t (note (s.cache c i))).history := by
    rw [← new]
    cases note (s.cache c i) <;> rfl
  clear new
  by_cases same : i = op.target
  · subst same
    -- the entry of its own extent: the thread has the lock
    obtain ⟨within, accesses⟩ := own rfl
    obtain rfl := (guarded.custody.used c t).mp (inside within)
    obtain ⟨place', rest, access⟩ :=
      accesses _ _ _ (guarded.coherent c (Or.inr ⟨t, rfl⟩)) knows.1
    refine inv.stores guarded (Or.inr ⟨t, rfl⟩) placed locks sync server cache threads history
      access.about access.sound (fun valid => ?_) access.coherent (by rintro ⟨⟩)
      ⟨place', rest, fun _ => inside within, ?_, fun buf at_ => absurd at_ (access.unasked buf)⟩ ?_
    · by_cases old : Quiet (s.cache c op.target)
      · obtain ⟨buf, at_⟩ := (access.fills old).resolve_left valid
        exact knows.2 buf at_
      · exact guarded.live c old
    · rw [cache, State.setEntry_cache_self, server, State.content_of_note history]
      exact access.knows
    · -- no other thread has the lock
      intro b u place' ne holds
      cases (guarded.custody.used b u).mp holds
      exact absurd ⟨rfl, rfl⟩ ne
  -- the entry of another extent: what is stored has to fit what the client has
  · obtain ⟨foreign, rest⟩ := other same
    have apart : op.target ≠ i := Ne.symm same
    have covers : Thread.Covers (fun lid => (s.locks lid).pc c t = .holding) (s'.Knows files c)
        (.run op (next (s.cache c i))) := by
      refine ⟨place, rest _, inside, knows.same ?_ (.of_note server history foreign.about apart)⟩
      rw [cache, State.setEntry_cache_of_ne fun eq => apart eq.2]
    have may := may same
    cases foreign with
    | create attr =>
        obtain ⟨cached, created, latest, empty⟩ := may _ rfl
        have has := (guarded.custody.cached c).mp cached
        have none := (inv.told.born i created).1
        have content : s.content files i = [] := by
          rw [State.content, dataAt, none]
          exact latest
        have live := (inv.told.born i created).2
        refine inv.stores guarded has placed locks sync server cache threads history
          (by rintro _ ⟨⟩) trivial (fun _ => live) ?_ (fun _ => .created attr) covers ?_
        · rw [empty, content]
          exact .created attr
        · -- a thread of this client may be in a section of the inum
          intro b u place' _ holds known
          have used := (guarded.custody.used b u).mp holds
          have client : b = c := by
            rcases has with eq | ⟨v, eq⟩ <;> rw [used] at eq <;> cases eq
            rfl
          rw [client] at known ⊢
          refine ⟨?_, fun buf at_ => by rw [server]; exact known.2 buf at_⟩
          rw [cache, State.setEntry_cache_self, server, State.content_of_note history]
          exact known.1.created attr
    -- the lock is cached and no thread uses it, so the client has fetched the extent
    | put bytes buf atime ctime mtime =>
        obtain rfl := (inv.placed.lock i).cached_of_free guarded.custody (may _ rfl)
        obtain ⟨file, found, valid⟩ := guarded.buffered c rfl
        have coherent := guarded.coherent c (Or.inl rfl)
        have live := guarded.live c (Buffered.not_quiet ⟨file, found, valid⟩)
        refine inv.stores guarded (Or.inl rfl) placed locks sync server cache threads history
          (by rintro _ ⟨⟩; rfl) trivial (fun _ => live) ?_ (fun _ => ⟨_, rfl, rfl⟩) covers ?_
        · rw [found] at coherent ⊢
          have after : Note.after i (s.content files i) (some (.put i buf)) = buf := if_pos rfl
          rw [after]
          exact coherent.written valid
        · intro b u place' _ holds
          cases (guarded.custody.used b u).mp holds

/-- The syncs of other extents stay as they are. -/
theorem otherSync {lid : ℕ} {prog : Prog Unit} (other : eid ≠ lid) :
    (s.setSync lid c t prog).sync eid = s.sync eid := by
  funext b u
  exact State.setSync_sync_of_ne fun eq => other eq.1

/-- **A thread calls the server.**  It creates an extent, which is not its own, or it fetches its
own and learns the content. -/
theorem calls (inv : CacheInv files s) {op : Op} {req : Request} {next : Reply → Prog Res}
    {reply : Reply} {server : FileMap} (here : s.thread c t = .run op (.call req next))
    (serves : fileServer s.server req reply server)
    (placed : Placed (({ s with server := server }.setThread c t (.run op (next reply))).record
      (.called c t req reply))) :
    CacheInv files (({ s with server := server }.setThread c t (.run op (next reply))).record
      (.called c t req reply)) := by
  have covers := inv.threads c t
  rw [here] at covers
  obtain ⟨place, rest, inside, known, -⟩ := covers
  have plain : ∀ eid, (Event.called c t req reply : Event C T Op Res).Plain eid := fun _ => trivial
  rcases rest with ⟨type, rfl, rfl, rest⟩ | ⟨fetch, rfl, rest⟩
  · obtain ⟨id, rfl, free, live, kept⟩ := fileServer_create serves
    -- the thread's own extent is live, since its entry is buffered
    obtain ⟨k, guarded⟩ := inv.guarded op.target
    have own : id ≠ op.target := by
      rintro rfl
      exact guarded.live c known.not_quiet free
    refine inv.runs placed ?_ rfl rfl rfl rfl
      (fun eid => .of_plain (plain eid) (kept eid).1 (kept eid).2 rfl)
      ⟨.fetched, rest id own, inside, known, nofun⟩
    refine inv.told.snoc (fun eid => (kept eid).2) rfl (by rintro _ _ _ _ ⟨⟩) fun eid made => ?_
    obtain rfl : id = eid := of_decide_eq_true made
    exact ⟨free, live⟩
  · obtain ⟨rfl, live, f, rfl, sent⟩ := fileServer_fetch fetch serves
    have settled : dataAt op.target s.server =
        latest op.target (dataAt op.target files) (s.history ++ [.called c t req (.file f)]) :=
      known.trans (latest_plain (plain _)).symm
    refine inv.runs placed ?_ rfl rfl rfl rfl (fun eid => .of_plain (plain eid) rfl id rfl)
      ⟨.asked f.buf, rest _, fun _ => inside nofun, ⟨settled, sent.trans settled⟩, fun _ _ => live⟩
    refine inv.told.plain (fun eid => id) rfl (by rintro _ _ _ _ ⟨⟩) fun eid => ?_
    rcases fetch with rfl | rfl <;> rfl

/-- **Every step keeps the invariant.** -/
theorem step {m : Machine C T Op Res FileMap} (inv : CacheInv files s)
    (prog : ∀ c op, m.mayInvoke c op → Covered op.target (fun _ _ => True) (m.prog op) .outside)
    (serves : ∀ x req reply y, m.serve x req reply y → fileServer x req reply y)
    (stores : ∀ s c t op eid entry, m.mayStore s c t op eid entry → UnderLock s c t op eid entry)
    (step : Step m s s') : CacheInv files s' := by
  have placed := inv.placed.step step
  -- a step that records nothing spares every extent; and so does one that records no put
  have silent : s'.server = s.server → s'.history = s.history →
      Told files s' ∧ ∀ eid, Unmoved files s s' eid := fun server history =>
    ⟨inv.told.silent (fun eid => by rw [server]; exact id) history,
      fun eid => .of_same server history⟩
  have plain : ∀ event : Event C T Op Res, s'.server = s.server →
      s'.history = s.history ++ [event] → (∀ eid, event.Plain eid) →
      (∀ c t eid buf, event ≠ .noted c t (.got eid buf)) → (∀ eid, event.creates eid = false) →
      Told files s' ∧ ∀ eid, Unmoved files s s' eid :=
    fun event server history plain notGot creates =>
      ⟨inv.told.plain (fun eid => by rw [server]; exact id) history notGot creates,
        fun eid => .of_plain (plain eid) (by rw [server]) (by rw [server]; exact id) history⟩
  cases step with
  | @invoke c t op idle may =>
      obtain ⟨told, spared⟩ := plain (.invoked c t op) rfl rfl (fun _ => trivial)
        (by rintro _ _ _ _ ⟨⟩) fun _ => rfl
      exact inv.runs placed told rfl rfl rfl rfl spared
        ⟨.outside, prog c op may, fun at_ => absurd rfl at_, State.knows_outside⟩
  -- by the invariant of programs the lock is that of the extent of the operation
  | @acquire c t op lid next lock here step mutex =>
      have covers := inv.threads c t
      rw [here] at covers
      obtain ⟨place, ⟨rfl, -, rest⟩, -⟩ := covers
      obtain ⟨told, spared⟩ := silent rfl rfl
      refine inv.lockMoves placed told step (by rintro _ ⟨⟩) (by rintro _ _ ⟨⟩) rfl rfl rfl spared
        (fun b u other => ?_) ?_
      · rw [State.setThread_thread_of_ne (by rintro ⟨rfl, rfl⟩; exact other rfl)]
        rfl
      · rintro b u ⟨⟩
        rw [State.setThread_thread_self]
        exact ⟨rfl, rest⟩
  | @acquired c t op lid next here done =>
      have covers := inv.threads c t
      rw [here] at covers
      obtain ⟨rfl, rest⟩ := covers
      obtain ⟨told, spared⟩ := plain (.acquired c t op.target) rfl rfl (fun _ => trivial)
        (by rintro _ _ _ _ ⟨⟩) fun _ => rfl
      exact inv.runs placed told rfl rfl rfl rfl spared
        ⟨.entered, rest, fun _ => done.resolve_right (inv.placed.lock _).not_noent, trivial, nofun⟩
  | @release c t op lid next lock here step mutex =>
      have covers := inv.threads c t
      rw [here] at covers
      obtain ⟨place, ⟨rfl, rfl, rest⟩, -, buffered, -⟩ := covers
      obtain ⟨told, spared⟩ := plain (.released c t op.target) rfl rfl (fun _ => trivial)
        (by rintro _ _ _ _ ⟨⟩) fun _ => rfl
      refine inv.lockMoves placed told step (by rintro _ ⟨⟩) ?_ rfl rfl rfl spared
        (fun b u other => ?_) ?_
      · rintro b u ⟨⟩
        exact buffered
      · simp only [State.record_thread]
        rw [State.setThread_thread_of_ne (by rintro ⟨rfl, rfl⟩; exact other rfl)]
        rfl
      · rintro b u ⟨⟩
        rw [State.record_thread, State.setThread_thread_self]
        exact ⟨rfl, rest⟩
  | @released c t op lid next here done =>
      have covers := inv.threads c t
      rw [here] at covers
      obtain ⟨told, spared⟩ := silent rfl rfl
      exact inv.runs placed told rfl rfl rfl rfl spared
        ⟨.outside, covers.2, fun at_ => absurd rfl at_, State.knows_outside⟩
  | @call c t op req next reply server here served may =>
      exact inv.calls here (serves _ _ _ _ served) placed
  | @entry c t op eid update note next here may =>
      exact inv.entry here (stores _ _ _ _ _ _ may) placed
  | @time c t op next now here =>
      have covers := inv.threads c t
      rw [here] at covers
      obtain ⟨place, rest, inside, known⟩ := covers
      obtain ⟨told, spared⟩ := silent rfl rfl
      exact inv.runs placed told rfl rfl rfl rfl spared
        ⟨place, rest now, inside, known.same rfl (spared _)⟩
  | @memory c t op next bytes here =>
      have covers := inv.threads c t
      rw [here] at covers
      obtain ⟨place, rest, inside, known⟩ := covers
      obtain ⟨told, spared⟩ := silent rfl rfl
      exact inv.runs placed told rfl rfl rfl rfl spared
        ⟨place, rest bytes, inside, known.same rfl (spared _)⟩
  | @returned c t op res here =>
      obtain ⟨told, spared⟩ := plain (.returned c t op res) rfl rfl (fun _ => trivial)
        (by rintro _ _ _ _ ⟨⟩) fun _ => rfl
      exact inv.runs placed told rfl rfl rfl rfl spared trivial
  | @lock lid label lock step inside other mutex =>
      obtain ⟨told, spared⟩ := silent rfl rfl
      have internal : ∀ c t, label.caller ≠ some (c, t) := by
        intro c t caller
        rw [inside] at caller
        cases caller
      refine inv.lockMoves placed told step other (fun c t eq => ?_) rfl rfl rfl spared
        (fun _ _ _ => rfl) fun c t caller => absurd caller (internal c t)
      rw [eq] at inside
      cases inside
  | @syncCall lid c t who req next reply server runs here served may =>
      obtain ⟨k, guarded⟩ := inv.guarded lid
      obtain rfl := (guarded.custody.syncing c t who).mp runs
      have rest := guarded.syncing who c t rfl
      rw [here] at rest
      obtain ⟨valid, buf, rfl, rest⟩ := rest
      obtain ⟨stored, apart, kept⟩ := fileServer_put (guarded.live _ valid) (serves _ _ _ _ served)
      refine ⟨placed, inv.told.silent kept rfl, fun eid => ?_, fun b u => ?_⟩
      · by_cases same : eid = lid
        · subst same
          refine ⟨_, guarded.syncs rfl (fun _ _ => rfl) id (guarded.current _)
            (fun b u ne => State.setSync_sync_of_ne fun eq => ne eq.2) (kept eid) rfl ?_⟩
          rw [State.setSync_sync_self, State.setSync_server, stored]
          exact rest reply
        · obtain ⟨k, guarded⟩ := inv.guarded eid
          exact ⟨k, guarded.same rfl (fun _ => rfl) (otherSync same)
            ⟨apart eid same, kept eid, rfl⟩⟩
      · refine (inv.threads b u).mono (fun _ _ _ holds => holds) fun op _ place _ inside known => ?_
        by_cases same : op.target = lid
        · -- while a release is at its sync no thread has the lock
          by_cases out : place = .outside
          · rw [out]
            exact State.knows_outside
          · cases (guarded.custody.used b u).mp (by rw [← same]; exact inside out)
        · exact known.same rfl ⟨apart _ same, kept _, rfl⟩
  | @syncEntry lid c t who eid update note next runs here =>
      obtain ⟨k, guarded⟩ := inv.guarded lid
      obtain rfl := (guarded.custody.syncing c t who).mp runs
      have rest := guarded.syncing who c t rfl
      rw [here] at rest
      obtain ⟨rfl, quiet, current, rest⟩ := rest
      obtain ⟨told, spared⟩ := silent rfl rfl
      refine ⟨placed, told, fun i => ?_, fun b u => ?_⟩
      · by_cases same : i = eid
        · subst same
          refine ⟨_, guarded.syncs rfl (fun b ne => ?_) (fun old => ?_) ?_
            (fun b u ne => State.setSync_sync_of_ne fun eq => ne eq.2) id rfl ?_⟩
          · rw [State.setSync_cache, State.setEntry_cache_of_ne fun eq => ne eq.1]
          · rw [State.setSync_cache, State.setEntry_cache_self]
            exact quiet old
          · rw [State.setSync_cache, State.setEntry_cache_self]
            exact current (guarded.current _)
          · rw [State.setSync_sync_self, State.setSync_cache, State.setEntry_cache_self]
            exact rest
        · obtain ⟨k, guarded⟩ := inv.guarded i
          refine ⟨k, guarded.same rfl (fun b => ?_) (otherSync same) (spared i)⟩
          rw [State.setSync_cache, State.setEntry_cache_of_ne fun eq => same eq.2]
      · refine (inv.threads b u).mono (fun _ _ _ holds => holds) fun op _ place _ inside known => ?_
        by_cases same : op.target = eid
        · by_cases out : place = .outside
          · rw [out]
            exact State.knows_outside
          · cases (guarded.custody.used b u).mp (by rw [← same]; exact inside out)
        · refine known.same ?_ (spared _)
          rw [State.setSync_cache, State.setEntry_cache_of_ne fun eq => same eq.2]
  -- the lock is about to go to the server, with the content there and nothing in the cache
  | @synced lid c t who runs here =>
      obtain ⟨told, spared⟩ := silent rfl rfl
      refine ⟨placed, told, fun eid => ?_, fun b u => ?_⟩
      · obtain ⟨k, guarded⟩ := inv.guarded eid
        by_cases same : eid = lid
        · subst same
          obtain rfl := (guarded.custody.syncing c t who).mp runs
          exact ⟨_, guarded.synced (inv.placed.lock eid) here⟩
        · refine ⟨k, guarded.same ?_ (fun _ => rfl) (otherSync same) (spared eid)⟩
          rw [State.setSync_locks, State.setLock_locks_of_ne same]
      · refine (inv.threads b u).mono (fun op prog _ holds => ?_)
          fun _ _ _ _ _ known => known.same rfl (spared _)
        rw [State.setSync_locks]
        by_cases same : op.target = lid
        · subst same
          rw [State.setLock_locks_self]
          have moved : Lock.Step false _ _ _ := .synced runs
          exact holding_of_goes (moved.goes (by rintro ⟨⟩)) holds
        · rw [State.setLock_locks_of_ne same]
          exact holds

theorem initial (files : FileMap) : CacheInv files (.initial files : State C T Op Res FileMap) where
  placed := .initial files
  told := ⟨fun eid => .nil, fun eid old => old, fun eid => by rintro ⟨_, ⟨⟩, -⟩⟩
  guarded eid := ⟨.nobody, .initial, fun _ _ => quiet_none,
    fun _ valid => absurd quiet_none valid, fun _ => .of_quiet quiet_none, fun _ => rfl,
    by rintro b (⟨⟨⟩⟩ | ⟨u, ⟨⟩⟩), nofun, nofun, fun _ _ _ => rfl⟩
  threads _ _ := trivial

end CacheInv

end Inv

end Yfs.Client
