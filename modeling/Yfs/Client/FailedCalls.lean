import Yfs.Client.ExtentCalls

/-!
# Extent calls whose remote call fails

`Client.ExtentClient` has the functions of `extent_client.cc` for remote calls that succeed.
Here are the same functions for every status of the remote call, and what the client is left
with if that is not `OK`.

Whether the server has executed a request whose call failed is not known to the client, so both
are possible (`Fails`).  What is required afterwards is stated over all later sequences of calls
that succeed, and not over the cache alone: an entry that is wrong and is never looked at does
no harm.

* `Setting` — what a call finds: memory, clock, the caller's variable, and the status and reply
  of the remote call.
* `ExtentCall.perform` — the functions; `perform_of_effect`: with status `OK` they are those of
  `Client.ExtentClient`.
* `Unpoisoned` — a call that failed returns its status, makes nothing valid, keeps what is dirty,
  and later calls do not show that it was made.
* `failed_call_unpoisoned_iff` — so it is only for a `create` that happens to be given the id of an
  entry that is valid, clean and empty.
-/

namespace Yfs.Client

open Storage Storage.ExtentServer Transition

/-! ## The functions for every status -/

/-- What a call finds besides the cache: the memory of a new `cached_file` and of the local
`server_file`, the clock, the value of the caller's `id`, and what the remote call returns.

All of it is arbitrary, and the status may be any number, 0 for a call that succeeds. -/
structure Setting where
  bytes : ℕ → UInt8
  stack : ℕ → UInt8
  atime : ℕ
  ctime : ℕ
  mtime : ℕ
  idBefore : ℕ
  status : ℤ
  file : FullFile
  id : ℕ

namespace Setting

variable (c : Setting)

/-- `server_file` after the remote call; with a negative status `call_m` does not touch it. -/
def serverFile : FullFile := if c.status < 0 then ⟨attrOfMemory c.stack, []⟩ else c.file

/-- `id` after the remote call of `create`. -/
def newId : ℕ := if c.status < 0 then c.idBefore else c.id

end Setting

/-- What a call returns, and the cache after it. -/
structure Performed where
  status : ℤ
  res : ExtentRes
  cache : Cache

namespace AnyStatus

variable (c : Setting) (cache : Cache)

/-- `extent_client::create`; the new entry is stored whatever the status is. -/
def create (type : ℕ) : Performed where
  status := c.status
  res := .id c.newId
  cache := Function.update cache c.newId (some
    ⟨⟨type, c.atime, c.mtime, c.ctime, wordOfMemory c.bytes 16⟩, [], true, true, false⟩)

/-- What `get` and `getattr` do on a miss: the entry becomes valid whatever the status is. -/
def fill (eid : ℕ) (res : FullFile → ExtentRes) : Performed where
  status := c.status
  res := res c.serverFile
  cache := Function.update cache eid
    (some (((cache eid).getD (.blank c.bytes)).filled c.serverFile))

/-- `extent_client::get`. -/
def get (eid : ℕ) : Performed :=
  match cache eid with
  | some ⟨_, buf, true, _, _⟩ => ⟨0, .buf buf, cache⟩
  | _ => fill c cache eid fun f => .buf f.buf

/-- `extent_client::getattr`. -/
def getattr (eid : ℕ) : Performed :=
  match cache eid with
  | some ⟨attr, _, _, true, _⟩ => ⟨0, .attr attr, cache⟩
  | _ => fill c cache eid fun f => .attr f.attr

/-- `extent_client::put`; it makes no remote call. -/
def put (eid : ℕ) (buf : List UInt8) : Performed where
  status := 0
  res := .done
  cache := Function.update cache eid
    (some (((cache eid).getD (.blank c.bytes)).written buf c.atime c.ctime c.mtime))

/-- `extent_client::remove`. -/
def remove (eid : ℕ) : Performed := ⟨c.status, .done, Function.update cache eid none⟩

/-- `extent_client::sync`; the entry is clean afterwards whatever the status is. -/
def sync (eid : ℕ) : Performed :=
  match cache eid with
  | none => ⟨0, .done, cache⟩
  | some file =>
      if file.dirty then ⟨c.status, .done, Function.update cache eid (some file.invalid.clean)⟩
      else ⟨0, .done, Function.update cache eid (some file.invalid)⟩

end AnyStatus

namespace ExtentCall

/-- A call, with any status of its remote call. -/
def perform (c : Setting) (cache : Cache) : ExtentCall → Performed
  | .create type => AnyStatus.create c cache type
  | .get eid => AnyStatus.get c cache eid
  | .put eid buf => AnyStatus.put c cache eid buf
  | .getattr eid => AnyStatus.getattr c cache eid
  | .remove eid => AnyStatus.remove c cache eid
  | .sync eid => AnyStatus.sync c cache eid

/-- The remote call that it makes, if any. -/
def request (cache : Cache) : ExtentCall → Option Request
  | .create type => some (.create type)
  | .get eid => if (cache eid).any CachedFile.bufValid then none else some (.get eid)
  | .put _ _ => none
  | .getattr eid => if (cache eid).any CachedFile.attrValid then none else some (.getattr eid)
  | .remove eid => some (.remove eid)
  | .sync eid => ((cache eid).filter CachedFile.dirty).map fun file => .put eid file.buf

end ExtentCall

section Rules

variable {c : Setting} {cache : Cache} {eid : ℕ}

/-- `get` calls the server if there is no valid buffer. -/
theorem miss_of_get {req : Request} (asks : (ExtentCall.get eid).request cache = some req) :
    ∀ file, cache eid = some file → file.bufValid = false := by
  rintro file cached
  rw [ExtentCall.request, cached, Option.any_some] at asks
  cases valid : file.bufValid with
  | false => rfl
  | true =>
      rw [valid] at asks
      cases asks

/-- `getattr` calls it if there are no valid attributes. -/
theorem miss_of_getattr {req : Request}
    (asks : (ExtentCall.getattr eid).request cache = some req) :
    ∀ file, cache eid = some file → file.attrValid = false := by
  rintro file cached
  rw [ExtentCall.request, cached, Option.any_some] at asks
  cases valid : file.attrValid with
  | false => rfl
  | true =>
      rw [valid] at asks
      cases asks

/-- `sync` calls it if the entry is dirty. -/
theorem dirty_of_sync {req : Request} (asks : (ExtentCall.sync eid).request cache = some req) :
    ∃ file, cache eid = some file ∧ file.dirty = true := by
  obtain ⟨file, kept, -⟩ := Option.map_eq_some_iff.1 asks
  exact ⟨file, Option.filter_eq_some_iff.1 kept⟩

theorem perform_get_of_miss (miss : ∀ file, cache eid = some file → file.bufValid = false) :
    (ExtentCall.get eid).perform c cache = AnyStatus.fill c cache eid fun f => .buf f.buf := by
  rw [ExtentCall.perform, AnyStatus.get]
  split
  next cached => cases miss _ cached
  next => rfl

theorem perform_getattr_of_miss (miss : ∀ file, cache eid = some file → file.attrValid = false) :
    (ExtentCall.getattr eid).perform c cache =
      AnyStatus.fill c cache eid fun f => .attr f.attr := by
  rw [ExtentCall.perform, AnyStatus.getattr]
  split
  next cached => cases miss _ cached
  next => rfl

theorem perform_sync_of_dirty {file : CachedFile} (cached : cache eid = some file)
    (dirty : file.dirty = true) : (ExtentCall.sync eid).perform c cache =
      ⟨c.status, .done, Function.update cache eid (some file.invalid.clean)⟩ := by
  rw [ExtentCall.perform, AnyStatus.sync, cached]
  exact if_pos dirty

end Rules

/-- A setting in which the remote call succeeds; the clock and the replies are 0. -/
def Setting.fine (bytes : ℕ → UInt8) : Setting where
  bytes := bytes
  stack := bytes
  atime := 0
  ctime := 0
  mtime := 0
  idBefore := 0
  status := 0
  file := ⟨⟨0, 0, 0, 0, 0⟩, []⟩
  id := 0

/-- **With status `OK` these are the functions of `Client.ExtentClient`.** -/
theorem perform_of_effect {bytes : ℕ → UInt8} {s s' : Alone FileMap} {call : ExtentCall}
    {res : ExtentRes} (effect : CallEffect bytes s call res s') :
    ∃ c, c.status = 0 ∧ call.perform c s.cache = ⟨0, res, s'.cache⟩ := by
  cases effect with
  | @create type id atime ctime mtime free =>
      exact ⟨{ Setting.fine bytes with atime, ctime, mtime, id }, rfl, rfl⟩
  | @getHit eid entry cached valid =>
      obtain ⟨attr, buf, bufValid, attrValid, dirty⟩ := entry
      cases valid
      refine ⟨.fine bytes, rfl, ?_⟩
      rw [ExtentCall.perform, AnyStatus.get, cached]
  | @getMiss eid file f invalid live shown =>
      refine ⟨{ Setting.fine bytes with file := f }, rfl, ?_⟩
      rw [perform_get_of_miss invalid]
      rfl
  | @put eid buf atime ctime mtime =>
      exact ⟨{ Setting.fine bytes with atime, ctime, mtime }, rfl, rfl⟩
  | @getattrHit eid entry cached valid =>
      obtain ⟨attr, buf, bufValid, attrValid, dirty⟩ := entry
      cases valid
      refine ⟨.fine bytes, rfl, ?_⟩
      rw [ExtentCall.perform, AnyStatus.getattr, cached]
  | @getattrMiss eid file f invalid live shown =>
      refine ⟨{ Setting.fine bytes with file := f }, rfl, ?_⟩
      rw [perform_getattr_of_miss invalid]
      rfl
  | remove => exact ⟨.fine bytes, rfl, rfl⟩
  | @syncClean eid clean =>
      refine ⟨.fine bytes, rfl, ?_⟩
      rw [ExtentCall.perform, AnyStatus.sync]
      split
      next absent =>
        rw [absent, Option.map_none, ← absent, Alone.store_self]
      next file cached =>
        rw [if_neg (by simp [clean file cached]), cached]
        rfl
  | @syncDirty eid entry cached dirty =>
      refine ⟨.fine bytes, rfl, ?_⟩
      rw [perform_sync_of_dirty cached dirty]
      rfl

/-! ## Calls that fail -/

/-- **The remote call fails.** The server may have done what it was asked for all the same.

A remote call that timed out may have been executed, so the server may have moved or not.  The
cache is what the code makes of it. -/
structure Fails (c : Setting) (s : Alone FileMap) (call : ExtentCall) (s' : Alone FileMap) :
    Prop where
  status : c.status ≠ 0
  asks : ∃ req, call.request s.cache = some req ∧
    (s'.server = s.server ∨ ∃ reply, fileServer s.server req reply s'.server)
  cache : s'.cache = (call.perform c s.cache).cache
  held : s'.held = s.held

/-- The calls that the requirement is for. -/
def ExtentCall.Covered : ExtentCall → Prop
  | .create _ | .get _ | .getattr _ | .sync _ => True
  | .put _ _ | .remove _ => False

/-- What the server has, with the puts over it that were not flushed. -/
def unflushed (cache : Cache) (x : FileMap) : FileMap := fun eid =>
  (x eid).map fun file => { file with
    data := (cache eid).elim file.data fun entry => if entry.dirty then entry.buf else file.data }

/-- A call on a live extent that succeeds, beside a client without a cache; no `getattr` meets an
entry that is dirty and has no valid attributes. -/
def NextCall (s s' : Alone FileMap × FileMap) : Prop :=
  ∃ bytes call res, (∀ eid, call.eid? = some eid → s.2 eid ≠ none) ∧ AttrSettled s.1 call ∧
    CallStep bytes s.1 call res s'.1 ∧ s'.2 = afterCall s.2 call res

/-- **The failure does no harm.** -/
structure Unpoisoned (c : Setting) (s : Alone FileMap) (call : ExtentCall) (s' : Alone FileMap) :
    Prop where
  /-- The status is returned. -/
  returned : (call.perform c s.cache).status = c.status
  /-- No entry becomes valid. -/
  bufValid : ∀ eid file', s'.cache eid = some file' → file'.bufValid = true →
    ∃ file, s.cache eid = some file ∧ file.bufValid = true
  attrValid : ∀ eid file', s'.cache eid = some file' → file'.attrValid = true →
    ∃ file, s.cache eid = some file ∧ file.attrValid = true
  /-- A dirty entry stays dirty, with its buffer. -/
  dirty : ∀ eid file, s.cache eid = some file → file.dirty = true →
    ∃ file', s'.cache eid = some file' ∧ file'.dirty = true ∧ file'.buf = file.buf
  /-- After any later calls, `get` returns what the server has or what was put and not flushed. -/
  later : ∀ t x, Relation.ReflTransGen NextCall (s', unflushed s.cache s'.server) (t, x) →
    Transparent t x

/-- `create` is given, or left with, the id of an entry that is valid, clean and empty. -/
def Spared (c : Setting) (s : Alone FileMap) (call : ExtentCall) : Prop :=
  (∃ type, call = .create type) ∧ ∃ attr, s.cache c.newId = some ⟨attr, [], true, true, false⟩

/-- **The states of a client with a server of its own**: any calls on live extents that succeed,
and failures of the kind that does no harm. -/
def FailureRuns : Alone FileMap → Prop :=
  Reachable (fun s => s.cache = fun _ => none) fun s s' =>
    (∃ bytes call res, (∀ eid, call.eid? = some eid → s.server eid ≠ none) ∧
      CallStep bytes s call res s') ∨
    ∃ c call, Spared c s call ∧ Fails c s call s'

/-! ## What holds in every state -/

/-- What an entry has to do with the server.

Other than `FitsFile` this says nothing of the content without the cache, and it is kept by calls
that fail without harm. -/
structure InStep (entry : Entry) (stored : Option File) : Prop where
  live : entry ≠ none → stored ≠ none
  clean : ∀ file g, entry = some file → stored = some g → file.bufValid = true →
    file.dirty = false → file.buf = g.data
  dirty : ∀ file, entry = some file → file.dirty = true → file.bufValid = true

namespace InStep

variable {entry : Entry} {stored : Option File}

theorem none : InStep none stored := ⟨fun absent => absurd rfl absent, nofun, nofun⟩

/-- Nothing is valid and nothing dirty, as after `sync`. -/
theorem of_quiet (live : stored ≠ .none)
    (quiet : ∀ file, entry = some file → file.bufValid = false ∧ file.dirty = false) :
    InStep entry stored := by
  refine ⟨fun _ => live, fun file g here _ valid => ?_, fun file here dirty => ?_⟩
  · rw [(quiet file here).1] at valid
    cases valid
  · rw [(quiet file here).2] at dirty
    cases dirty

theorem filled {file : CachedFile} {f : FullFile} {g : File} (buf : f.buf = g.data) :
    InStep (some (file.filled f)) (some g) := by
  refine ⟨nofun, ?_, ?_⟩
  · rintro _ _ ⟨⟩ ⟨⟩ - -
    exact buf
  · rintro _ ⟨⟩ -
    rfl

theorem written (live : stored ≠ .none) (file : CachedFile) (buf : List UInt8)
    (atime ctime mtime : ℕ) : InStep (some (file.written buf atime ctime mtime)) stored := by
  refine ⟨fun _ => live, ?_, ?_⟩
  · rintro _ g ⟨⟩ - - clean
    cases clean
  · rintro _ ⟨⟩ -
    rfl

/-- A new entry, for a file that is empty. -/
theorem created (attr : Attr) {g : File} (empty : g.data = []) :
    InStep (some ⟨attr, [], true, true, false⟩) (some g) := by
  refine ⟨nofun, ?_, nofun⟩
  rintro _ _ ⟨⟩ ⟨⟩ - -
  exact empty.symm

/-- Together they are what the server has, with the puts over it that were not flushed. -/
theorem fitsFile {cache : Cache} {x : FileMap} {eid : ℕ} (kept : InStep (cache eid) (x eid)) :
    FitsFile (cache eid) (x eid) (unflushed cache x eid) := by
  refine ⟨fun dead => Option.map_eq_none_iff.1 dead, fun f here => ?_⟩
  obtain ⟨g, stored, rfl⟩ := Option.map_eq_some_iff.1 here
  refine ⟨g, stored, rfl, ⟨fun absent => ?_, fun file cached valid => ?_, kept.dirty,
    fun file cached clean => ?_⟩⟩
  · rw [absent, Option.elim]
  · rw [cached, Option.elim]
    cases dirty : file.dirty with
    | true => rfl
    | false => exact kept.clean file g cached stored valid dirty
  · rw [cached, Option.elim, clean]
    rfl

end InStep

/-- A call that succeeds keeps every entry in step with the server. -/
theorem inStep_step {bytes : ℕ → UInt8} {s s' : Alone FileMap} {call : ExtentCall} {res : ExtentRes}
    (kept : ∀ eid, InStep (s.cache eid) (s.server eid))
    (live : ∀ eid, call.eid? = some eid → s.server eid ≠ none)
    (effect : CallEffect bytes s call res s') (id : ℕ) : InStep (s'.cache id) (s'.server id) := by
  -- a call that changes one entry, and the server for this extent at most
  have onEntry : ∀ eid entry (server : FileMap), InStep entry (server eid) →
      (∀ other, other ≠ eid → server other = s.server other) →
      InStep ((Alone.store { s with server } eid entry).cache id) (server id) := by
    intro eid entry server here frame
    by_cases same : id = eid
    · subst same
      rw [Alone.store_cache_self]
      exact here
    · rw [Alone.store_cache_of_ne _ _ same, frame id same]
      exact kept id
  cases effect with
  | @create type new atime ctime mtime free =>
      refine onEntry new _ _ ?_ fun other ne => Function.update_of_ne ne ..
      rw [Function.update_self]
      exact .created _ rfl
  | getHit => exact kept id
  | @getMiss eid file f invalid stored shown =>
      refine onEntry eid _ s.server ?_ fun _ _ => rfl
      rw [stored]
      exact .filled shown.1
  | @put eid buf atime ctime mtime =>
      exact onEntry eid _ s.server (.written (live eid rfl) _ _ _ _ _) fun _ _ => rfl
  | getattrHit => exact kept id
  | @getattrMiss eid file f invalid stored shown =>
      refine onEntry eid _ s.server ?_ fun _ _ => rfl
      rw [stored]
      exact .filled shown.1
  | @remove eid => exact onEntry eid _ _ .none fun other ne => Function.update_of_ne ne ..
  | @syncClean eid clean =>
      refine onEntry eid _ s.server (.of_quiet (live eid rfl) fun file here => ?_) fun _ _ => rfl
      obtain ⟨entry, cached, rfl⟩ := Option.map_eq_some_iff.1 here
      exact ⟨rfl, clean entry cached⟩
  | @syncDirty eid entry cached dirty =>
      refine onEntry eid _ _ (.of_quiet ?_ ?_) fun other ne => Function.update_of_ne ne ..
      · rw [putFile, Function.update_self, ne_eq, Option.map_eq_none_iff]
        exact live eid rfl
      · rintro _ ⟨⟩
        exact ⟨rfl, rfl⟩

/-! ## A `create` that fails -/

section Create

variable {c : Setting} {s s' : Alone FileMap} {type : ℕ}

/-- The new entry is there whatever the status was. -/
theorem Fails.create_cache (fails : Fails c s (.create type) s') :
    s'.cache = Function.update s.cache c.newId (some
      ⟨⟨type, c.atime, c.mtime, c.ctime, wordOfMemory c.bytes 16⟩, [], true, true, false⟩) :=
  fails.cache

/-- The server has what it had, and perhaps a new empty file. -/
theorem Fails.create_server (fails : Fails c s (.create type) s') (eid : ℕ) :
    s'.server eid = s.server eid ∨ s.server eid = none := by
  obtain ⟨req, ⟨⟩, same | ⟨reply, answers, after⟩⟩ := fails.asks
  · exact .inl (by rw [same])
  · match reply, answers with
    | .created id, ⟨_, _, free⟩ =>
        by_cases new : eid = id
        · rw [new]
          exact .inr free
        · rw [after]
          exact .inl (Function.update_of_ne new ..)

/-- What is cached is live, so the server keeps it. -/
theorem Fails.create_server_of_cached (fails : Fails c s (.create type) s') {eid : ℕ}
    (kept : InStep (s.cache eid) (s.server eid)) (cached : s.cache eid ≠ none) :
    s'.server eid = s.server eid :=
  (fails.create_server eid).resolve_right (kept.live cached)

/-- **The entry that was there before was as good.** -/
theorem inStep_of_spared (fails : Fails c s (.create type) s') {attr : Attr}
    (kept : ∀ eid, InStep (s.cache eid) (s.server eid))
    (here : s.cache c.newId = some ⟨attr, [], true, true, false⟩) (eid : ℕ) :
    InStep (s'.cache eid) (s'.server eid) := by
  rw [fails.create_cache]
  by_cases same : eid = c.newId
  · have cached : s.cache eid ≠ none := by
      rw [same, here]
      exact nofun
    rw [fails.create_server_of_cached (kept eid) cached, same, Function.update_self]
    obtain ⟨g, stored⟩ := Option.ne_none_iff_exists'.1 ((kept eid).live cached)
    rw [same] at stored
    rw [stored]
    exact .created _ ((kept c.newId).clean _ g here stored rfl rfl).symm
  · rw [Function.update_of_ne same]
    by_cases cached : s.cache eid = none
    · rw [cached]
      exact .none
    · rw [fails.create_server_of_cached (kept eid) cached]
      exact kept eid

/-- No put was pending under the id. -/
theorem unflushed_of_spared (fails : Fails c s (.create type) s') {attr : Attr}
    (here : s.cache c.newId = some ⟨attr, [], true, true, false⟩) (x : FileMap) :
    unflushed s'.cache x = unflushed s.cache x := by
  funext eid
  rw [fails.create_cache, unflushed, unflushed]
  by_cases same : eid = c.newId
  · rw [same, Function.update_self, here]
    rfl
  · rw [Function.update_of_ne same]

end Create

/-! ## Later calls -/

/-- Calls that succeed keep the client in step with one that has no cache. -/
theorem transparent_of_later {s t : Alone FileMap} {x y : FileMap}
    (fits : ∀ eid, FitsFile (s.cache eid) (s.server eid) (x eid))
    (later : Relation.ReflTransGen NextCall (s, x) (t, y)) : Transparent t y := by
  have kept : ∀ u : Alone FileMap × FileMap, Relation.ReflTransGen NextCall (s, x) u →
      ∀ eid, FitsFile (u.1.cache eid) (u.1.server eid) (u.2 eid) := by
    intro u later
    induction later with
    | refl => exact fits
    | @tail u v _ next ih =>
        obtain ⟨bytes, call, res, live, settled, step, after⟩ := next
        rw [after]
        exact fitsFile_step ih live settled step.effect
  exact transparent_of_fits (kept (t, y) later)

/-- What the client has is what it returns. -/
theorem Transparent.content_eq {s : Alone FileMap} {x : FileMap} (transparent : Transparent s x)
    {eid : ℕ} {file : File} {buf : List UInt8} (here : x eid = some file)
    (content : s.content eid = some buf) : buf = file.data := by
  obtain ⟨⟨acts, out, s', run⟩, gets⟩ := transparent eid file here
  have hit : Ensures fileServer (fun out _ => out = .returned (.buf buf))
      (ExtentCall.prog (.get eid)) s :=
    Ensures.get_content content fun _ _ _ => by rfl
  have other := hit.runs run
  rw [gets acts out s' run] at other
  cases other
  rfl

/-- Every state of the client is in step with its server. -/
theorem FailureRuns.inStep {s : Alone FileMap} (reach : FailureRuns s) :
    ∀ eid, InStep (s.cache eid) (s.server eid) := by
  refine Reachable.invariant (I := fun s => ∀ eid, InStep (s.cache eid) (s.server eid)) ?_ ?_ reach
  · intro s cache eid
    rw [cache]
    exact .none
  · rintro s s' - kept
      (⟨bytes, call, res, live, step⟩ | ⟨c, call, ⟨⟨type, rfl⟩, attr, here⟩, fails⟩)
    · exact inStep_step kept live step.effect
    · exact inStep_of_spared fails kept here

/-! ## The result -/

section Result

variable {c : Setting} {s s' : Alone FileMap} {call : ExtentCall}

theorem Fails.get_entry {eid : ℕ} (fails : Fails c s (.get eid) s')
    (miss : ∀ file, s.cache eid = some file → file.bufValid = false) :
    s'.cache eid = some (((s.cache eid).getD (.blank c.bytes)).filled c.serverFile) := by
  rw [fails.cache, perform_get_of_miss miss]
  exact Function.update_self ..

theorem Fails.getattr_entry {eid : ℕ} (fails : Fails c s (.getattr eid) s')
    (miss : ∀ file, s.cache eid = some file → file.attrValid = false) :
    s'.cache eid = some (((s.cache eid).getD (.blank c.bytes)).filled c.serverFile) := by
  rw [fails.cache, perform_getattr_of_miss miss]
  exact Function.update_self ..

theorem Fails.sync_entry {eid : ℕ} (fails : Fails c s (.sync eid) s') {file : CachedFile}
    (cached : s.cache eid = some file) (dirty : file.dirty = true) :
    s'.cache eid = some file.invalid.clean := by
  rw [fails.cache, perform_sync_of_dirty cached dirty]
  exact Function.update_self ..

/-- A `create` whose new entry replaces one that is valid, clean and empty. -/
theorem unpoisoned_of_spared (kept : ∀ eid, InStep (s.cache eid) (s.server eid))
    (spared : Spared c s call) (fails : Fails c s call s') : Unpoisoned c s call s' := by
  obtain ⟨⟨type, rfl⟩, attr, here⟩ := spared
  have entry : ∀ eid, eid ≠ c.newId → s'.cache eid = s.cache eid := by
    intro eid other
    rw [fails.create_cache, Function.update_of_ne other]
  refine ⟨rfl, fun eid file' cached valid => ?_, fun eid file' cached valid => ?_,
    fun eid file cached dirty => ?_, fun t x later => ?_⟩
  · by_cases same : eid = c.newId
    · exact ⟨_, by rw [same, here], rfl⟩
    · exact ⟨file', entry eid same ▸ cached, valid⟩
  · by_cases same : eid = c.newId
    · exact ⟨_, by rw [same, here], rfl⟩
    · exact ⟨file', entry eid same ▸ cached, valid⟩
  · by_cases same : eid = c.newId
    · rw [same, here] at cached
      cases cached
      cases dirty
    · exact ⟨file, (entry eid same).trans cached, dirty, rfl⟩
  · rw [← unflushed_of_spared fails here] at later
    exact transparent_of_later (fun eid => (inStep_of_spared fails kept here eid).fitsFile) later

/-- A `create` that does no harm replaces such an entry. -/
theorem spared_of_unpoisoned {type : ℕ} (kept : ∀ eid, InStep (s.cache eid) (s.server eid))
    (fails : Fails c s (.create type) s') (unpoisoned : Unpoisoned c s (.create type) s') :
    Spared c s (.create type) := by
  have new := congrFun fails.create_cache c.newId
  rw [Function.update_self] at new
  obtain ⟨⟨attr, buf, bufValid, attrValid, dirty⟩, cached, valid⟩ :=
    unpoisoned.bufValid c.newId _ new rfl
  obtain ⟨file, again, alsoValid⟩ := unpoisoned.attrValid c.newId _ new rfl
  rw [cached] at again
  cases again
  cases valid
  cases alsoValid
  have clean : dirty = false := by
    cases dirty with
    | false => rfl
    | true =>
        obtain ⟨file', still, stillDirty, -⟩ := unpoisoned.dirty c.newId _ cached rfl
        rw [new] at still
        cases still
        cases stillDirty
  subst clean
  have present : s.cache c.newId ≠ none := by
    rw [cached]
    exact nofun
  obtain ⟨g, stored⟩ := Option.ne_none_iff_exists'.1 ((kept c.newId).live present)
  have server : s'.server c.newId = some g :=
    (fails.create_server_of_cached (kept c.newId) present).trans stored
  -- what a `get` now returns is what the server has only if that is empty
  have wanted : unflushed s.cache s'.server c.newId = some ⟨g.type, g.data⟩ := by
    rw [unflushed, server, cached]
    rfl
  have shown : s'.content c.newId = some [] := by
    rw [Alone.content, server, new]
    rfl
  have empty : [] = g.data := (unpoisoned.later s' _ .refl).content_eq wanted shown
  have buf : buf = g.data := (kept c.newId).clean _ g cached stored rfl rfl
  rw [← empty] at buf
  subst buf
  exact ⟨⟨type, rfl⟩, attr, cached⟩

/-- **A failed call does no harm exactly if it is a `create` that is given the id of an entry that
is valid, clean and empty.**

The state before the call is one of a run in which no failure did harm.  In the one case that is
left the new entry has the content of the old one. -/
theorem failed_call_unpoisoned_iff (reach : FailureRuns s) (covered : call.Covered)
    (fails : Fails c s call s') : Unpoisoned c s call s' ↔ Spared c s call := by
  refine ⟨fun unpoisoned => ?_, fun spared => unpoisoned_of_spared reach.inStep spared fails⟩
  obtain ⟨req, asks, -⟩ := fails.asks
  -- a `get` or `getattr` that failed makes an entry valid, a `sync` makes it clean
  cases call with
  | create type => exact spared_of_unpoisoned reach.inStep fails unpoisoned
  | get eid =>
      have miss := miss_of_get asks
      obtain ⟨file, cached, valid⟩ := unpoisoned.bufValid eid _ (fails.get_entry miss) rfl
      rw [miss file cached] at valid
      cases valid
  | getattr eid =>
      have miss := miss_of_getattr asks
      obtain ⟨file, cached, valid⟩ := unpoisoned.attrValid eid _ (fails.getattr_entry miss) rfl
      rw [miss file cached] at valid
      cases valid
  | sync eid =>
      obtain ⟨file, cached, dirty⟩ := dirty_of_sync asks
      obtain ⟨file', still, stillDirty, -⟩ := unpoisoned.dirty eid file cached dirty
      rw [fails.sync_entry cached dirty] at still
      cases still
      cases stillDirty
  | put eid buf => exact covered.elim
  | remove eid => exact covered.elim

end Result

/-- A remote call that timed out, on memory of zeros; the caller's `id` is 2. -/
def Setting.timedOut : Setting := { Setting.fine fun _ => 0 with status := -1, idBefore := 2 }

/-- The client after a call that timed out. -/
def Alone.afterTimeout (s : Alone FileMap) (call : ExtentCall) : Alone FileMap :=
  { s with cache := (call.perform .timedOut s.cache).cache }

theorem fails_timedOut {s : Alone FileMap} {call : ExtentCall} {req : Request}
    (asks : call.request s.cache = some req) : Fails .timedOut s call (s.afterTimeout call) :=
  ⟨by decide, ⟨req, asks, .inl rfl⟩, rfl, rfl⟩

/-- A second `create` with the variable that has the id of the first, which is empty still. -/
theorem failed_call_unpoisoned_create :
    Unpoisoned .timedOut (aloneCreated fun _ => 0) (.create tFile)
      ((aloneCreated fun _ => 0).afterTimeout (.create tFile)) := by
  have reach : FailureRuns (aloneCreated fun _ => 0) :=
    .step (.init (s := aloneAtRoot) rfl)
      (.inl ⟨_, .create tFile, _, nofun, callStep_create fun _ => 0⟩)
  have covered : (ExtentCall.create tFile).Covered := trivial
  exact (failed_call_unpoisoned_iff reach covered (fails_timedOut rfl)).2 ⟨⟨tFile, rfl⟩, _, rfl⟩

/-- A file system where file 2 has one byte, and a client that has nothing cached. -/
def aloneStored : Alone FileMap := ⟨[], fun _ => none, putFile oneFile 2 [120]⟩

/-- **After a `get` that failed the file is empty**, for the next `get` as well. -/
theorem failed_get_poisons : FailureRuns aloneStored ∧
    Fails .timedOut aloneStored (.get 2) (aloneStored.afterTimeout (.get 2)) ∧
    aloneStored.content 2 = some [120] ∧
    (aloneStored.afterTimeout (.get 2)).content 2 = some [] ∧
    ¬ Unpoisoned .timedOut aloneStored (.get 2) (aloneStored.afterTimeout (.get 2)) := by
  refine ⟨.init rfl, fails_timedOut rfl, rfl, rfl, fun unpoisoned => ?_⟩
  obtain ⟨file, cached, -⟩ := unpoisoned.bufValid 2 _ rfl rfl
  cases cached

end Yfs.Client
