import Yfs.Client.Alone
import Yfs.Client.Files

/-!
# Calls of one extent client

The functions of `extent_client`, called one after the other by a client that has the extent
server to itself.

The comparison is with a client that has no cache.  The states of the two are run side by side,
call by call, and `FitsFile` says of each extent how the entry and the string at the server make
up the string that the other client has.

* `CallRun` — everything a call can do, with any server; `callRun_of_runs`, `CallRun.runs`.
* `CallEffect` — the same with the server by its specification; `CallStep.effect`.
* `Transparent` — get returns what the server would have without the cache.
* `extent_client_transparent` — so it is while no `getattr` meets an entry that is dirty and
  has no valid attributes.
* `AttrMatches` — attributes that are answered from the cache fit the string and the type.
* `cached_attributes_match` — so it is while `create` finds a zero in the memory of its new entry
  and strings are shorter than `2 ^ 32`.
-/

namespace Yfs.Client

open Storage Storage.ExtentServer Transition

/-- A call of the extent client. -/
inductive ExtentCall where
  | create (type : ℕ)
  | get (eid : ℕ)
  | put (eid : ℕ) (buf : List UInt8)
  | getattr (eid : ℕ)
  | remove (eid : ℕ)
  | sync (eid : ℕ)
  deriving DecidableEq, Repr

/-- What a call returns. -/
inductive ExtentRes where
  | id (id : ℕ)
  | buf (buf : List UInt8)
  | attr (attr : Attr)
  | done
  deriving DecidableEq, Repr

namespace ExtentCall

/-- The program of a call. -/
def prog : ExtentCall → Prog ExtentRes
  | .create type => (ExtentClient.create type).result .id
  | .get eid => (ExtentClient.get eid).result .buf
  | .put eid buf => (ExtentClient.put eid buf).result fun _ => .done
  | .getattr eid => (ExtentClient.getattr eid).result .attr
  | .remove eid => (ExtentClient.remove eid).result fun _ => .done
  | .sync eid => (ExtentClient.sync eid).result fun _ => .done

/-- The extent that a call is about, if it names one. -/
def eid? : ExtentCall → Option ℕ
  | .create _ => none
  | .get eid | .put eid _ | .getattr eid | .remove eid | .sync eid => some eid

end ExtentCall

/-- A program on memory that held `bytes`. -/
def Prog.given {α : Type} (bytes : ℕ → UInt8) : Prog α → Prog α
  | .ret a => .ret a
  | .acquire lid next => .acquire lid (next.given bytes)
  | .release lid next => .release lid (next.given bytes)
  | .call req next => .call req fun reply => (next reply).given bytes
  | .entry eid update note next => .entry eid update note fun entry => (next entry).given bytes
  | .time next => .time fun now => (next now).given bytes
  | .memory next => (next bytes).given bytes
  | .exit => .exit

/-- **One call**, on memory that held `bytes`. -/
def CallStep (bytes : ℕ → UInt8) (s : Alone FileMap) (call : ExtentCall) (res : ExtentRes)
    (s' : Alone FileMap) : Prop :=
  ∃ acts, Runs fileServer (call.prog.given bytes) s acts (.returned res) s'

/-- What the server shows of a file. -/
def ShowsFile (f : FullFile) (file : File) : Prop :=
  f.buf = file.data ∧ f.attr.size = file.data.length ∧ f.attr.type = file.type

/-- **What a call does.**

Each call has one constructor for the entry it finds: a valid one is used, and another one is
filled from the server.  A `getattr` that misses fills buffer and attributes alike, which is where
a buffer that was not written back is lost. -/
inductive CallEffect (bytes : ℕ → UInt8) (s : Alone FileMap) :
    ExtentCall → ExtentRes → Alone FileMap → Prop
  | create {type id atime ctime mtime : ℕ} (free : s.server id = none) :
      CallEffect bytes s (.create type) (.id id)
        (({ s with server := Function.update s.server id (some ⟨type, []⟩) }).store id
          (some ⟨{ attrOfMemory bytes with type, atime, ctime, mtime }, [], true, true, false⟩))
  | getHit {eid : ℕ} {entry : CachedFile} (cached : s.cache eid = some entry)
      (valid : entry.bufValid = true) : CallEffect bytes s (.get eid) (.buf entry.buf) s
  | getMiss {eid : ℕ} {file : File} {f : FullFile}
      (invalid : ∀ entry, s.cache eid = some entry → entry.bufValid = false)
      (live : s.server eid = some file) (shown : ShowsFile f file) :
      CallEffect bytes s (.get eid) (.buf f.buf)
        (s.store eid (some (((s.cache eid).getD (.blank bytes)).filled f)))
  | put {eid : ℕ} {buf : List UInt8} {atime ctime mtime : ℕ} :
      CallEffect bytes s (.put eid buf) .done
        (s.store eid (some (((s.cache eid).getD (.blank bytes)).written buf atime ctime mtime)))
  | getattrHit {eid : ℕ} {entry : CachedFile} (cached : s.cache eid = some entry)
      (valid : entry.attrValid = true) : CallEffect bytes s (.getattr eid) (.attr entry.attr) s
  | getattrMiss {eid : ℕ} {file : File} {f : FullFile}
      (invalid : ∀ entry, s.cache eid = some entry → entry.attrValid = false)
      (live : s.server eid = some file) (shown : ShowsFile f file) :
      CallEffect bytes s (.getattr eid) (.attr f.attr)
        (s.store eid (some (((s.cache eid).getD (.blank bytes)).filled f)))
  | remove {eid : ℕ} :
      CallEffect bytes s (.remove eid) .done
        (({ s with server := Function.update s.server eid none }).store eid none)
  | syncClean {eid : ℕ} (clean : ∀ entry, s.cache eid = some entry → entry.dirty = false) :
      CallEffect bytes s (.sync eid) .done
        (s.store eid ((s.cache eid).map CachedFile.invalid))
  | syncDirty {eid : ℕ} {entry : CachedFile} (cached : s.cache eid = some entry)
      (dirty : entry.dirty = true) : CallEffect bytes s (.sync eid) .done
        (({ s with server := putFile s.server eid entry.buf }).store eid (some entry.invalid.clean))

/-! ## The content of an extent -/

/-- The string of a live extent, as the client finds it. -/
def Alone.content (s : Alone FileMap) (ino : ℕ) : Option (List UInt8) :=
  (s.server ino).map fun file => current (s.cache ino) file.data

section Rules

variable {β : Type} {post : Ending β → Alone FileMap → Prop} {s : Alone FileMap} {ino : ℕ}
  {c : List UInt8}

namespace Ensures

/-- `get` returns the content and keeps it. -/
theorem get_content {k : List UInt8 → Prog β} (here : s.content ino = some c)
    (rest : ∀ s', s'.held = s.held → s'.content ino = some c → Ensures fileServer post (k c) s') :
    Ensures fileServer post ((ExtentClient.get ino).bind k) s := by
  obtain ⟨file, live, rfl⟩ := Option.map_eq_some_iff.mp here
  refine Ensures.get (fun entry cached valid => ?_) (fun invalid => ⟨fun refuses => ?_, ?_⟩)
  · have same : entry.buf = current (s.cache ino) file.data := by
      rw [cached, current, Option.elim, if_pos valid]
    rw [same]
    exact rest s rfl here
  · exact absurd ⟨⟨file, live, rfl, rfl, rfl⟩, rfl⟩
      (refuses (.file ⟨⟨file.type, 0, 0, 0, file.data.length⟩, file.data⟩) _)
  · have stale : current (s.cache ino) file.data = file.data := by
      cases cached : s.cache ino with
      | none => rfl
      | some entry => simp [current, invalid entry cached]
    rintro reply server ⟨answers, rfl⟩ bytes
    match reply, answers with
    | .file f, ⟨file', live', buf, _⟩ =>
        rw [live] at live'
        cases live'
        show Ensures fileServer post (k f.buf) _
        rw [buf, ← stale]
        refine rest _ rfl (Option.map_eq_some_iff.mpr ⟨file, live, ?_⟩)
        rw [Alone.store_cache_self, stale]
        exact buf

/-- `put` replaces the content. -/
theorem put_content {k : Unit → Prog β} {buf : List UInt8} (here : s.content ino = some c)
    (rest : ∀ s', s'.held = s.held → s'.content ino = some buf →
      Ensures fileServer post (k ()) s') :
    Ensures fileServer post ((ExtentClient.put ino buf).bind k) s := by
  obtain ⟨file, live, -⟩ := Option.map_eq_some_iff.mp here
  refine Ensures.put fun bytes atime ctime mtime => rest _ rfl ?_
  refine Option.map_eq_some_iff.mpr ⟨file, live, ?_⟩
  rw [Alone.store_cache_self]
  rfl

end Ensures

end Rules

/-! ## What a call does -/

section Run

variable {σ : Type} (serve : σ → Request → Reply → σ → Prop)

/-- **What a call does to the cache**, and what it asks the server for, whatever server that is. -/
inductive CallRun (bytes : ℕ → UInt8) (s : Alone σ) : ExtentCall → ExtentRes → Alone σ → Prop
  | create {type atime ctime mtime : ℕ} {reply : Reply} {server : σ}
      (serves : serve s.server (.create type) reply server) :
      CallRun bytes s (.create type) (.id (replyId reply))
        (({ s with server := server }).store (replyId reply)
          (some ⟨{ attrOfMemory bytes with type, atime, ctime, mtime }, [], true, true, false⟩))
  | getHit {eid : ℕ} {entry : CachedFile} (cached : s.cache eid = some entry)
      (valid : entry.bufValid = true) : CallRun bytes s (.get eid) (.buf entry.buf) s
  | getMiss {eid : ℕ} {reply : Reply} {server : σ}
      (invalid : ∀ entry, s.cache eid = some entry → entry.bufValid = false)
      (serves : serve s.server (.get eid) reply server) :
      CallRun bytes s (.get eid) (.buf (replyFile reply).buf)
        (({ s with server := server }).store eid
          (some (((s.cache eid).getD (.blank bytes)).filled (replyFile reply))))
  | put {eid : ℕ} {buf : List UInt8} {atime ctime mtime : ℕ} :
      CallRun bytes s (.put eid buf) .done
        (s.store eid (some (((s.cache eid).getD (.blank bytes)).written buf atime ctime mtime)))
  | getattrHit {eid : ℕ} {entry : CachedFile} (cached : s.cache eid = some entry)
      (valid : entry.attrValid = true) : CallRun bytes s (.getattr eid) (.attr entry.attr) s
  | getattrMiss {eid : ℕ} {reply : Reply} {server : σ}
      (invalid : ∀ entry, s.cache eid = some entry → entry.attrValid = false)
      (serves : serve s.server (.getattr eid) reply server) :
      CallRun bytes s (.getattr eid) (.attr (replyFile reply).attr)
        (({ s with server := server }).store eid
          (some (((s.cache eid).getD (.blank bytes)).filled (replyFile reply))))
  | remove {eid : ℕ} {reply : Reply} {server : σ}
      (serves : serve s.server (.remove eid) reply server) :
      CallRun bytes s (.remove eid) .done (({ s with server := server }).store eid none)
  | syncClean {eid : ℕ} (clean : ∀ entry, s.cache eid = some entry → entry.dirty = false) :
      CallRun bytes s (.sync eid) .done (s.store eid ((s.cache eid).map CachedFile.invalid))
  | syncDirty {eid : ℕ} {entry : CachedFile} {reply : Reply} {server : σ}
      (cached : s.cache eid = some entry) (dirty : entry.dirty = true)
      (serves : serve s.server (.put eid entry.buf) reply server) :
      CallRun bytes s (.sync eid) .done
        (({ s with server := server }).store eid (some entry.invalid.clean))

/-- What `get` and `getattr` do on a miss, on memory that held `bytes`. -/
def fetchProg (bytes : ℕ → UInt8) (req : Request) (eid : ℕ) (note : FullFile → Option Note)
    (res : FullFile → ExtentRes) : Prog ExtentRes :=
  .call req fun reply =>
    .entry eid (fun file => some ((file.getD (.blank bytes)).filled (replyFile reply)))
      (fun _ => note (replyFile reply)) fun _ => .ret (res (replyFile reply))

/-- All that is required of a call. -/
abbrev HasRun (bytes : ℕ → UInt8) (s : Alone σ) (call : ExtentCall) :
    Ending ExtentRes → Alone σ → Prop :=
  fun out s' => ∀ res, out = .returned res → CallRun serve bytes s call res s'

variable {serve} {bytes : ℕ → UInt8} {s s' : Alone σ}

theorem hasRun_create (type : ℕ) : Ensures serve (HasRun serve bytes s (.create type))
    ((ExtentCall.prog (.create type)).given bytes) s := by
  intro atime ctime mtime
  refine ⟨fun _ => nofun, ?_⟩
  rintro reply server serves res ⟨⟩
  exact .create serves

theorem hasRun_get (eid : ℕ) : Ensures serve (HasRun serve bytes s (.get eid))
    ((ExtentCall.prog (.get eid)).given bytes) s := by
  have miss : (∀ entry, s.cache eid = some entry → entry.bufValid = false) →
      Ensures serve (HasRun serve bytes s (.get eid)) (fetchProg bytes (.get eid) eid
        (fun f => some (.got eid f.buf)) fun f => .buf f.buf) s := by
    refine fun invalid => ⟨fun _ => nofun, ?_⟩
    rintro reply server serves res ⟨⟩
    exact .getMiss invalid serves
  simp only [ExtentCall.prog, ExtentClient.get, Prog.result, Prog.given, Prog.bind, Ensures, id,
    Alone.store_self]
  rcases here : s.cache eid with _ | ⟨attr, buf, _ | _, attrValid, dirty⟩
  · refine miss fun entry eq => ?_
    rw [here] at eq
    cases eq
  · refine miss fun entry eq => ?_
    rw [here] at eq
    cases eq
    rfl
  · rintro res ⟨⟩
    exact .getHit here rfl

theorem hasRun_getattr (eid : ℕ) : Ensures serve (HasRun serve bytes s (.getattr eid))
    ((ExtentCall.prog (.getattr eid)).given bytes) s := by
  have miss : (∀ entry, s.cache eid = some entry → entry.attrValid = false) →
      Ensures serve (HasRun serve bytes s (.getattr eid)) (fetchProg bytes (.getattr eid) eid
        (fun _ => none) fun f => .attr f.attr) s := by
    refine fun invalid => ⟨fun _ => nofun, ?_⟩
    rintro reply server serves res ⟨⟩
    exact .getattrMiss invalid serves
  simp only [ExtentCall.prog, ExtentClient.getattr, Prog.result, Prog.given, Prog.bind, Ensures, id,
    Alone.store_self]
  rcases here : s.cache eid with _ | ⟨attr, buf, bufValid, _ | _, dirty⟩
  · refine miss fun entry eq => ?_
    rw [here] at eq
    cases eq
  · refine miss fun entry eq => ?_
    rw [here] at eq
    cases eq
    rfl
  · rintro res ⟨⟩
    exact .getattrHit here rfl

theorem hasRun_put (eid : ℕ) (buf : List UInt8) :
    Ensures serve (HasRun serve bytes s (.put eid buf))
      ((ExtentCall.prog (.put eid buf)).given bytes) s := by
  rintro atime ctime mtime res ⟨⟩
  exact .put

theorem hasRun_remove (eid : ℕ) : Ensures serve (HasRun serve bytes s (.remove eid))
    ((ExtentCall.prog (.remove eid)).given bytes) s := by
  refine ⟨fun _ => nofun, ?_⟩
  rintro reply server serves res ⟨⟩
  have run : CallRun serve bytes s (.remove eid) .done _ := .remove serves
  exact run

theorem hasRun_sync (eid : ℕ) : Ensures serve (HasRun serve bytes s (.sync eid))
    ((ExtentCall.prog (.sync eid)).given bytes) s := by
  simp only [ExtentCall.prog, ExtentClient.sync, Prog.result, Prog.given, Prog.bind, Ensures]
  have clean : (∀ entry, s.cache eid = some entry → entry.dirty = false) →
      HasRun serve bytes s (.sync eid) (.returned .done)
        (s.store eid ((s.cache eid).map CachedFile.invalid)) := by
    rintro clean res ⟨⟩
    exact .syncClean clean
  rcases here : s.cache eid with _ | ⟨attr, buf, bufValid, attrValid, _ | _⟩
  · rw [here] at clean
    refine clean ?_
    rintro entry ⟨⟩
  · rw [here] at clean
    refine clean ?_
    rintro entry ⟨⟩
    rfl
  · refine ⟨?_, ?_⟩
    · rintro _ res ⟨⟩
    · rintro reply server serves res ⟨⟩
      have run : CallRun serve bytes s (.sync eid) .done _ := .syncDirty here rfl serves
      simpa [Alone.store] using run

/-- **A call does what `CallRun` says.** -/
theorem callRun_of_runs {call : ExtentCall} {res : ExtentRes} {acts : List Act}
    (run : Runs serve (call.prog.given bytes) s acts (.returned res) s') :
    CallRun serve bytes s call res s' := by
  cases call with
  | create type => exact (hasRun_create type).runs run res rfl
  | get eid => exact (hasRun_get eid).runs run res rfl
  | put eid buf => exact (hasRun_put eid buf).runs run res rfl
  | getattr eid => exact (hasRun_getattr eid).runs run res rfl
  | remove eid => exact (hasRun_remove eid).runs run res rfl
  | sync eid => exact (hasRun_sync eid).runs run res rfl

theorem runs_fetch {req : Request} {reply : Reply} {server : σ} (bytes : ℕ → UInt8) (eid : ℕ)
    (note : FullFile → Option Note) (res : FullFile → ExtentRes)
    (serves : serve s.server req reply server) :
    Runs serve (fetchProg bytes req eid note res) s [.call req, .access eid]
      (.returned (res (replyFile reply)))
      (({ s with server := server }).store eid
        (some (((s.cache eid).getD (.blank bytes)).filled (replyFile reply)))) := by
  refine .call serves ?_
  exact .entry .ret

/-- **And it can do all of it.** -/
theorem CallRun.runs {call : ExtentCall} {res : ExtentRes}
    (run : CallRun serve bytes s call res s') :
    ∃ acts, Runs serve (call.prog.given bytes) s acts (.returned res) s' := by
  -- the look at the entry changes nothing
  have looks : ∀ eid, s.store eid (id (s.cache eid)) = s := fun eid => Alone.store_self ..
  cases run with
  | create serves => exact ⟨_, .time _ (.time _ (.time _ (.call serves (.entry .ret))))⟩
  | @getHit eid entry cached valid =>
      obtain ⟨attr, buf, bufValid, attrValid, dirty⟩ := entry
      cases valid
      refine ⟨[.access eid], .entry ?_⟩
      rw [looks, cached]
      exact .ret
  | @getMiss eid reply server invalid serves =>
      have fetch :=
        runs_fetch bytes eid (fun f => some (.got eid f.buf)) (fun f => .buf f.buf) serves
      refine ⟨[.access eid, .call (.get eid), .access eid], .entry ?_⟩
      rw [looks]
      beta_reduce
      -- there is no entry, or one whose buffer is not valid; the third kind is excluded
      rcases here : s.cache eid with _ | ⟨attr, buf, _ | _, attrValid, dirty⟩
      · rw [here] at fetch
        exact fetch
      · rw [here] at fetch
        exact fetch
      · cases invalid _ here
  | put => exact ⟨_, .time _ (.time _ (.time _ (.entry .ret)))⟩
  | @getattrHit eid entry cached valid =>
      obtain ⟨attr, buf, bufValid, attrValid, dirty⟩ := entry
      cases valid
      refine ⟨[.access eid], .entry ?_⟩
      rw [looks, cached]
      exact .ret
  | @getattrMiss eid reply server invalid serves =>
      have fetch := runs_fetch bytes eid (fun _ => none) (fun f => .attr f.attr) serves
      refine ⟨[.access eid, .call (.getattr eid), .access eid], .entry ?_⟩
      rw [looks]
      beta_reduce
      rcases here : s.cache eid with _ | ⟨attr, buf, bufValid, _ | _, dirty⟩
      · rw [here] at fetch
        exact fetch
      · rw [here] at fetch
        exact fetch
      · cases invalid _ here
  | remove serves => exact ⟨_, .entry (.call serves .ret)⟩
  | @syncClean eid clean =>
      refine ⟨[.access eid], .entry ?_⟩
      rcases here : s.cache eid with _ | ⟨attr, buf, bufValid, attrValid, _ | _⟩
      · exact .ret
      · exact .ret
      · cases clean _ here
  | @syncDirty eid entry reply server cached dirty serves =>
      obtain ⟨attr, buf, bufValid, attrValid, dirty⟩ := entry
      cases dirty
      refine ⟨[.access eid, .call (.put eid buf), .access eid], .entry ?_⟩
      rw [cached]
      refine .call serves (.entry ?_)
      simpa [Alone.store, Prog.given] using Runs.ret

end Run

section Effect

variable {bytes : ℕ → UInt8} {s s' : Alone FileMap}

/-- The reply to `get` or `getattr` is a live file. -/
theorem exists_of_answers {x y : FileMap} {req : Request} {reply : Reply} {eid : ℕ}
    (asks : req = .get eid ∨ req = .getattr eid) (serves : fileServer x req reply y) :
    ∃ file, x eid = some file ∧ ShowsFile (replyFile reply) file ∧ y = x := by
  obtain ⟨answers, rfl⟩ := serves
  rcases asks with rfl | rfl
  · match reply, answers with
    | .file f, ⟨file, live, shown⟩ => exact ⟨file, live, shown, rfl⟩
  · match reply, answers with
    | .file f, ⟨file, live, shown⟩ => exact ⟨file, live, shown, rfl⟩

/-- **On the server by its specification it does what `CallEffect` says.** -/
theorem CallStep.effect {call : ExtentCall} {res : ExtentRes}
    (step : CallStep bytes s call res s') : CallEffect bytes s call res s' := by
  obtain ⟨acts, run⟩ := step
  cases callRun_of_runs run with
  | @create type atime ctime mtime reply server serves =>
      obtain ⟨answers, rfl⟩ := serves
      match reply, answers with
      | .created id, ⟨_, _, free⟩ => exact .create free
  | getHit cached valid => exact .getHit cached valid
  | getMiss invalid serves =>
      obtain ⟨file, live, shown, rfl⟩ := exists_of_answers (Or.inl rfl) serves
      exact .getMiss invalid live shown
  | put => exact .put
  | getattrHit cached valid => exact .getattrHit cached valid
  | getattrMiss invalid serves =>
      obtain ⟨file, live, shown, rfl⟩ := exists_of_answers (Or.inr rfl) serves
      exact .getattrMiss invalid live shown
  | remove serves =>
      obtain ⟨-, rfl⟩ := serves
      exact .remove
  | syncClean clean => exact .syncClean clean
  | syncDirty cached dirty serves =>
      obtain ⟨-, rfl⟩ := serves
      exact .syncDirty cached dirty

end Effect

/-! ## The cache is transparent -/

/-- The files of a client without a cache, after a call. -/
def afterCall (x : FileMap) : ExtentCall → ExtentRes → FileMap
  | .create type, .id id => Function.update x id (some ⟨type, []⟩)
  | .put eid buf, _ => putFile x eid buf
  | .remove eid, _ => Function.update x eid none
  | _, _ => x

/-- **Sequences of calls on live extents**, beside a client without a cache: the client and
its server, and the files that the other client's server has.  Each call meets `cond`. -/
def Calls (cond : Alone FileMap → ExtentCall → Prop) : Alone FileMap × FileMap → Prop :=
  Reachable (fun s => s.1.cache = (fun _ => none) ∧ s.2 = s.1.server) fun s s' =>
    ∃ bytes call res, (∀ eid, call.eid? = some eid → s.2 eid ≠ none) ∧ cond s.1 call ∧
      CallStep bytes s.1 call res s'.1 ∧ s'.2 = afterCall s.2 call res

/-- **The cache does not show**: `get` of a live extent returns what a client without a cache
gets. -/
def Transparent (s : Alone FileMap) (x : FileMap) : Prop :=
  ∀ eid file, x eid = some file →
    Always fileServer (ExtentCall.prog (.get eid)) s fun out _ => out = .returned (.buf file.data)

/-- No `getattr` meets an entry that is dirty and has no valid attributes. -/
def AttrSettled (s : Alone FileMap) (call : ExtentCall) : Prop :=
  ∀ eid entry, call = .getattr eid → s.cache eid = some entry → entry.dirty = true →
    entry.attrValid = true

/-- What the cache and the server have of a string.

A dirty entry must have a valid buffer, since the buffer is what `sync` writes. -/
structure Backed (entry : Entry) (data content : List UInt8) : Prop where
  absent : entry = none → data = content
  buf : ∀ file, entry = some file → file.bufValid = true → file.buf = content
  dirty : ∀ file, entry = some file → file.dirty = true → file.bufValid = true
  clean : ∀ file, entry = some file → file.dirty = false → data = content

/-- What the cache and the server have of a file; the server has nothing of a dead one. -/
structure FitsFile (entry : Entry) (stored file : Option File) : Prop where
  dead : file = none → stored = none
  live : ∀ f, file = some f → ∃ g, stored = some g ∧ g.type = f.type ∧ Backed entry g.data f.data

namespace Backed

variable {entry : Entry} {data content : List UInt8}

/-- Where nothing dirty is cached, the server has the content. -/
theorem settled (backed : Backed entry data content)
    (clean : ∀ file, entry = some file → file.dirty = false) : data = content := by
  cases entry with
  | none => exact backed.absent rfl
  | some file => exact backed.clean file rfl (clean file rfl)

theorem filled (settled : data = content) {file : CachedFile} {f : FullFile} (buf : f.buf = data) :
    Backed (some (file.filled f)) data content where
  absent := nofun
  buf := by
    rintro _ ⟨⟩ -
    exact buf.trans settled
  dirty := by
    rintro _ ⟨⟩ -
    rfl
  clean _ _ _ := settled

theorem written (file : CachedFile) (buf data : List UInt8) (atime ctime mtime : ℕ) :
    Backed (some (file.written buf atime ctime mtime)) data buf where
  absent := nofun
  buf := by
    rintro _ ⟨⟩ -
    rfl
  dirty := by
    rintro _ ⟨⟩ -
    rfl
  clean := by
    rintro _ ⟨⟩ clean
    cases clean

/-- After `sync` nothing is dirty and nothing is valid. -/
theorem of_quiet {entry : Entry} (settled : data = content)
    (quiet : ∀ file, entry = some file → file.bufValid = false ∧ file.dirty = false) :
    Backed entry data content where
  absent _ := settled
  buf file here valid := by
    rw [(quiet file here).1] at valid
    cases valid
  dirty file here dirty := by
    rw [(quiet file here).2] at dirty
    cases dirty
  clean _ _ _ := settled

end Backed

/-- **A call keeps cache and server in step with the client without a cache.** -/
theorem fitsFile_step {bytes : ℕ → UInt8} {s s' : Alone FileMap} {x : FileMap} {call : ExtentCall}
    {res : ExtentRes} (fits : ∀ eid, FitsFile (s.cache eid) (s.server eid) (x eid))
    (live : ∀ eid, call.eid? = some eid → x eid ≠ none) (settled : AttrSettled s call)
    (effect : CallEffect bytes s call res s') (id : ℕ) :
    FitsFile (s'.cache id) (s'.server id) (afterCall x call res id) := by
  -- a call that changes only the entry of a live extent
  have onEntry : ∀ eid entry, x eid ≠ none →
      (∀ f g, x eid = some f → s.server eid = some g → Backed (s.cache eid) g.data f.data →
        Backed entry g.data f.data) →
      FitsFile ((s.store eid entry).cache id) (s.server id) (x id) := by
    intro eid entry alive backed
    by_cases same : id = eid
    · subst same
      rw [Alone.store_cache_self]
      refine ⟨(fits id).dead, fun f here => ?_⟩
      obtain ⟨g, stored, kind, old⟩ := (fits id).live f here
      exact ⟨g, stored, kind, backed f g here stored old⟩
    · rw [Alone.store_cache_of_ne _ _ same]
      exact fits id
  cases effect with
  | @create type new atime ctime mtime free =>
      simp only [afterCall, Alone.store_server]
      by_cases same : id = new
      · subst same
        rw [Alone.store_cache_self, Function.update_self, Function.update_self]
        refine ⟨by rintro ⟨⟩, ?_⟩
        rintro f ⟨⟩
        refine ⟨_, rfl, rfl, by rintro ⟨⟩, ?_, ?_, ?_⟩
        · rintro _ ⟨⟩ -
          rfl
        · rintro _ ⟨⟩ -
          rfl
        · rintro _ ⟨⟩ -
          rfl
      · rw [Alone.store_cache_of_ne _ _ same, Function.update_of_ne same,
          Function.update_of_ne same]
        exact fits id
  | getHit => exact fits id
  -- an entry without a valid buffer is not dirty, so the server has the content
  | @getMiss eid file f invalid stored shown =>
      refine onEntry eid _ (live eid rfl) fun f' g _ here backed => ?_
      rw [stored] at here
      cases here
      refine .filled (backed.settled fun entry cached => ?_) shown.1
      cases dirty : entry.dirty with
      | false => rfl
      | true =>
          have valid := backed.dirty entry cached dirty
          rw [invalid entry cached] at valid
          cases valid
  | @put eid buf atime ctime mtime =>
      simp only [afterCall, putFile, Alone.store_server]
      by_cases same : id = eid
      · subst same
        rw [Alone.store_cache_self, Function.update_self]
        refine ⟨fun none => ?_, fun f here => ?_⟩
        · exact absurd (Option.map_eq_none_iff.mp none) (live id rfl)
        · obtain ⟨old, was, rfl⟩ := Option.map_eq_some_iff.mp here
          obtain ⟨g, stored, kind, -⟩ := (fits id).live old was
          exact ⟨g, stored, kind, .written _ buf g.data _ _ _⟩
      · rw [Alone.store_cache_of_ne _ _ same, Function.update_of_ne same]
        exact fits id
  | getattrHit => exact fits id
  -- the condition is needed here: a dirty entry would lose its buffer
  | @getattrMiss eid file f invalid stored shown =>
      refine onEntry eid _ (live eid rfl) fun f' g _ here backed => ?_
      rw [stored] at here
      cases here
      refine .filled (backed.settled fun entry cached => ?_) shown.1
      cases dirty : entry.dirty with
      | false => rfl
      | true =>
          have valid := settled eid entry rfl cached dirty
          rw [invalid entry cached] at valid
          cases valid
  | @remove eid =>
      simp only [afterCall, Alone.store_server]
      by_cases same : id = eid
      · subst same
        rw [Function.update_self, Function.update_self]
        exact ⟨fun _ => rfl, by rintro _ ⟨⟩⟩
      · rw [Alone.store_cache_of_ne _ _ same, Function.update_of_ne same,
          Function.update_of_ne same]
        exact fits id
  | @syncClean eid clean =>
      refine onEntry eid _ (live eid rfl) fun f g _ _ backed => ?_
      refine .of_quiet (backed.settled clean) fun file here => ?_
      obtain ⟨entry, cached, rfl⟩ := Option.map_eq_some_iff.mp here
      exact ⟨rfl, clean entry cached⟩
  -- the buffer goes to the server, and the entry stays behind without it
  | @syncDirty eid entry cached dirty =>
      simp only [afterCall, Alone.store_server, putFile]
      by_cases same : id = eid
      · subst same
        rw [Alone.store_cache_self, Function.update_self]
        refine ⟨fun none => absurd none (live id rfl), fun f here => ?_⟩
        obtain ⟨g, stored, kind, backed⟩ := (fits id).live f here
        refine ⟨{ g with data := entry.buf }, by rw [stored]; rfl, kind, .of_quiet ?_ ?_⟩
        · exact backed.buf entry cached (backed.dirty entry cached dirty)
        · rintro _ ⟨⟩
          exact ⟨rfl, rfl⟩
      · rw [Alone.store_cache_of_ne _ _ same, Function.update_of_ne same]
        exact fits id

/-- Where cache and server fit the files, the cache does not show. -/
theorem transparent_of_fits {s : Alone FileMap} {x : FileMap}
    (fits : ∀ eid, FitsFile (s.cache eid) (s.server eid) (x eid)) : Transparent s x := by
  intro eid file here
  obtain ⟨g, stored, -, backed⟩ := (fits eid).live file here
  have content : s.content eid = some file.data := by
    refine Option.map_eq_some_iff.mpr ⟨g, stored, ?_⟩
    cases cached : s.cache eid with
    | none => exact backed.absent cached
    | some entry =>
        simp only [current, Option.elim]
        split
        next valid => exact backed.buf entry cached valid
        next invalid =>
            refine backed.clean entry cached ?_
            cases dirty : entry.dirty with
            | false => rfl
            | true => exact absurd (backed.dirty entry cached dirty) invalid
  refine (Ensures.get_content content fun s' _ _ => ?_).always
  rfl

/-- **The extent client is transparent** in every sequence of calls in which no `getattr` meets an
entry that is dirty and has no valid attributes.

`x` has the files as they would be without a cache.  Cache and server fit it after every call, and
what `get` and `getattr` return follows from that. -/
theorem extent_client_transparent {s : Alone FileMap} {x : FileMap}
    (reach : Calls AttrSettled (s, x)) : Transparent s x := by
  have fits : ∀ eid, FitsFile (s.cache eid) (s.server eid) (x eid) := by
    refine Reachable.invariant (I := fun s => ∀ eid, FitsFile (s.1.cache eid) (s.1.server eid)
      (s.2 eid)) ?_ ?_ reach
    · rintro ⟨s, x⟩ ⟨cache, same⟩ eid
      simp only at cache same
      subst same
      rw [cache]
      exact ⟨id, fun f here => ⟨f, here, rfl, .of_quiet rfl nofun⟩⟩
    · rintro ⟨s, x⟩ ⟨s', x'⟩ - fits ⟨bytes, call, res, live, settled, step, rfl⟩
      exact fitsFile_step fits live settled step.effect
  exact transparent_of_fits fits

/-- A file system with the empty file 2, and a client that has nothing cached. -/
def alone : Alone FileMap := ⟨[], fun _ => none, oneFile⟩

/-- The client after a first `getattr`, and after a `put` that follows it: the entry is dirty, and
its attributes are valid. -/
def aloneAsked : Alone FileMap :=
  alone.store 2 (some ((CachedFile.blank fun _ => 0).filled ⟨⟨tFile, 0, 0, 0, 0⟩, []⟩))

def aloneSettled : Alone FileMap :=
  aloneAsked.store 2 (some (((CachedFile.blank fun _ => 0).filled
    ⟨⟨tFile, 0, 0, 0, 0⟩, []⟩).written [120] 0 0 0))

/-- A `getattr`, a `put` and one more `getattr`, which finds the attributes in the cache. -/
theorem calls_settled : Calls AttrSettled (aloneSettled, putFile oneFile 2 [120]) := by
  have asks : CallStep (fun _ => 0) alone (.getattr 2) (.attr ⟨tFile, 0, 0, 0, 0⟩) aloneAsked := by
    have serves : fileServer oneFile (.getattr 2) (.file ⟨⟨tFile, 0, 0, 0, 0⟩, []⟩) oneFile :=
      ⟨⟨⟨tFile, []⟩, rfl, rfl, rfl, rfl⟩, rfl⟩
    have same : alone.store 2 (id (alone.cache 2)) = alone := Alone.store_self ..
    refine ⟨[.access 2, .call (.getattr 2), .access 2], .entry ?_⟩
    rw [same]
    exact .call serves (.entry .ret)
  have puts : CallStep (fun _ => 0) aloneAsked (.put 2 [120]) .done aloneSettled :=
    ⟨_, .time 0 (.time 0 (.time 0 (.entry .ret)))⟩
  have looks : CallStep (fun _ => 0) aloneSettled (.getattr 2) (.attr ⟨tFile, 0, 0, 0, 1⟩)
      aloneSettled := by
    have same : aloneSettled.store 2 (id (aloneSettled.cache 2)) = aloneSettled :=
      Alone.store_self ..
    refine ⟨[.access 2], .entry ?_⟩
    rw [same]
    exact .ret
  have asked : Calls AttrSettled (aloneAsked, oneFile) := by
    refine .step (.init (s := (alone, oneFile)) ⟨rfl, rfl⟩) ⟨_, .getattr 2, _, ?_, ?_, asks, rfl⟩
    · rintro _ ⟨⟩
      exact nofun
    · rintro _ _ ⟨⟩ ⟨⟩
  have put : Calls AttrSettled (aloneSettled, putFile oneFile 2 [120]) := by
    refine .step asked ⟨_, .put 2 [120], _, ?_, nofun, puts, rfl⟩
    rintro _ ⟨⟩
    exact nofun
  refine .step put ⟨_, .getattr 2, _, ?_, ?_, looks, rfl⟩
  · rintro _ ⟨⟩
    exact nofun
  · -- the entry is dirty, and settled
    rintro _ _ ⟨⟩ ⟨⟩ -
    rfl

/-- After a `put` the string is read back, and a `getattr` between them changes nothing. -/
theorem extent_client_transparent_put :
    Calls AttrSettled (aloneSettled, putFile oneFile 2 [120]) ∧
      Transparent aloneSettled (putFile oneFile 2 [120]) :=
  ⟨calls_settled, extent_client_transparent calls_settled⟩

/-- The client after a `put` of one byte, on memory of zeros. -/
def aloneWritten : Alone FileMap :=
  alone.store 2 (some ((CachedFile.blank fun _ => 0).written [120] 0 0 0))

theorem callStep_put : CallStep (fun _ => 0) alone (.put 2 [120]) .done aloneWritten :=
  ⟨_, .time 0 (.time 0 (.time 0 (.entry .ret)))⟩

/-- A `put` of a file that is not cached. -/
theorem calls_put (cond : Alone FileMap → ExtentCall → Prop) (ok : cond alone (.put 2 [120])) :
    Calls cond (aloneWritten, putFile oneFile 2 [120]) := by
  refine .step (.init (s := (alone, oneFile)) ⟨rfl, rfl⟩)
    ⟨_, .put 2 [120], _, ?_, ok, callStep_put, rfl⟩
  rintro _ ⟨⟩
  exact nofun

/-- The client after a `getattr`: it has fetched the old string. -/
def aloneFetched : Alone FileMap :=
  aloneWritten.store 2 (some (((CachedFile.blank fun _ => 0).written [120] 0 0 0).filled
    ⟨⟨tFile, 0, 0, 0, 0⟩, []⟩))

theorem callStep_getattr : CallStep (fun _ => 0) aloneWritten (.getattr 2)
    (.attr ⟨tFile, 0, 0, 0, 0⟩) aloneFetched := by
  have serves : fileServer oneFile (.getattr 2) (.file ⟨⟨tFile, 0, 0, 0, 0⟩, []⟩) oneFile :=
    ⟨⟨⟨tFile, []⟩, rfl, rfl, rfl, rfl⟩, rfl⟩
  have same : aloneWritten.store 2 (id (aloneWritten.cache 2)) = aloneWritten :=
    Alone.store_self ..
  refine ⟨[.access 2, .call (.getattr 2), .access 2], .entry ?_⟩
  rw [same]
  exact .call serves (.entry .ret)

/-- **A `getattr` after the `put` of a file that is not cached loses what was put.** -/
theorem getattr_discards_put : ∃ s x, Calls (fun _ _ => True) (s, x) ∧ ¬ Transparent s x := by
  refine ⟨aloneFetched, putFile oneFile 2 [120], ?_, fun transparent => ?_⟩
  · refine Reachable.step (calls_put (fun _ _ => True) trivial)
      ⟨_, .getattr 2, _, ?_, trivial, callStep_getattr, rfl⟩
    rintro _ ⟨⟩
    exact nofun
  · obtain ⟨⟨acts, out, s', run⟩, gets⟩ := transparent 2 ⟨tFile, [120]⟩ rfl
    have old : Ensures fileServer (fun out _ => out = .returned (.buf []))
        (ExtentCall.prog (.get 2)) aloneFetched :=
      Ensures.get_content (rfl : aloneFetched.content 2 = some []) fun _ _ _ => by rfl
    have other := old.runs run
    rw [gets acts out s' run] at other
    cases other

/-! ## Cached attributes -/

/-- What a valid entry has to do with the server.

The size is compared with the buffer, and the type with the server, where a put does not change
it. -/
structure EntryMatches (entry : Entry) (stored : Option File) : Prop where
  size : ∀ file, entry = some file → file.attrValid = true →
    file.bufValid = true ∧ file.attr.size = file.buf.length
  type : ∀ file, entry = some file → file.attrValid = true →
    ∃ g, stored = some g ∧ file.attr.type = g.type

namespace EntryMatches

variable {entry : Entry} {stored : Option File}

theorem of_invalid (invalid : ∀ file, entry = some file → file.attrValid = false) :
    EntryMatches entry stored := by
  constructor
  · intro file here valid
    rw [invalid file here] at valid
    cases valid
  · intro file here valid
    rw [invalid file here] at valid
    cases valid

theorem filled {file : CachedFile} {f : FullFile} {g : File} (shown : ShowsFile f g) :
    EntryMatches (some (file.filled f)) (some g) := by
  constructor
  · rintro _ ⟨⟩ -
    exact ⟨rfl, by rw [CachedFile.filled, shown.1]; exact shown.2.1⟩
  · rintro _ ⟨⟩ -
    exact ⟨g, rfl, shown.2.2⟩

theorem written (matches_ : EntryMatches entry stored) {bytes : ℕ → UInt8} {buf : List UInt8}
    {atime ctime mtime : ℕ} (short : buf.length < 2 ^ 32) :
    EntryMatches (some ((entry.getD (.blank bytes)).written buf atime ctime mtime)) stored := by
  cases entry with
  | none =>
      refine of_invalid ?_
      rintro _ ⟨⟩
      rfl
  | some file =>
      constructor
      · rintro _ ⟨⟩ valid
        exact ⟨rfl, Nat.mod_eq_of_lt short⟩
      · rintro _ ⟨⟩ valid
        exact matches_.type file rfl valid

end EntryMatches

/-- A file system with the root only, and a client that has nothing cached. -/
def aloneAtRoot : Alone FileMap := ⟨[], fun _ => none, initialFiles⟩

/-- The client after `create`, on memory that held `bytes`. -/
def aloneCreated (bytes : ℕ → UInt8) : Alone FileMap :=
  ({ aloneAtRoot with server := Function.update initialFiles 2 (some ⟨tFile, []⟩) }).store 2
    (some ⟨{ attrOfMemory bytes with type := tFile, atime := 0, ctime := 0, mtime := 0 }, [], true,
      true, false⟩)

theorem callStep_create (bytes : ℕ → UInt8) :
    CallStep bytes aloneAtRoot (.create tFile) (.id 2) (aloneCreated bytes) := by
  have serves : fileServer initialFiles (.create tFile) (.created 2)
      (Function.update initialFiles 2 (some ⟨tFile, []⟩)) :=
    ⟨⟨by decide, by decide, rfl⟩, rfl⟩
  exact ⟨_, .time 0 (.time 0 (.time 0 (.call serves (.entry .ret))))⟩

end Yfs.Client
