import Yfs.Client.FileOps
import Yfs.Client.Routine
import Yfs.Client.Tree

/-!
# Sizes and entries, as a client on its own keeps them

`Sees` says which files a client sees.  Here is what its cache has of the sizes, along every
operation: an entry with a valid string has valid attributes, the root apart, and the size
of a file that was written is right.

Sizes need an invariant of their own.  `getattr` answers from the cache, and the size there is
right only if the file was written through this cache or fetched with its attributes; `create`
leaves it uninitialised.  `Entries` keeps the set of inums whose sizes are known to be right.

* `Entries` — the invariant of the cache.
* `Routine.Careful` — a routine that puts only what it has loaded; `Careful.ensures`: it keeps
  the invariant.
* `Watches` — everything that is known between two operations, and the operations on files
  and on attributes in terms of it.
-/

namespace Yfs.Client

open Storage Storage.ExtentServer ByteBlock

variable {α β : Type}

/-! ## Rules for programs -/

/-- Nothing comes after the program. -/
theorem Prog.bind_ret (p : Prog α) : p.bind .ret = p := by
  induction p with
  | ret a => rfl
  | exit => rfl
  | acquire lid next ih => exact congrArg _ ih
  | release lid next ih => exact congrArg _ ih
  | call req next ih => exact congrArg _ (funext ih)
  | entry eid update note next ih => exact congrArg _ (funext ih)
  | time next ih => exact congrArg _ (funext ih)
  | memory next ih => exact congrArg _ (funext ih)

namespace Ensures

variable {σ : Type} {serve : σ → Request → Reply → σ → Prop} {s : Alone σ}

/-- What is ensured by two arguments is ensured by both together. -/
theorem and {post post' : Ending α → Alone σ → Prop} {p : Prog α} (first : Ensures serve post p s)
    (second : Ensures serve post' p s) :
    Ensures serve (fun out s' => post out s' ∧ post' out s') p s := by
  induction p generalizing s with
  | ret a => exact ⟨first, second⟩
  | exit => exact ⟨first, second⟩
  | acquire lid next ih =>
      rw [Ensures] at first second ⊢
      split at first
      next held =>
          rw [if_pos held] at second ⊢
          exact ⟨first, second⟩
      next free =>
          rw [if_neg free] at second ⊢
          exact ih first second
  | release lid next ih => exact ih first second
  | call req next ih =>
      exact ⟨fun refuses => ⟨first.1 refuses, second.1 refuses⟩,
        fun reply server serves =>
          ih reply (first.2 reply server serves) (second.2 reply server serves)⟩
  | entry eid update note next ih => exact ih _ first second
  | time next ih => exact fun now => ih now (first now) (second now)
  | memory next ih => exact fun bytes => ih bytes (first bytes) (second bytes)

/-- A program, and then what follows each of its ends. -/
theorem seq {post : Ending β → Alone σ → Prop} {first : Ending α → Alone σ → Prop} {p : Prog α}
    {k : α → Prog β} (runs : Ensures serve first p s)
    (rest : ∀ out s', first out s' →
      Ending.andThen post (fun a s' => Ensures serve post (k a) s') out s') :
    Ensures serve post (p.bind k) s :=
  Ensures.bind (runs.mono rest)

end Ensures

/-! ## The cache -/

/-- **What the cache has of strings and sizes.**  `D` are the directories, and `Z` the files that
were written since they were created. -/
structure Entries (D Z : ℕ → Prop) (s : Alone FileMap) : Prop where
  string : ∀ ino cached, s.cache ino = some cached → cached.attrValid = true →
    cached.bufValid = true
  valid : ∀ ino cached, ¬ D ino → s.cache ino = some cached → cached.bufValid = true →
    cached.attrValid = true
  size : ∀ ino cached, Z ino → s.cache ino = some cached → cached.attrValid = true →
    cached.attr.size = cached.buf.length

namespace Entries

variable {D Z : ℕ → Prop} {s t : Alone FileMap}

/-- The locks and the server do not matter. -/
theorem of_cache (entries : Entries D Z s) (same : t.cache = s.cache) : Entries D Z t := by
  refine ⟨?_, ?_, ?_⟩
  · rw [same]
    exact entries.string
  · rw [same]
    exact entries.valid
  · rw [same]
    exact entries.size

/-- One entry changes, and nothing else is counted than before. -/
theorem store_of {Z' : ℕ → Prop} (entries : Entries D Z s) {eid : ℕ} {entry : Entry}
    (counted : ∀ ino, ino ≠ eid → Z' ino → Z ino)
    (new : ∀ cached, entry = some cached → (cached.attrValid = true → cached.bufValid = true) ∧
      (¬ D eid → cached.bufValid = true → cached.attrValid = true) ∧
      (Z' eid → cached.attrValid = true → cached.attr.size = cached.buf.length)) :
    Entries D Z' (s.store eid entry) := by
  have either : ∀ {ino cached}, (s.store eid entry).cache ino = some cached →
      (ino = eid ∧ entry = some cached) ∨ (ino ≠ eid ∧ s.cache ino = some cached) := by
    intro ino cached here
    by_cases same : ino = eid
    · subst same
      rw [Alone.store_cache_self] at here
      exact Or.inl ⟨rfl, here⟩
    · rw [Alone.store_cache_of_ne s entry same] at here
      exact Or.inr ⟨same, here⟩
  refine ⟨fun ino cached here => ?_, fun ino cached other here => ?_, fun ino cached mem here => ?_⟩
  · rcases either here with ⟨rfl, eq⟩ | ⟨-, old⟩
    · exact (new cached eq).1
    · exact entries.string ino cached old
  · rcases either here with ⟨rfl, eq⟩ | ⟨-, old⟩
    · exact (new cached eq).2.1 other
    · exact entries.valid ino cached other old
  · rcases either here with ⟨rfl, eq⟩ | ⟨ne, old⟩
    · exact (new cached eq).2.2 mem
    · exact entries.size ino cached (counted ino ne mem) old

/-- One entry changes. -/
theorem store (entries : Entries D Z s) {eid : ℕ} {entry : Entry}
    (new : ∀ cached, entry = some cached → (cached.attrValid = true → cached.bufValid = true) ∧
      (¬ D eid → cached.bufValid = true → cached.attrValid = true) ∧
      (Z eid → cached.attrValid = true → cached.attr.size = cached.buf.length)) :
    Entries D Z (s.store eid entry) :=
  entries.store_of (fun _ _ => id) new

/-- A file is fetched. -/
theorem filled (entries : Entries D Z s) {eid : ℕ} {cached : CachedFile} {f : FullFile}
    {file : File} (shown : ShowsFile f file) : Entries D Z (s.store eid (some (cached.filled f))) :=
    by
  refine entries.store ?_
  rintro _ ⟨⟩
  exact ⟨fun _ => rfl, fun _ _ => rfl, fun _ _ => shown.2.1.trans (by rw [← shown.1]; rfl)⟩

/-- A string is put into a directory, or over one with valid attributes. -/
theorem written (entries : Entries D Z s) {eid : ℕ} {cached : CachedFile} {buf : List UInt8}
    {atime ctime mtime : ℕ} (valid : ¬ D eid → cached.attrValid = true)
    (short : Z eid → buf.length < 2 ^ 32) :
    Entries D Z (s.store eid (some (cached.written buf atime ctime mtime))) := by
  refine entries.store ?_
  rintro _ ⟨⟩
  exact ⟨fun _ => rfl, fun other _ => valid other, fun mem _ => Nat.mod_eq_of_lt (short mem)⟩

/-- More directories, and files that are not counted any more. -/
theorem mono {D' Z' : ℕ → Prop} (entries : Entries D Z s) (more : ∀ ino, D ino → D' ino)
    (fewer : ∀ ino, Z' ino → Z ino) : Entries D' Z' s :=
  ⟨entries.string, fun ino cached other => entries.valid ino cached fun mem => other (more ino mem),
    fun ino cached mem => entries.size ino cached (fewer ino mem)⟩

end Entries

/-! ## Careful routines -/

namespace Routine

/-- **The routine puts only into directories and over what it has created** (`L`), and not over a
file of `Z`.  Once it has removed something it creates nothing more (`creates`). -/
def Careful (D Z : ℕ → Prop) : Bool → (ℕ → Prop) → Routine α → Prop
  | _, _, .ret _ => True
  | _, _, .exit => True
  | creates, L, .acquire _ next => Careful D Z creates L next
  | creates, L, .release _ next => Careful D Z creates L next
  | creates, L, .get _ next => ∀ buf, Careful D Z creates L (next 0 buf)
  | creates, L, .getattr _ next => ∀ attr, Careful D Z creates L (next 0 attr)
  | creates, L, .put eid _ next => (D eid ∨ L eid) ∧ ¬ Z eid ∧ Careful D Z creates L (next 0)
  | creates, L, .create _ next => creates = true ∧
      ∀ id, ¬ Z id → Careful D Z creates (fun i => i = id ∨ L i) (next 0 id)
  | _, L, .remove eid next => Careful D Z false (fun i => i ≠ eid ∧ L i) (next 0)
  | creates, L, .memory next => ∀ bytes, Careful D Z creates L (next bytes)

variable {D Z : ℕ → Prop} {creates : Bool} {L : ℕ → Prop}

theorem bind_assoc {γ : Type} (p : Routine α) (k : α → Routine β) (l : β → Routine γ) :
    (p.bind k).bind l = p.bind fun a => (k a).bind l := by
  induction p with
  | ret a => rfl
  | exit => rfl
  | acquire lid next ih => exact congrArg _ ih
  | release lid next ih => exact congrArg _ ih
  | get eid next ih => exact congrArg _ (funext fun status => funext (ih status))
  | getattr eid next ih => exact congrArg _ (funext fun status => funext (ih status))
  | put eid buf next ih => exact congrArg _ (funext ih)
  | create type next ih => exact congrArg _ (funext fun status => funext (ih status))
  | remove eid next ih => exact congrArg _ (funext ih)
  | memory next ih => exact congrArg _ (funext ih)

theorem careful_readdirNoSeria {dir : ℕ} {k : List Dirent → Routine β}
    (rest : ∀ entries, Careful D Z creates L (k entries)) :
    Careful D Z creates L ((readdirNoSeria dir).bind k) := by
  intro buf
  change Careful D Z creates L (Routine.bind (if (0 : ℤ) ≠ 0 then .exit else _) k)
  rw [if_neg (not_not.mpr rfl)]
  intro attr
  change Careful D Z creates L (Routine.bind (if attr.type ≠ tDir then .exit else _) k)
  split
  · trivial
  · exact fun bytes => rest _

theorem careful_encodeDir {entries : List Dirent} {k : List UInt8 → Routine β}
    (rest : ∀ buf, Careful D Z creates L (k buf)) :
    Careful D Z creates L ((encodeDir entries).bind k) := by
  induction entries generalizing k with
  | nil => exact rest []
  | cons ent entries ih =>
      intro bytes
      change Careful D Z creates L (Routine.bind (Routine.bind (encodeDir entries) _) k)
      rw [bind_assoc]
      exact ih fun buf => rest _

/-- The end of `create` and `mkdir`. -/
theorem careful_append {d ino : ℕ} {buf name : List UInt8} (directory : D d) (notCounted : ¬ Z d) :
    Careful D Z creates L (append d buf name ino) :=
  fun _ => ⟨Or.inl directory, notCounted, trivial⟩

theorem careful_createFile {d : ℕ} {name : List UInt8} (directory : D d) (notCounted : ¬ Z d) :
    Careful D Z true L (createFile d name) := by
  rw [createFile, lookupNoSeria, bind_assoc]
  refine careful_readdirNoSeria fun entries => ?_
  simp only [Routine.bind]
  cases (entries.find? fun ent => ent.name = name).map Dirent.inum with
  | some ino => trivial
  | none =>
      refine ⟨rfl, fun id _ buf => ?_⟩
      beta_reduce
      rw [if_neg (not_not.mpr rfl)]
      exact careful_append directory notCounted

theorem careful_mkdir {d : ℕ} {name : List UInt8} (directory : D d) (notCounted : ¬ Z d) :
    Careful D Z true L (mkdir d name) := by
  rw [mkdir, lookupNoSeria, bind_assoc]
  refine careful_readdirNoSeria fun entries => ?_
  simp only [Routine.bind]
  cases (entries.find? fun ent => ent.name = name).map Dirent.inum with
  | some ino => trivial
  | none =>
      intro buf
      beta_reduce
      rw [if_neg (not_not.mpr rfl)]
      exact ⟨rfl, fun id _ => careful_append directory notCounted⟩

theorem careful_symlink {d : ℕ} {name link : List UInt8} (directory : D d) (notCounted : ¬ Z d) :
    Careful D Z true L (symlink d name link) := by
  intro content
  beta_reduce
  rw [lookupNoSeria, bind_assoc]
  refine careful_readdirNoSeria fun entries => ?_
  simp only [Routine.bind]
  cases (entries.find? fun ent => ent.name = name).map Dirent.inum with
  | some ino => trivial
  | none => exact ⟨rfl, fun id new => ⟨Or.inr (Or.inl rfl), new, fun bytes =>
      ⟨Or.inl directory, notCounted, trivial⟩⟩⟩

theorem careful_rmdir {d : ℕ} {name : List UInt8} (directory : D d) (notCounted : ¬ Z d) :
    Careful D Z true L (rmdir d name) := by
  refine careful_readdirNoSeria fun entries => ?_
  cases entries.find? fun ent => ent.name = name with
  | none => trivial
  | some ent => exact careful_encodeDir fun buf => ⟨Or.inl directory, notCounted, trivial⟩

theorem careful_lookup {d : ℕ} {name : List UInt8} : Careful D Z creates L (lookup d name) := by
  rw [lookup, lookupNoSeria, bind_assoc]
  exact careful_readdirNoSeria fun _ => trivial

theorem careful_readdir {d : ℕ} : Careful D Z creates L (readdir d) :=
  careful_readdirNoSeria fun _ => trivial

/-- An entry of another extent. -/
theorem loaded_store_of_ne {s : Alone FileMap} {eid i : ℕ} {entry : Entry} (ne : i ≠ eid)
    (loaded : Loaded s i) : Loaded (s.store eid entry) i := by
  obtain ⟨cached, here, valid⟩ := loaded
  exact ⟨cached, (Alone.store_cache_of_ne s entry ne).trans here, valid⟩

theorem prog_lookup (d : ℕ) (name : List UInt8) :
    (lookup d name).prog = YfsClient.lookup d name := by
  simp only [lookup, prog_acquire, prog_bind, prog_lookupNoSeria]
  rfl

theorem prog_readdir (d : ℕ) : (readdir d).prog = YfsClient.readdir d := by
  simp only [readdir, prog_acquire, prog_bind, prog_readdirNoSeria]
  rfl

/-- **A careful routine keeps the cache.** -/
theorem Careful.ensures {p : Routine α} {s : Alone FileMap} (careful : Careful D Z creates L p)
    (entries : Entries D Z s) (loaded : ∀ i, L i → Loaded s i)
    (live : creates = true → ∀ i, Z i → s.server i ≠ none) :
    Ensures fileServer (fun out s' => (∃ a, out = .returned a) → Entries D Z s') p.prog s := by
  -- on the routine; `L` are the extents that it has created by now
  induction p generalizing creates L s with
  | ret a => exact fun _ => entries
  | exit => exact fun _ => entries
  | acquire lid next ih =>
      rw [prog_acquire, Ensures]
      split
      · exact fun _ => entries
      · exact ih careful (entries.of_cache rfl) loaded live
  | release lid next ih => exact ih careful (entries.of_cache rfl) loaded live
  | get eid next ih =>
      rw [prog_get]
      refine Ensures.get (fun file _ _ => ih 0 _ (careful _) entries loaded live) fun _ =>
        ⟨fun _ _ => entries, fun reply server serves bytes => ?_⟩
      obtain ⟨file, _, shown, rfl⟩ := exists_of_answers (Or.inl rfl) serves
      exact ih 0 _ (careful _) (entries.filled shown)
        (fun i mem => (loaded i mem).store rfl rfl) live
  | getattr eid next ih =>
      rw [prog_getattr]
      refine Ensures.getattr (fun file _ _ => ih 0 _ (careful _) entries loaded live) fun _ =>
        ⟨fun _ _ => entries, fun reply server serves bytes => ?_⟩
      obtain ⟨file, _, shown, rfl⟩ := exists_of_answers (Or.inr rfl) serves
      exact ih 0 _ (careful _) (entries.filled shown)
        (fun i mem => (loaded i mem).store rfl rfl) live
  | put eid buf next ih =>
      rw [prog_put]
      -- a string is put to a directory, or to a file that was just created, and to none of `Z`
      obtain ⟨mine, notCounted, rest⟩ := careful
      refine Ensures.put fun bytes atime ctime mtime =>
        ih 0 rest (entries.written (fun other => ?_) fun mem => absurd mem notCounted) ?_ live
      · obtain ⟨cached, here, -, valid⟩ := loaded eid (mine.resolve_left other)
        rw [here]
        exact valid
      · intro i mem
        by_cases same : i = eid
        · subst same
          obtain ⟨cached, here, -, valid⟩ := loaded i mem
          rw [here]
          exact ⟨_, Alone.store_cache_self .., rfl, valid⟩
        · exact loaded_store_of_ne same (loaded i mem)
  | create type next ih =>
      rw [prog_create]
      obtain ⟨allowed, rest⟩ := careful
      intro bytes atime ctime mtime
      refine ⟨fun _ _ => entries, ?_⟩
      rintro reply server ⟨answers, rfl⟩
      cases reply with
      | created id =>
          obtain ⟨-, -, free⟩ := answers
          -- files that were written are live, and the server hands out a dead inum
          have new : ¬ Z id := fun mem => live allowed id mem free
          have old : Entries D Z { s with
              server := afterRequest s.server (.create type) (.created id) } := entries.of_cache rfl
          refine ih 0 id (rest id new) (old.store ?_) ?_ ?_
          · rintro _ ⟨⟩
            exact ⟨fun _ => rfl, fun _ _ => rfl, fun mem => absurd mem new⟩
          · rintro i (rfl | mem)
            · exact ⟨_, Alone.store_cache_self .., rfl, rfl⟩
            · exact Loaded.store rfl rfl (loaded i mem)
          · intro _ i mem
            show Function.update s.server id _ i ≠ none
            by_cases same : i = id
            · subst same
              exact absurd mem new
            · rw [Function.update_of_ne same]
              exact live allowed i mem
      | _ => exact answers.elim
  | remove eid next ih =>
      rw [prog_remove]
      refine ⟨fun _ _ => Entries.store (entries.of_cache rfl) (by rintro _ ⟨⟩), ?_⟩
      rintro reply server ⟨-, rfl⟩
      refine ih 0 careful (Entries.of_cache (s := s.store eid none) (entries.store ?_) rfl) ?_ ?_
      · rintro _ ⟨⟩
      · rintro i ⟨ne, mem⟩
        exact loaded_store_of_ne ne (loaded i mem)
      · rintro ⟨⟩
  | memory next ih => exact fun bytes => ih bytes (careful bytes) entries loaded live

end Routine

/-! ## Between two operations -/

/-- The inum of a directory. -/
def IsDir (v : FileMap) (ino : ℕ) : Prop := ∃ file, v ino = some file ∧ file.type = tDir

/-- Another string does not make a directory of a file, nor the other way round. -/
theorem isDir_update {v : FileMap} {ino : ℕ} {file : File} (here : v ino = some file)
    (buf : List UInt8) :
    IsDir (Function.update v ino (some { file with data := buf })) = IsDir v := by
  funext i
  by_cases same : i = ino
  · subst same
    simp [IsDir, here]
  · simp [IsDir, Function.update_of_ne same]

/-- **What is known of the client between two operations**: it holds no lock, it sees the files `v`,
and its cache is in order. -/
structure Watches (Z : ℕ → Prop) (s : Alone FileMap) (v : FileMap) : Prop where
  held : s.held = []
  sees : Sees everywhere s v
  entries : Entries (IsDir v) Z s

section Rules

variable {Z : ℕ → Prop} {s : Alone FileMap} {v : FileMap} {ino : ℕ} {file : File}
  {post : Ending β → Alone FileMap → Prop}

namespace Watches

theorem free (watches : Watches Z s v) : ino ∉ s.held := by
  rw [watches.held]
  exact List.not_mem_nil

/-- A lock is taken. -/
theorem take {k : Unit → Prog β} (watches : Watches Z s v)
    (rest : ∀ t : Alone FileMap, t.held = [ino] → Sees everywhere t v → Entries (IsDir v) Z t →
      Ensures fileServer post (k ()) t) : Ensures fileServer post ((Prog.lock ino).bind k) s := by
  refine Ensures.lock watches.free (rest _ ?_ ⟨watches.sees.files, watches.sees.faithful⟩
    (watches.entries.of_cache rfl))
  show ino :: s.held = [ino]
  rw [watches.held]

/-- It is released. -/
theorem give {k : Unit → Prog β} {t : Alone FileMap} (held : t.held = [ino])
    (sees : Sees everywhere t v) (entries : Entries (IsDir v) Z t)
    (rest : ∀ s', Watches Z s' v → Ensures fileServer post (k ()) s') :
    Ensures fileServer post ((Prog.unlock ino).bind k) t := by
  refine Ensures.unlock (rest _ ⟨?_, sees.release, entries.of_cache rfl⟩)
  show t.held.erase ino = []
  rw [held]
  exact List.erase_cons_head ..

end Watches

/-- After `get` the string is in the cache. -/
theorem ensures_get_cached (t : Alone FileMap) (ino : ℕ) :
    Ensures fileServer (fun out s' => (∃ buf, out = .returned buf) →
      ∃ cached, s'.cache ino = some cached ∧ cached.bufValid = true) (ExtentClient.get ino) t := by
  rw [← Prog.bind_ret (ExtentClient.get ino)]
  refine Ensures.get (fun cached here valid _ => ⟨cached, here, valid⟩) fun _ => ⟨fun _ => ?_, ?_⟩
  · rintro ⟨_, ⟨⟩⟩
  · exact fun reply server _ bytes _ => ⟨_, Alone.store_cache_self .., rfl⟩

/-- After `getattr` the attributes are in the cache. -/
theorem ensures_getattr_cached (t : Alone FileMap) (ino : ℕ) :
    Ensures fileServer (fun out s' => ∀ attr, out = .returned attr →
      ∃ cached, s'.cache ino = some cached ∧ cached.attrValid = true ∧ cached.attr = attr)
      (ExtentClient.getattr ino) t := by
  rw [← Prog.bind_ret (ExtentClient.getattr ino)]
  refine Ensures.getattr (fun cached here valid => ?_) fun _ => ⟨fun _ => ?_, ?_⟩
  · rintro _ ⟨⟩
    exact ⟨cached, here, valid, rfl⟩
  · rintro _ ⟨⟩
  · rintro reply server - bytes _ ⟨⟩
    exact ⟨_, Alone.store_cache_self .., rfl, rfl⟩

/-- `get`; a file that is not a directory is loaded then. -/
theorem Ensures.get_entries {k : List UInt8 → Prog β} {t : Alone FileMap}
    (sees : Sees everywhere t v) (entries : Entries (IsDir v) Z t) (here : v ino = some file)
    (rest : ∀ s', s'.held = t.held → Sees everywhere s' v → Entries (IsDir v) Z s' →
      (file.type ≠ tDir → Loaded s' ino) → Ensures fileServer post (k file.data) s') :
    Ensures fileServer post ((ExtentClient.get ino).bind k) t := by
  have seen : Ensures fileServer (fun out s' => out = .returned file.data ∧ s'.held = t.held ∧
      Sees everywhere s' v) (ExtentClient.get ino) t := by
    rw [← Prog.bind_ret (ExtentClient.get ino)]
    exact Ensures.get_view sees here fun s' held sees _ => ⟨rfl, held, sees⟩
  have kept : Ensures fileServer (fun out s' => (∃ buf, out = .returned buf) →
      Entries (IsDir v) Z s') (ExtentClient.get ino) t := by
    have careful : Routine.Careful (IsDir v) Z false (fun _ => False)
        (Routine.get ino fun _ buf => .ret buf) := fun _ => trivial
    have ensures := careful.ensures entries (fun _ => False.elim) (by rintro ⟨⟩)
    rwa [Routine.prog_get, show (fun buf => (Routine.ret buf).prog) = Prog.ret from rfl,
      Prog.bind_ret] at ensures
  refine Ensures.seq ((seen.and kept).and (ensures_get_cached t ino)) ?_
  rintro out s' ⟨⟨⟨rfl, held, sees⟩, kept⟩, shows⟩
  have entries := kept ⟨_, rfl⟩
  refine rest s' held sees entries fun other => ?_
  obtain ⟨cached, eq, valid⟩ := shows ⟨_, rfl⟩
  refine ⟨cached, eq, valid, entries.valid ino cached ?_ eq valid⟩
  rintro ⟨file', here', directory⟩
  rw [here] at here'
  cases here'
  exact other directory

/-- `getattr`, with the size of a file that was written. -/
theorem Ensures.getattr_entries {k : Attr → Prog β} {t : Alone FileMap}
    (sees : Sees everywhere t v) (entries : Entries (IsDir v) Z t) (here : v ino = some file)
    (rest : ∀ s' attr, s'.held = t.held → Sees everywhere s' v → Entries (IsDir v) Z s' →
      attr.type = file.type → (Z ino → attr.size = file.data.length) →
      Ensures fileServer post (k attr) s') :
    Ensures fileServer post ((ExtentClient.getattr ino).bind k) t := by
  have seen : Ensures fileServer (fun out s' => ∃ attr, out = .returned attr ∧ s'.held = t.held ∧
      Sees everywhere s' v ∧ attr.type = file.type) (ExtentClient.getattr ino) t := by
    rw [← Prog.bind_ret (ExtentClient.getattr ino)]
    exact Ensures.getattr_view sees trivial here fun s' attr held sees _ _ type =>
      ⟨attr, rfl, held, sees, type⟩
  have kept : Ensures fileServer (fun out s' => (∃ attr, out = .returned attr) →
      Entries (IsDir v) Z s') (ExtentClient.getattr ino) t := by
    have careful : Routine.Careful (IsDir v) Z false (fun _ => False)
        (Routine.getattr ino fun _ attr => .ret attr) := fun _ => trivial
    have ensures := careful.ensures entries (fun _ => False.elim) (by rintro ⟨⟩)
    rwa [Routine.prog_getattr, show (fun attr => (Routine.ret attr).prog) = Prog.ret from rfl,
      Prog.bind_ret] at ensures
  refine Ensures.seq ((seen.and kept).and (ensures_getattr_cached t ino)) ?_
  rintro out s' ⟨⟨⟨attr, rfl, held, sees, type⟩, kept⟩, shows⟩
  have entries := kept ⟨_, rfl⟩
  refine rest s' attr held sees entries type fun counted => ?_
  obtain ⟨cached, eq, valid, rfl⟩ := shows attr rfl
  obtain ⟨stored, -, -, string⟩ := sees.exists_stored here
  rw [entries.size ino cached counted eq valid, ← string, eq, current, Option.elim,
    if_pos (entries.string ino cached eq valid)]

/-- `put` over a file that is loaded. -/
theorem Ensures.put_entries {k : Unit → Prog β} {t : Alone FileMap} {buf : List UInt8}
    (sees : Sees everywhere t v) (entries : Entries (IsDir v) Z t) (here : v ino = some file)
    (loaded : Loaded t ino) (short : buf.length < 2 ^ 32)
    (rest : ∀ s', s'.held = t.held →
      Sees everywhere s' (Function.update v ino (some { file with data := buf })) →
      Entries (IsDir v) (fun i => i = ino ∨ Z i) s' → Ensures fileServer post (k ()) s') :
    Ensures fileServer post ((ExtentClient.put ino buf).bind k) t := by
  have seen : Ensures fileServer (fun out s' => out = .returned () ∧ s'.held = t.held ∧
      Sees everywhere s' (Function.update v ino (some { file with data := buf })))
      (ExtentClient.put ino buf) t := by
    rw [← Prog.bind_ret (ExtentClient.put ino buf)]
    exact Ensures.put_view sees here loaded fun s' held sees _ => ⟨rfl, held, sees⟩
  have kept : Ensures fileServer (fun _ s' => Entries (IsDir v) (fun i => i = ino ∨ Z i) s')
      (ExtentClient.put ino buf) t := by
    obtain ⟨cached, eq, -, valid⟩ := loaded
    rw [← Prog.bind_ret (ExtentClient.put ino buf)]
    refine Ensures.put fun bytes atime ctime mtime => entries.store_of
      (fun i ne mem => mem.resolve_left ne) ?_
    rw [eq]
    rintro _ ⟨⟩
    exact ⟨fun _ => rfl, fun _ _ => valid, fun _ _ => Nat.mod_eq_of_lt short⟩
  refine Ensures.seq (seen.and kept) ?_
  rintro out s' ⟨⟨rfl, held, sees⟩, entries⟩
  exact rest s' held sees entries

/-! ## Operations on files -/

namespace Watches

/-- The operations that read the attributes. -/
theorem attributes {k : Attr → Prog β} (watches : Watches Z s v) (here : v ino = some file)
    (rest : ∀ s' attr, Watches Z s' v → attr.type = file.type →
      (Z ino → attr.size = file.data.length) → Ensures fileServer post (k attr) s') :
    Ensures fileServer post ((YfsClient.attributes ino).bind k) s := by
  simp only [YfsClient.attributes, Prog.bind_eq, Prog.bind_assoc, Prog.ret_bind]
  refine watches.take fun t held sees entries => Ensures.getattr_entries sees entries here
    fun u attr same sees entries type size => ?_
  exact give (same.trans held) sees entries fun s' watches => rest s' attr watches type size

/-- `read`. -/
theorem read {k : List UInt8 → Prog β} {size off : ℕ} (watches : Watches Z s v)
    (here : v ino = some file) (low : off < 2 ^ 32)
    (rest : ∀ s', Watches Z s' v →
      Ensures fileServer post (k ((file.data.drop off).take size)) s') :
    Ensures fileServer post ((YfsClient.read ino size off).bind k) s := by
  simp only [YfsClient.read, Prog.bind_eq, Prog.bind_assoc]
  refine watches.take fun t held sees entries => Ensures.get_entries sees entries here
    fun u same sees entries _ => give (same.trans held) sees entries fun s' watches => ?_
  have goOn := rest s' watches
  rw [← bytesRead_eq file.data size low, bytesRead] at goOn
  by_cases past : file.data.length ≤ off % 2 ^ 32
  · rw [if_pos past] at goOn ⊢
    exact goOn
  · rw [if_neg past] at goOn ⊢
    rw [if_neg (by rw [Nat.mod_eq_of_lt low] at past; omega)]
    exact goOn

/-- `readlink`. -/
theorem readlink {k : List UInt8 → Prog β} (watches : Watches Z s v) (here : v ino = some file)
    (rest : ∀ s', Watches Z s' v → Ensures fileServer post (k file.data) s') :
    Ensures fileServer post ((YfsClient.readlink ino).bind k) s := by
  simp only [YfsClient.readlink, Prog.bind_eq, Prog.bind_assoc, Prog.ret_bind]
  exact watches.take fun t held sees entries => Ensures.get_entries sees entries here
    fun u same sees entries _ => give (same.trans held) sees entries rest

/-- The end of `write` and `setattr`: another string is put. -/
theorem putFile {k : Unit → Prog β} {t : Alone FileMap} {buf : List UInt8} (held : t.held = [ino])
    (sees : Sees everywhere t v) (entries : Entries (IsDir v) Z t) (here : v ino = some file)
    (loaded : Loaded t ino) (short : buf.length < 2 ^ 32)
    (rest : ∀ s', Watches (fun i => i = ino ∨ Z i) s'
        (Function.update v ino (some { file with data := buf })) →
      Ensures fileServer post (k ()) s') :
    Ensures fileServer post
      ((ExtentClient.put ino buf).bind fun _ => (Prog.unlock ino).bind k) t := by
  refine Ensures.put_entries sees entries here loaded short fun u same sees entries => ?_
  rw [← isDir_update here buf] at entries
  exact give (same.trans held) sees entries rest

/-- `write`. -/
theorem write {k : ℕ → Prog β} {off : ℕ} {data : List UInt8} (watches : Watches Z s v)
    (here : v ino = some file) (other : file.type ≠ tDir) (low : off < 2 ^ 32)
    (short : (overwritten file.data off data).length < 2 ^ 32)
    (rest : ∀ s', Watches (fun i => i = ino ∨ Z i) s'
        (Function.update v ino (some { file with data := overwritten file.data off data })) →
      Ensures fileServer post (k (data.length + (off - file.data.length))) s') :
    Ensures fileServer post ((YfsClient.write ino off data).bind k) s := by
  simp only [YfsClient.write, Prog.bind_eq, Prog.bind_assoc]
  refine watches.take fun t held sees entries => Ensures.get_entries sees entries here
    fun u same sees entries loaded => ?_
  have written := contentWritten_eq file.data data low
  have small := Nat.mod_eq_of_lt low
  rw [← written] at short rest
  by_cases within : off % 2 ^ 32 ≤ file.data.length
  · rw [if_pos within, if_neg (by omega)]
    rw [contentWritten, if_pos within] at short rest
    rw [show data.length + (off - file.data.length) = data.length by omega] at rest
    simp only [Prog.bind_assoc]
    exact putFile (same.trans held) sees entries here (loaded other) short rest
  · rw [if_neg within]
    rw [contentWritten, if_neg within] at short rest
    rw [show data.length + (off - file.data.length) = data.length + off - file.data.length by
      omega] at rest
    simp only [Prog.bind_assoc]
    exact putFile (same.trans held) sees entries here (loaded other) short rest

/-- `setattr`. -/
theorem setattr {k : YfsStatus → Prog β} {size : ℕ} (watches : Watches Z s v)
    (here : v ino = some file) (other : file.type ≠ tDir) (short : size < 2 ^ 32)
    (rest : ∀ s', Watches (fun i => i = ino ∨ Z i) s'
        (Function.update v ino (some { file with data := resize size file.data })) →
      Ensures fileServer post (k .OK) s') :
    Ensures fileServer post ((YfsClient.setattr ino size).bind k) s := by
  simp only [YfsClient.setattr, Prog.bind_eq, Prog.bind_assoc, Prog.ret_bind]
  refine watches.take fun t held sees entries => Ensures.get_entries sees entries here
    fun u same sees entries loaded => ?_
  exact putFile (same.trans held) sees entries here (loaded other) (by rwa [length_resize]) rest

/-! ## Operations on directories -/

variable {d : ℕ} {dir : File} {name : List UInt8}

/-- `lookup`. -/
theorem lookup {k : Option ℕ → Prog β} (watches : Watches Z s v) (here : v d = some dir)
    (directory : dir.type = tDir)
    (rest : ∀ s' stack, Watches Z s' v →
      Ensures fileServer post (k (bindings (decodeDir stack dir.data) name)) s') :
    Ensures fileServer post ((YfsClient.lookup d name).bind k) s := by
  have seen : Ensures fileServer (fun out s' => ∃ stack,
      out = .returned (bindings (decodeDir stack dir.data) name) ∧ s'.held = [] ∧
        Sees everywhere s' v) (YfsClient.lookup d name) s := by
    simp only [YfsClient.lookup, Prog.bind_eq]
    refine Ensures.lock watches.free (Ensures.lookup_view
      ⟨watches.sees.files, watches.sees.faithful⟩ trivial here directory
      fun t stack held sees _ => ⟨stack, rfl, ?_, sees.release⟩)
    exact (erase_held held).trans watches.held
  have careful : Routine.Careful (IsDir v) Z false (fun _ => False) (Routine.lookup d name) :=
    Routine.careful_lookup
  have kept := careful.ensures watches.entries (fun _ => False.elim) (by rintro ⟨⟩)
  rw [Routine.prog_lookup] at kept
  refine Ensures.seq (seen.and kept) ?_
  rintro out s' ⟨⟨stack, rfl, held, sees⟩, kept⟩
  exact rest s' stack ⟨held, sees, kept ⟨_, rfl⟩⟩

/-- `readdir`. -/
theorem readdir {k : List Dirent → Prog β} (watches : Watches Z s v) (here : v d = some dir)
    (directory : dir.type = tDir)
    (rest : ∀ s' stack, Watches Z s' v →
      Ensures fileServer post (k (decodeDir stack dir.data)) s') :
    Ensures fileServer post ((YfsClient.readdir d).bind k) s := by
  have seen : Ensures fileServer (fun out s' => ∃ stack,
      out = .returned (decodeDir stack dir.data) ∧ s'.held = [] ∧ Sees everywhere s' v)
      (YfsClient.readdir d) s := by
    simp only [YfsClient.readdir, Prog.bind_eq]
    refine Ensures.lock watches.free (Ensures.readdir_view
      ⟨watches.sees.files, watches.sees.faithful⟩ trivial here directory
      fun t stack held sees _ => ⟨stack, rfl, ?_, sees.release⟩)
    exact (erase_held held).trans watches.held
  have careful : Routine.Careful (IsDir v) Z false (fun _ => False) (Routine.readdir d) :=
    Routine.careful_readdir
  have kept := careful.ensures watches.entries (fun _ => False.elim) (by rintro ⟨⟩)
  rw [Routine.prog_readdir] at kept
  refine Ensures.seq (seen.and kept) ?_
  rintro out s' ⟨⟨stack, rfl, held, sees⟩, kept⟩
  exact rest s' stack ⟨held, sees, kept ⟨_, rfl⟩⟩

/-- How an operation that makes an entry ends: it is done, or no inum is free. -/
def Made (Z : ℕ → Prop) (v : FileMap) (d : ℕ) (dir : File) (name : List UInt8) (new : File)
    (f : YfsStatus × ℕ → α) (out : Ending α) (s' : Alone FileMap) : Prop :=
  ((∀ id, 2 ≤ id → id ≤ inodeNum → v id ≠ none) ∧ ∃ req, out = .refused req) ∨
    ∃ r v', out = .returned (f r) ∧ Watches Z s' v' ∧ EntryMade v d dir name new r v'

/-- A directory stays one when an entry is made. -/
theorem isDir_of_made {new : File} {r : YfsStatus × ℕ} {v' : FileMap} (here : v d = some dir)
    (made : EntryMade v d dir name new r v') (i : ℕ) (isDir : IsDir v i) : IsDir v' i := by
  cases made with
  | exist => exact isDir
  | @made stack bytes ino unbound low high free =>
      obtain ⟨file, at_, type⟩ := isDir
      by_cases parent : i = d
      · subst parent
        rw [here] at at_
        cases at_
        exact ⟨_, Function.update_self .., type⟩
      · refine ⟨file, ?_, type⟩
        rw [Function.update_of_ne parent, Function.update_of_ne ?_, at_]
        rintro rfl
        rw [free] at at_
        cases at_

/-- The files and the cache after an operation that makes an entry. -/
theorem ensures_made {new : File} {f : YfsStatus × ℕ → α} {routine : Routine α} {p : Prog α}
    (watches : Watches Z s v) (here : v d = some dir) (live : ∀ i, Z i → v i ≠ none)
    (seen : Ensures fileServer (fun out s' =>
      ((∀ id, 2 ≤ id → id ≤ inodeNum → v id ≠ none) ∧ ∃ req, out = .refused req) ∨
        ∃ r v', out = .returned (f r) ∧ s'.held = [] ∧ Sees everywhere s' v' ∧
          EntryMade v d dir name new r v') p s)
    (prog : routine.prog = p)
    (careful : Routine.Careful (IsDir v) Z true (fun _ => False) routine) :
    Ensures fileServer (Made Z v d dir name new f) p s := by
  have kept := careful.ensures watches.entries (fun _ => False.elim) fun _ i mem free =>
    live i mem (watches.sees.server_eq_none.mp free)
  rw [prog] at kept
  refine (seen.and kept).mono ?_
  rintro out s' ⟨full | ⟨r, v', rfl, held, sees, made⟩, kept⟩
  · exact Or.inl full
  · exact Or.inr ⟨r, v', rfl, ⟨held, sees, (kept ⟨_, rfl⟩).mono (isDir_of_made here made)
      fun _ => id⟩, made⟩

/-- **`create`.** -/
theorem create (watches : Watches Z s v) (here : v d = some dir) (directory : dir.type = tDir)
    (live : ∀ i, Z i → v i ≠ none) (notCounted : ¬ Z d) :
    Ensures fileServer (Made Z v d dir name ⟨tFile, []⟩ id) (YfsClient.create d name) s := by
  refine ensures_made watches here live ?_ (Routine.prog_createFile d name)
    (Routine.careful_createFile ⟨dir, here, directory⟩ notCounted)
  rw [← Prog.bind_ret (YfsClient.create d name)]
  refine Ensures.create_file watches.free watches.sees trivial here directory
    (fun all _ req => Or.inl ⟨all, req, rfl⟩) fun s' r v' held sees made => ?_
  exact Or.inr ⟨r, v', rfl, held.trans watches.held, sees, made⟩

/-- **`mkdir`.** -/
theorem mkdir (watches : Watches Z s v) (here : v d = some dir) (directory : dir.type = tDir)
    (live : ∀ i, Z i → v i ≠ none) (notCounted : ¬ Z d) :
    Ensures fileServer (Made Z v d dir name ⟨tDir, []⟩ id) (YfsClient.mkdir d name) s := by
  refine ensures_made watches here live ?_ (Routine.prog_mkdir d name)
    (Routine.careful_mkdir ⟨dir, here, directory⟩ notCounted)
  rw [← Prog.bind_ret (YfsClient.mkdir d name)]
  refine Ensures.mkdir watches.free watches.sees trivial here directory
    (fun all _ req => Or.inl ⟨all, req, rfl⟩) fun s' r v' held sees made => ?_
  exact Or.inr ⟨r, v', rfl, held.trans watches.held, sees, made⟩

/-- **`symlink`** of a name that is not there. -/
theorem symlink {link : List UInt8} (watches : Watches Z s v) (here : v d = some dir)
    (directory : dir.type = tDir) (live : ∀ i, Z i → v i ≠ none) (notCounted : ¬ Z d)
    (unbound : ∀ stack, bindings (decodeDir stack dir.data) name = none) :
    Ensures fileServer (Made Z v d dir name ⟨tSlink, link⟩ (Except.ok (ε := ℤ)))
      ((YfsClient.symlink d name link).result .ok) s := by
  refine ensures_made watches here live ?_ (Routine.prog_symlink d name link)
    (Routine.careful_symlink ⟨dir, here, directory⟩ notCounted)
  refine Ensures.symlink watches.free watches.sees trivial here directory
    (fun all _ req => Or.inl ⟨all, req, rfl⟩) fun s' r v' held sees made => ?_
  refine Or.inr ⟨r, v', rfl, ?_, sees, made⟩
  cases made with
  | @exist stack ino bound => exact absurd bound (by simp [unbound stack])
  | made => exact held.trans watches.held

/-- **`rmdir`**, which is also `unlink`, of an entry that is not for a directory. -/
theorem rmdir (watches : Watches Z s v) (here : v d = some dir) (directory : dir.type = tDir)
    (live : ∀ i, Z i → v i ≠ none) (notCounted : ¬ Z d)
    (other : ∀ stack, ∀ ent ∈ decodeDir stack dir.data, ent.name = name → ¬ IsDir v ent.inum) :
    Ensures fileServer (fun out s' => ∃ r v', out = .returned r ∧ Watches Z s' v' ∧
      EntryRemoved v d dir name r v') (YfsClient.rmdir d name) s := by
  have isDir : IsDir v d := ⟨dir, here, directory⟩
  have seen : Ensures fileServer (fun out s' => ∃ r v', out = .returned r ∧ s'.held = [] ∧
      Sees everywhere s' v' ∧ EntryRemoved v d dir name r v') (YfsClient.rmdir d name) s := by
    rw [← Prog.bind_ret (YfsClient.rmdir d name)]
    refine Ensures.rmdir watches.free watches.sees trivial here directory ?_
      fun s' r v' held sees removed => ⟨r, v', rfl, held.trans watches.held, sees, removed⟩
    rintro stack ent mem named rfl
    exact other stack ent mem named isDir
  have careful : Routine.Careful (IsDir v) Z true (fun _ => False) (Routine.rmdir d name) :=
    Routine.careful_rmdir isDir notCounted
  have kept := careful.ensures watches.entries (fun _ => False.elim) fun _ i mem free =>
    live i mem (watches.sees.server_eq_none.mp free)
  rw [Routine.prog_rmdir] at kept
  refine (seen.and kept).mono ?_
  rintro out s' ⟨⟨r, v', rfl, held, sees, removed⟩, kept⟩
  refine ⟨r, v', rfl, ⟨held, sees, (kept ⟨_, rfl⟩).mono ?_ fun _ => id⟩, removed⟩
  cases removed with
  | missing => exact fun _ => id
  | @removed stack ent buf found encodes =>
      rintro i ⟨file, at_, type⟩
      have named : ent.name = name := by simpa using List.find?_some found
      by_cases parent : i = d
      · subst parent
        exact ⟨_, Function.update_self .., directory⟩
      · refine ⟨file, ?_, type⟩
        rw [Function.update_of_ne parent, Function.update_of_ne ?_, at_]
        rintro rfl
        exact other stack ent (List.mem_of_find?_eq_some found) named ⟨file, at_, type⟩

end Watches

end Rules

end Yfs.Client
