import Yfs.Client.DirFormat
import Yfs.Client.ExtentCalls

/-!
# The files that a client on its own sees

What a client sees of the files is what the server has, with the strings of its cache in
front.  The functions of `extent_client` act on that view as they should while no entry of
the cache misleads: attributes that are valid come with the string, and what `getattr`
fetches again is what was there.

A client on its own sees one set of files, the server's, with its own unsaved strings on top.
`Sees` fixes what that is and that the entries tell no lies about it; after that an operation is
described by what it does to the files, and the cache does not appear.

* `Sees` — the files that a client sees, and that its entries do not mislead.
* `Ensures.get_view`, `Ensures.getattr_view`, `Ensures.put_view`, `Ensures.create_view`,
  `Ensures.remove_view` — the functions of `extent_client` on the view.
* `Ensures.readdir_view`, `Ensures.lookup_view`, `Ensures.encodeDir_view` — the parts that the
  operations on directories share.
-/

namespace Yfs.Client

open Storage Storage.ExtentServer

/-- The files as the client sees them. -/
def Alone.files (s : Alone FileMap) : FileMap := fun ino =>
  (s.server ino).map fun file => ⟨file.type, current (s.cache ino) file.data⟩

/-- **An entry that does not mislead.**

The second field is the condition under which `getattr` is harmless: where it has to fetch,
nothing is lost by it. -/
structure Faithful (entry : Entry) (file : File) : Prop where
  attr : ∀ cached, entry = some cached → cached.attrValid = true →
    cached.bufValid = true ∧ cached.attr.type = file.type
  refetch : ∀ cached, entry = some cached → cached.attrValid = false →
    current entry file.data = file.data

/-- **The client sees the files `v`**, and its entries for the extents in `P` do not mislead.

`s.files` is what the client has: its valid buffers, and the strings of the server for the other
extents. -/
structure Sees (P : ℕ → Prop) (s : Alone FileMap) (v : FileMap) : Prop where
  files : s.files = v
  faithful : ∀ ino file, P ino → s.server ino = some file → Faithful (s.cache ino) file

/-- String and attributes of the extent are in the cache. -/
def Loaded (s : Alone FileMap) (ino : ℕ) : Prop :=
  ∃ cached, s.cache ino = some cached ∧ cached.bufValid = true ∧ cached.attrValid = true

namespace Faithful

variable {file : File}

theorem filled {cached : CachedFile} {f : FullFile} (shown : ShowsFile f file) :
    Faithful (some (cached.filled f)) file := by
  constructor
  · rintro _ ⟨⟩ -
    exact ⟨rfl, shown.2.2⟩
  · rintro _ ⟨⟩ invalid
    cases invalid

/-- An entry that is loaded stays faithful through `put`. -/
theorem written {entry : Entry} {cached : CachedFile} (faithful : Faithful entry file)
    (here : entry = some cached) (valid : cached.attrValid = true) (buf : List UInt8)
    (atime ctime mtime : ℕ) : Faithful (some (cached.written buf atime ctime mtime)) file := by
  constructor
  · rintro _ ⟨⟩ -
    exact ⟨rfl, (faithful.attr cached here valid).2⟩
  · rintro _ ⟨⟩ invalid
    exact absurd (valid.symm.trans invalid) nofun

end Faithful

namespace Sees

variable {P : ℕ → Prop} {s : Alone FileMap} {v : FileMap}

theorem server_eq_none {ino : ℕ} (sees : Sees P s v) : s.server ino = none ↔ v ino = none := by
  rw [← sees.files, Alone.files, Option.map_eq_none_iff]

theorem exists_stored {ino : ℕ} {file : File} (sees : Sees P s v) (here : v ino = some file) :
    ∃ stored, s.server ino = some stored ∧ stored.type = file.type ∧
      current (s.cache ino) stored.data = file.data := by
  rw [← sees.files] at here
  obtain ⟨stored, eq, rfl⟩ := Option.map_eq_some_iff.mp here
  exact ⟨stored, eq, rfl, rfl⟩

/-- One extent changes. -/
theorem update {s' : Alone FileMap} {ino : ℕ} {file : Option File} (sees : Sees P s v)
    (server : ∀ id, id ≠ ino → s'.server id = s.server id)
    (cache : ∀ id, id ≠ ino → s'.cache id = s.cache id)
    (here : s'.files ino = file)
    (faithful : ∀ stored, P ino → s'.server ino = some stored → Faithful (s'.cache ino) stored) :
    Sees P s' (Function.update v ino file) := by
  constructor
  · funext id
    by_cases same : id = ino
    · subst same
      rw [here, Function.update_self]
    · rw [Function.update_of_ne same, ← sees.files, Alone.files, Alone.files, server id same,
        cache id same]
  · intro id stored mem eq
    by_cases same : id = ino
    · subst same
      exact faithful stored mem eq
    · rw [server id same] at eq
      rw [cache id same]
      exact sees.faithful id stored mem eq

/-- One entry changes. -/
theorem store {ino : ℕ} {entry : Entry} {stored : File} (sees : Sees P s v)
    (live : s.server ino = some stored) (faithful : P ino → Faithful entry stored) :
    Sees P (s.store ino entry)
      (Function.update v ino (some ⟨stored.type, current entry stored.data⟩)) := by
  refine sees.update (fun _ _ => rfl) (fun id ne => Alone.store_cache_of_ne s entry ne) ?_ ?_
  · rw [Alone.files, Alone.store_server, live, Alone.store_cache_self]
    rfl
  · intro file mem eq
    rw [Alone.store_server, live] at eq
    cases eq
    rw [Alone.store_cache_self]
    exact faithful mem

/-- An entry changes, and its string does not. -/
theorem store_same {ino : ℕ} {entry : Entry} {stored : File} (sees : Sees P s v)
    (live : s.server ino = some stored)
    (same : current entry stored.data = current (s.cache ino) stored.data)
    (faithful : P ino → Faithful entry stored) : Sees P (s.store ino entry) v := by
  have new := sees.store live faithful
  have here : v ino = some ⟨stored.type, current entry stored.data⟩ := by
    rw [← sees.files, Alone.files, live, same]
    rfl
  rwa [← here, Function.update_eq_self] at new

end Sees

/-- A valid entry is stored. -/
theorem Loaded.store {s : Alone FileMap} {ino id : ℕ} {cached : CachedFile}
    (buf : cached.bufValid = true) (attr : cached.attrValid = true) (loaded : Loaded s id) :
    Loaded (s.store ino (some cached)) id := by
  by_cases same : id = ino
  · subst same
    exact ⟨cached, Alone.store_cache_self .., buf, attr⟩
  · obtain ⟨old, here, valid⟩ := loaded
    exact ⟨old, by rw [Alone.store_cache_of_ne _ _ same, here], valid⟩

/-! ## The functions of `extent_client` -/

section Rules

variable {β : Type} {P : ℕ → Prop} {post : Ending β → Alone FileMap → Prop} {s : Alone FileMap}
  {v : FileMap} {ino : ℕ} {file : File}

namespace Ensures

/-- What the server answers for a live extent. -/
theorem not_refused {req : Request} (asks : req = .get ino ∨ req = .getattr ino) {stored : File}
    (live : s.server ino = some stored) :
    ¬ ∀ reply server, ¬ fileServer s.server req reply server := by
  intro refuses
  have answers : ∃ file, s.server ino = some file ∧ stored.data = file.data ∧
      stored.data.length = file.data.length ∧ stored.type = file.type :=
    ⟨stored, live, rfl, rfl, rfl⟩
  have none := refuses (.file ⟨⟨stored.type, 0, 0, 0, stored.data.length⟩, stored.data⟩) s.server
  rcases asks with rfl | rfl
  · exact none ⟨answers, rfl⟩
  · exact none ⟨answers, rfl⟩

/-- `get` returns the string. -/
theorem get_view {k : List UInt8 → Prog β} (sees : Sees P s v) (here : v ino = some file)
    (rest : ∀ s', s'.held = s.held → Sees P s' v → (∀ id, Loaded s id → Loaded s' id) →
      Ensures fileServer post (k file.data) s') :
    Ensures fileServer post ((ExtentClient.get ino).bind k) s := by
  obtain ⟨stored, live, kind, string⟩ := sees.exists_stored here
  refine Ensures.get (fun cached eq valid => ?_) fun invalid => ⟨fun refuses => ?_, ?_⟩
  · have same : cached.buf = file.data := by
      rw [← string, eq, current, Option.elim, if_pos valid]
    rw [same]
    exact rest s rfl sees fun _ => id
  · exact absurd refuses (not_refused (Or.inl rfl) live)
  · intro reply server serves bytes
    obtain ⟨file', live', shown, rfl⟩ := exists_of_answers (Or.inl rfl) serves
    rw [live] at live'
    cases live'
    have old : current (s.cache ino) stored.data = stored.data := by
      cases eq : s.cache ino with
      | none => rfl
      | some cached => simp [current, invalid cached eq]
    rw [shown.1, ← old, string]
    refine rest _ rfl (sees.store_same live ?_ fun _ => .filled shown) fun id => .store rfl rfl
    rw [old]
    exact shown.1

/-- `getattr` returns the type, and loads the extent. -/
theorem getattr_view {k : Attr → Prog β} (sees : Sees P s v) (mem : P ino)
    (here : v ino = some file)
    (rest : ∀ s' attr, s'.held = s.held → Sees P s' v → Loaded s' ino →
      (∀ id, Loaded s id → Loaded s' id) → attr.type = file.type →
      Ensures fileServer post (k attr) s') :
    Ensures fileServer post ((ExtentClient.getattr ino).bind k) s := by
  obtain ⟨stored, live, kind, string⟩ := sees.exists_stored here
  have faithful := sees.faithful ino stored mem live
  refine Ensures.getattr (fun cached eq valid => ?_) fun invalid => ⟨fun refuses => ?_, ?_⟩
  · obtain ⟨bufValid, type⟩ := faithful.attr cached eq valid
    exact rest s cached.attr rfl sees ⟨cached, eq, bufValid, valid⟩ (fun _ => id) (type.trans kind)
  · exact absurd refuses (not_refused (Or.inr rfl) live)
  · intro reply server serves bytes
    obtain ⟨file', live', shown, rfl⟩ := exists_of_answers (Or.inr rfl) serves
    rw [live] at live'
    cases live'
    have old : current (s.cache ino) stored.data = stored.data := by
      cases eq : s.cache ino with
      | none => rfl
      | some cached =>
          rw [← eq]
          exact faithful.refetch cached eq (invalid cached eq)
    refine rest _ _ rfl (sees.store_same live ?_ fun _ => .filled shown)
      ⟨_, Alone.store_cache_self .., rfl, rfl⟩ (fun id => .store rfl rfl) (shown.2.2.trans kind)
    rw [old]
    exact shown.1

/-- `put` of an extent that is loaded replaces the string. -/
theorem put_view {k : Unit → Prog β} {buf : List UInt8} (sees : Sees P s v)
    (here : v ino = some file) (loaded : Loaded s ino)
    (rest : ∀ s', s'.held = s.held →
      Sees P s' (Function.update v ino (some { file with data := buf })) →
      (∀ id, Loaded s id → Loaded s' id) → Ensures fileServer post (k ()) s') :
    Ensures fileServer post ((ExtentClient.put ino buf).bind k) s := by
  obtain ⟨stored, live, kind, -⟩ := sees.exists_stored here
  obtain ⟨cached, eq, bufValid, attrValid⟩ := loaded
  refine Ensures.put fun bytes atime ctime mtime => ?_
  rw [eq]
  refine rest _ rfl ?_ fun id => .store rfl attrValid
  have new := sees.store live fun mem =>
    (sees.faithful ino stored mem live).written eq attrValid buf atime ctime mtime
  rwa [kind] at new

/-- `create` makes an empty file under a new inum, if there is one. -/
theorem create_view {k : ℕ → Prog β} {type : ℕ} (sees : Sees P s v)
    (full : (∀ id, 2 ≤ id → id ≤ inodeNum → v id ≠ none) → post (.refused (.create type)) s)
    (rest : ∀ s' id, 2 ≤ id → id ≤ inodeNum → v id = none → s'.held = s.held →
      Sees P s' (Function.update v id (some ⟨type, []⟩)) → Loaded s' id →
      (∀ id, Loaded s id → Loaded s' id) → Ensures fileServer post (k id) s') :
    Ensures fileServer post ((ExtentClient.create type).bind k) s := by
  intro bytes atime ctime mtime
  refine ⟨fun refuses => full fun id low high dead => ?_, ?_⟩
  · exact refuses (.created id) _ ⟨⟨low, high, sees.server_eq_none.mpr dead⟩, rfl⟩
  rintro reply server ⟨answers, rfl⟩
  match reply, answers with
  | .created id, ⟨low, high, free⟩ =>
      refine rest _ id low high (sees.server_eq_none.mp free) rfl ?_
        ⟨_, Alone.store_cache_self .., rfl, rfl⟩ fun _ => .store rfl rfl
      refine sees.update (fun other ne => ?_) (fun other ne => ?_) ?_ ?_
      · exact Function.update_of_ne ne ..
      · exact Alone.store_cache_of_ne _ _ ne
      · show Option.map _ (Function.update s.server id (some ⟨type, []⟩) id) = _
        rw [Function.update_self, Option.map_some]
        simp only [replyId, Alone.store_cache_self]
        rfl
      · intro stored _ eq
        change Function.update s.server id (some ⟨type, []⟩) id = some stored at eq
        rw [Function.update_self] at eq
        cases eq
        simp only [replyId, Alone.store_cache_self]
        constructor
        · rintro _ ⟨⟩ -
          exact ⟨rfl, rfl⟩
        · rintro _ ⟨⟩ invalid
          cases invalid

/-- `remove` removes the file. -/
theorem remove_view {k : Unit → Prog β} (sees : Sees P s v)
    (rest : ∀ s', s'.held = s.held → Sees P s' (Function.update v ino none) →
      (∀ id, id ≠ ino → Loaded s id → Loaded s' id) → Ensures fileServer post (k ()) s') :
    Ensures fileServer post ((ExtentClient.remove ino).bind k) s := by
  refine ⟨fun refuses => absurd ⟨trivial, rfl⟩ (refuses .done _), ?_⟩
  rintro reply server ⟨-, rfl⟩
  refine rest _ rfl ?_ fun id ne loaded => ?_
  · refine sees.update (fun other ne => ?_) (fun other ne => ?_) ?_ fun stored _ eq => ?_
    · exact Function.update_of_ne ne ..
    · exact Alone.store_cache_of_ne _ _ ne
    · show Option.map _ (Function.update s.server ino none ino) = none
      rw [Function.update_self]
      rfl
    · change Function.update s.server ino none ino = some stored at eq
      rw [Function.update_self] at eq
      cases eq
  · obtain ⟨cached, eq, valid⟩ := loaded
    exact ⟨cached, (Alone.store_cache_of_ne _ _ ne).trans eq, valid⟩

/-! ## Parts of the operations on directories -/

/-- `readdir_no_seria` returns the entries of a directory, and loads it. -/
theorem readdir_view {k : List Dirent → Prog β} (sees : Sees P s v) (mem : P ino)
    (here : v ino = some file) (directory : file.type = tDir)
    (rest : ∀ s' stack, s'.held = s.held → Sees P s' v → Loaded s' ino →
      Ensures fileServer post (k (decodeDir stack file.data)) s') :
    Ensures fileServer post ((YfsClient.readdirNoSeria ino).bind k) s := by
  simp only [YfsClient.readdirNoSeria, Prog.bind_eq, Prog.bind_assoc]
  refine get_view sees here fun t held sees _ =>
    getattr_view sees mem here fun u attr same sees loaded _ type => ?_
  rw [if_neg (by rw [type, directory]; simp)]
  exact fun stack => rest u stack (same.trans held) sees loaded

/-- `lookup_no_seria` returns the binding of the name. -/
theorem lookup_view {k : Option ℕ → Prog β} {name : List UInt8} (sees : Sees P s v) (mem : P ino)
    (here : v ino = some file) (directory : file.type = tDir)
    (rest : ∀ s' stack, s'.held = s.held → Sees P s' v → Loaded s' ino →
      Ensures fileServer post (k (bindings (decodeDir stack file.data) name)) s') :
    Ensures fileServer post ((YfsClient.lookupNoSeria ino name).bind k) s := by
  simp only [YfsClient.lookupNoSeria, Prog.bind_eq, Prog.bind_assoc]
  exact readdir_view sees mem here directory rest

/-- The loop of `rmdir` makes records of the entries. -/
theorem encodeDir_view {k : List UInt8 → Prog β} {entries : List Dirent}
    (rest : ∀ buf, Encodes buf entries → Ensures fileServer post (k buf) s) :
    Ensures fileServer post ((YfsClient.encodeDir entries).bind k) s := by
  induction entries generalizing k with
  | nil => exact rest [] encodes_nil
  | cons ent entries ih =>
      intro bytes
      simp only [Prog.bind_eq, Prog.bind_assoc, Prog.ret_bind]
      exact ih fun buf encodes => rest _ (encodes.cons bytes ent)

end Ensures

end Rules

end Yfs.Client
