import Yfs.Client.FileSystem
import Yfs.Client.FuseView

/-!
# The handlers implement the file system

One client handles the requests of the kernel, one after the other, on a new file system.

Between two requests the client has a file system: its files, read through `nodeOf`, are the
nodes, and its namespace is the tree of `Client.Tree`.  One request is one lemma, and a run of
the daemon is an induction over requests with `Has` as the invariant.

* `nodeOf`, `Pictured` — the file system that the client's files are; `Pictured.stored`,
  `Pictured.added` and `Pictured.removed` are its changes.
* `Has` — between two requests the client has the file system.
* `Answers` — how a request ends; one lemma for each handler.
* `handlers_implement_file_system` — every reply to what the kernel asks is a step of the file
  system, in every run.
-/

namespace Yfs.Client

open Storage Storage.ExtentServer ByteBlock Transition

variable {β : Type}

/-! ## The picture -/

/-- What a file is for the kernel: whatever is neither a directory nor a regular file is taken
for a link. -/
def nodeOf (file : File) : Node :=
  if file.type = tDir then .dir (directoryOf file.data)
  else if file.type = tFile then .file file.data
  else .link file.data

theorem nodeOf_dir {file : File} (directory : file.type = tDir) :
    nodeOf file = .dir (directoryOf file.data) :=
  if_pos directory

theorem nodeOf_file {file : File} (regular : file.type = tFile) :
    nodeOf file = .file file.data := by
  rw [nodeOf, if_neg (by rw [regular]; decide), if_pos regular]

theorem nodeOf_link {file : File} (notDir : file.type ≠ tDir) (notFile : file.type ≠ tFile) :
    nodeOf file = .link file.data := by
  rw [nodeOf, if_neg notDir, if_neg notFile]

/-- Only a directory shows as one. -/
theorem type_of_nodeOf_dir {file : File} {entries : Directory} (node : nodeOf file = .dir entries) :
    file.type = tDir ∧ entries = directoryOf file.data := by
  by_cases directory : file.type = tDir
  · rw [nodeOf_dir directory] at node
    cases node
    exact ⟨directory, rfl⟩
  · by_cases regular : file.type = tFile
    · rw [nodeOf_file regular] at node
      cases node
    · rw [nodeOf_link directory regular] at node
      cases node

theorem type_of_nodeOf_file {file : File} {content : List UInt8}
    (node : nodeOf file = .file content) :
    file.type = tFile ∧ content = file.data := by
  by_cases directory : file.type = tDir
  · rw [nodeOf_dir directory] at node
    cases node
  · by_cases regular : file.type = tFile
    · rw [nodeOf_file regular] at node
      cases node
      exact ⟨regular, rfl⟩
    · rw [nodeOf_link directory regular] at node
      cases node

theorem type_of_nodeOf_link {file : File} {target : List UInt8}
    (node : nodeOf file = .link target) :
    target = file.data := by
  by_cases directory : file.type = tDir
  · rw [nodeOf_dir directory] at node
    cases node
  · by_cases regular : file.type = tFile
    · rw [nodeOf_file regular] at node
      cases node
    · rw [nodeOf_link directory regular] at node
      cases node
      rfl

/-- **The files are this file system.**

Contents and entries are in the nodes, so this fixes the file system except for `sized`, of which
it says only that it is about files. -/
structure Pictured (v : FileMap) (fs : FileSystem) : Prop where
  names : Namespace v
  node : fs.node = Option.map nodeOf ∘ v
  sized : ∀ ino, fs.sized ino → ∃ content, fs.node ino = some (.file content)
  short : ∀ ino content, fs.node ino = some (.file content) → content.length < 2 ^ 32

namespace Namespace

variable {v : FileMap} {ino : ℕ} {file : File}

/-- Another string in a file that is not a directory changes no entry. -/
theorem stored (names : Namespace v) (here : v ino = some file) (other : file.type ≠ tDir)
    (buf : List UInt8) : Namespace (Function.update v ino (some { file with data := buf })) := by
  have entries :
      HasEntry (Function.update v ino (some { file with data := buf })) = HasEntry v := by
    funext d n i
    by_cases same : d = ino
    · subst same
      simp [HasEntry, here, other]
    · simp [HasEntry, Function.update_of_ne same]
  have live : (fun i => Function.update v ino (some { file with data := buf }) i ≠ none) =
      fun i => v i ≠ none := by
    funext i
    by_cases same : i = ino
    · subst same
      simp [here]
    · simp [Function.update_of_ne same]
  refine ⟨?_, fun d dir eq directory => ?_, fun i alive => names.range i ?_⟩
  · rw [entries, live]
    exact names.tree
  · by_cases same : d = ino
    · subst same
      rw [Function.update_self] at eq
      cases eq
      exact absurd directory other
    · rw [Function.update_of_ne same] at eq
      exact names.directories d dir eq directory
  · exact (congrFun live i).mp alive

end Namespace

namespace Pictured

variable {v : FileMap} {fs : FileSystem} {ino : ℕ} {file : File}

theorem node_eq (pictured : Pictured v fs) (ino : ℕ) : fs.node ino = (v ino).map nodeOf :=
  congrFun pictured.node ino

theorem exists_file (pictured : Pictured v fs) {node : Node} (here : fs.node ino = some node) :
    ∃ file, v ino = some file ∧ nodeOf file = node := by
  rw [pictured.node_eq] at here
  exact Option.map_eq_some_iff.mp here

/-- A directory. -/
theorem exists_dir (pictured : Pictured v fs) {entries : Directory}
    (here : fs.node ino = some (.dir entries)) :
    ∃ file, v ino = some file ∧ file.type = tDir ∧ entries = directoryOf file.data := by
  obtain ⟨file, eq, node⟩ := pictured.exists_file here
  exact ⟨file, eq, type_of_nodeOf_dir node⟩

/-- A regular file. -/
theorem exists_regular (pictured : Pictured v fs) {content : List UInt8}
    (here : fs.node ino = some (.file content)) :
    ∃ file, v ino = some file ∧ file.type = tFile ∧ content = file.data := by
  obtain ⟨file, eq, node⟩ := pictured.exists_file here
  exact ⟨file, eq, type_of_nodeOf_file node⟩

theorem free_iff (pictured : Pictured v fs) : fs.node ino = none ↔ v ino = none := by
  rw [pictured.node_eq, Option.map_eq_none_iff]

/-- A file that was written is there. -/
theorem live (pictured : Pictured v fs) (i : ℕ) (sized : fs.sized i) : v i ≠ none := by
  obtain ⟨content, node⟩ := pictured.sized i sized
  obtain ⟨file, eq, -⟩ := pictured.exists_file node
  simp [eq]

/-- It is no directory. -/
theorem notCounted (pictured : Pictured v fs) (here : v ino = some file)
    (directory : file.type = tDir) : ¬ fs.sized ino := by
  intro sized
  obtain ⟨content, node⟩ := pictured.sized ino sized
  rw [pictured.node_eq, here, Option.map_some, nodeOf_dir directory] at node
  cases node

/-- The entries of a directory, whatever is on the stack. -/
theorem bindings_eq (pictured : Pictured v fs) (here : v ino = some file)
    (directory : file.type = tDir) (stack : ℕ → UInt8) :
    bindings (decodeDir stack file.data) = directoryOf file.data := by
  rw [(pictured.names.directories ino file here directory).decode, directoryOf]

/-- An entry is for something. -/
theorem exists_of_bound (pictured : Pictured v fs) (here : v ino = some file)
    (directory : file.type = tDir) {name : List UInt8} {i : ℕ}
    (bound : directoryOf file.data name = some i) :
    HasEntry v ino name i ∧ ∃ target, v i = some target := by
  have isDirectory := pictured.names.directories ino file here directory
  have entry : HasEntry v ino name i :=
    ⟨file, here, directory, (isDirectory.lists.mem_iff name i).mpr bound⟩
  exact ⟨entry, Option.ne_none_iff_exists'.mp (pictured.names.tree.target_live entry)⟩

/-- Files and nodes change together. -/
theorem node_update (pictured : Pictured v fs) (i : ℕ) (new : File) :
    Function.update fs.node i (some (nodeOf new)) =
      Option.map nodeOf ∘ Function.update v i (some new) := by
  rw [pictured.node, Function.comp_update, Option.map_some]

/-- **A file gets another string.** -/
theorem stored (pictured : Pictured v fs) (here : v ino = some file) (regular : file.type = tFile)
    {buf : List UInt8} (short : buf.length < 2 ^ 32) :
    Pictured (Function.update v ino (some { file with data := buf })) (fs.store ino buf) := by
  have other : file.type ≠ tDir := by
    rw [regular]
    decide
  have new : nodeOf { file with data := buf } = .file buf := nodeOf_file regular
  have node : (fs.store ino buf).node ino = some (.file buf) := Function.update_self ..
  have node_of_ne : ∀ {i}, i ≠ ino → (fs.store ino buf).node i = fs.node i :=
    fun ne => Function.update_of_ne ne ..
  refine ⟨pictured.names.stored here other buf, ?_, fun i sized => ?_, fun i content eq => ?_⟩
  · rw [← pictured.node_update ino, new]
    rfl
  · by_cases same : i = ino
    · subst same
      exact ⟨buf, node⟩
    · rw [node_of_ne same]
      exact pictured.sized i (sized.resolve_left same)
  · by_cases same : i = ino
    · subst same
      rw [node] at eq
      cases eq
      exact short
    · rw [node_of_ne same] at eq
      exact pictured.short i content eq

section Entries

variable {d : ℕ} {dir new : File} {name : List UInt8}

/-- **An entry is made.** -/
theorem added (pictured : Pictured v fs) (here : v d = some dir) (directory : dir.type = tDir)
    (short : name.length ≤ 64) (empty : new.type = tDir → new.data = [])
    (small : new.type = tFile → new.data.length < 2 ^ 32) (bytes : ℕ → UInt8) {ino : ℕ}
    (unbound : directoryOf dir.data name = none) (low : 2 ≤ ino) (high : ino ≤ inodeNum)
    (free : v ino = none) :
    Pictured (Function.update (Function.update v ino (some new)) d
        (some { dir with data := dir.data ++ encodeDirent bytes ⟨name, ino⟩ }))
      (fs.add d (directoryOf dir.data) name ino (nodeOf new)) := by
  have isDirectory := pictured.names.directories d dir here directory
  have room := pictured.names.room here directory
  have bound : (dir.data ++ encodeDirent bytes ⟨name, ino⟩).length < 2 ^ 32 := by
    rw [List.length_append, length_encodeDirent]
    exact room
  have inum : ino < 2 ^ 64 := by
    simp only [inodeNum] at high
    omega
  have map : directoryOf (dir.data ++ encodeDirent bytes ⟨name, ino⟩) =
      Function.update (directoryOf dir.data) name (some ino) :=
    (isDirectory.append short inum unbound bound).2
  have parent : nodeOf { dir with data := dir.data ++ encodeDirent bytes ⟨name, ino⟩ } =
      .dir (Function.update (directoryOf dir.data) name (some ino)) := by
    rw [← map]
    exact nodeOf_dir directory
  have node : (fs.add d (directoryOf dir.data) name ino (nodeOf new)).node =
      Option.map nodeOf ∘ Function.update (Function.update v ino (some new)) d
        (some { dir with data := dir.data ++ encodeDirent bytes ⟨name, ino⟩ }) := by
    rw [FileSystem.add_node, Function.comp_update, Option.map_some, parent, ← pictured.node_update]
  have notNew : ∀ {i}, fs.node i ≠ none → i ≠ ino := by
    rintro i live rfl
    exact live (pictured.free_iff.mpr free)
  -- files stay files: the directory and the new inum are no files of the old system
  have notParent : ∀ {i content}, fs.node i = some (.file content) → i ≠ d := by
    rintro i content eq rfl
    obtain ⟨file, eq', regular, -⟩ := pictured.exists_regular eq
    rw [here] at eq'
    cases eq'
    rw [directory] at regular
    cases regular
  rw [directoryOf, ← isDirectory.decode fun _ => 0] at unbound
  refine ⟨pictured.names.made here directory short empty (.made unbound low high free), node,
    fun i sized => ?_, fun i content eq => ?_⟩
  · obtain ⟨content, eq⟩ := pictured.sized i sized
    refine ⟨content, ?_⟩
    rw [FileSystem.add_node, Function.update_of_ne (notParent eq),
      Function.update_of_ne (notNew (by simp [eq])), eq]
  · rw [FileSystem.add_node] at eq
    by_cases atParent : i = d
    · subst atParent
      rw [Function.update_self] at eq
      cases eq
    · rw [Function.update_of_ne atParent] at eq
      by_cases atNew : i = ino
      · subst atNew
        rw [Function.update_self] at eq
        obtain ⟨regular, rfl⟩ := type_of_nodeOf_file (Option.some.inj eq)
        exact small regular
      · rw [Function.update_of_ne atNew] at eq
        exact pictured.short i content eq

/-- **An entry is removed**, and what it was for. -/
theorem removed (pictured : Pictured v fs) (here : v d = some dir) (directory : dir.type = tDir)
    (other : ∀ ino, HasEntry v d name ino → ¬ IsDir v ino) {ent : Dirent} {buf : List UInt8}
    (found : (entriesOf dir.data).find? (fun ent => ent.name = name) = some ent)
    (encodes : Encodes buf ((entriesOf dir.data).eraseP fun ent => ent.name = name)) :
    Pictured (Function.update (Function.update v ent.inum none) d (some { dir with data := buf }))
      (fs.remove d (directoryOf dir.data) name ent.inum) := by
  have isDirectory := pictured.names.directories d dir here directory
  have leaf : ∀ ino, HasEntry v d name ino → ∀ n i, ¬ HasEntry v ino n i := by
    rintro ino entry n i ⟨sub, here', directory', -⟩
    exact other ino entry ⟨sub, here', directory'⟩
  have removed : EntryRemoved v d dir name .OK
      (Function.update (Function.update v ent.inum none) d (some { dir with data := buf })) := by
    rw [← isDirectory.decode fun _ => 0] at found encodes
    exact .removed found encodes
  have names := pictured.names.removed here directory leaf removed
  have bound : buf.length < 2 ^ 32 :=
    (names.directories d _ (Function.update_self ..) directory).bound
  have map := (isDirectory.erase encodes bound).2
  have parent : nodeOf { dir with data := buf } =
      .dir (Function.update (directoryOf dir.data) name none) := by
    rw [← map]
    exact nodeOf_dir directory
  have node : (fs.remove d (directoryOf dir.data) name ent.inum).node = Option.map nodeOf ∘
      Function.update (Function.update v ent.inum none) d (some { dir with data := buf }) := by
    rw [FileSystem.remove_node, Function.comp_update, Function.comp_update, Option.map_some, parent,
      ← pictured.node, Option.map_none]
  have notParent : ∀ {i content}, fs.node i = some (.file content) → i ≠ d := by
    rintro i content eq rfl
    obtain ⟨file, eq', regular, -⟩ := pictured.exists_regular eq
    rw [here] at eq'
    cases eq'
    rw [directory] at regular
    cases regular
  refine ⟨names, node, fun i sized => ?_, fun i content eq => ?_⟩
  · obtain ⟨content, eq⟩ := pictured.sized i sized.2
    refine ⟨content, ?_⟩
    rw [FileSystem.remove_node, Function.update_of_ne (notParent eq), Function.update_of_ne sized.1,
      eq]
  · rw [FileSystem.remove_node] at eq
    by_cases atParent : i = d
    · subst atParent
      rw [Function.update_self] at eq
      cases eq
    · rw [Function.update_of_ne atParent] at eq
      by_cases gone : i = ent.inum
      · subst gone
        rw [Function.update_self] at eq
        cases eq
      · rw [Function.update_of_ne gone] at eq
        exact pictured.short i content eq

end Entries

/-- The new file system. -/
theorem initial : Pictured initialFiles .empty := by
  have root : nodeOf ⟨tDir, []⟩ = .dir fun _ => none := nodeOf_dir rfl
  refine ⟨namespace_initial, ?_, fun ino sized => sized.elim, fun ino content eq => ?_⟩
  · rw [initialFiles, Function.comp_update, Option.map_some, root]
    rfl
  · rw [FileSystem.empty_node] at eq
    by_cases atRoot : ino = 1
    · subst atRoot
      rw [Function.update_self] at eq
      cases eq
    · rw [Function.update_of_ne atRoot] at eq
      cases eq

end Pictured

/-! ## Between two requests -/

/-- **The client has the file system.**

Between two requests of the kernel.  The daemon serves one request at a time, so nothing else
needs to be said of the states in between. -/
structure Has (s : Alone FileMap) (fs : FileSystem) : Prop where
  watches : Watches fs.sized s s.files
  pictured : Pictured s.files fs

theorem Watches.has {fs : FileSystem} {s : Alone FileMap} {v : FileMap}
    (watches : Watches fs.sized s v) (pictured : Pictured v fs) : Has s fs := by
  obtain rfl : s.files = v := watches.sees.files
  exact ⟨watches, pictured⟩

/-- **How a request ends**: the reply is one of the file system, or the server has no inum left. -/
def FuseRequest.Ends (lib : Libfuse) (fs : FileSystem) (q : FuseRequest) (out : Ending FuseReply)
    (s : Alone FileMap) : Prop :=
  (∃ reply fs', out = .returned reply ∧ fs.Step lib q reply fs' ∧ Has s fs') ∨
    ((∀ id, 2 ≤ id → id ≤ inodeNum → fs.node id ≠ none) ∧ ∃ req, out = .refused req)

section Handlers

variable {lib : Libfuse} {fs : FileSystem} {s : Alone FileMap} {v : FileMap} {ino : ℕ} {file : File}
  {q : FuseRequest}

/-- A reply. -/
theorem Pictured.replies {fs' : FileSystem} {reply : FuseReply} (pictured : Pictured v fs')
    (watches : Watches fs'.sized s v) (step : fs.Step lib q reply fs') :
    Ensures fileServer (q.Ends lib fs) (.ret reply) s :=
  Or.inl ⟨reply, fs', rfl, step, watches.has pictured⟩

/-- **The attributes that are reported.** -/
theorem Pictured.getattr {post : Ending β → Alone FileMap → Prop} {k : ℤ × Stat → Prog β}
    (pictured : Pictured v fs) (watches : Watches fs.sized s v) (here : v ino = some file)
    (rest : ∀ s' st, Watches fs.sized s' v → fs.Stats ino st →
      Ensures fileServer post (k (0, st)) s') :
    Ensures fileServer post ((fuseGetattr ino).prog.bind k) s := by
  have node : fs.node ino = some (nodeOf file) := by
    rw [pictured.node_eq, here, Option.map_some]
  simp only [fuseGetattr, Routine.prog_bind, Routine.prog_isType, Prog.bind_assoc, Prog.ret_bind]
  refine watches.attributes here fun s₁ attr₁ watches _ _ =>
    watches.attributes here fun s₂ attr₂ watches type _ => ?_
  by_cases regular : file.type = tFile
  · rw [if_pos (by simp [type, regular])]
    simp only [Routine.prog_bind, Routine.prog_attributes, Prog.result, Prog.bind_assoc,
      Prog.ret_bind]
    refine watches.attributes here fun s₃ attr₃ watches _ size => rest s₃ _ watches ?_
    rw [nodeOf_file regular] at node
    exact ⟨rfl, _, node, rfl, rfl, size⟩
  · rw [if_neg (by simp [type, regular])]
    simp only [Routine.prog_bind, Routine.prog_attributes, Routine.prog_isType, Prog.result,
      Prog.bind_assoc, Prog.ret_bind]
    refine watches.attributes here fun s₃ attr₃ watches _ _ =>
      watches.attributes here fun s₄ attr₄ watches type₄ _ =>
      watches.attributes here fun s₅ attr₅ watches type₅ _ => rest s₅ _ watches ?_
    by_cases directory : file.type = tDir
    · rw [nodeOf_dir directory] at node
      exact ⟨rfl, _, node, by simp [type₄, directory], by simp [type₅, directory], rfl⟩
    · rw [nodeOf_link directory regular] at node
      exact ⟨rfl, _, node, by simp [type₄, directory], by simp [type₅, directory], rfl⟩

/-! ## The handlers -/

theorem ends_getattr (has : Has s fs) (asks : fs.Asks (.getattr ino)) :
    Ensures fileServer ((FuseRequest.getattr ino).Ends lib fs) (fuseserverGetattr ino).prog s := by
  obtain ⟨watches, pictured⟩ := has
  obtain ⟨node, eq⟩ := Option.ne_none_iff_exists'.mp asks
  obtain ⟨file, here, -⟩ := pictured.exists_file eq
  rw [fuseserverGetattr, Routine.prog_bind]
  refine pictured.getattr watches here fun s' st watches stats => ?_
  rw [if_neg (not_not.mpr rfl)]
  exact pictured.replies watches (.getattr stats)

theorem ends_setattr {toSet size : ℕ} (has : Has s fs) (asks : fs.Asks (.setattr ino toSet size)) :
    Ensures fileServer ((FuseRequest.setattr ino toSet size).Ends lib fs)
      (fuseserverSetattr ino toSet size).prog s := by
  obtain ⟨watches, pictured⟩ := has
  rw [fuseserverSetattr]
  by_cases sizes : fuseSetAttrSize &&& toSet ≠ 0
  · obtain ⟨⟨content, eq⟩, short⟩ := asks sizes
    obtain ⟨file, here, regular, rfl⟩ := pictured.exists_regular eq
    have other : file.type ≠ tDir := by
      rw [regular]
      decide
    rw [if_pos sizes, Routine.prog_bind, Routine.prog_setattr, Prog.result, Prog.bind_assoc]
    refine watches.setattr here other short fun s₁ watches => ?_
    rw [← length_resize size file.data] at short
    have pictured := pictured.stored here regular short
    rw [Prog.ret_bind, Routine.prog_bind]
    exact pictured.getattr watches (Function.update_self ..) fun s₂ st watches stats =>
        pictured.replies watches (.setattr eq sizes stats)
  · rw [if_neg sizes]
    exact pictured.replies watches (.setattrOther (not_not.mp sizes))

theorem ends_read {size off : ℕ} (has : Has s fs) (asks : fs.Asks (.read ino size off)) :
    Ensures fileServer ((FuseRequest.read ino size off).Ends lib fs)
      (fuseserverRead ino size off).prog s := by
  obtain ⟨watches, pictured⟩ := has
  obtain ⟨⟨content, eq⟩, low⟩ := asks
  obtain ⟨file, here, regular, rfl⟩ := pictured.exists_regular eq
  rw [fuseserverRead, Routine.prog_bind, Routine.prog_read]
  exact watches.read here low fun s' watches => pictured.replies watches (.read eq)

theorem ends_write {off : ℕ} {data : List UInt8} (has : Has s fs)
    (asks : fs.Asks (.write ino data off)) :
    Ensures fileServer ((FuseRequest.write ino data off).Ends lib fs)
      (fuseserverWrite ino data off).prog s := by
  obtain ⟨watches, pictured⟩ := has
  obtain ⟨⟨content, eq⟩, low⟩ := asks
  obtain ⟨file, here, regular, rfl⟩ := pictured.exists_regular eq
  have other : file.type ≠ tDir := by
    rw [regular]
    decide
  have short : (overwritten file.data off data).length < 2 ^ 32 := by
    have old := pictured.short ino _ eq
    rw [length_overwritten]
    omega
  rw [fuseserverWrite, Routine.prog_bind, Routine.prog_write]
  exact watches.write here other (by omega) short fun s' watches =>
    (pictured.stored here regular short).replies watches (.write eq)

theorem ends_readlink (has : Has s fs) (asks : fs.Asks (.readlink ino)) :
    Ensures fileServer ((FuseRequest.readlink ino).Ends lib fs)
      (fuseserverReadlink ino).prog s := by
  obtain ⟨watches, pictured⟩ := has
  obtain ⟨target, eq⟩ := asks
  obtain ⟨file, here, node⟩ := pictured.exists_file eq
  obtain rfl := type_of_nodeOf_link node
  rw [fuseserverReadlink, Routine.prog_bind, Routine.prog_readlink, Prog.result, Prog.bind_assoc]
  exact watches.readlink here fun s' watches => pictured.replies watches (.readlink eq)

theorem ends_readdir {size off : ℕ} (has : Has s fs) (asks : fs.Asks (.readdir ino size off)) :
    Ensures fileServer ((FuseRequest.readdir ino size off).Ends lib fs)
      (FuseRequest.handler lib (.readdir ino size off)).prog s := by
  obtain ⟨watches, pictured⟩ := has
  obtain ⟨node, eq⟩ := Option.ne_none_iff_exists'.mp asks
  obtain ⟨file, here, rfl⟩ := pictured.exists_file eq
  simp only [FuseRequest.handler, fuseserverReaddir, Routine.prog_bind, Routine.prog_isType,
    Prog.bind_assoc, Prog.ret_bind]
  refine watches.attributes here fun s₁ attr watches type _ => ?_
  by_cases directory : file.type = tDir
  · rw [if_neg (by simp [type, directory]), Routine.prog_bind, Routine.prog_readdir,
      Prog.bind_assoc]
    refine watches.readdir here directory fun s₂ stack watches => ?_
    have isDirectory := pictured.names.directories ino file here directory
    rw [isDirectory.decode]
    rw [nodeOf_dir directory] at eq
    exact pictured.replies watches (.readdir eq isDirectory.lists)
  · rw [if_pos (by simp [type, directory])]
    refine pictured.replies watches (.notDirectory fun entries dir => ?_)
    rw [eq] at dir
    exact directory (type_of_nodeOf_dir (Option.some.inj dir)).1

section Entries

variable {parent : ℕ} {name : List UInt8}

theorem ends_lookup (has : Has s fs) (asks : fs.Asks (.lookup parent name)) :
    Ensures fileServer ((FuseRequest.lookup parent name).Ends lib fs)
      (fuseserverLookup parent name).prog s := by
  obtain ⟨watches, pictured⟩ := has
  obtain ⟨entries, eq⟩ := asks
  obtain ⟨dir, here, directory, rfl⟩ := pictured.exists_dir eq
  rw [fuseserverLookup, Routine.prog_bind, Routine.prog_lookup]
  refine watches.lookup here directory fun s₁ stack watches => ?_
  rw [pictured.bindings_eq here directory]
  cases bound : directoryOf dir.data name with
  | none => exact pictured.replies watches (.notFound eq bound)
  | some i =>
      obtain ⟨-, target, at_⟩ := pictured.exists_of_bound here directory bound
      rw [Routine.prog_bind]
      exact pictured.getattr watches at_ fun s₂ st watches stats =>
        pictured.replies watches (.found eq bound stats)

/-- **How a request that makes an entry ends**, when the operation it calls has made one. -/
theorem ends_made {α : Type} {f : YfsStatus × ℕ → α} {k : α → Prog FuseReply} {p : Prog α}
    {dir new : File} {answer : EntryParam → FuseReply} (next : ℕ → ℤ × Stat → Prog FuseReply)
    (pictured : Pictured v fs) (here : v parent = some dir) (directory : dir.type = tDir)
    (short : name.length ≤ 64) (empty : new.type = tDir → new.data = [])
    (small : new.type = tFile → new.data.length < 2 ^ 32)
    (makes : q.Makes parent name (nodeOf new) answer)
    (runs : Ensures fileServer (Watches.Made fs.sized v parent dir name new f) p s)
    (exist : ∀ i, k (f (.EXIST, i)) = .ret (.err eEXIST))
    (made : ∀ i, k (f (.OK, i)) = (fuseGetattr i).prog.bind (next i))
    (replies : ∀ i st, next i (0, st) = .ret (answer ⟨i, st⟩)) :
    Ensures fileServer (q.Ends lib fs) (p.bind k) s := by
  have isDirectory := pictured.names.directories parent dir here directory
  have eq : fs.node parent = some (.dir (directoryOf dir.data)) := by
    rw [pictured.node_eq, here, Option.map_some, nodeOf_dir directory]
  refine Ensures.seq runs ?_
  rintro out s' (⟨full, req, rfl⟩ | ⟨r, v', rfl, watches, step⟩)
  · exact Or.inr ⟨fun id low high free => full id low high (pictured.free_iff.mp free), req, rfl⟩
  · show Ensures fileServer (q.Ends lib fs) (k (f r)) s'
    cases step with
    | @exist stack i bound =>
        rw [isDirectory.decode] at bound
        rw [exist]
        exact pictured.replies watches (.exist makes eq bound)
    | @made stack bytes i unbound low high free =>
        rw [isDirectory.decode] at unbound
        have pictured' := pictured.added here directory short empty small bytes unbound low high
          free
        have other : i ≠ parent := by
          rintro rfl
          rw [here] at free
          cases free
        rw [made]
        refine pictured'.getattr watches
          ((Function.update_of_ne other ..).trans (Function.update_self ..))
          fun s'' st watches stats => ?_
        rw [replies]
        exact pictured'.replies watches
          (.made makes eq unbound low high (pictured.free_iff.mpr free) stats)

/-- The requests that `fuseserver_createhelper` handles. -/
theorem ends_createhelper {type : ℕ} {answer : EntryParam → FuseReply} (has : Has s fs)
    (kind : type = tFile ∨ type = tDir) (makes : q.Makes parent name (nodeOf ⟨type, []⟩) answer)
    (asks : (∃ entries, fs.node parent = some (.dir entries)) ∧ name.length ≤ 64) :
    Ensures fileServer (q.Ends lib fs) ((fuseserverCreatehelper parent name type).bind fun r =>
      .ret (replyMade answer r)).prog s := by
  obtain ⟨watches, pictured⟩ := has
  obtain ⟨⟨entries, eq⟩, short⟩ := asks
  obtain ⟨dir, here, directory, rfl⟩ := pictured.exists_dir eq
  have notCounted := pictured.notCounted here directory
  have runs : Ensures fileServer (Watches.Made fs.sized s.files parent dir name ⟨type, []⟩ id)
      (if type = tFile then Routine.createFile parent name
        else Routine.mkdir parent name).prog s := by
    rcases kind with rfl | rfl
    · rw [if_pos rfl, Routine.prog_createFile]
      exact watches.create here directory pictured.live notCounted
    · rw [if_neg (by decide), Routine.prog_mkdir]
      exact watches.mkdir here directory pictured.live notCounted
  rw [fuseserverCreatehelper, Routine.bind_assoc, Routine.prog_bind]
  refine ends_made
    (fun i a => .ret (replyMade answer (if a.1 ≠ 0 then .error a.1 else .ok ⟨i, a.2⟩)))
    pictured here directory short (fun _ => rfl) (fun _ => by simp) makes runs (fun i => rfl)
    (fun i => ?_) fun i st => rfl
  show (((fuseGetattr i).bind _).bind _).prog = _
  rw [Routine.bind_assoc, Routine.prog_bind]
  rfl

theorem ends_symlink {link : List UInt8} (has : Has s fs)
    (asks : fs.Asks (.symlink link parent name)) :
    Ensures fileServer ((FuseRequest.symlink link parent name).Ends lib fs)
      (fuseserverSymlink link parent name).prog s := by
  obtain ⟨watches, pictured⟩ := has
  obtain ⟨⟨entries, eq, unbound⟩, short⟩ := asks
  obtain ⟨dir, here, directory, rfl⟩ := pictured.exists_dir eq
  have runs : Ensures fileServer
      (Watches.Made fs.sized s.files parent dir name ⟨tSlink, link⟩ (Except.ok (ε := ℤ)))
      ((YfsClient.symlink parent name link).result .ok) s :=
    watches.symlink here directory pictured.live (pictured.notCounted here directory)
      fun stack => by
      rw [pictured.bindings_eq here directory]
      exact unbound
  rw [fuseserverSymlink, Routine.prog_bind, Routine.prog_symlink]
  refine ends_made (fun i a => .ret (if a.1 ≠ 0 then .err eNOENT else .entry ⟨i, a.2⟩))
    pictured here directory short ?_ ?_ .symlink runs (fun i => rfl) (fun i => ?_) fun i st => rfl
  · rintro ⟨⟩
  · rintro ⟨⟩
  · show ((fuseGetattr i).bind _).prog = _
    rw [Routine.prog_bind]
    rfl

theorem ends_unlink (has : Has s fs) (asks : fs.Asks (.unlink parent name)) :
    Ensures fileServer ((FuseRequest.unlink parent name).Ends lib fs)
      (fuseserverUnlink parent name).prog s := by
  obtain ⟨watches, pictured⟩ := has
  obtain ⟨entries, eq, other⟩ := asks
  obtain ⟨dir, here, directory, rfl⟩ := pictured.exists_dir eq
  have isDirectory := pictured.names.directories parent dir here directory
  have notDir : ∀ ino, HasEntry s.files parent name ino → ¬ IsDir s.files ino := by
    rintro ino ⟨dir', here', -, mem⟩ ⟨file, at_, type⟩
    rw [here] at here'
    cases here'
    refine other ino (directoryOf file.data) ((isDirectory.lists.mem_iff name ino).mp mem) ?_
    rw [pictured.node_eq, at_, Option.map_some, nodeOf_dir type]
  rw [fuseserverUnlink, Routine.prog_bind, Routine.prog_rmdir]
  refine Ensures.seq (watches.rmdir here directory pictured.live
    (pictured.notCounted here directory) ?_) ?_
  · rintro stack ⟨n, i⟩ mem rfl
    rw [isDirectory.decode] at mem
    exact notDir i ⟨dir, here, directory, mem⟩
  · rintro out s' ⟨r, v', rfl, watches, step⟩
    cases step with
    | @missing stack unbound =>
        rw [isDirectory.decode] at unbound
        exact pictured.replies watches (.missing eq unbound)
    | @removed stack ent buf found encodes =>
        rw [isDirectory.decode] at found encodes
        have pictured' := pictured.removed here directory notDir found encodes
        have named : directoryOf dir.data name = some ent.inum := by
          rw [directoryOf, bindings, found, Option.map_some]
        exact pictured'.replies ⟨watches.held, watches.sees, watches.entries.mono (fun _ => id)
          fun _ => And.right⟩ (.unlinked eq named)

end Entries

/-- **Every handler.** -/
theorem ends_handler (has : Has s fs) (asks : fs.Asks q) :
    Ensures fileServer (q.Ends lib fs) (q.handler lib).prog s := by
  cases q with
  | getattr ino => exact ends_getattr has asks
  | setattr ino toSet size => exact ends_setattr has asks
  | read ino size off => exact ends_read has asks
  | write ino data off => exact ends_write has asks
  | create parent name => exact ends_createhelper has (Or.inl rfl) .create asks
  | mknod parent name => exact ends_createhelper has (Or.inl rfl) .mknod asks
  | mkdir parent name => exact ends_createhelper has (Or.inr rfl) .mkdir asks
  | symlink link parent name => exact ends_symlink has asks
  | lookup parent name => exact ends_lookup has asks
  | readdir ino size off => exact ends_readdir has asks
  | opened ino => exact Or.inl ⟨_, fs, rfl, .opened, has⟩
  | unlink parent name => exact ends_unlink has asks
  | readlink ino => exact ends_readlink has asks
  | statfs => exact Or.inl ⟨_, fs, rfl, .statfs, has⟩

end Handlers

/-! ## Runs -/

/-- **Runs of the daemon**: it mounts a new file system and handles requests, one after the
other, with the file system as the kernel takes it to be from the replies. -/
def Serving (lib : Libfuse) : Alone FileMap × FileSystem → Prop :=
  Reachable (fun p => p.2 = .empty ∧
      ∃ acts, Runs fileServer (Op.prog .mount) aloneAtRoot acts (.returned .mounted) p.1)
    fun p p' => ∃ q reply acts, p.2.Asks q ∧
      Runs fileServer (q.handler lib).prog p.1 acts (.returned reply) p'.1 ∧
        p.2.Step lib q reply p'.2

/-- The constructor puts over the root only. -/
theorem mount_entries : Ensures fileServer (fun out s => (∃ a, out = .returned a) →
    Entries (IsDir initialFiles) FileSystem.empty.sized s) (Op.prog .mount) aloneAtRoot := by
  have careful : Routine.Careful (IsDir initialFiles) FileSystem.empty.sized false (fun _ => False)
      (Routine.mount.bind fun _ => .ret Res.mounted) :=
    ⟨Or.inl ⟨_, initialFiles_root, rfl⟩, id, trivial⟩
  refine careful.ensures ⟨?_, ?_, ?_⟩ (fun _ => False.elim) (by rintro ⟨⟩)
  · rintro ino cached ⟨⟩
  · rintro ino cached _ ⟨⟩
  · rintro ino cached _ ⟨⟩

/-- The client has the file system, in every run. -/
theorem Serving.has {lib : Libfuse} {p : Alone FileMap × FileSystem} (serving : Serving lib p) :
    Has p.1 p.2 := by
  refine Reachable.invariant (I := fun p => Has p.1 p.2) ?_ ?_ serving
  · rintro ⟨s, _⟩ ⟨rfl, acts, mounts⟩
    obtain ⟨-, held, sees⟩ := mount_view.runs mounts
    have entries := mount_entries.runs mounts ⟨_, rfl⟩
    exact Watches.has ⟨held, sees, entries⟩ .initial
  · rintro ⟨s, fs⟩ ⟨s', fs'⟩ - has ⟨q, reply, acts, asks, run, step⟩
    rcases (ends_handler has asks).runs run with ⟨reply', fs'', eq, step', has'⟩ | ⟨-, req, eq⟩
    · cases eq
      rwa [step.unique step']
    · cases eq

/-- **The handlers implement the file system.** In every run of the daemon on a new file system,
whatever the kernel asks is replied to by a step of the file system, and the daemon goes on; or no
inum is free, and the server does not answer.

`Serving` is what holds between two requests, and it holds again after the reply.  The
specification has no caches, locks or records, and the client is looked at through `Pictured`
only. -/
theorem handlers_implement_file_system {lib : Libfuse} {p : Alone FileMap × FileSystem}
    (serving : Serving lib p) {q : FuseRequest} (asks : p.2.Asks q) :
    Always fileServer (q.handler lib).prog p.1 fun out s' =>
      (∃ reply fs', out = .returned reply ∧ p.2.Step lib q reply fs' ∧ Serving lib (s', fs')) ∨
        ((∀ id, 2 ≤ id → id ≤ inodeNum → p.2.node id ≠ none) ∧ ∃ req, out = .refused req) := by
  refine ⟨exists_runs fileServer _ _, fun acts out s' run => ?_⟩
  rcases (ends_handler serving.has asks).runs run with ⟨reply, fs', rfl, step, -⟩ | full
  · exact Or.inl ⟨reply, fs', rfl, step, serving.step ⟨q, reply, acts, asks, run, step⟩⟩
  · exact Or.inr full

/-- A new file is made in the root. -/
theorem handlers_implement_file_system_create : ∃ s, Serving linuxFuse (s, .empty) ∧
    Always fileServer (FuseRequest.handler linuxFuse (.create 1 [97])).prog s fun out s' =>
      (∃ reply fs', out = .returned reply ∧
        FileSystem.empty.Step linuxFuse (.create 1 [97]) reply fs' ∧ Serving linuxFuse (s', fs')) ∨
      ((∀ id, 2 ≤ id → id ≤ inodeNum → FileSystem.empty.node id ≠ none) ∧
        ∃ req, out = .refused req) := by
  obtain ⟨acts, out, s, run⟩ := exists_runs fileServer (Op.prog .mount) aloneAtRoot
  obtain ⟨rfl, -, -⟩ := mount_view.runs run
  have serving : Serving linuxFuse (s, .empty) := .init ⟨rfl, acts, run⟩
  have asks : FileSystem.empty.Asks (.create 1 [97]) := ⟨⟨_, rfl⟩, by decide⟩
  exact ⟨s, serving, handlers_implement_file_system serving asks⟩

end Yfs.Client
