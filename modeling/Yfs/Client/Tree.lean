import Mathlib.Data.List.Perm.Subperm
import Yfs.Client.Names
import Yfs.Lib.RootedTree

/-!
# The namespace is a tree

One client makes and removes entries on a new file system.  What it sees stays a tree as
long as no entry of a directory that has entries itself is removed: `unlink` and `rmdir`
do not look at what they remove.

The client is on its own here, so what it sees is a single map of files and the namespace is a
relation on it.  Two facts about records are used: a record that is appended adds one entry, and
`rmdir` writes back the others.  The rest is about trees (`Lib.RootedTree`).

* `HasEntry`, `IsTree` — the namespace, and what is required of it.
* `Namespace` — the invariant; `Namespace.made` and `Namespace.removed` are its steps.
* `namespace_stays_tree` — every run that removes only entries without entries keeps the tree.
* `rmdir_orphans_entries` — a run that loses a file.
-/

namespace Yfs.Client

open Storage Storage.ExtentServer Transition

/-- A live directory `d` has the entry `name` for `ino`. -/
def HasEntry (v : FileMap) (d : ℕ) (name : List UInt8) (ino : ℕ) : Prop :=
  ∃ dir, v d = some dir ∧ dir.type = tDir ∧ ⟨name, ino⟩ ∈ entriesOf dir.data

/-- **The namespace is a tree**: entries refer to live inodes, every live inode but the root is
referred to by exactly one entry, and is reached from the root.

`once` excludes hard links, which the file system does not have. -/
structure IsTree (v : FileMap) : Prop where
  noDangling : ∀ d name ino, HasEntry v d name ino → v ino ≠ none
  once : ∀ ino, v ino ≠ none → ino ≠ 1 → ∃! place : ℕ × List UInt8, HasEntry v place.1 place.2 ino
  distinct : ∀ d dir, v d = some dir → dir.type = tDir →
    ((entriesOf dir.data).map Dirent.name).Nodup
  reachable : ∀ ino, v ino ≠ none → FromRoot 1 (HasEntry v) ino

/-- No entry is removed that refers to a directory with entries. -/
def RemovesLeaf (v : FileMap) (op : Op) : Prop :=
  ∀ d name ino, op.Unlinks d name → HasEntry v d name ino → ∀ n i, ¬ HasEntry v ino n i

/-- An operation that changes the namespace, with a name of 1 to 64 bytes, on a live directory. -/
def ChangesDirectory (v : FileMap) (op : Op) : Prop :=
  ∃ d name dir, (op.Unlinks d name ∨ ∃ new, op.Makes d name new) ∧ 1 ≤ name.length ∧
    name.length ≤ 64 ∧ v d = some dir ∧ dir.type = tDir

/-- **Runs of one client on a new file system**: it is constructed, and then it makes and removes
entries, each time so that `cond` holds. -/
def NamespaceRun (cond : FileMap → Op → Prop) : Alone FileMap → Prop :=
  Reachable (fun s => ∃ acts,
      Runs fileServer (Op.prog .mount) aloneAtRoot acts (.returned .mounted) s)
    fun s s' => ∃ op res acts, ChangesDirectory s.files op ∧ cond s.files op ∧
      Runs fileServer op.prog s acts (.returned res) s'

/-! ## The invariant -/

/-- What holds at the two places that change, and elsewhere, holds everywhere. -/
theorem update_update_cases {v : FileMap} {a b : ℕ} {f g : Option File} {Q : ℕ → Option File → Prop}
    (first : Q a f) (second : b ≠ a → Q b g) (other : ∀ x, x ≠ a → x ≠ b → Q x (v x)) (x : ℕ) :
    Q x (Function.update (Function.update v b g) a f x) := by
  by_cases atFirst : x = a
  · subst atFirst
    rw [Function.update_self]
    exact first
  · rw [Function.update_of_ne atFirst]
    by_cases atSecond : x = b
    · subst atSecond
      rw [Function.update_self]
      exact second atFirst
    · rw [Function.update_of_ne atSecond]
      exact other x atFirst atSecond

/-- What holds of the files in every state.

The format of directories and the range of inums are needed to keep the tree: a name that is not
read back as it was written is an entry less. -/
structure Namespace (v : FileMap) : Prop where
  tree : RootedTree 1 (fun ino => v ino ≠ none) (HasEntry v)
  directories : ∀ d dir, v d = some dir → dir.type = tDir → IsDirectory dir.data
  range : ∀ ino, v ino ≠ none → ino ≤ inodeNum

namespace Namespace

variable {v : FileMap} {d : ℕ} {dir : File} {name : List UInt8}

theorem isTree (names : Namespace v) : IsTree v where
  noDangling _ _ _ entry := names.tree.target_live entry
  once _ live ne := names.tree.existsUnique_edge live ne
  distinct d dir here directory := (names.directories d dir here directory).nodup
  reachable _ live := names.tree.reached live

/-- A directory has at most one entry for each inum, so there is room for another record. -/
theorem room (names : Namespace v) (here : v d = some dir) (directory : dir.type = tDir) :
    dir.data.length + direntSize < 2 ^ 32 := by
  have isDirectory := names.directories d dir here directory
  have inums : ((entriesOf dir.data).map Dirent.inum).Nodup := by
    refine List.Nodup.map_on ?_ isDirectory.nodup.of_map
    rintro ⟨n, i⟩ memN ⟨m, j⟩ memM same
    simp only at same
    subst same
    obtain ⟨-, rfl⟩ := names.tree.single ⟨dir, here, directory, memN⟩ ⟨dir, here, directory, memM⟩
    rfl
  have sub : (entriesOf dir.data).map Dirent.inum ⊆ List.range (inodeNum + 1) := by
    intro ino mem
    obtain ⟨⟨n, i⟩, entry, rfl⟩ := List.mem_map.mp mem
    have live := names.tree.target_live ⟨dir, here, directory, entry⟩
    exact List.mem_range.mpr (Nat.lt_succ_of_le (names.range _ live))
  have count := (List.subperm_of_subset inums sub).length_le
  rw [List.length_map, List.length_range] at count
  rw [isDirectory.readAs.length isDirectory.bound]
  simp only [direntSize, inodeNum] at *
  omega

/-- **An entry is made.** -/
theorem made (names : Namespace v) (here : v d = some dir) (directory : dir.type = tDir)
    (short : name.length ≤ 64) {new : File} (empty : new.type = tDir → new.data = [])
    {r : YfsStatus × ℕ} {v' : FileMap} (step : EntryMade v d dir name new r v') : Namespace v' := by
  cases step with
  | exist => exact names
  | @made stack bytes ino unbound low high free =>
      have isDirectory := names.directories d dir here directory
      have room := names.room here directory
      have small : ino < 2 ^ 64 := by
        simp only [inodeNum] at high
        omega
      have fits : Dirent.Fits ⟨name, ino⟩ := ⟨short, small⟩
      have bound : (dir.data ++ encodeDirent bytes ⟨name, ino⟩).length < 2 ^ 32 := by
        rw [List.length_append, length_encodeDirent]
        exact room
      have entries := isDirectory.entriesOf_append fits bound
      have ne : d ≠ ino := by
        rintro rfl
        rw [here] at free
        cases free
      rw [isDirectory.decode] at unbound
      have alive : v d ≠ none := by simp [here]
      -- the tree grows by one edge, to a node that was not there
      refine ⟨names.tree.grow (a := d) (b := ino) (k := name) alive (fun live => live free)
        (fun x n i => ?_) ?_, ?_, ?_⟩
      · refine update_update_cases (Q := fun x file => (∃ dir, file = some dir ∧ dir.type = tDir ∧
          ⟨n, i⟩ ∈ entriesOf dir.data) ↔ HasEntry v x n i ∨ (x = d ∧ n = name ∧ i = ino)) ?_ ?_ ?_ x
        · simp only [HasEntry, Option.some.injEq, exists_eq_left', entries, List.mem_append,
            List.mem_singleton, Dirent.mk.injEq, here, directory, true_and]
        · intro _
          simp only [HasEntry, Option.some.injEq, exists_eq_left', free, ne.symm, false_and,
            or_false]
          constructor
          · rintro ⟨isDir, mem⟩
            rw [empty isDir] at mem
            cases mem
          · rintro ⟨_, ⟨⟩, _⟩
        · intro x atParent _
          simp only [HasEntry, atParent, false_and, or_false]
      · refine update_update_cases (Q := fun x file => file ≠ none ↔ v x ≠ none ∨ x = ino) ?_ ?_ ?_
        · simp [here]
        · simp
        · intro x _ atNew
          simp [atNew]
      · intro x
        refine update_update_cases (Q := fun _ file => ∀ dir, file = some dir → dir.type = tDir →
          IsDirectory dir.data) ?_ ?_ (fun x _ _ => names.directories x) x
        · rintro _ ⟨⟩ _
          exact (isDirectory.append short small unbound bound).1
        · rintro _ _ ⟨⟩ isDir
          rw [empty isDir]
          exact .nil
      · refine update_update_cases (Q := fun x file => file ≠ none → x ≤ inodeNum) ?_ ?_
          fun x _ _ => names.range x
        · exact fun _ => names.range d alive
        · exact fun _ _ => high

/-- **An entry is removed** that refers to no directory with entries. -/
theorem removed (names : Namespace v) (here : v d = some dir) (directory : dir.type = tDir)
    (leaf : ∀ ino, HasEntry v d name ino → ∀ n i, ¬ HasEntry v ino n i) {r : YfsStatus}
    {v' : FileMap} (step : EntryRemoved v d dir name r v') : Namespace v' := by
  cases step with
  | missing => exact names
  | @removed stack ent buf found encodes =>
      obtain ⟨n, ino⟩ := ent
      have isDirectory := names.directories d dir here directory
      rw [isDirectory.decode] at found encodes
      have named : n = name := by simpa using List.find?_some found
      subst named
      have entry : HasEntry v d n ino := ⟨dir, here, directory, List.mem_of_find?_eq_some found⟩
      have bound : buf.length < 2 ^ 32 := by
        have shorter : ((entriesOf dir.data).eraseP fun ent => ent.name = n).length ≤
            (entriesOf dir.data).length := List.length_eraseP_le
        have := names.room here directory
        have := isDirectory.readAs.length isDirectory.bound
        rw [encodes.length]
        simp only [direntSize] at *
        omega
      obtain ⟨isDirectory', map⟩ := isDirectory.erase encodes bound
      -- the new string has all entries but the one that was found
      have entries : ∀ m i, (⟨m, i⟩ : Dirent) ∈ entriesOf buf ↔
          ⟨m, i⟩ ∈ entriesOf dir.data ∧ ¬ (m = n ∧ i = ino) := by
        intro m i
        rw [isDirectory'.lists.mem_iff, isDirectory.lists.mem_iff, map]
        by_cases same : m = n
        · subst same
          have only := (isDirectory.lists.mem_iff m ino).mp (List.mem_of_find?_eq_some found)
          rw [Function.update_self, only]
          simp only [reduceCtorEq, Option.some.injEq, true_and, false_iff, not_and, not_not]
          exact Eq.symm
        · rw [Function.update_of_ne same]
          simp [same]
      -- the directory has an entry, so it is not what is removed
      have ne : d ≠ ino := by
        rintro rfl
        exact leaf d entry n d entry
      -- the tree loses an edge and the leaf at its end
      refine ⟨names.tree.prune entry (leaf ino entry) (fun x m i => ?_) ?_, ?_, ?_⟩
      · refine update_update_cases (Q := fun x file => (∃ dir, file = some dir ∧ dir.type = tDir ∧
          ⟨m, i⟩ ∈ entriesOf dir.data) ↔ HasEntry v x m i ∧ ¬ (x = d ∧ m = n ∧ i = ino)) ?_ ?_ ?_ x
        · simp only [HasEntry, Option.some.injEq, exists_eq_left', entries, here, directory,
            true_and]
        · intro _
          constructor
          · rintro ⟨_, ⟨⟩, _⟩
          · rintro ⟨old, -⟩
            exact absurd old (leaf ino entry m i)
        · intro x atParent _
          simp only [HasEntry, atParent, false_and, not_false_eq_true, and_true]
      · refine update_update_cases (Q := fun x file => file ≠ none ↔ v x ≠ none ∧ x ≠ ino) ?_ ?_ ?_
        · simp [here, ne]
        · simp
        · intro x _ removed
          simp [removed]
      · intro x
        refine update_update_cases (Q := fun _ file => ∀ dir, file = some dir → dir.type = tDir →
          IsDirectory dir.data) ?_ ?_ (fun x _ _ => names.directories x) x
        · rintro _ ⟨⟩ _
          exact isDirectory'
        · rintro _ _ ⟨⟩
      · refine update_update_cases (Q := fun x file => file ≠ none → x ≤ inodeNum) ?_ ?_
          fun x _ _ => names.range x
        · exact fun _ => names.range d (by simp [here])
        · exact fun _ dead => absurd rfl dead

end Namespace

/-! ## Runs -/

section Runs

variable {s s' : Alone FileMap} {v : FileMap} {d : ℕ} {dir : File} {name : List UInt8} {op : Op}

/-- Every extent counts. -/
def everywhere : ℕ → Prop := fun _ => True

/-- An operation that returns did not wait for its own lock. -/
theorem not_held_of_returned (changes : op.Unlinks d name ∨ ∃ new, op.Makes d name new)
    {acts : List Act} {res : Res} (run : Runs fileServer op.prog s acts (.returned res) s') :
    d ∉ s.held := by
  intro held
  have blocks : Ensures fileServer (fun out _ => out = .blocked d) op.prog s := by
    have first : ∀ next : Prog Res,
        Ensures fileServer (fun out _ => out = .blocked d) (.acquire d next) s := by
      intro next
      rw [Ensures, if_pos held]
    rcases changes with (rfl | rfl) | ⟨new, ⟨rfl, -⟩ | ⟨rfl, -⟩ | ⟨link, rfl, -⟩⟩
    · exact first _
    · exact first _
    · exact first _
    · exact first _
    · exact first _
  cases blocks.runs run

/-- **The constructor** writes the root, which is empty already. -/
theorem mount_view : Ensures fileServer (fun out s => out = .returned .mounted ∧ s.held = [] ∧
    Sees everywhere s initialFiles) (Op.prog .mount) aloneAtRoot := by
  have free : 1 ∉ aloneAtRoot.held := List.not_mem_nil
  simp only [Op.prog, Prog.result, YfsClient.mount, Prog.bind_eq, Prog.bind_assoc]
  refine Ensures.lock free (Ensures.put fun bytes atime ctime mtime => Ensures.unlock ?_)
  have sees : Sees everywhere aloneAtRoot initialFiles := by
    constructor
    · exact extensible_root.sees.files
    · exact fun ino file _ _ => ⟨by rintro _ ⟨⟩, by rintro _ ⟨⟩⟩
  have root : aloneAtRoot.server 1 = some ⟨tDir, []⟩ := rfl
  have same : current (some ((CachedFile.blank bytes).written [] atime ctime mtime)) [] =
      current (aloneAtRoot.cache 1) [] := rfl
  refine ⟨rfl, rfl, (sees.store_same root same fun _ => ?_).release⟩
  constructor
  · rintro _ ⟨⟩ valid
    cases valid
  · rintro _ ⟨⟩ _
    rfl

/-- The root alone is a tree. -/
theorem namespace_initial : Namespace initialFiles := by
  have only : ∀ {ino}, initialFiles ino ≠ none → ino = 1 := by
    intro ino live
    by_contra ne
    exact live (Function.update_of_ne ne ..)
  have empty : ∀ d n i, ¬ HasEntry initialFiles d n i := by
    rintro d n i ⟨dir, here, -, mem⟩
    have root : d = 1 := only (by rw [here]; nofun)
    subst root
    cases here
    cases mem
  refine ⟨⟨nofun, fun entry => absurd entry (empty _ _ _), fun entry => absurd entry (empty _ _ _),
    fun entry => absurd entry (empty _ _ _), fun live => ?_⟩, fun d dir here _ => ?_,
    fun ino live => ?_⟩
  · rw [only live]
    exact .root
  · have root : d = 1 := only (by rw [here]; nofun)
    subst root
    cases here
    exact .nil
  · rw [only live]
    decide

/-- **One operation keeps the tree.** -/
theorem namespace_step (sees : Sees everywhere s s.files) (names : Namespace s.files)
    (changes : ChangesDirectory s.files op) (leaf : RemovesLeaf s.files op) {acts : List Act}
    {res : Res} (run : Runs fileServer op.prog s acts (.returned res) s') :
    Sees everywhere s' s'.files ∧ Namespace s'.files := by
  obtain ⟨d, name, dir, kind, -, short, here, directory⟩ := changes
  have free := not_held_of_returned kind run
  rcases kind with unlinks | ⟨new, makes⟩
  · have removesLeaf := fun ino => leaf d name ino unlinks
    have notSelf : ∀ stack, ∀ ent ∈ decodeDir stack dir.data, ent.name = name → ent.inum ≠ d := by
      rintro stack ⟨n, i⟩ mem rfl rfl
      rw [(names.directories i dir here directory).decode] at mem
      have entry : HasEntry s.files i n i := ⟨dir, here, directory, mem⟩
      exact removesLeaf i entry n i entry
    obtain ⟨r, v', -, -, sees', removed⟩ :=
      (unlinked_view unlinks free sees trivial here directory notSelf).runs run
    rw [sees'.files]
    exact ⟨sees', names.removed here directory removesLeaf removed⟩
  · rcases (made_view makes free sees trivial here directory).runs run with
      ⟨-, req, eq⟩ | ⟨r, v', -, -, sees', made⟩
    · cases eq
    · rw [sees'.files]
      refine ⟨sees', names.made here directory short ?_ made⟩
      intro isDir
      rcases makes with ⟨-, rfl⟩ | ⟨-, rfl⟩ | ⟨link, -, rfl⟩
      · rfl
      · rfl
      · cases isDir

/-- **The namespace stays a tree** in every run that removes no entry of a directory with entries.

A step adds an edge to a node that was not there, or takes an edge and the leaf at its end away;
by the rules of `RootedTree` both leave a tree. -/
theorem namespace_stays_tree (run : NamespaceRun RemovesLeaf s) : IsTree s.files := by
  have invariant : Sees everywhere s s.files ∧ Namespace s.files := by
    refine Reachable.invariant (I := fun s => Sees everywhere s s.files ∧ Namespace s.files)
      ?_ ?_ run
    · rintro s ⟨acts, mounts⟩
      obtain ⟨-, -, sees⟩ := mount_view.runs mounts
      rw [sees.files]
      exact ⟨sees, namespace_initial⟩
    · rintro s s' - ⟨sees, names⟩ ⟨op, res, acts, changes, leaf, step⟩
      exact namespace_step sees names changes leaf step
  exact invariant.2.isTree

/-! ## Runs of operations that succeed -/

/-- A state that a run reaches, with no lock left. -/
structure Reached (cond : FileMap → Op → Prop) (s : Alone FileMap) (v : FileMap) : Prop where
  run : NamespaceRun cond s
  idle : s.held = []
  sees : Sees everywhere s v
  names : Namespace v

/-- The client can be constructed. -/
theorem exists_mounted (cond : FileMap → Op → Prop) : ∃ s, Reached cond s initialFiles := by
  obtain ⟨acts, out, s, run⟩ := exists_runs fileServer (Op.prog .mount) aloneAtRoot
  obtain ⟨rfl, held, sees⟩ := mount_view.runs run
  exact ⟨s, Reachable.init ⟨acts, run⟩, held, sees, namespace_initial⟩

/-- A new name can be made, while an inum is free. -/
theorem Reached.makes {cond : FileMap → Op → Prop} (reached : Reached cond s v) {new : File}
    (makes : op.Makes d name new) (allowed : cond v op) (long : 1 ≤ name.length)
    (short : name.length ≤ 64) (here : v d = some dir) (directory : dir.type = tDir)
    (unbound : directoryOf dir.data name = none)
    (inum : ∃ id, 2 ≤ id ∧ id ≤ inodeNum ∧ v id = none) :
    ∃ s' ino bytes, 2 ≤ ino ∧ ino ≤ inodeNum ∧ v ino = none ∧ Reached cond s' (Function.update
      (Function.update v ino (some new)) d
        (some { dir with data := dir.data ++ encodeDirent bytes ⟨name, ino⟩ })) := by
  obtain ⟨id, low, high, dead⟩ := inum
  have free : d ∉ s.held := by
    rw [reached.idle]
    exact List.not_mem_nil
  have empty : new.type = tDir → new.data = [] := by
    intro isDir
    rcases makes with ⟨-, rfl⟩ | ⟨-, rfl⟩ | ⟨link, -, rfl⟩
    · rfl
    · rfl
    · cases isDir
  obtain ⟨acts, out, s', run⟩ := exists_runs fileServer op.prog s
  rcases (made_view makes free reached.sees trivial here directory).runs run with
    ⟨full, -⟩ | ⟨r, v', rfl, held, sees', made⟩
  · exact absurd dead (full id low high)
  · have names := reached.names.made here directory short empty made
    have step : NamespaceRun cond s' := by
      refine Reachable.step reached.run ⟨op, _, acts, ?_, ?_, run⟩
      · rw [reached.sees.files]
        exact ⟨d, name, dir, Or.inr ⟨new, makes⟩, long, short, here, directory⟩
      · rw [reached.sees.files]
        exact allowed
    cases made with
    | exist bound =>
        rw [(reached.names.directories d dir here directory).decode] at bound
        exact nomatch unbound.symm.trans bound
    | @made stack bytes ino _ low high dead =>
        exact ⟨s', ino, bytes, low, high, dead, step, (held rfl).trans reached.idle, sees', names⟩

/-- What is left when the only entry of a directory goes. -/
theorem EntryRemoved.of_only {i : ℕ} {r : YfsStatus} {v' : FileMap}
    (step : EntryRemoved v d dir name r v') (isDirectory : IsDirectory dir.data)
    (only : entriesOf dir.data = [⟨name, i⟩]) :
    v' = Function.update (Function.update v i none) d (some { dir with data := [] }) := by
  cases step with
  | missing unbound =>
      rw [isDirectory.decode, only] at unbound
      simp [bindings] at unbound
  | @removed stack ent buf found encodes =>
      rw [isDirectory.decode, only] at found encodes
      have entry : ent = ⟨name, i⟩ := by simpa using found.symm
      have empty : buf = [] := by
        have length := encodes.length
        simpa using length
      subst entry empty
      rfl

/-- The only entry of the root can be removed. -/
theorem Reached.removes {cond : FileMap → Op → Prop} {i : ℕ} (reached : Reached cond s v)
    (unlinks : op.Unlinks 1 name) (allowed : cond v op) (long : 1 ≤ name.length)
    (short : name.length ≤ 64) (root : v 1 = some dir) (directory : dir.type = tDir)
    (only : entriesOf dir.data = [⟨name, i⟩]) (rootI : i ≠ 1) :
    ∃ s', NamespaceRun cond s' ∧
      s'.files = Function.update (Function.update v i none) 1 (some { dir with data := [] }) := by
  have isDirectory := reached.names.directories 1 dir root directory
  have held : 1 ∉ s.held := by
    rw [reached.idle]
    exact List.not_mem_nil
  have notSelf : ∀ stack, ∀ ent ∈ decodeDir stack dir.data, ent.name = name → ent.inum ≠ 1 := by
    intro stack ent mem _
    rw [isDirectory.decode, only] at mem
    rw [List.mem_singleton.mp mem]
    exact rootI
  obtain ⟨acts, out, s', run⟩ := exists_runs fileServer op.prog s
  obtain ⟨r, v', rfl, -, sees, removed⟩ :=
    (unlinked_view unlinks held reached.sees trivial root directory notSelf).runs run
  refine ⟨s', Reachable.step reached.run ⟨op, _, acts, ?_, ?_, run⟩, ?_⟩
  · rw [reached.sees.files]
    exact ⟨1, name, dir, Or.inl unlinks, long, short, root, directory⟩
  · rw [reached.sees.files]
    exact allowed
  · rw [sees.files]
    exact removed.of_only isDirectory only

/-- A new file system has an empty root. -/
theorem initialFiles_root : initialFiles 1 = some ⟨tDir, []⟩ := rfl

/-- The entry of an empty root. -/
theorem entriesOf_first {bytes : ℕ → UInt8} {i : ℕ} (high : i ≤ inodeNum)
    (isDirectory : IsDirectory ([] ++ encodeDirent bytes ⟨[97], i⟩)) :
    entriesOf ([] ++ encodeDirent bytes ⟨[97], i⟩) = [⟨[97], i⟩] := by
  have small : i < 2 ^ 64 := by
    simp only [inodeNum] at high
    omega
  exact IsDirectory.nil.entriesOf_append ⟨Nat.le_add_left 1 63, small⟩ isDirectory.bound

/-- The file system after its first `create`, and after the `unlink` that follows it. -/
theorem namespace_stays_tree_created : ∃ (s s' : Alone FileMap) (ino : ℕ),
    s.files ino = some ⟨tFile, []⟩ ∧ IsTree s.files ∧ s'.files ino = none ∧ IsTree s'.files := by
  obtain ⟨s₀, mounted⟩ := exists_mounted RemovesLeaf
  have makes : Op.Makes (.create 1 [97]) 1 [97] ⟨tFile, []⟩ := Or.inl ⟨rfl, rfl⟩
  have noUnlink : ∀ v, RemovesLeaf v (.create 1 [97]) := by
    rintro v d name ino (⟨⟨⟩⟩ | ⟨⟨⟩⟩)
  obtain ⟨s, ino, bytes, low, high, -, created⟩ := mounted.makes makes (noUnlink _) (by decide)
    (by decide) initialFiles_root rfl rfl ⟨2, by decide, by decide, rfl⟩
  have notRoot : ino ≠ 1 := by omega
  generalize hv : Function.update (Function.update _ ino _) 1 _ = v at created
  have file : v ino = some ⟨tFile, []⟩ := by
    rw [← hv, Function.update_of_ne notRoot, Function.update_self]
  have root : v 1 = some ⟨tDir, [] ++ encodeDirent bytes ⟨[97], ino⟩⟩ := by
    rw [← hv, Function.update_self]
  have only := entriesOf_first high (created.names.directories 1 _ root rfl)
  have leaf : RemovesLeaf v (.unlink 1 [97]) := by
    rintro d name i (eq | eq) ⟨dir, here, -, mem⟩ n k ⟨dir', here', directory', -⟩
    · cases eq
      cases root.symm.trans here
      rw [only] at mem
      cases List.mem_singleton.mp mem
      cases file.symm.trans here'
      exact absurd directory' (by decide)
    · cases eq
  have unlinks : Op.Unlinks (.unlink 1 [97]) 1 [97] := Or.inl rfl
  obtain ⟨s', run, files⟩ := created.removes unlinks leaf (by decide) (by decide) root rfl only
    notRoot
  refine ⟨s, s', ino, ?_, namespace_stays_tree created.run, ?_, namespace_stays_tree run⟩
  · rw [created.sees.files]
    exact file
  · rw [files, Function.update_of_ne notRoot, Function.update_self]

/-- The only entry of the root goes, and with it the directory that had the entry for `j`. -/
theorem not_isTree_of_removed {i j : ℕ} {file : File} (here : v j = some file)
    (leaf : file.type ≠ tDir) (rootJ : j ≠ 1) (ne : j ≠ i)
    (others : ∀ x, x ≠ 1 → x ≠ i → x ≠ j → v x = none) :
    ¬ IsTree (Function.update (Function.update v i none) 1 (some { dir with data := [] })) := by
  intro tree
  have live : Function.update (Function.update v i none) 1 (some { dir with data := [] }) j =
      some file := by
    rw [Function.update_of_ne rootJ, Function.update_of_ne ne, here]
  obtain ⟨⟨d, n⟩, ⟨parent, at', directory, mem⟩, -⟩ := tree.once j (by simp [live]) rootJ
  simp only at at'
  by_cases root : d = 1
  · subst root
    rw [Function.update_self] at at'
    cases at'
    simp at mem
  · rw [Function.update_of_ne root] at at'
    by_cases atI : d = i
    · subst atI
      rw [Function.update_self] at at'
      cases at'
    · rw [Function.update_of_ne atI] at at'
      by_cases atJ : d = j
      · subst atJ
        cases here.symm.trans at'
        exact leaf directory
      · cases (others d root atI atJ).symm.trans at'

/-- **A directory with entries is removed, and its file is lost**: after `mkdir` of `a`, `create`
of `b` in it and `rmdir` of `a`, the file is live and no entry refers to it. -/
theorem rmdir_orphans_entries :
    ∃ s : Alone FileMap, NamespaceRun (fun _ _ => True) s ∧ ¬ IsTree s.files := by
  obtain ⟨s₀, mounted⟩ := exists_mounted fun _ _ => True
  have makesA : Op.Makes (.mkdir 1 [97]) 1 [97] ⟨tDir, []⟩ := Or.inr (Or.inl ⟨rfl, rfl⟩)
  obtain ⟨s₁, i, bytes, lowI, highI, -, made⟩ := mounted.makes makesA trivial (by decide)
    (by decide) initialFiles_root rfl rfl ⟨2, by decide, by decide, rfl⟩
  have rootI : i ≠ 1 := by omega
  have free : ∀ x, x ≠ 1 → x ≠ i →
      Function.update (Function.update initialFiles i (some ⟨tDir, []⟩)) 1
        (some ⟨tDir, [] ++ encodeDirent bytes ⟨[97], i⟩⟩) x = none := by
    intro x notRoot notI
    rw [Function.update_of_ne notRoot, Function.update_of_ne notI]
    exact Function.update_of_ne notRoot ..
  have room : ∃ id, 2 ≤ id ∧ id ≤ inodeNum ∧ id ≠ 1 ∧ id ≠ i := by
    by_cases two : i = 2
    · exact ⟨3, by decide, by decide, by decide, by omega⟩
    · exact ⟨2, by decide, by decide, by decide, Ne.symm two⟩
  obtain ⟨id, low, high, notRoot, notI⟩ := room
  have makesB : Op.Makes (.create i [98]) i [98] ⟨tFile, []⟩ := Or.inl ⟨rfl, rfl⟩
  have empty : Function.update (Function.update initialFiles i (some ⟨tDir, []⟩)) 1
      (some ⟨tDir, [] ++ encodeDirent bytes ⟨[97], i⟩⟩) i = some ⟨tDir, []⟩ := by
    rw [Function.update_of_ne rootI, Function.update_self]
  obtain ⟨s₂, j, bytes', lowJ, -, deadJ, created⟩ := made.makes makesB trivial (by simp) (by simp)
    empty rfl rfl ⟨id, low, high, free id notRoot notI⟩
  have rootJ : j ≠ 1 := by omega
  have ne : j ≠ i := by
    rintro rfl
    rw [Function.update_of_ne rootJ, Function.update_self] at deadJ
    cases deadJ
  generalize hv : Function.update (Function.update _ j _) i _ = v at created
  have root : v 1 = some ⟨tDir, [] ++ encodeDirent bytes ⟨[97], i⟩⟩ := by
    rw [← hv, Function.update_of_ne (Ne.symm rootI), Function.update_of_ne (Ne.symm rootJ),
      Function.update_self]
  have only := entriesOf_first highI (created.names.directories 1 _ root rfl)
  have unlinks : Op.Unlinks (.rmdir 1 [97]) 1 [97] := Or.inr rfl
  obtain ⟨s₃, run, files⟩ := created.removes unlinks trivial (by decide) (by decide) root rfl only
    rootI
  have lost : v j = some ⟨tFile, []⟩ := by
    rw [← hv, Function.update_of_ne ne, Function.update_self]
  refine ⟨s₃, run, ?_⟩
  rw [files]
  refine not_isTree_of_removed lost (by decide) rootJ ne fun x notRoot notI notJ => ?_
  rw [← hv, Function.update_of_ne notI, Function.update_of_ne notJ]
  exact free x notRoot notI

end Runs

end Yfs.Client
