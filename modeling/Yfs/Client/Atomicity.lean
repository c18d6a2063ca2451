import Yfs.Client.Directories
import Yfs.Client.Files
import Yfs.Client.Schedule

/-!
# Directory operations are atomic

Any number of clients work on directory `d`, and on other inums.  What they see of `d` is
a map from names to inums on which every operation acts at once, at some time between its
acquire of the lock and its return.

An operation acts once, within its section.  That is between its acquire and its return, so the
order in which operations act agrees with the order in which operations that do not overlap were
made.

* `directory_operations_atomic` — every history is one of the map's.
-/

namespace Yfs.Client

open Storage Storage.ExtentServer Lock

variable {C T σ : Type}

/-- The operations on directory `d`, with names of 1 to 64 bytes, and all operations on
other inums. -/
def OnDirectory (d : ℕ) : Op → Prop
  | .create parent name | .mkdir parent name | .symlink parent name _ | .unlink parent name
  | .rmdir parent name | .lookup parent name =>
      parent = d → 1 ≤ name.length ∧ name.length ≤ 64
  | .readdir _ | .getfile _ | .getdir _ | .isfile _ | .isdir _ | .issymlink _ => True
  | .read ino _ _ | .write ino _ _ | .setattr ino _ | .readlink ino => ino ≠ d
  | .mount => d ≠ 1

/-- The clients.  Directory `d` is not removed, neither from a cache nor from the server, and
its string fits the 32-bit size of an extent. -/
def directories (d : ℕ) (serve : σ → Request → Reply → σ → Prop) : Machine C T Op Res σ where
  prog := Op.prog
  serve := serve
  mayInvoke _ op := OnDirectory d op
  mayStore s c _ _ eid entry := eid = d → Storable (s.cache c d) entry
  mayCall _ req _ := req ≠ .remove d

/-- Every operation keeps the contract of the directory. -/
theorem dirOk_of_onDirectory {d : ℕ} {extra : Op → Entry → List UInt8 → Prop} {op : Op}
    (may : OnDirectory d op) : DirOk d extra op := by
  by_cases target : op.target = d
  · cases op with
    | create parent name =>
        subst target
        exact wp_create (may rfl).2
    | mkdir parent name =>
        subst target
        exact wp_mkdir (may rfl).2
    | symlink parent name link =>
        subst target
        exact wp_symlink (may rfl).2
    | unlink parent name =>
        subst target
        exact wp_unlink
    | rmdir parent name =>
        subst target
        exact wp_rmdir
    | lookup parent name =>
        subst target
        exact wp_lookup
    | readdir dir =>
        subst target
        exact wp_readdir
    -- the operations that take a directory for a file are not among these
    | read ino size off => exact absurd target may
    | write ino off data => exact absurd target may
    | setattr ino size => exact absurd target may
    | readlink ino => exact absurd target may
    | getfile ino =>
        subst target
        exact wp_attributes rfl (fun _ _ => rfl) rfl
    | getdir ino =>
        subst target
        exact wp_attributes rfl (fun _ _ => rfl) rfl
    | isfile ino =>
        subst target
        exact wp_attributes (f := fun attr => .truth (attr.type = tFile)) rfl (fun _ _ => rfl)
          (Prog.bind_assoc _ _ _)
    | isdir ino =>
        subst target
        exact wp_attributes (f := fun attr => .truth (attr.type = tDir)) rfl (fun _ _ => rfl)
          (Prog.bind_assoc _ _ _)
    | issymlink ino =>
        subst target
        exact wp_attributes (f := fun attr => .truth (attr.type = tSlink)) rfl (fun _ _ => rfl)
          (Prog.bind_assoc _ _ _)
    | mount => exact absurd target.symm may
  · have begins : (dirSpec d).begins op = DirOwn.elsewhere := if_neg target
    rw [DirOk, begins]
    refine Wp.avoids dirContract_drops dirContract_removes
      (fun req reply => ?_) (avoids_prog target fun res => Or.inl ⟨target, rfl⟩)
    cases req <;> cases reply <;> rfl

/-- What an operation on `d` returned, it found in a step on the map. -/
theorem dirStep_of_returned [DecidableEq C] [DecidableEq T] {d : ℕ} {map : Directory}
    {history : List (Event C T Op Res)} {a : SpecState C T (dirSpec d)}
    (explained : Explained (dirSpec d) d map history a) {c : C} {t : T} {op : Op} {res : Res}
    (target : op.target = d) (returned : .returned c t op res ∈ history) :
    ∃ new x y, DirStep op new x res y := by
  let found (own : DirOwn) : Prop :=
    ∀ op res, own = .applied op res → ∃ new x y, DirStep op new x res y
  have begins : ∀ op, found ((dirSpec d).begins op) := by
    intro op op' res here
    simp only [dirSpec] at here
    split at here <;> cases here
  have hear : ∀ (own : DirOwn) req reply, found own → found ((dirSpec d).hear own req reply) := by
    intro own req reply old op res here
    refine old op res ?_
    revert here
    cases own <;> cases req <;> cases reply <;> first | exact id | exact nofun
  have commit : ∀ x (own : DirOwn) y own', found own → (dirSpec d).commit x own y own' →
      found own' := by
    rintro x own y own' - ⟨op, new, res, -, rfl, step⟩ op' res' here
    cases here
    exact ⟨new, x, y, step⟩
  have enter : ∀ (own own' : DirOwn), found own → (dirSpec d).enter own own' → found own' := by
    rintro own own' - ⟨op, -, rfl⟩ op' res' here
    cases here
  obtain ⟨own, step, ⟨other, -⟩ | rfl⟩ :=
    (explained.returned_of (P := found) begins enter hear commit).2 c t op res returned
  · exact absurd target other
  · exact step op res rfl

variable [LinearOrder C] [DecidableEq T]

/-- **Directory operations are atomic.** The clients work on directory `d`, which the server
stores faithfully and which holds the entries of `init` at first, each name once.  Then the
history of their operations is one of the map from names to inums: each operation acts on it in a
single step after it acquired the lock and before it returned, with the result it returned.  No
name is listed twice.

The lock puts the sections in an order, so they can be looked at one by one; `dirContract` is what
each of them is shown to do.  Longer names are the subject of `names_survive_iff`. -/
theorem directory_operations_atomic {d : ℕ} {init : List UInt8}
    {serve : σ → Request → Reply → σ → Prop} {dataOf : σ → List UInt8} {start : σ → Prop}
    {s : State C T Op Res σ}
    (faithful : ∀ x req reply y, serve x req reply y →
      Serves d (· = tDir) (dataOf x) req reply (dataOf y))
    (begins : ∀ server, start server → dataOf server = init) (directory : IsDirectory init)
    (reach : Reach (directories d serve) start s) :
    (∃ a, Explained (dirSpec d) d (directoryOf init) s.history a) ∧
      ∀ c t list, .returned c t (.readdir d) (.entries list) ∈ s.history →
        (list.map Dirent.name).Nodup := by
  have sectioned : Sectioned (dirContract d fun _ _ _ => True) (dirSpec d) dataOf
      (directories d serve : Machine C T Op Res σ) :=
    ⟨fun _ _ may => dirOk_of_onDirectory may, faithful,
      fun _ _ _ _ _ may => ⟨may rfl, trivial⟩, fun _ _ _ may => may⟩
  obtain ⟨a, k, inv⟩ := reach_sections sectioned begins directory reach
  refine ⟨⟨a, inv.explained⟩, fun c t list returned => ?_⟩
  obtain ⟨new, x, y, ⟨list', eq, lists⟩, -⟩ :=
    dirStep_of_returned inv.explained rfl returned
  cases eq
  exact lists.nodup

/-! ### A run -/

/-- Clients that share the root directory, run by a schedule. -/
def rootDriver : Driver ℕ Unit Op Res FileMap where
  prog := Op.prog
  handle := handleFilesAt 1 tDir
  mayStore s c _ _ eid entry := eid ≠ 1 || entry.elim (s.cache c 1).isNone fun file =>
    file.buf.length < 2 ^ 32
  mayCall _ req _ := req ≠ .remove 1

/-- Client 0 creates a file, and then client 1 looks it up. -/
def createThenLookup : List (Move ℕ Unit Op) :=
  turn 1 0 () (.create 1 [97]) 2 23 ++ turn 1 1 () (.lookup 1 [97]) 13 10

/-- It stores only what the clients may store. -/
theorem storable_of_mayStore {s : State ℕ Unit Op Res FileMap} {c : ℕ} {t : Unit} {op : Op}
    {entry : Entry} (may : rootDriver.mayStore s c t op 1 entry = true) :
    Storable (s.cache c 1) entry := by
  match entry, may with
  | none, may => exact ⟨fun _ => by simpa [rootDriver] using may, by simp⟩
  | some file, may =>
      refine ⟨by simp, ?_⟩
      rintro _ ⟨⟩
      simpa [rootDriver] using may

/-- Client 1 finds the file that client 0 created. -/
theorem directory_operations_atomic_shared : ∃ s : State ℕ Unit Op Res FileMap,
    Reach (directories 1 (fileServerAt 1 tDir)) (· = initialFiles) s ∧
      results s.history = [(0, .made .OK 2), (1, .found (some 2))] ∧
      ∃ a, Explained (dirSpec 1) 1 (directoryOf []) s.history a := by
  have drives : rootDriver.Drives
      (directories 1 (fileServerAt 1 tDir) : Machine ℕ Unit Op Res FileMap) := by
    refine ⟨rfl, fun _ _ _ _ => handleFilesAt_serves, fun s c _ _ eid entry may => ?_,
      fun _ req _ may => of_decide_eq_true (p := req ≠ .remove 1) may⟩
    rintro rfl
    exact storable_of_mayStore may
  have may : ∀ c t op, .invoke c t op ∈ createThenLookup → OnDirectory 1 op := by
    intro c t op mem
    simp only [createThenLookup, List.mem_append, invoke_mem_turn] at mem
    rcases mem with ⟨-, -, rfl⟩ | ⟨-, -, rfl⟩ <;> exact fun _ => ⟨by decide, by decide⟩
  obtain ⟨s, reach, shows⟩ := Driver.exists_reach drives (· = initialFiles) may rfl
    (P := fun s => results s.history = [(0, .made .OK 2), (1, .found (some 2))])
    (by decide +kernel)
  refine ⟨s, reach, by simpa using shows, (directory_operations_atomic
    (fun x req reply y serves => fileServerAt_serves serves) ?_ .nil reach).1⟩
  rintro server rfl
  rfl

end Yfs.Client
