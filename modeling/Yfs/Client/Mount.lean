import Yfs.Client.Atomicity

/-!
# Mounting another client

The constructor of `yfs_client` writes the empty string to the root directory.  That is
harmless when the root is empty at that moment, and loses its entries otherwise.

The condition is on the store that a mount makes and not on its call: another client may fill
the root between the two.  A mount that meets it puts the string that is there already, so on
the map of names of `Client.Directories` it is an operation that does nothing, and that nobody's
entries are lost is a fact about histories of the map.

* `Explained.kept` — entries stay until they are unlinked, in every history of the map.
* `mount_harmless_on_empty_root` — while every mount finds the root empty, a mount does
  nothing to the map.
* `mount_loses_entries` — a run in which a mount loses an entry.
-/

namespace Yfs.Client

open Storage Storage.ExtentServer Lock

variable {C T σ : Type}

/-- Clients that mount and work on the root directory, and on other inums.  When a client
that mounts stores its entry of the root, `cond` holds of the root's string. -/
def mounting (serve : σ → Request → Reply → σ → Prop) (dataOf : σ → List UInt8)
    (cond : List UInt8 → Prop) : Machine C T Op Res σ where
  prog := Op.prog
  serve := serve
  mayInvoke _ op := op = .mount ∨ OnDirectory 1 op
  mayStore s c _ op eid entry := eid = 1 → Storable (s.cache c 1) entry ∧
    (op = .mount → cond (current (s.cache c 1) (dataOf s.server)))
  mayCall _ req _ := req ≠ .remove 1

/-- A result that shows the entry `name` of directory `d`. -/
def Shows (d : ℕ) (name : List UInt8) (ino : ℕ) : Op → Res → Prop
  | .create parent other, .made _ i | .mkdir parent other, .made _ i
  | .symlink parent other _, .made _ i => parent = d ∧ other = name ∧ i = ino
  | .lookup parent other, .found i => parent = d ∧ other = name ∧ i = some ino
  | .readdir dir, .entries list => dir = d ∧ ⟨name, ino⟩ ∈ list
  | _, _ => False

/-- A result of `lookup` or `readdir` that does not miss the entry. -/
def Finds (d : ℕ) (name : List UInt8) (ino : ℕ) (op : Op) (res : Res) : Prop :=
  (op = .lookup d name → res = .found (some ino)) ∧
    (op = .readdir d → ∀ list, res = .entries list → ⟨name, ino⟩ ∈ list)

/-- The directory has the entry at first, or some operation showed it. -/
def Known (d : ℕ) (map : Directory) (name : List UInt8) (ino : ℕ)
    (history : List (Event C T Op Res)) : Prop :=
  map name = some ino ∨
    ∃ c t op res, .returned c t op res ∈ history ∧ Shows d name ino op res

/-- **Entries stay.**  An entry that is known, and whose name is never unlinked, is found by
every `lookup` and `readdir` that is invoked later, at any client. -/
def EntriesKept (d : ℕ) (map : Directory) (history : List (Event C T Op Res)) : Prop :=
  ∀ name ino before after c t op, history = before ++ .invoked c t op :: after →
    Known d map name ino before →
    (∀ b u, .invoked b u (.unlink d name) ∉ history) →
    (∀ b u, .invoked b u (.rmdir d name) ∉ history) →
    ∀ op' res, .returned c t op' res ∈ after → Finds d name ino op' res

/-! ## A mount on an empty root -/

/-- A mount that finds the root empty leaves the map as it is. -/
theorem wp_mount : DirOk 1 (fun op entry data => op = .mount → current entry data = []) .mount := by
  simp only [DirOk, Op.prog, Prog.result, YfsClient.mount, Prog.unlock, Prog.bind_eq,
    Prog.lock_bind, Prog.acquire_bind, Prog.release_bind, Prog.ret_bind, Prog.bind_assoc]
  refine wp_begin rfl fun entry data content fits =>
    Wp.put fun bytes atime ctime mtime guard => ?_
  have empty : current entry data = [] := guard.2 rfl
  have invalid : ∀ file, entry = some file → file.attrValid = false → data = content :=
    fun file here attr => fits.clean file here (Or.inr attr)
  have content_nil : content = [] := by
    cases entry with
    | none => rw [← fits.absent rfl, ← empty]; rfl
    | some file =>
        rw [← empty]
        simp only [current, Option.elim]
        split
        next valid => exact (fits.buf file rfl valid).symm
        next notValid =>
            refine (invalid file rfl ?_).symm
            cases attr : file.attrValid with
            | false => rfl
            | true => exact absurd (fits.attr file rfl attr).1 notValid
  subst content_nil
  refine wp_done ⟨.nil, by simp, ?_, ?_, ?_, ?_⟩ rfl
  · rintro file ⟨⟩ -
    rfl
  · rintro file ⟨⟩ -
    rfl
  · rintro file ⟨⟩ valid
    cases entry with
    | none => cases valid
    | some file => exact ⟨rfl, (fits.attr file rfl valid).2⟩
  · rintro file ⟨⟩ (clean | attr)
    · cases clean
    · cases entry with
      | none => exact fits.absent rfl
      | some file => exact invalid file rfl attr

/-! ## Entries that stay -/

section Kept

variable {d : ℕ} {name : List UInt8} {ino : ℕ} {map : Directory}

/-- One step on the map keeps the binding. -/
theorem DirStep.keeps {op : Op} {new : Option ℕ} {map map' : Directory} {res : Res}
    (step : DirStep op new map res map') (bound : map name = some ino) (target : op.target = d)
    (notUnlink : op ≠ .unlink d name) (notRmdir : op ≠ .rmdir d name) :
    map' name = some ino ∧ Finds d name ino op res := by
  have update : ∀ {other value}, other ≠ name →
      Function.update map other value name = some ino := by
    intro other value ne
    rw [Function.update_of_ne (Ne.symm ne)]
    exact bound
  -- a name that is bound is not bound anew
  have added : ∀ {other},
      ((∃ i, map other = some i ∧ res = .made .EXIST i ∧ map' = map) ∨
        ∃ i, map other = none ∧ new = some i ∧ res = .made .OK i ∧
          map' = Function.update map other (some i)) → map' name = some ino := by
    rintro other (⟨i, -, -, rfl⟩ | ⟨i, unbound, -, -, rfl⟩)
    · exact bound
    · refine update ?_
      rintro rfl
      rw [bound] at unbound
      cases unbound
  -- and the operation removes another one
  have removed : ∀ {other}, other ≠ name →
      ((map other = none ∧ res = .status .NOENT ∧ map' = map) ∨
        (map other ≠ none ∧ res = .status .OK ∧ map' = Function.update map other none)) →
      map' name = some ino := by
    rintro other ne (⟨-, -, rfl⟩ | ⟨-, -, rfl⟩)
    · exact bound
    · exact update ne
  cases op with
  | create parent other => exact ⟨added step, nofun, nofun⟩
  | mkdir parent other => exact ⟨added step, nofun, nofun⟩
  | symlink parent other link => exact ⟨added step, nofun, nofun⟩
  | unlink parent other =>
      refine ⟨removed ?_ step, nofun, nofun⟩
      rintro rfl
      exact notUnlink (by rw [← target]; rfl)
  | rmdir parent other =>
      refine ⟨removed ?_ step, nofun, nofun⟩
      rintro rfl
      exact notRmdir (by rw [← target]; rfl)
  | lookup parent other =>
      obtain ⟨rfl, rfl⟩ := step
      refine ⟨bound, ?_, nofun⟩
      rintro ⟨⟩
      rw [bound]
  | readdir dir =>
      obtain ⟨⟨list, rfl, lists⟩, rfl⟩ := step
      refine ⟨bound, nofun, ?_⟩
      rintro - _ ⟨⟩
      exact (lists.mem_iff name ino).mpr bound
  | _ =>
      obtain rfl : map' = map := step
      exact ⟨bound, nofun, nofun⟩

/-- An entry that a step shows is bound after it. -/
theorem DirStep.bound_of_shows {op : Op} {new : Option ℕ} {map map' : Directory} {res : Res}
    (step : DirStep op new map res map') (shows : Shows d name ino op res) :
    map' name = some ino := by
  have added : ∀ {other : List UInt8},
      ((∃ i, map other = some i ∧ res = .made .EXIST i ∧ map' = map) ∨
        ∃ i, map other = none ∧ new = some i ∧ res = .made .OK i ∧
          map' = Function.update map other (some i)) →
      (∀ status i, res = .made status i → other = name ∧ i = ino) → map' name = some ino := by
    rintro other (⟨i, bound, rfl, rfl⟩ | ⟨i, -, -, rfl, rfl⟩) made
    · obtain ⟨rfl, rfl⟩ := made _ _ rfl
      exact bound
    · obtain ⟨rfl, rfl⟩ := made _ _ rfl
      exact Function.update_self ..
  cases op with
  | create parent other =>
      refine added step ?_
      rintro status i rfl
      exact shows.2
  | mkdir parent other =>
      refine added step ?_
      rintro status i rfl
      exact shows.2
  | symlink parent other link =>
      refine added step ?_
      rintro status i rfl
      exact shows.2
  | lookup parent other =>
      obtain ⟨rfl, rfl⟩ := step
      obtain ⟨-, rfl, bound⟩ := shows
      exact bound
  | readdir dir =>
      obtain ⟨⟨list, rfl, lists⟩, rfl⟩ := step
      exact (lists.mem_iff name ino).mp shows.2
  | _ => exact shows.elim

/-- An operation in progress that does not unlink the name, and whose result shows no more
than is bound. -/
def Harmless (d : ℕ) (name : List UInt8) (ino : ℕ) (map : Directory) : DirOwn → Prop
  | .invoked op | .entered op _ => op.target = d ∧ op ≠ .unlink d name ∧ op ≠ .rmdir d name
  | .applied op res => Shows d name ino op res → map name = some ino
  | .elsewhere => True

/-- An operation in progress that does not miss the entry. -/
def Late (d : ℕ) (name : List UInt8) (ino : ℕ) : DirOwn → Prop
  | .applied op res => Finds d name ino op res
  | _ => True

/-- What a history and the map after it say about an entry whose name is not unlinked.

It is an invariant of the whole run, for a fixed name and inum.  `late` is about the operations
that were invoked when the entry was known; the others may still have seen the map without it. -/
structure Kept (d : ℕ) (map : Directory) (name : List UInt8) (ino : ℕ)
    (history : List (Event C T Op Res)) (a : SpecState C T (dirSpec d)) : Prop where
  bound : Known d map name ino history → a.state name = some ino
  harmless : ∀ c t own, a.own c t = some own → Harmless d name ino a.state own
  late : ∀ before after c t op, history = before ++ .invoked c t op :: after →
    Known d map name ino before → (∀ own, a.own c t = some own → Late d name ino own) ∧
      ∀ op' res, .returned c t op' res ∈ after → Finds d name ino op' res

theorem Known.mono {history history' : List (Event C T Op Res)}
    (known : Known d map name ino history) (sub : ∀ event ∈ history, event ∈ history') :
    Known d map name ino history' := by
  rcases known with bound | ⟨c, t, op, res, mem, shows⟩
  · exact Or.inl bound
  · exact Or.inr ⟨c, t, op, res, sub _ mem, shows⟩

variable [DecidableEq C] [DecidableEq T] {history : List (Event C T Op Res)}
  {a : SpecState C T (dirSpec d)} {c : C} {t : T}

/-- An operation in progress is the new one, or was there before. -/
theorem own_of_set {own : Option (dirSpec d).Own} {b : C} {u : T} {o : DirOwn}
    (here : (a.set c t own).own b u = some o) :
    b = c ∧ u = t ∧ own = some o ∨ a.own b u = some o := by
  by_cases same : b = c ∧ u = t
  · obtain ⟨rfl, rfl⟩ := same
    rw [SpecState.set_own_self] at here
    exact Or.inl ⟨rfl, rfl, here⟩
  · rw [SpecState.set_own_of_ne same] at here
    exact Or.inr here

/-- A thread goes on with an event of its own. -/
theorem Kept.snoc (kept : Kept d map name ino history a) {event : Event C T Op Res}
    {own : Option (dirSpec d).Own} (harmless : ∀ o, own = some o → Harmless d name ino a.state o)
    (late : (∀ o, a.own c t = some o → Late d name ino o) → ∀ o, own = some o → Late d name ino o)
    (invoked : ∀ b u op, event = .invoked b u op →
      b = c ∧ u = t ∧ ∀ o, own = some o → Late d name ino o)
    (returned : ∀ b u op res, event = .returned b u op res →
      (Shows d name ino op res → a.state name = some ino) ∧ b = c ∧ u = t ∧
        ((∀ o, a.own c t = some o → Late d name ino o) → Finds d name ino op res)) :
    Kept d map name ino (history ++ [event]) (a.set c t own) := by
  refine ⟨fun known => ?_, fun b u o here => ?_, fun before after b u op eq known => ?_⟩
  · rcases known with bound | ⟨b, u, op, res, mem, shows⟩
    · exact kept.bound (Or.inl bound)
    · rcases List.mem_append.mp mem with mem | mem
      · exact kept.bound (Or.inr ⟨b, u, op, res, mem, shows⟩)
      · exact (returned b u op res (List.mem_singleton.mp mem).symm).1 shows
  · rcases own_of_set here with ⟨rfl, rfl, new⟩ | here
    · exact harmless o new
    · exact kept.harmless b u o here
  · rcases split_of_snoc eq with ⟨rfl, rfl, rfl⟩ | ⟨rest, rfl, old⟩
    · obtain ⟨rfl, rfl, new⟩ := invoked b u op rfl
      refine ⟨fun o here => ?_, by simp⟩
      rw [SpecState.set_own_self] at here
      exact new o here
    · obtain ⟨owns, finds⟩ := kept.late before rest b u op old known
      refine ⟨fun o here => ?_, fun op' res mem => ?_⟩
      · rcases own_of_set here with ⟨rfl, rfl, new⟩ | here
        · exact late owns o new
        · exact owns o here
      · rcases List.mem_append.mp mem with mem | mem
        · exact finds op' res mem
        · obtain ⟨-, rfl, rfl, new⟩ := returned b u op' res (List.mem_singleton.mp mem).symm
          exact new owns

/-- An operation acts on the map. -/
theorem Kept.commit (kept : Kept d map name ino history a) {op : Op} {new : Option ℕ} {res : Res}
    {map' : Directory} (runs : a.own c t = some (.entered op new))
    (step : DirStep op new a.state res map') :
    Kept d map name ino history ({ a with state := map' }.set c t (some (.applied op res))) := by
  obtain ⟨target, notUnlink, notRmdir⟩ := kept.harmless c t _ runs
  have keeps (bound : a.state name = some ino) :=
    step.keeps bound target notUnlink notRmdir
  refine ⟨fun known => (keeps (kept.bound known)).1, fun b u o here => ?_,
    fun before after b u op' eq known =>
      ⟨fun o here => ?_, (kept.late before after b u op' eq known).2⟩⟩
  · rcases own_of_set here with ⟨rfl, rfl, ⟨⟩⟩ | here
    · exact step.bound_of_shows
    · have old := kept.harmless b u o here
      cases o with
      | applied op' res' => exact fun shows => (keeps (old shows)).1
      | _ => exact old
  · rcases own_of_set here with ⟨rfl, rfl, ⟨⟩⟩ | here
    · refine (keeps (kept.bound (known.mono fun event mem => ?_))).2
      rw [eq]
      exact List.mem_append_left _ mem
    · exact (kept.late before after b u op' eq known).1 o here

theorem Shows.target {op : Op} {res : Res} (shows : Shows d name ino op res) : op.target = d := by
  cases op <;> cases res <;> first | exact shows.1 | exact shows.elim

theorem late_begins (op : Op) : Late d name ino ((dirSpec d).begins op) := by
  simp only [dirSpec]
  split <;> trivial

theorem harmless_hear {own : DirOwn} {req : Request} {reply : Reply}
    (old : Harmless d name ino map own) :
    Harmless d name ino map ((dirSpec d).hear own req reply) := by
  cases own <;> cases req <;> cases reply <;> exact old

theorem late_hear {own : DirOwn} {req : Request} {reply : Reply} (old : Late d name ino own) :
    Late d name ino ((dirSpec d).hear own req reply) := by
  cases own <;> cases req <;> cases reply <;> exact old

/-- **A binding stays until it is unlinked**, in every history of the map. -/
theorem Explained.kept (explained : Explained (dirSpec d) d map history a)
    (notUnlink : ∀ c t, .invoked c t (.unlink d name) ∉ history)
    (notRmdir : ∀ c t, .invoked c t (.rmdir d name) ∉ history) :
    Kept d map name ino history a := by
  -- on the run of the specification; only a commit touches the map
  induction explained with
  | nil =>
      refine ⟨?_, by rintro c t own ⟨⟩, by simp⟩
      rintro (bound | ⟨c, t, op, res, mem, -⟩)
      · exact bound
      · cases mem
  | @invoked history a c t op _ idle ih =>
      have kept := ih (fun c t mem => notUnlink c t (List.mem_append_left _ mem))
        (fun c t mem => notRmdir c t (List.mem_append_left _ mem))
      refine kept.snoc ?_ (fun _ => ?_) ?_ (by rintro _ _ _ _ ⟨⟩)
      · rintro o ⟨⟩
        by_cases target : op.target = d
        · simp only [dirSpec, if_pos target]
          refine ⟨target, ?_, ?_⟩
          · rintro rfl
            exact notUnlink c t (List.mem_append_right _ (List.mem_singleton.mpr rfl))
          · rintro rfl
            exact notRmdir c t (List.mem_append_right _ (List.mem_singleton.mpr rfl))
        · simp only [dirSpec, if_neg target]
          trivial
      · rintro o ⟨⟩
        exact late_begins op
      · rintro b u op' ⟨⟩
        refine ⟨rfl, rfl, ?_⟩
        rintro o ⟨⟩
        exact late_begins op
  | @acquired history a c t own own' _ runs enters ih =>
      have kept := ih (fun c t mem => notUnlink c t (List.mem_append_left _ mem))
        (fun c t mem => notRmdir c t (List.mem_append_left _ mem))
      obtain ⟨op, rfl, rfl⟩ := enters
      refine kept.snoc ?_ (fun _ => ?_) (by rintro _ _ _ ⟨⟩) (by rintro _ _ _ _ ⟨⟩)
      · rintro o ⟨⟩
        exact kept.harmless c t (.invoked op) runs
      · rintro o ⟨⟩
        trivial
  | @called history a c t own req reply _ runs ih =>
      have kept := ih (fun c t mem => notUnlink c t (List.mem_append_left _ mem))
        (fun c t mem => notRmdir c t (List.mem_append_left _ mem))
      refine kept.snoc ?_ (fun late => ?_) (by rintro _ _ _ ⟨⟩) (by rintro _ _ _ _ ⟨⟩)
      · rintro o ⟨⟩
        exact harmless_hear (kept.harmless c t _ runs)
      · rintro o ⟨⟩
        exact late_hear (late _ runs)
  | commit _ runs commits ih =>
      obtain ⟨op, new, res, rfl, rfl, step⟩ := commits
      exact (ih notUnlink notRmdir).commit runs step
  | @returned history a c t op own res _ runs finish ih =>
      have kept := ih (fun c t mem => notUnlink c t (List.mem_append_left _ mem))
        (fun c t mem => notRmdir c t (List.mem_append_left _ mem))
      refine kept.snoc (by rintro _ ⟨⟩) (by rintro _ _ ⟨⟩) (by rintro _ _ _ ⟨⟩) ?_
      rintro b u op' res' ⟨⟩
      rcases finish with ⟨other, rfl⟩ | rfl
      · exact ⟨fun shows => absurd shows.target other, rfl, rfl,
          fun _ => ⟨by rintro rfl; exact absurd rfl other, by rintro rfl; exact absurd rfl other⟩⟩
      · exact ⟨kept.harmless c t _ runs, rfl, rfl, fun late => late _ runs⟩
  | @silent history a event _ silent ih =>
      have kept := ih (fun c t mem => notUnlink c t (List.mem_append_left _ mem))
        (fun c t mem => notRmdir c t (List.mem_append_left _ mem))
      have quiet (c : C) (t : T) (notInvoked : ∀ b u op, event ≠ .invoked b u op)
          (notReturned : ∀ b u op res, event ≠ .returned b u op res) :
          Kept d map name ino (history ++ [event]) a := by
        rw [← SpecState.set_same (a := a) (c := c) (t := t)]
        exact kept.snoc (fun o here => kept.harmless c t o here) id
          (fun b u op eq => absurd eq (notInvoked b u op))
          (fun b u op res eq => absurd eq (notReturned b u op res))
      cases event with
      | invoked | called | returned => exact silent.elim
      | acquired c t | noted c t | released c t =>
          exact quiet c t (by rintro _ _ _ ⟨⟩) (by rintro _ _ _ _ ⟨⟩)

end Kept

variable [LinearOrder C] [DecidableEq T]

/-- **Mounting is harmless while the root is empty.** The clients mount and work on the root,
which the server stores faithfully.  Whenever a mount stores the empty string, the root is empty.
Then the history is one of the map from names to inums, which a mount leaves as it is, and every
entry that is known and not unlinked is found later.

The condition is on the content that the lock protects at the time of the store, which may be in
the cache of the client that mounts or at the server. -/
theorem mount_harmless_on_empty_root {init : List UInt8}
    {serve : σ → Request → Reply → σ → Prop} {dataOf : σ → List UInt8} {start : σ → Prop}
    {s : State C T Op Res σ}
    (faithful : ∀ x req reply y, serve x req reply y →
      Serves 1 (· = tDir) (dataOf x) req reply (dataOf y))
    (begins : ∀ server, start server → dataOf server = init) (directory : IsDirectory init)
    (reach : Reach (mounting serve dataOf (· = [])) start s) :
    (∃ a, Explained (dirSpec 1) 1 (directoryOf init) s.history a) ∧
      EntriesKept 1 (directoryOf init) s.history := by
  have sectioned : Sectioned
      (dirContract 1 fun op entry data => op = .mount → current entry data = []) (dirSpec 1) dataOf
      (mounting serve dataOf (· = []) : Machine C T Op Res σ) := by
    refine ⟨?_, faithful, fun _ _ _ _ _ may => may rfl, fun _ _ _ may => may⟩
    rintro c op (rfl | may)
    · exact wp_mount
    · exact dirOk_of_onDirectory may
  obtain ⟨a, k, inv⟩ := reach_sections sectioned begins directory reach
  refine ⟨⟨a, inv.explained⟩, ?_⟩
  intro name ino before after c t op eq known notUnlink notRmdir
  exact ((inv.explained.kept notUnlink notRmdir).late before after c t op eq known).2

/-! ### Two runs -/

/-- Clients that mount, run by a schedule that keeps to `cond`. -/
def mountDriver (cond : List UInt8 → Bool) : Driver ℕ Unit Op Res FileMap :=
  { rootDriver with
    mayStore := fun s c t op eid entry => rootDriver.mayStore s c t op eid entry &&
      (op ≠ .mount || cond (current (s.cache c 1) (dataAt 1 s.server))) }

theorem mountDriver_drives (cond : List UInt8 → Bool) :
    (mountDriver cond).Drives (mounting (fileServerAt 1 tDir) (dataAt 1) (cond · = true)) := by
  refine ⟨rfl, fun _ _ _ _ => handleFilesAt_serves, fun s c t op eid entry may => ?_,
    fun _ req _ may => of_decide_eq_true (p := req ≠ .remove 1) may⟩
  rintro rfl
  obtain ⟨store, mount⟩ := Bool.and_eq_true_iff.mp may
  refine ⟨storable_of_mayStore store, ?_⟩
  rintro rfl
  simpa using mount

/-- Two clients mount, and then client 1 finds the file that client 0 creates. -/
theorem mount_harmless_at_start : ∃ s : State ℕ Unit Op Res FileMap,
    Reach (mounting (fileServerAt 1 tDir) (dataAt 1) (· = [])) (· = initialFiles) s ∧
      results s.history =
        [(0, .mounted), (1, .mounted), (0, .made .OK 2), (1, .found (some 2))] ∧
      EntriesKept 1 (directoryOf []) s.history := by
  let acts : List (Move ℕ Unit Op) := turn 1 0 () .mount 2 9 ++ turn 1 1 () .mount 13 9 ++
    turn 1 0 () (.create 1 [97]) 13 23 ++ turn 1 1 () (.lookup 1 [97]) 13 10
  have may : ∀ c t op, .invoke c t op ∈ acts → op = .mount ∨ OnDirectory 1 op := by
    intro c t op mem
    simp only [acts, List.mem_append, invoke_mem_turn] at mem
    rcases mem with ((⟨-, -, rfl⟩ | ⟨-, -, rfl⟩) | ⟨-, -, rfl⟩) | ⟨-, -, rfl⟩
    · exact Or.inl rfl
    · exact Or.inl rfl
    · exact Or.inr fun _ => ⟨by decide, by decide⟩
    · exact Or.inr fun _ => ⟨by decide, by decide⟩
  have drives := mountDriver_drives fun root => root = []
  simp only [decide_eq_true_eq] at drives
  obtain ⟨s, reach, shows⟩ := Driver.exists_reach drives (· = initialFiles) may rfl
    (P := fun s => results s.history =
      [(0, .mounted), (1, .mounted), (0, .made .OK 2), (1, .found (some 2))])
    (by decide +kernel)
  refine ⟨s, reach, by simpa using shows, (mount_harmless_on_empty_root
    (fun x req reply y serves => fileServerAt_serves serves) ?_ .nil reach).2⟩
  rintro server rfl
  rfl

/-- The event does not begin to remove an entry. -/
def leavesNames : Event ℕ Unit Op Res → Bool
  | .invoked _ _ (.unlink ..) | .invoked _ _ (.rmdir ..) => false
  | _ => true

/-- **A mount loses an entry.**  Client 0 mounts and creates a file, client 1 mounts, and client
0 does not find the file again. -/
theorem mount_loses_entries : ∃ s : State ℕ Unit Op Res FileMap,
    Reach (mounting (fileServerAt 1 tDir) (dataAt 1) fun _ => True) (· = initialFiles) s ∧
      ¬ EntriesKept 1 (directoryOf []) s.history := by
  let acts : List (Move ℕ Unit Op) := turn 1 0 () .mount 2 9 ++
    turn 1 0 () (.create 1 [97]) 0 23 ++ turn 1 1 () .mount 13 9 ++
    turn 1 0 () (.lookup 1 [97]) 13 10
  have may : ∀ c t op, .invoke c t op ∈ acts → op = .mount ∨ OnDirectory 1 op := by
    intro c t op mem
    simp only [acts, List.mem_append, invoke_mem_turn] at mem
    rcases mem with ((⟨-, -, rfl⟩ | ⟨-, -, rfl⟩) | ⟨-, -, rfl⟩) | ⟨-, -, rfl⟩
    · exact Or.inl rfl
    · exact Or.inr fun _ => ⟨by decide, by decide⟩
    · exact Or.inl rfl
    · exact Or.inr fun _ => ⟨by decide, by decide⟩
  have drives := mountDriver_drives fun _ => true
  simp only at drives
  obtain ⟨s, reach, shows⟩ := Driver.exists_reach drives (· = initialFiles) may rfl
    (P := fun s => s.history[19]? = some (.invoked 0 () (.lookup 1 [97])) ∧
      .returned 0 () (.create 1 [97]) (.made .OK 2) ∈ s.history.take 19 ∧
      .returned 0 () (.lookup 1 [97]) (.found none) ∈ s.history.drop 20 ∧
      s.history.all leavesNames)
    (by decide +kernel)
  obtain ⟨lookup, created, missed, noUnlink⟩ := of_decide_eq_true shows
  refine ⟨s, reach, fun kept => ?_⟩
  have found := (kept [97] 2 _ _ 0 () _ (eq_take_append_drop lookup)
    (Or.inr ⟨0, (), _, _, created, rfl, rfl, rfl⟩)
    (fun b u mem => Bool.false_ne_true (List.all_eq_true.mp noUnlink _ mem))
    (fun b u mem => Bool.false_ne_true (List.all_eq_true.mp noUnlink _ mem)) _ _ missed).1 rfl
  cases found

end Yfs.Client
