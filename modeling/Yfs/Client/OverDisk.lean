import Yfs.Client.Daemon
import Yfs.Client.Visibility

/-!
# The clients over the disk

The results about clients are about an extent server by its specification, the map of files.
Here the clients run over the code of the extent server, down to the blocks.  As long as the
requests that reach it are permitted, its disk holds a map of files at every moment, and the
clients do what they do over that map.

The map of files is not changed for this: the disk is put in its place.  What has to be shown is
that one machine runs wherever the other does, with the state of the server read through
`files`; the clients, their caches and the locks are the same on both sides.  Requests that are
not permitted are not answered, which is what the clients see of a server that has stopped.

* `blockServer` — the server, with its disk.
* `Runs.onServer`, `Reach.onServer` — a server may be replaced by one that it refines, under one
  client and under any number of clients.
* `blockServer_refines`, `Stores.serves` — the map of files is refined by the disk.
* `directories_atomic_on_disk`, `files_atomic_on_disk` — the operations of any number of clients
  are atomic over the disk.
* `handlers_implement_file_system_on_disk` — and the daemon implements a file system.
-/

namespace Yfs.Client

open Storage Storage.BlockManager Storage.ExtentServer Transition

variable {C T σ τ α : Type}

/-! ## Refinement -/

/-- The server `serve` refines `serve'`: what it does in states of `Inv`, the other may do in the
states that `f` makes of them. -/
def Refines (serve : σ → Request → Reply → σ → Prop) (serve' : τ → Request → Reply → τ → Prop)
    (f : σ → τ) (Inv : σ → Prop) : Prop :=
  ∀ x req reply y, Inv x → serve x req reply y → serve' (f x) req reply (f y) ∧ Inv y

/-- One client with another server. -/
def Alone.onServer (f : σ → τ) (s : Alone σ) : Alone τ := ⟨s.held, s.cache, f s.server⟩

/-! ### One client -/

section Alone

variable {serve : σ → Request → Reply → σ → Prop} {serve' : τ → Request → Reply → τ → Prop}
  {f : σ → τ} {Inv : σ → Prop}

/-- **A run over a server is one over the server that it refines**, unless it is refused. -/
theorem Runs.onServer (refines : Refines serve serve' f Inv) {prog : Prog α} {s s' : Alone σ}
    {acts : List Act} {out : Ending α} (run : Runs serve prog s acts out s') (inv : Inv s.server) :
    Inv s'.server ∧ ((∃ req, out = .refused req ∧ ∀ reply y, ¬ serve s'.server req reply y) ∨
      (∀ req, out ≠ .refused req) ∧ Runs serve' prog (s.onServer f) acts out (s'.onServer f)) := by
  induction run with
  | ret => exact ⟨inv, Or.inr ⟨by rintro _ ⟨⟩, .ret⟩⟩
  | exit => exact ⟨inv, Or.inr ⟨by rintro _ ⟨⟩, .exit⟩⟩
  | blocked held => exact ⟨inv, Or.inr ⟨by rintro _ ⟨⟩, .blocked held⟩⟩
  | acquire free _ ih => exact (ih inv).imp_right (Or.imp_right (And.imp_right (.acquire free)))
  | release _ ih => exact (ih inv).imp_right (Or.imp_right (And.imp_right .release))
  | refused refuses => exact ⟨inv, Or.inl ⟨_, rfl, refuses⟩⟩
  | call serves _ ih =>
      obtain ⟨serves', inv'⟩ := refines _ _ _ _ inv serves
      exact (ih inv').imp_right (Or.imp_right (And.imp_right (.call serves')))
  | entry _ ih => exact (ih inv).imp_right (Or.imp_right (And.imp_right .entry))
  | time now _ ih => exact (ih inv).imp_right (Or.imp_right (And.imp_right (.time now)))
  | memory bytes _ ih => exact (ih inv).imp_right (Or.imp_right (And.imp_right (.memory bytes)))

end Alone

/-! ### Any number of clients -/

section Machines

variable {Op Res : Type}

/-- Any number of clients with another server. -/
def State.onServer (f : σ → τ) (s : State C T Op Res σ) : State C T Op Res τ where
  locks := s.locks
  cache := s.cache
  server := f s.server
  thread := s.thread
  sync := s.sync
  history := s.history

variable [LinearOrder C] [DecidableEq T] {m : Machine C T Op Res σ} {m' : Machine C T Op Res τ}
  {f : σ → τ} {Inv : σ → Prop}

/-- **The same clients over two servers**: what the first server does in states of `Inv`, the
other may do in the states that `f` makes of them.

By this a run over the disk is a run over the map of its files, step by step, and what holds of
the one holds of the other. -/
structure SameClients (m : Machine C T Op Res σ) (m' : Machine C T Op Res τ) (f : σ → τ)
    (Inv : σ → Prop) : Prop where
  prog : m'.prog = m.prog
  invoke : ∀ c op, m.mayInvoke c op → m'.mayInvoke c op
  store : ∀ s c t op eid entry, m.mayStore s c t op eid entry →
    m'.mayStore (s.onServer f) c t op eid entry
  call : ∀ s req reply y, Inv s.server → m.serve s.server req reply y → m.mayCall s req reply →
    m'.serve (f s.server) req reply (f y) ∧ m'.mayCall (s.onServer f) req reply ∧ Inv y

omit [LinearOrder C] [DecidableEq T] in
theorem recordNote_onServer (s : State C T Op Res σ) (c : C) (t : T)
    (note : Option Note) :
    (s.recordNote c t note).onServer f = (s.onServer f).recordNote c t note := by
  cases note <;> rfl

/-- One step. -/
theorem Step.onServer (same : SameClients m m' f Inv) {s s' : State C T Op Res σ}
    (step : Step m s s')
    (inv : Inv s.server) : Step m' (s.onServer f) (s'.onServer f) ∧ Inv s'.server := by
  cases step with
  | invoke idle may =>
      refine ⟨?_, inv⟩
      rw [← same.prog]
      exact .invoke idle (same.invoke _ _ may)
  | acquire here step mutex => exact ⟨.acquire here step mutex, inv⟩
  | acquired here done => exact ⟨.acquired here done, inv⟩
  | release here step mutex => exact ⟨.release here step mutex, inv⟩
  | released here done => exact ⟨.released here done, inv⟩
  | call here serves may =>
      obtain ⟨serves', may', inv'⟩ := same.call _ _ _ _ inv serves may
      exact ⟨.call here serves' may', inv'⟩
  | entry here may =>
      rw [recordNote_onServer, State.recordNote_server]
      exact ⟨.entry here (same.store _ _ _ _ _ _ may), inv⟩
  | time here => exact ⟨.time here, inv⟩
  | memory here => exact ⟨.memory here, inv⟩
  | returned here => exact ⟨.returned here, inv⟩
  | lock step inside other mutex => exact ⟨.lock step inside other mutex, inv⟩
  | syncCall runs here serves may =>
      obtain ⟨serves', may', inv'⟩ := same.call _ _ _ _ inv serves may
      exact ⟨.syncCall runs here serves' may', inv'⟩
  | syncEntry runs here => exact ⟨.syncEntry runs here, inv⟩
  | synced runs here => exact ⟨.synced runs here, inv⟩

/-- **What clients reach over a server they reach over the server that it refines.** -/
theorem Reach.onServer (same : SameClients m m' f Inv) {start : σ → Prop} (start' : τ → Prop)
    (begins : ∀ x, start x → start' (f x) ∧ Inv x) {s : State C T Op Res σ}
    (reach : Reach m start s) :
    Reach m' start' (s.onServer f) ∧ Inv s.server := by
  induction reach with
  | init h =>
      obtain ⟨server, starts, rfl⟩ := h
      obtain ⟨starts', inv⟩ := begins server starts
      exact ⟨.init ⟨f server, starts', rfl⟩, inv⟩
  | step _ step ih =>
      obtain ⟨step', inv⟩ := step.onServer same ih.2
      exact ⟨.step ih.1 step', inv⟩

end Machines

/-! ## The server with its disk -/

/-- **The extent server by its code**, while the requests are permitted, and whatever its clock
shows. -/
def blockServer (bm : BlockManager) (req : Request) (reply : Reply) (bm' : BlockManager) : Prop :=
  Permitted bm.files req ∧ ∃ now, handle now req bm = .ok (reply, bm')

/-- The disk holds its files. -/
def Sound (bm : BlockManager) : Prop := Holds bm bm.files

/-- **The disk refines the map of files.** -/
theorem blockServer_refines : Refines blockServer fileServer BlockManager.files Sound := by
  rintro bm req reply bm' holds ⟨permitted, now, handled⟩
  obtain ⟨reply', bm'', handled', answers, holds'⟩ := Holds.step holds permitted now
  rw [handled] at handled'
  cases handled'
  refine ⟨⟨answers, holds'.files⟩, ?_⟩
  rwa [Sound, holds'.files]

/-- It refuses only what is not permitted. -/
theorem Sound.permitted_of {bm : BlockManager} (sound : Sound bm) {req : Request}
    (refuses : ∀ reply bm', ¬ blockServer bm req reply bm') : ¬ Permitted bm.files req := by
  intro permitted
  obtain ⟨reply, bm', handled, -⟩ := Holds.step sound permitted fun _ => 0
  exact refuses reply bm' ⟨permitted, _, handled⟩

/-- The disk holds its files, and extent `eid` has type `type`.

A removed file is not there any more, so a server that `Stores` in every state is one that is not
asked to remove it. -/
structure Stores (eid type : ℕ) (bm : BlockManager) : Prop where
  sound : Sound bm
  here : ∃ file, bm.files eid = some file ∧ file.type = type

/-- **An extent that is not removed keeps its type.** -/
theorem Stores.serves {eid type : ℕ} {bm bm' : BlockManager} {req : Request} {reply : Reply}
    (stores : Stores eid type bm) (serves : blockServer bm req reply bm')
    (kept : req ≠ .remove eid) :
    fileServerAt eid type bm.files req reply bm'.files ∧ Stores eid type bm' := by
  obtain ⟨sound, file, here, kind⟩ := stores
  obtain ⟨⟨answers, after⟩, sound'⟩ := blockServer_refines bm req reply bm' sound serves
  have still : ∃ file, bm'.files eid = some file ∧ file.type = type := by
    rw [after]
    cases req with
    | create newType =>
        cases reply with
        | created id =>
            have ne : eid ≠ id := by
              rintro rfl
              rw [answers.2.2] at here
              cases here
            exact ⟨file, by rw [afterRequest, Function.update_of_ne ne, here], kind⟩
        | _ => exact answers.elim
    | put id buf =>
        by_cases same : eid = id
        · subst same
          exact ⟨{ file with data := buf }, by
            rw [afterRequest, putFile, Function.update_self, here, Option.map_some], kind⟩
        · exact ⟨file, by rw [afterRequest, putFile, Function.update_of_ne same, here], kind⟩
    | get id => exact ⟨file, here, kind⟩
    | getattr id => exact ⟨file, here, kind⟩
    | remove id =>
        have ne : eid ≠ id := by
          rintro rfl
          exact kept rfl
        exact ⟨file, by rw [afterRequest, Function.update_of_ne ne, here], kind⟩
  refine ⟨⟨⟨answers, after⟩, ⟨file, here, kind⟩, ?_⟩, sound', still⟩
  obtain ⟨file', here', -⟩ := still
  simp [here']

/-- The disks on which extent `eid` has type `type` and holds `init`, after any requests. -/
def Storing (uninit : Inode) (eid type : ℕ) (init : List UInt8) (bm : BlockManager) : Prop :=
  ∃ m, ExtentServer.Serves uninit (bm, m) ∧ m eid = some ⟨type, init⟩

theorem Storing.stores {uninit : Inode} {eid type : ℕ} {init : List UInt8} {bm : BlockManager}
    (storing : Storing uninit eid type init bm) :
    bm.files eid = some ⟨type, init⟩ ∧ Stores eid type bm := by
  obtain ⟨m, serves, here⟩ := storing
  have holds := serves_holds serves
  have files : bm.files eid = some ⟨type, init⟩ := by
    rw [holds.files]
    exact here
  refine ⟨files, ?_, _, files, rfl⟩
  rw [Sound, holds.files]
  exact holds

/-! ## Any number of clients over the disk -/

section Clients

variable [LinearOrder C] [DecidableEq T]

omit [LinearOrder C] [DecidableEq T] in
/-- The clients of a directory, over the disk and over the map of files. -/
theorem directories_sameClients (d : ℕ) :
    SameClients (directories d blockServer : Machine C T Op Res BlockManager)
      (directories d (fileServerAt d tDir)) BlockManager.files (Stores d tDir) where
  prog := rfl
  invoke _ _ may := may
  store _ _ _ _ _ _ may := may
  call s req reply y stores serves may := by
    obtain ⟨serves', stores'⟩ := stores.serves serves may
    exact ⟨serves', may, stores'⟩

omit [LinearOrder C] [DecidableEq T] in
/-- The clients of a file. -/
theorem files_sameClients (f type : ℕ) :
    SameClients (filesOf f blockServer : Machine C T Op Res BlockManager)
      (filesOf f (fileServerAt f type)) BlockManager.files (Stores f type) where
  prog := rfl
  invoke _ _ may := may
  store _ _ _ _ _ _ may := may
  call s req reply y stores serves may := by
    obtain ⟨serves', stores'⟩ := stores.serves serves may
    exact ⟨serves', may, stores'⟩

/-- **Directory operations are atomic over the disk.**  The clients work on directory `d`, which is
on the disk of the extent server with the entries of `init` and is not removed, and every
request that is sent is permitted.  Then the history of the operations on `d` is one of the
map. -/
theorem directories_atomic_on_disk {uninit : Inode} {d : ℕ} {init : List UInt8}
    (directory : IsDirectory init) {s : State C T Op Res BlockManager}
    (reach : Reach (directories d blockServer) (Storing uninit d tDir init) s) :
    ∃ a, Explained (dirSpec d) d (directoryOf init) s.history a := by
  have begins : ∀ bm, Storing uninit d tDir init bm →
      dataAt d bm.files = init ∧ Stores d tDir bm := by
    intro bm storing
    obtain ⟨files, stores⟩ := storing.stores
    exact ⟨by rw [dataAt, files, Option.elim_some], stores⟩
  obtain ⟨reach', -⟩ :=
    reach.onServer (directories_sameClients d) (fun m => dataAt d m = init) begins
  obtain ⟨a, k, inv⟩ := reach_sections
    (directories_sectioned fun x req reply y serves => fileServerAt_serves serves)
    (fun _ starts => starts) directory reach'
  exact ⟨a, inv.explained⟩

/-- **File operations are atomic over the disk.** The clients run any operations while file `f`,
which is no directory and holds `init` at first, is on the disk of the extent server, and every
request that is sent is permitted.  Then the history of the operations on `f` is one of a byte
string.

The run is taken over to the server that has the map of the files, where the theorem about a
faithful server applies; the histories are the same. -/
theorem files_atomic_on_disk {uninit : Inode} {f type : ℕ} (other : type ≠ tDir)
    {init : List UInt8} {s : State C T Op Res BlockManager}
    (reach : Reach (filesOf f blockServer) (Storing uninit f type init) s) :
    ∃ a, Explained (fileSpec f type) f init s.history a := by
  have begins : ∀ bm, Storing uninit f type init bm →
      dataAt f bm.files = init ∧ Stores f type bm := by
    intro bm storing
    obtain ⟨files, stores⟩ := storing.stores
    exact ⟨by rw [dataAt, files, Option.elim_some], stores⟩
  obtain ⟨reach', -⟩ :=
    reach.onServer (files_sameClients f type) (fun m => dataAt f m = init) begins
  obtain ⟨a, k, inv⟩ := reach_sections
    (filesOf_sectioned other fun x req reply y serves => fileServerAt_serves serves)
    (fun _ starts => starts) trivial reach'
  exact ⟨a, inv.explained⟩

end Clients

/-! ### Runs -/

/-- What is permitted for sure: a new file while inum 2 is free, and a put that needs no indirect
block. -/
def permits (m : FileMap) : Request → Bool
  | .create type => (type = tDir ∨ type = tFile ∨ type = tSlink) && (m 2).isNone
  | .put id buf => (m id).isSome && buf.length ≤ ndirect * blockSize &&
      mapBlocks (putFile m id buf) ≤ dataBlocks
  | .get id | .getattr id | .remove id => (m id).isSome

theorem permitted_of_permits {m : FileMap} {req : Request} (sure : permits m req = true) :
    Permitted m req := by
  have live : ∀ {id}, (m id).isSome = true → m id ≠ none := fun {_} => Option.isSome_iff_ne_none.mp
  cases req with
  | create type =>
      simp only [permits, Bool.and_eq_true, decide_eq_true_eq, Option.isNone_iff_eq_none] at sure
      exact ⟨sure.1, 2, le_rfl, by decide, sure.2⟩
  | put id buf =>
      simp only [permits, Bool.and_eq_true, decide_eq_true_eq] at sure
      obtain ⟨⟨here, short⟩, fits⟩ := sure
      have direct : ndirect * blockSize ≤ maxfile * blockSize := by decide
      exact ⟨live here, by omega, fun _ => short, fun long => by omega, fits⟩
  | get id => exact live sure
  | getattr id => exact live sure
  | remove id => exact live sure

/-- The extent server with its disk, as a function. -/
def handleBlocks (bm : BlockManager) (req : Request) : Option (Reply × BlockManager) :=
  if permits bm.files req then (handle still req bm).toOption else none

theorem handleBlocks_serves {bm bm' : BlockManager} {req : Request} {reply : Reply}
    (handles : handleBlocks bm req = some (reply, bm')) : blockServer bm req reply bm' := by
  rw [handleBlocks] at handles
  by_cases sure : permits bm.files req = true
  · rw [if_pos sure] at handles
    refine ⟨permitted_of_permits sure, still, ?_⟩
    cases handled : handle still req bm with
    | error halt =>
        rw [handled] at handles
        cases handles
    | ok r =>
        rw [handled] at handles
        cases handles
        rfl
  · rw [if_neg sure] at handles
    cases handles

/-- A new disk. -/
def newDisk : BlockManager := fresh.setInode 1 ⟨tDir, 0, 0, 0, 0, fun _ => 0⟩

/-- A new disk, on which file 2 was created. -/
def oneFileDisk : BlockManager := newDisk.setInode 2 ⟨tFile, 0, 0, 0, 0, fun _ => 0⟩

theorem newDisk_boots : boot ⟨0, 0, 0, 0, 0, fun _ => 0⟩ still = .ok newDisk := boot_ok _ _

theorem newDisk_serves : ExtentServer.Serves ⟨0, 0, 0, 0, 0, fun _ => 0⟩ (newDisk, initialFiles) :=
  .init ⟨⟨still, newDisk_boots⟩, rfl⟩

theorem oneFileDisk_storing : Storing ⟨0, 0, 0, 0, 0, fun _ => 0⟩ 2 tFile [] oneFileDisk := by
  refine ⟨Function.update initialFiles 2 (some ⟨tFile, []⟩), newDisk_serves.step
    ⟨still, .create tFile, .created 2, ⟨by decide, 2, le_rfl, by decide, rfl⟩, ?_, rfl⟩, rfl⟩
  have dead : ¬ Live newDisk 2 := fun live =>
    absurd ((boot_live newDisk_boots 2).mp live) (by decide)
  rw [create_ok tFile still le_rfl (by decide) dead fun l low high => absurd high (by omega)]
  have blank : newDisk.inodeAt 2 = ⟨0, 0, 0, 0, 0, fun _ => 0⟩ := by
    rw [newDisk, inodeAt_setInode_of_ne (by decide), inodeAt_fresh]
  rw [blank]
  rfl

/-- Clients that share the root of a new disk. -/
def rootDiskDriver : Driver ℕ Unit Op Res BlockManager where
  prog := Op.prog
  handle := handleBlocks
  mayStore s := rootDriver.mayStore (s.onServer BlockManager.files)
  mayCall _ req _ := req ≠ .remove 1

/-- Clients that share file 2. -/
def fileDiskDriver : Driver ℕ Unit Op Res BlockManager where
  prog := Op.prog
  handle := handleBlocks
  mayStore s := fileDriver.mayStore (s.onServer BlockManager.files)
  mayCall _ req _ := req ≠ .remove 2

/-- Client 1 finds the file that client 0 created; the new root went over the disk. -/
theorem directories_atomic_on_disk_shared : ∃ s : State ℕ Unit Op Res BlockManager,
    Reach (directories 1 blockServer) (Storing ⟨0, 0, 0, 0, 0, fun _ => 0⟩ 1 tDir []) s ∧
      results s.history = [(0, .made .OK 2), (1, .found (some 2))] ∧
      ∃ a, Explained (dirSpec 1) 1 (directoryOf []) s.history a := by
  have drives : rootDiskDriver.Drives
      (directories 1 blockServer : Machine ℕ Unit Op Res BlockManager) := by
    refine ⟨rfl, fun _ _ _ _ => handleBlocks_serves, fun s c t op eid entry may => ?_,
      fun _ req _ may => of_decide_eq_true (p := req ≠ .remove 1) may⟩
    rintro rfl
    have may : rootDriver.mayStore (s.onServer BlockManager.files) c t op 1 entry = true := may
    exact storable_of_mayStore may
  have may : ∀ c t op, .invoke c t op ∈ createThenLookup → OnDirectory 1 op := by
    intro c t op mem
    simp only [createThenLookup, List.mem_append, invoke_mem_turn] at mem
    rcases mem with ⟨-, -, rfl⟩ | ⟨-, -, rfl⟩ <;> exact fun _ => ⟨by decide, by decide⟩
  obtain ⟨s, reach, shows⟩ := Driver.exists_reach drives
    (Storing ⟨0, 0, 0, 0, 0, fun _ => 0⟩ 1 tDir []) may ⟨_, newDisk_serves, rfl⟩
    (P := fun s => results s.history = [(0, .made .OK 2), (1, .found (some 2))])
    (by decide +kernel)
  exact ⟨s, reach, by simpa using shows, directories_atomic_on_disk .nil reach⟩

/-- Client 1 reads what client 0 wrote; the file went over the disk. -/
theorem files_atomic_on_disk_shared : ∃ s : State ℕ Unit Op Res BlockManager,
    Reach (filesOf 2 blockServer) (Storing ⟨0, 0, 0, 0, 0, fun _ => 0⟩ 2 tFile []) s ∧
      results s.history = [(0, .written 1), (1, .data [120])] ∧
      ∃ a, Explained (fileSpec 2 tFile) 2 [] s.history a := by
  have drives : fileDiskDriver.Drives
      (filesOf 2 blockServer : Machine ℕ Unit Op Res BlockManager) := by
    refine ⟨rfl, fun _ _ _ _ => handleBlocks_serves, fun s => ?_,
      fun _ req _ may => of_decide_eq_true (p := req ≠ .remove 2) may⟩
    exact fileDriver_drives.mayStore (s.onServer BlockManager.files)
  have may : ∀ c t op, .invoke c t op ∈ writeThenReadAt 0 → op = .mount → 2 ≠ 1 :=
    fun _ _ _ _ _ => by decide
  obtain ⟨s, reach, shows⟩ := Driver.exists_reach drives
    (Storing ⟨0, 0, 0, 0, 0, fun _ => 0⟩ 2 tFile []) may oneFileDisk_storing
    (P := fun s => results s.history = [(0, .written 1), (1, .data [120])]) (by decide +kernel)
  exact ⟨s, reach, by simpa using shows, files_atomic_on_disk (by decide) reach⟩

/-! ## The daemon over the disk -/

/-- **Runs of the daemon over the disk**: it mounts the file system of a new disk and handles
requests, one after the other. -/
def DiskServing (lib : Libfuse) (uninit : Inode) : Alone BlockManager × FileSystem → Prop :=
  Reachable (fun p => p.2 = .empty ∧ ∃ bm now acts, boot uninit now = .ok bm ∧
      Runs blockServer (Op.prog .mount) ⟨[], fun _ => none, bm⟩ acts (.returned .mounted) p.1)
    fun p p' => ∃ q reply acts, p.2.Asks q ∧
      Runs blockServer (q.handler lib).prog p.1 acts (.returned reply) p'.1 ∧
        p.2.Step lib q reply p'.2

/-- Over the map of files the daemon does the same. -/
theorem DiskServing.serving {lib : Libfuse} {uninit : Inode} {p : Alone BlockManager × FileSystem}
    (serving : DiskServing lib uninit p) :
    Serving lib (p.1.onServer BlockManager.files, p.2) ∧ Sound p.1.server := by
  refine Reachable.invariant (I := fun p => Serving lib (p.1.onServer BlockManager.files, p.2) ∧
    Sound p.1.server) ?_ ?_ serving
  · rintro ⟨s, fs⟩ ⟨new, bm, now, acts, boots, mounts⟩
    have holds := boot_holds boots
    have sound : Sound bm := by rwa [Sound, holds.files]
    obtain ⟨sound', ⟨req, ⟨⟩, -⟩ | ⟨-, mounts'⟩⟩ := mounts.onServer blockServer_refines sound
    have root : (⟨[], fun _ => none, bm⟩ : Alone BlockManager).onServer BlockManager.files =
        aloneAtRoot := by
      rw [Alone.onServer, holds.files, aloneAtRoot]
    rw [root] at mounts'
    exact ⟨.init ⟨new, acts, mounts'⟩, sound'⟩
  · rintro ⟨s, fs⟩ ⟨s', fs'⟩ - ⟨serving, sound⟩ ⟨q, reply, acts, asks, run, step⟩
    obtain ⟨sound', ⟨req, ⟨⟩, -⟩ | ⟨-, run'⟩⟩ := run.onServer blockServer_refines sound
    exact ⟨serving.step ⟨q, reply, acts, asks, run', step⟩, sound'⟩

/-- **The handlers implement the file system over the disk.**  In every run of the daemon on a new
disk, whatever the kernel asks is replied to by a step of the file system, and the daemon goes
on; or a request to the extent server is not permitted for the files on the disk. -/
theorem handlers_implement_file_system_on_disk {lib : Libfuse} {uninit : Inode}
    {p : Alone BlockManager × FileSystem} (serving : DiskServing lib uninit p) {q : FuseRequest}
    (asks : p.2.Asks q) :
    Always blockServer (q.handler lib).prog p.1 fun out s' =>
      (∃ reply fs', out = .returned reply ∧ p.2.Step lib q reply fs' ∧
        DiskServing lib uninit (s', fs')) ∨
      ∃ req, out = .refused req ∧ ¬ Permitted s'.server.files req := by
  obtain ⟨serving', sound⟩ := serving.serving
  refine ⟨exists_runs blockServer _ _, fun acts out s' run => ?_⟩
  obtain ⟨sound', ⟨req, rfl, refuses⟩ | ⟨answered, run'⟩⟩ := run.onServer blockServer_refines sound
  · exact Or.inr ⟨req, rfl, sound'.permitted_of refuses⟩
  · rcases (ends_handler serving'.has asks).runs run' with ⟨reply, fs', rfl, step, -⟩ | ⟨-, req, eq⟩
    · exact Or.inl ⟨reply, fs', rfl, step, serving.step ⟨q, reply, acts, asks, run, step⟩⟩
    · exact absurd eq (answered req)

/-- The constructor asks the server for nothing. -/
theorem mount_returns (bm : BlockManager) : Ensures blockServer
    (fun out _ => out = .returned .mounted) (Op.prog .mount) ⟨[], fun _ => none, bm⟩ := by
  simp only [Op.prog, Prog.result, YfsClient.mount, Prog.bind_eq, Prog.bind_assoc]
  exact Ensures.lock List.not_mem_nil (Ensures.put fun _ _ _ _ => Ensures.unlock rfl)

/-- A new file is made in the root of a new disk. -/
theorem handlers_implement_file_system_on_disk_create : ∃ s,
    DiskServing linuxFuse ⟨0, 0, 0, 0, 0, fun _ => 0⟩ (s, .empty) ∧
      Always blockServer (FuseRequest.handler linuxFuse (.create 1 [97])).prog s fun out s' =>
        (∃ reply fs', out = .returned reply ∧
          FileSystem.empty.Step linuxFuse (.create 1 [97]) reply fs' ∧
            DiskServing linuxFuse ⟨0, 0, 0, 0, 0, fun _ => 0⟩ (s', fs')) ∨
        ∃ req, out = .refused req ∧ ¬ Permitted s'.server.files req := by
  obtain ⟨acts, out, s, run⟩ :=
    exists_runs blockServer (Op.prog .mount) ⟨[], fun _ => none, newDisk⟩
  obtain rfl := (mount_returns newDisk).runs run
  have serving : DiskServing linuxFuse ⟨0, 0, 0, 0, 0, fun _ => 0⟩ (s, .empty) :=
    .init ⟨rfl, newDisk, still, acts, newDisk_boots, run⟩
  have asks : FileSystem.empty.Asks (.create 1 [97]) := ⟨⟨_, rfl⟩, by decide⟩
  exact ⟨s, serving, handlers_implement_file_system_on_disk serving asks⟩

end Yfs.Client
