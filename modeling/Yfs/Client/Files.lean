import Yfs.Client.Sections
import Yfs.Storage.Runs

/-!
# The extent server as its clients see it

The clients rely on the specification of the extent server, the finite map of files that
`Storage.ExtentServer` refines.

Only requests for live extents are answered.  What the real server does with others depends on
the remains of an old file (`Storage.DeadInodes`), and no client that was told its inums by the
server makes them, as long as nothing is removed behind its back.

* `fileServer` — the server by its specification.
* `fileServerAt_serves` — while an extent is live, the server stores it faithfully.
* `handleFiles` — a server that can be run.
-/

namespace Yfs.Client

open Storage Storage.ExtentServer

/-- **The extent server by its specification.** -/
def fileServer (x : FileMap) (req : Request) (reply : Reply) (y : FileMap) : Prop :=
  Answers x req reply ∧ y = afterRequest x req reply

/-- The string of an extent. -/
def dataAt (eid : ℕ) (x : FileMap) : List UInt8 := (x eid).elim [] File.data

/-- The server while extent `eid` is live and has type `type`. -/
def fileServerAt (eid type : ℕ) (x : FileMap) (req : Request) (reply : Reply) (y : FileMap) :
    Prop :=
  fileServer x req reply y ∧ (∃ f, x eid = some f ∧ f.type = type) ∧ y eid ≠ none

/-- A live extent keeps its data through requests for other extents. -/
theorem dataAt_update_of_ne {eid id : ℕ} {x : FileMap} {file : Option File} (ne : id ≠ eid) :
    dataAt eid (Function.update x id file) = dataAt eid x := by
  rw [dataAt, Function.update_of_ne (Ne.symm ne), dataAt]

section Requests

variable {x y : FileMap} {id : ℕ} {reply : Reply}

/-- `get` and `getattr` are answered for live extents, with the string. -/
theorem fileServer_fetch {req : Request} (fetch : req = .get id ∨ req = .getattr id)
    (serves : fileServer x req reply y) :
    y = x ∧ x id ≠ none ∧ ∃ f, reply = .file f ∧ f.buf = dataAt id x := by
  obtain ⟨answers, rfl⟩ := serves
  rcases fetch with rfl | rfl
  all_goals
    cases reply with
    | file f =>
        obtain ⟨file, here, buf, -, -⟩ := answers
        refine ⟨rfl, by rw [here]; exact nofun, f, rfl, ?_⟩
        rw [dataAt, here]
        exact buf
    | _ => exact answers.elim

/-- `create` makes an empty extent of one that was not live: no string changes. -/
theorem fileServer_create {type : ℕ} (serves : fileServer x (.create type) reply y) :
    ∃ id, reply = .created id ∧ x id = none ∧ y id ≠ none ∧
      ∀ eid, dataAt eid y = dataAt eid x ∧ (x eid ≠ none → y eid ≠ none) := by
  obtain ⟨answers, rfl⟩ := serves
  cases reply with
  | created id =>
      obtain ⟨-, -, free⟩ := answers
      refine ⟨id, rfl, free, by simp [afterRequest], fun eid => ?_⟩
      by_cases same : eid = id
      · subst same
        exact ⟨by simp [afterRequest, dataAt, free], fun live => absurd free live⟩
      · exact ⟨dataAt_update_of_ne (Ne.symm same), by simp [afterRequest, same]⟩
  | _ => exact answers.elim

/-- `put` stores its string in a live extent. -/
theorem fileServer_put {buf : List UInt8} (live : x id ≠ none)
    (serves : fileServer x (.put id buf) reply y) :
    dataAt id y = buf ∧ (∀ eid, eid ≠ id → dataAt eid y = dataAt eid x) ∧
      ∀ eid, x eid ≠ none → y eid ≠ none := by
  obtain ⟨-, rfl⟩ := serves
  obtain ⟨file, here⟩ := Option.ne_none_iff_exists'.mp live
  refine ⟨by simp [afterRequest, putFile, dataAt, here],
    fun eid ne => dataAt_update_of_ne (Ne.symm ne), fun eid old => ?_⟩
  by_cases same : eid = id
  · subst same
    simp [afterRequest, putFile, here]
  · simpa [afterRequest, putFile, same] using old

end Requests

/-- **A live extent is stored faithfully.** -/
theorem fileServerAt_serves {eid type : ℕ} {x y : FileMap} {req : Request} {reply : Reply}
    (serves : fileServerAt eid type x req reply y) :
    Serves eid (· = type) (dataAt eid x) req reply (dataAt eid y) := by
  obtain ⟨⟨answers, rfl⟩, ⟨f, here, rfl⟩, live⟩ := serves
  have shows : ∀ {id g}, (∃ file, x id = some file ∧ g.buf = file.data ∧
      g.attr.size = file.data.length ∧ g.attr.type = file.type) → id = eid →
      ∃ h, Reply.file g = .file h ∧ h.buf = dataAt eid x ∧ h.attr.type = f.type := by
    rintro id g ⟨file, eq, buf, -, kind⟩ rfl
    rw [here] at eq
    cases eq
    exact ⟨g, rfl, by rw [dataAt, here]; exact buf, kind⟩
  cases req with
  | create kind =>
      cases reply with
      | created id =>
          obtain ⟨_, low, free⟩ := answers
          have ne : id ≠ eid := by
            rintro rfl
            rw [here] at free
            cases free
          refine ⟨dataAt_update_of_ne ne, id, rfl, ne, ?_⟩
          have : inodeNum < 2 ^ 64 := by decide
          omega
      | _ => exact answers.elim
  | put id buf =>
      by_cases eq : id = eid
      · subst eq
        simp [Serves, afterRequest, putFile, dataAt, here]
      · simp only [Serves, if_neg eq]
        exact dataAt_update_of_ne eq
  | get id =>
      cases reply with
      | file g => exact ⟨rfl, shows answers⟩
      | _ => exact answers.elim
  | getattr id =>
      cases reply with
      | file g => exact ⟨rfl, shows answers⟩
      | _ => exact answers.elim
  | remove id => exact fun ne => dataAt_update_of_ne ne

/-- What a server shows of an extent's type may be forgotten. -/
theorem Serves.mono {eid : ℕ} {kind kind' : ℕ → Prop} {data data' : List UInt8} {req : Request}
    {reply : Reply} (weaker : ∀ type, kind type → kind' type)
    (serves : Serves eid kind data req reply data') : Serves eid kind' data req reply data' := by
  cases req with
  | get id =>
      refine ⟨serves.1, fun eq => ?_⟩
      obtain ⟨f, shown, buf, type⟩ := serves.2 eq
      exact ⟨f, shown, buf, weaker _ type⟩
  | getattr id =>
      refine ⟨serves.1, fun eq => ?_⟩
      obtain ⟨f, shown, buf, type⟩ := serves.2 eq
      exact ⟨f, shown, buf, weaker _ type⟩
  | _ => exact serves

/-! ## A server that can be run -/

/-- A file system with one empty file, 2. -/
def oneFile : FileMap := Function.update (fun _ => none) 2 (some ⟨tFile, []⟩)

/-- A server that gives out the first free inum, as `alloc_inode` does, and answers only
requests for live extents. -/
def handleFiles (x : FileMap) : Request → Option (Reply × FileMap)
  | .create type =>
      ((List.range' 2 (inodeNum - 1)).find? fun id => x id = none).map fun id =>
        (.created id, Function.update x id (some ⟨type, []⟩))
  | .put id buf => (x id).map fun _ => (.done, putFile x id buf)
  | .get id | .getattr id => (x id).map fun file =>
      (.file ⟨⟨file.type, 0, 0, 0, file.data.length⟩, file.data⟩, x)
  | .remove id => (x id).map fun _ => (.done, Function.update x id none)

/-- It is a server of the specification, and the extent of the request is live. -/
theorem handleFiles_serves {x y : FileMap} {req : Request} {reply : Reply}
    (handles : handleFiles x req = some (reply, y)) : fileServer x req reply y := by
  cases req with
  | create type =>
      obtain ⟨id, found, eq⟩ := Option.map_eq_some_iff.mp handles
      cases eq
      have free := List.find?_some found
      have mem := List.mem_of_find?_eq_some found
      rw [List.mem_range'_1] at mem
      simp only [inodeNum] at mem
      refine ⟨⟨mem.1, ?_, by simpa using free⟩, rfl⟩
      simp only [inodeNum]
      omega
  | put id buf =>
      obtain ⟨file, here, eq⟩ := Option.map_eq_some_iff.mp handles
      cases eq
      exact ⟨trivial, rfl⟩
  | get id =>
      obtain ⟨file, here, eq⟩ := Option.map_eq_some_iff.mp handles
      cases eq
      exact ⟨⟨file, here, rfl, rfl, rfl⟩, rfl⟩
  | getattr id =>
      obtain ⟨file, here, eq⟩ := Option.map_eq_some_iff.mp handles
      cases eq
      exact ⟨⟨file, here, rfl, rfl, rfl⟩, rfl⟩
  | remove id =>
      obtain ⟨file, here, eq⟩ := Option.map_eq_some_iff.mp handles
      cases eq
      exact ⟨trivial, rfl⟩

/-- The same server while extent `eid` is live and has type `type`. -/
def handleFilesAt (eid type : ℕ) (x : FileMap) (req : Request) : Option (Reply × FileMap) :=
  (handleFiles x req).filter fun r => (x eid).map File.type = some type ∧ r.2 eid ≠ none

theorem handleFilesAt_serves {eid type : ℕ} {x y : FileMap} {req : Request} {reply : Reply}
    (handles : handleFilesAt eid type x req = some (reply, y)) :
    fileServerAt eid type x req reply y := by
  obtain ⟨handled, kept⟩ := Option.filter_eq_some_iff.mp handles
  obtain ⟨kind, live⟩ := of_decide_eq_true kept
  exact ⟨handleFiles_serves handled, Option.map_eq_some_iff.mp kind, live⟩

end Yfs.Client
