import Yfs.Client.Calls

/-!
# Operations whose extent calls fail

What a caller learns of a call of `extent_client` that fails, and what the operation has
written by then.  `setattr` reports every failure; the other operations go on after some calls
without a look at the status.

An answer is a status and whatever the call left behind, and nothing ties the two together: a
call that failed may have left anything.  So a path that goes on after a failure and uses what
was left behind is seen as one that may write anything.

* `Surfaces` — a failure ends the process or is reported, and nothing is written that comes
  from it.
* `Unchecked` — a call fails whose status the operation does not look at, and it goes on.
* `surfaces_iff_of_isOk` — an operation that reports success must have had no failure.
* `errors_surface_iff` — the eight operations surface their failures exactly when no unchecked
  call fails.
-/

namespace Yfs.Client

open Storage ByteBlock Routine

/-! ## What is required -/

/-- The call failed.  (`getattr` is not among the calls that are asked about.) -/
def Call.Failed : Call → Prop
  | .get _ status _ | .put _ _ status | .create _ status _ | .remove _ status => status ≠ 0
  | .getattr _ _ _ => False

/-- The operation returned `OK`. -/
def IsOk : Except ℤ Res → Prop
  | .error _ => False
  | .ok (.made status _) | .ok (.status status) => status = .OK
  | .ok _ => True

/-- The second call puts an extent back after the first one failed to get it. -/
def PutsStale : Call → Call → Prop
  | .get eid status _, .put eid' _ _ => status ≠ 0 ∧ eid = eid'
  | _, _ => False

/-- The second call puts a directory with an entry at its end for the inum of the first, which
failed to create it. -/
def PutsUnknown : Call → Call → Prop
  | .create _ status id, .put _ data _ =>
      status ≠ 0 ∧ ∃ front bytes name, data = front ++ encodeDirent bytes ⟨name, id⟩
  | _, _ => False

/-- **Errors reach the caller and change nothing.**

The second field is about the order of calls: nothing is put back to an extent after a get of it
has failed, and no entry is put for an inum whose `create` has failed. -/
structure Surfaces (t : CallTrace (Except ℤ Res)) : Prop where
  reported : (∃ call ∈ t.1, call.Failed) → ∀ r, t.result = some r → ¬ IsOk r
  clean : t.1.Pairwise fun first second => ¬ PutsStale first second ∧ ¬ PutsUnknown first second

/-- The operations that the requirement is for. -/
def Op.Changes : Op → Prop
  | .read .. | .write .. | .setattr .. | .create .. | .mkdir .. | .symlink .. | .unlink ..
  | .rmdir .. => True
  | _ => False

/-! ## What goes wrong -/

/-- The name is among the entries that `readdir_no_seria` decodes. -/
def FindsAt (answers : ℕ → Answer) (i : ℕ) (name : List UInt8) : Prop :=
  name ∈ (listedAt answers i).map Dirent.name

/-- `substr` throws in `read`: the offset is past the end, and as an `unsigned int` it is not. -/
def SubstrThrows (off : ℕ) (content : List UInt8) : Prop :=
  off % 2 ^ 32 < content.length ∧ content.length < off

/-- `replace` throws in `write`; there the end itself counts as within. -/
def ReplaceThrows (off : ℕ) (content : List UInt8) : Prop :=
  off % 2 ^ 32 ≤ content.length ∧ content.length < off

/-- **A call fails whose status is not looked at**, and the operation goes on: the `get` of
`read` and `write`, the last `put` of all but `setattr` (in `symlink`, if the link itself was put),
every `create`, the `remove` of `rmdir`, and the first `get` of `symlink`.  The answers are
numbered in the order in which the operation uses them. -/
def Unchecked (answers : ℕ → Answer) : Op → Prop
  | .read _ _ off => (answers 0).status ≠ 0 ∧ ¬ SubstrThrows off (answers 0).buf
  | .write _ off _ => ((answers 0).status ≠ 0 ∨ (answers 1).status ≠ 0) ∧
      ¬ ReplaceThrows off (answers 0).buf
  | .create _ name => Listed answers 0 ∧ ¬ FindsAt answers 0 name ∧ (answers 4).status = 0 ∧
      ((answers 3).status ≠ 0 ∨ (answers 6).status ≠ 0)
  | .mkdir _ name => Listed answers 0 ∧ ¬ FindsAt answers 0 name ∧ (answers 3).status = 0 ∧
      ((answers 4).status ≠ 0 ∨ (answers 6).status ≠ 0)
  | .symlink _ name _ => Listed answers 1 ∧ ¬ FindsAt answers 1 name ∧
      ((answers 0).status ≠ 0 ∨ (answers 4).status ≠ 0 ∨
        ((answers 5).status = 0 ∧ (answers 7).status ≠ 0))
  | .unlink _ name | .rmdir _ name => Listed answers 0 ∧ FindsAt answers 0 name ∧
      ((answers 3).status ≠ 0 ∨ (answers (3 + (listedAt answers 0).length)).status ≠ 0)
  | _ => False

/-! ## Rules -/

section Rules

variable {t : CallTrace (Except ℤ Res)}

/-- Nothing is put that comes from a failure if no `get` and no `create` failed. -/
theorem clean_of_ok {calls : List Call}
    (got : ∀ eid status buf, .get eid status buf ∈ calls → status = 0)
    (made : ∀ type status id, .create type status id ∈ calls → status = 0) :
    calls.Pairwise fun first second => ¬ PutsStale first second ∧ ¬ PutsUnknown first second := by
  refine List.Pairwise.imp_of_mem ?_ (List.pairwise_of_forall fun _ _ => trivial)
  intro first second mem _ _
  cases first with
  | get eid status buf =>
      cases second with
      | put => exact ⟨fun stale => stale.1 (got eid status buf mem), nofun⟩
      | _ => exact ⟨nofun, nofun⟩
  | create type status id =>
      cases second with
      | put => exact ⟨nofun, fun unknown => unknown.1 (made type status id mem)⟩
      | _ => exact ⟨nofun, nofun⟩
  | _ => exact ⟨nofun, nofun⟩

/-- Without failures there is nothing to surface. -/
theorem surfaces_of_no_failure (none : ∀ call ∈ t.1, ¬ call.Failed) : Surfaces t := by
  refine ⟨?_, clean_of_ok ?_ ?_⟩
  · rintro ⟨call, mem, failed⟩
    exact absurd failed (none call mem)
  · intro eid status buf mem
    exact not_not.1 (none _ mem)
  · intro type status id mem
    exact not_not.1 (none _ mem)

/-- **An operation that returns `OK`** surfaces its failures exactly if it has none. -/
theorem surfaces_iff_of_isOk {r : Except ℤ Res} (result : t.result = some r) (ok : IsOk r) :
    Surfaces t ↔ ∀ call ∈ t.1, ¬ call.Failed := by
  refine ⟨fun surfaces call mem failed => ?_, surfaces_of_no_failure⟩
  exact surfaces.reported ⟨call, mem, failed⟩ r result ok

/-- The operation has put nothing, and it does not return `OK`. -/
structure Stops (t : CallTrace (Except ℤ Res)) : Prop where
  silent : ∀ r, t.result = some r → ¬ IsOk r
  noPut : ∀ eid data status, .put eid data status ∉ t.1

theorem Stops.surfaces (stops : Stops t) : Surfaces t := by
  refine ⟨fun _ => stops.silent, ?_⟩
  refine List.Pairwise.imp_of_mem ?_ (List.pairwise_of_forall fun _ _ => trivial)
  intro first second _ mem _
  cases second with
  | put eid data status => exact absurd mem (stops.noPut eid data status)
  | _ =>
      cases first with
      | _ => exact ⟨nofun, nofun⟩

/-- A `get` in front puts nothing. -/
theorem Stops.cons_get (stops : Stops t) (eid : ℕ) (status : ExtentStatus) (buf : List UInt8) :
    Stops (t.cons (.get eid status buf)) := by
  refine ⟨stops.silent, fun eid data status mem => ?_⟩
  obtain ⟨⟩ | ⟨_, mem⟩ := mem
  exact stops.noPut eid data status mem

end Rules

/-! ## The operations on files -/

section Operations

variable {answers : ℕ → Answer}

theorem calls_read_of_throws (ino size : ℕ) {off : ℕ}
    (throws : SubstrThrows off (answers 0).buf) :
    (Op.read ino size off).calls answers =
      ([.get ino (answers 0).status (answers 0).buf], none) := by
  rw [Op.calls, Op.routine, calls_bind, Routine.read, calls_acquire, calls_get, calls_release,
    if_neg (not_le.2 throws.1), if_pos throws.2]
  rfl

theorem calls_read (ino size : ℕ) {off : ℕ} (returns : ¬ SubstrThrows off (answers 0).buf) :
    ∃ bytes, (Op.read ino size off).calls answers =
      ([.get ino (answers 0).status (answers 0).buf], some (.ok (.data bytes), 1)) := by
  rw [Op.calls, Op.routine, calls_bind, Routine.read, calls_acquire, calls_get, calls_release]
  by_cases past : (answers 0).buf.length ≤ off % 2 ^ 32
  · rw [if_pos past]
    exact ⟨_, rfl⟩
  · rw [if_neg past, if_neg fun beyond => returns ⟨not_le.1 past, beyond⟩]
    exact ⟨_, rfl⟩

/-- `read` reports `OK` whenever it returns. -/
theorem read_surfaces_iff (ino size off : ℕ) :
    Surfaces ((Op.read ino size off).calls answers) ↔ ¬ Unchecked answers (.read ino size off) := by
  by_cases throws : SubstrThrows off (answers 0).buf
  · rw [calls_read_of_throws ino size throws]
    refine iff_of_true (Stops.surfaces ⟨nofun, ?_⟩) fun unchecked => unchecked.2 throws
    simp
  · obtain ⟨bytes, calls⟩ := calls_read ino size throws
    rw [calls, surfaces_iff_of_isOk rfl (by exact trivial)]
    simp [Call.Failed, Unchecked, throws]

theorem calls_write_of_throws (ino : ℕ) {off : ℕ} (data : List UInt8)
    (throws : ReplaceThrows off (answers 0).buf) :
    (Op.write ino off data).calls answers =
      ([.get ino (answers 0).status (answers 0).buf], none) := by
  rw [Op.calls, Op.routine, calls_bind, Routine.write, calls_acquire, calls_get,
    if_pos throws.1, if_pos throws.2]
  rfl

theorem calls_write (ino : ℕ) {off : ℕ} (data : List UInt8)
    (returns : ¬ ReplaceThrows off (answers 0).buf) :
    ∃ buf count, (Op.write ino off data).calls answers =
      ([.get ino (answers 0).status (answers 0).buf, .put ino buf (answers 1).status],
        some (.ok (.written count), 2)) := by
  rw [Op.calls, Op.routine, calls_bind, Routine.write, calls_acquire, calls_get]
  by_cases within : off % 2 ^ 32 ≤ (answers 0).buf.length
  · rw [if_pos within, if_neg fun beyond => returns ⟨within, beyond⟩]
    exact ⟨_, _, rfl⟩
  · rw [if_neg within]
    exact ⟨_, _, rfl⟩

/-- `write` reports `OK` whenever it returns. -/
theorem write_surfaces_iff (ino off : ℕ) (data : List UInt8) :
    Surfaces ((Op.write ino off data).calls answers) ↔
      ¬ Unchecked answers (.write ino off data) := by
  by_cases throws : ReplaceThrows off (answers 0).buf
  · rw [calls_write_of_throws ino data throws]
    refine iff_of_true (Stops.surfaces ⟨nofun, ?_⟩) fun unchecked => unchecked.2 throws
    simp
  · obtain ⟨buf, count, calls⟩ := calls_write ino data throws
    rw [calls, surfaces_iff_of_isOk rfl (by exact trivial)]
    simp [Call.Failed, Unchecked, throws]

theorem calls_setattr (ino size : ℕ) (got : (answers 0).status = 0) :
    (Op.setattr ino size).calls answers =
      ([.get ino (answers 0).status (answers 0).buf,
          .put ino (resize size (answers 0).buf) (answers 1).status],
        some ((reported (answers 1).status .OK).map .status, 2)) := by
  rw [Op.calls, Op.routine, calls_bind, Routine.setattr, calls_acquire, calls_get,
    if_neg (not_not_intro got)]
  rfl

/-- **`setattr` returns the first status that is not `OK`**, and after a `get` that failed it puts
nothing. -/
theorem setattr_surfaces (ino size : ℕ) : Surfaces ((Op.setattr ino size).calls answers) := by
  by_cases got : (answers 0).status = 0
  · rw [calls_setattr ino size got]
    refine ⟨?_, List.pairwise_pair.2 ⟨fun stale => stale.1 got, nofun⟩⟩
    rintro ⟨call, mem, failed⟩ r ⟨⟩
    obtain rfl | rfl := List.mem_pair.1 mem
    · exact absurd got failed
    · rw [reported, if_neg failed]
      exact id
  · rw [Op.calls, Op.routine, calls_bind, Routine.setattr, calls_acquire, calls_get, if_pos got]
    refine Stops.surfaces ⟨?_, ?_⟩
    · rintro r ⟨⟩
      exact id
    · rintro eid data status (_ | ⟨_, ⟨⟩⟩)

/-! ## The operations on directories -/

/-- `lookup_no_seria`. -/
theorem calls_lookupNoSeria {i : ℕ} (listed : Listed answers i) (parent : ℕ) (name : List UInt8) :
    (lookupNoSeria parent name).calls answers i =
      (listingCalls answers i parent,
        some (((listedAt answers i).find? fun ent => ent.name = name).map Dirent.inum, i + 3)) := by
  rw [lookupNoSeria, calls_bind, calls_readdirNoSeria_of_listed listed, CallTrace.andThen_some,
    calls_ret, List.append_nil]

/-- What it finds. -/
theorem find_of_findsAt {i : ℕ} {name : List UInt8} (finds : FindsAt answers i name) :
    ∃ ent ∈ listedAt answers i, ent.name = name ∧
      (listedAt answers i).find? (fun ent => ent.name = name) = some ent := by
  obtain ⟨ent, mem, named⟩ := List.mem_map.1 finds
  have found : ((listedAt answers i).find? fun ent => ent.name = name).isSome := by
    rw [List.find?_isSome]
    exact ⟨ent, mem, by simpa using named⟩
  obtain ⟨first, found⟩ := Option.isSome_iff_exists.1 found
  exact ⟨first, List.mem_of_find?_eq_some found, by simpa using List.find?_some found, found⟩

theorem find_of_not_findsAt {i : ℕ} {name : List UInt8} (absent : ¬ FindsAt answers i name) :
    (listedAt answers i).find? (fun ent => ent.name = name) = none := by
  rw [List.find?_eq_none]
  intro ent mem named
  exact absent (List.mem_map.2 ⟨ent, mem, by simpa using named⟩)

/-- `readdir_no_seria` puts nothing. -/
theorem put_not_mem_listingCalls (i parent eid : ℕ) (data : List UInt8) (status : ExtentStatus) :
    .put eid data status ∉ listingCalls answers i parent := by
  simp [listingCalls]

/-- The common part of `create`, `mkdir` and `symlink`: without a list to search, or with the
name in it, nothing is put and `OK` is not returned. -/
theorem lookup_stops {i : ℕ} (parent : ℕ) {name : List UInt8}
    (stops : ¬ (Listed answers i ∧ ¬ FindsAt answers i name))
    {k : Option ℕ → ℕ → CallTrace (Except ℤ Res)}
    (found : ∀ ino j, k (some ino) j = ([], some (.ok (.made .EXIST ino), j))) :
    Stops (((lookupNoSeria parent name).calls answers i).andThen k) := by
  by_cases listed : Listed answers i
  · obtain ⟨ent, -, -, first⟩ := find_of_findsAt (not_not.1 fun absent => stops ⟨listed, absent⟩)
    rw [calls_lookupNoSeria listed, first, CallTrace.andThen_some, Option.map_some, found,
      List.append_nil]
    refine ⟨?_, put_not_mem_listingCalls i parent⟩
    rintro r ⟨⟩ ⟨⟩
  · obtain ⟨made, subset, calls⟩ := calls_readdirNoSeria_of_not_listed listed parent
    rw [lookupNoSeria, calls_bind, calls, CallTrace.andThen_none, CallTrace.andThen_none]
    exact ⟨by rintro _ ⟨⟩, fun eid data status mem =>
      put_not_mem_listingCalls i parent eid data status (subset mem)⟩

theorem calls_createFile (parent : ℕ) (name : List UInt8) (listed : Listed answers 0)
    (absent : ¬ FindsAt answers 0 name) :
    (Op.create parent name).calls answers =
      (listingCalls answers 0 parent ++
        .create tFile (answers 3).status (answers 3).id ::
          .get parent (answers 4).status (answers 4).buf ::
          if (answers 4).status ≠ 0 then [] else
          [.put parent ((answers 4).buf ++ encodeDirent (answers 5).bytes ⟨name, (answers 3).id⟩)
            (answers 6).status],
        if (answers 4).status ≠ 0 then none else some (.ok (.made .OK (answers 3).id), 7)) := by
  rw [Op.calls, Op.routine, calls_bind, createFile, calls_acquire, calls_bind,
    calls_lookupNoSeria listed, find_of_not_findsAt absent, CallTrace.andThen_some]
  simp only [Option.map_none, calls_create, calls_get]
  split
  next => rfl
  next => rfl

/-- `create` looks at the second `get` only. -/
theorem create_surfaces_iff (parent : ℕ) (name : List UInt8) :
    Surfaces ((Op.create parent name).calls answers) ↔
      ¬ Unchecked answers (.create parent name) := by
  by_cases goes : Listed answers 0 ∧ ¬ FindsAt answers 0 name
  · obtain ⟨listed, absent⟩ := goes
    rw [calls_createFile parent name listed absent]
    by_cases got : (answers 4).status ≠ 0
    · refine iff_of_true ?_ fun unchecked => got unchecked.2.2.1
      rw [if_pos got, if_pos got]
      refine Stops.surfaces ⟨nofun, ?_⟩
      simp [listingCalls]
    · rw [if_neg got, if_neg got, surfaces_iff_of_isOk rfl (by exact rfl)]
      simp [Unchecked, listingCalls, Call.Failed, listed, absent, not_not.1 got, listed.1]
  · refine iff_of_true ?_ fun unchecked => goes ⟨unchecked.1, unchecked.2.1⟩
    rw [Op.calls, Op.routine, calls_bind, createFile, calls_acquire, calls_bind,
      CallTrace.andThen_assoc]
    exact (lookup_stops parent goes fun _ _ => rfl).surfaces

theorem calls_mkdir (parent : ℕ) (name : List UInt8) (listed : Listed answers 0)
    (absent : ¬ FindsAt answers 0 name) :
    (Op.mkdir parent name).calls answers =
      (listingCalls answers 0 parent ++
        .get parent (answers 3).status (answers 3).buf ::
          if (answers 3).status ≠ 0 then [] else
          [.create tDir (answers 4).status (answers 4).id,
            .put parent ((answers 3).buf ++ encodeDirent (answers 5).bytes ⟨name, (answers 4).id⟩)
              (answers 6).status],
        if (answers 3).status ≠ 0 then none else some (.ok (.made .OK (answers 4).id), 7)) := by
  rw [Op.calls, Op.routine, calls_bind, mkdir, calls_acquire, calls_bind,
    calls_lookupNoSeria listed, find_of_not_findsAt absent, CallTrace.andThen_some]
  simp only [Option.map_none, calls_get]
  split
  next => rfl
  next => rfl

/-- So does `mkdir`, before it creates the directory. -/
theorem mkdir_surfaces_iff (parent : ℕ) (name : List UInt8) :
    Surfaces ((Op.mkdir parent name).calls answers) ↔ ¬ Unchecked answers (.mkdir parent name) := by
  by_cases goes : Listed answers 0 ∧ ¬ FindsAt answers 0 name
  · obtain ⟨listed, absent⟩ := goes
    rw [calls_mkdir parent name listed absent]
    by_cases got : (answers 3).status ≠ 0
    · refine iff_of_true ?_ fun unchecked => got unchecked.2.2.1
      rw [if_pos got, if_pos got]
      refine Stops.surfaces ⟨nofun, ?_⟩
      simp [listingCalls]
    · rw [if_neg got, if_neg got, surfaces_iff_of_isOk rfl (by exact rfl)]
      simp [Unchecked, listingCalls, Call.Failed, listed, absent, not_not.1 got, listed.1]
  · refine iff_of_true ?_ fun unchecked => goes ⟨unchecked.1, unchecked.2.1⟩
    rw [Op.calls, Op.routine, calls_bind, mkdir, calls_acquire, calls_bind,
      CallTrace.andThen_assoc]
    exact (lookup_stops parent goes fun _ _ => rfl).surfaces

theorem calls_symlink (parent : ℕ) (name link : List UInt8) (listed : Listed answers 1)
    (absent : ¬ FindsAt answers 1 name) :
    (Op.symlink parent name link).calls answers =
      (.get parent (answers 0).status (answers 0).buf :: listingCalls answers 1 parent ++
        [.create tSlink (answers 4).status (answers 4).id,
          .put (answers 4).id link (answers 5).status,
          .put parent ((answers 0).buf ++ encodeDirent (answers 6).bytes ⟨name, (answers 4).id⟩)
            (answers 7).status],
        some ((reported (answers 5).status (YfsStatus.OK, (answers 4).id)).map
          fun r => .made r.1 r.2, 8)) := by
  rw [Op.calls, Op.routine, calls_bind, symlink, calls_acquire, calls_get, calls_bind,
    calls_lookupNoSeria listed, find_of_not_findsAt absent, CallTrace.andThen_some]
  rfl

/-- `symlink` returns the status of the first `put`.  If that failed, what came before it must
not have. -/
theorem symlink_surfaces_iff (parent : ℕ) (name link : List UInt8) :
    Surfaces ((Op.symlink parent name link).calls answers) ↔
      ¬ Unchecked answers (.symlink parent name link) := by
  -- the directory was listed and the name is new; otherwise `symlink` stops and puts nothing
  by_cases goes : Listed answers 1 ∧ ¬ FindsAt answers 1 name
  · obtain ⟨listed, absent⟩ := goes
    rw [calls_symlink parent name link listed absent]
    by_cases put : (answers 5).status = 0
    -- it returns `OK`, so nothing before may have failed
    · rw [reported, if_pos put, surfaces_iff_of_isOk rfl (by exact rfl)]
      simp [Unchecked, listingCalls, Call.Failed, listed, absent, put, listed.1]
    · rw [reported, if_neg put]
      have unlooked : ¬ Unchecked answers (.symlink parent name link) ↔
          (answers 0).status = 0 ∧ (answers 4).status = 0 := by
        simp [Unchecked, listed, absent, put]
      rw [unlooked]
      refine ⟨fun surfaces => ?_, fun ⟨got, made⟩ => ⟨?_, ?_⟩⟩
      · obtain ⟨-, inner, across⟩ := List.pairwise_append.1 surfaces.clean
        have fresh := (across _ List.mem_cons_self _
          (List.mem_cons_of_mem _ (List.mem_cons_of_mem _ List.mem_cons_self))).1
        have known := ((List.pairwise_cons.1 inner).1 _
          (List.mem_cons_of_mem _ List.mem_cons_self)).2
        exact ⟨not_not.1 fun failed => fresh ⟨failed, rfl⟩,
          not_not.1 fun failed => known ⟨failed, _, _, _, rfl⟩⟩
      · rintro _ r ⟨⟩
        exact id
      · refine clean_of_ok ?_ ?_
        · intro eid status buf mem
          obtain rfl | rfl : status = (answers 0).status ∨ status = (answers 1).status := by
            simp [listingCalls] at mem
            exact mem.imp (fun h => h.2.1) fun h => h.2.1
          · exact got
          · exact listed.1
        · intro type status id mem
          have : status = (answers 4).status := by
            simp [listingCalls] at mem
            exact mem.2.1
          exact this.trans made
  · refine iff_of_true ?_ fun unchecked => goes ⟨unchecked.1, unchecked.2.1⟩
    rw [Op.calls, Op.routine, calls_bind, symlink, calls_acquire, calls_get,
      CallTrace.cons_andThen, calls_bind, CallTrace.andThen_assoc]
    exact ((lookup_stops parent goes fun _ _ => rfl).cons_get _ _ _).surfaces

theorem calls_rmdir (parent : ℕ) {name : List UInt8} (listed : Listed answers 0)
    (finds : FindsAt answers 0 name) : ∃ inum buf,
    (Routine.rmdir parent name).calls answers 0 =
      (listingCalls answers 0 parent ++
        [.remove inum (answers 3).status,
          .put parent buf (answers (3 + (listedAt answers 0).length)).status],
        some (.OK, 4 + (listedAt answers 0).length)) := by
  obtain ⟨ent, mem, named, first⟩ := find_of_findsAt finds
  obtain ⟨buf, -, wrote⟩ := calls_encodeDir answers 4
    ((listedAt answers 0).eraseP fun ent => ent.name = name)
  have count : 4 + ((listedAt answers 0).eraseP fun ent => ent.name = name).length =
      3 + (listedAt answers 0).length := by
    have some := List.length_pos_of_mem mem
    rw [List.length_eraseP_of_mem mem (by simpa using named)]
    omega
  refine ⟨ent.inum, buf, ?_⟩
  rw [Routine.rmdir, calls_acquire, calls_bind, calls_readdirNoSeria_of_listed listed,
    CallTrace.andThen_some, first]
  simp only [calls_remove, calls_bind, wrote, count, CallTrace.andThen_some, calls_put,
    calls_release, calls_ret, CallTrace.cons, List.nil_append]
  rw [Nat.add_right_comm]

theorem calls_rmdir_of_stops (parent : ℕ) {name : List UInt8}
    (stops : ¬ (Listed answers 0 ∧ FindsAt answers 0 name)) :
    Stops (((Routine.rmdir parent name).calls answers 0).andThen fun r i =>
      ([], some (.ok (.status r), i))) := by
  rw [Routine.rmdir, calls_acquire, calls_bind]
  by_cases listed : Listed answers 0
  · rw [calls_readdirNoSeria_of_listed listed, CallTrace.andThen_some,
      find_of_not_findsAt fun finds => stops ⟨listed, finds⟩]
    simp only [calls_release, calls_ret, CallTrace.andThen_some, List.append_nil]
    refine ⟨?_, put_not_mem_listingCalls 0 parent⟩
    rintro r ⟨⟩ ⟨⟩
  · obtain ⟨made, subset, calls⟩ := calls_readdirNoSeria_of_not_listed listed parent
    rw [calls, CallTrace.andThen_none, CallTrace.andThen_none]
    exact ⟨by rintro _ ⟨⟩, fun eid data status mem =>
      put_not_mem_listingCalls 0 parent eid data status (subset mem)⟩

theorem rmdir_surfaces_iff (parent : ℕ) (name : List UInt8) :
    Surfaces ((Op.rmdir parent name).calls answers) ↔ ¬ Unchecked answers (.rmdir parent name) := by
  rw [Op.calls, Op.routine, calls_bind]
  by_cases goes : Listed answers 0 ∧ FindsAt answers 0 name
  · obtain ⟨listed, finds⟩ := goes
    obtain ⟨inum, buf, calls⟩ := calls_rmdir parent listed finds
    rw [calls, CallTrace.andThen_some, calls_ret, List.append_nil,
      surfaces_iff_of_isOk rfl (by exact rfl)]
    simp [Unchecked, listingCalls, Call.Failed, listed, finds, listed.1]
  · exact iff_of_true (calls_rmdir_of_stops parent goes).surfaces fun unchecked =>
      goes ⟨unchecked.1, unchecked.2.1⟩

/-! ## All eight -/

/-- **Errors reach the caller and change nothing, exactly when no unchecked call fails.**

`Unchecked` lists the statuses that an operation does not look at.  The trace of each operation is
computed once, and both sides are compared on it. -/
theorem errors_surface_iff {op : Op} (changes : op.Changes) (answers : ℕ → Answer) :
    Surfaces (op.calls answers) ↔ ¬ Unchecked answers op := by
  cases op with
  | read ino size off => exact read_surfaces_iff ino size off
  | write ino off data => exact write_surfaces_iff ino off data
  | setattr ino size => exact iff_of_true (setattr_surfaces ino size) id
  | create parent name => exact create_surfaces_iff parent name
  | mkdir parent name => exact mkdir_surfaces_iff parent name
  | symlink parent name link => exact symlink_surfaces_iff parent name link
  | unlink parent name => exact rmdir_surfaces_iff parent name
  | rmdir parent name => exact rmdir_surfaces_iff parent name
  | _ => exact changes.elim

end Operations

/-- Answers for an empty directory, where call number `k` fails with the status of an `rpcc::call`
that timed out. -/
def outage (k : ℕ) (i : ℕ) : Answer where
  status := if i = k then -1 else 0
  buf := []
  attr := ⟨tDir, 0, 0, 0, 0⟩
  id := 2
  bytes := fun _ => 0

/-- `mkdir` looks at its second `get`: when that fails the process ends, and nothing was made. -/
theorem errors_surface_mkdir : (Op.mkdir 1 [97]).Changes ∧
    ((Op.mkdir 1 [97]).calls (outage 3)).1 =
      [.get 1 0 [], .getattr 1 0 ⟨tDir, 0, 0, 0, 0⟩, .get 1 (-1) []] ∧
    Surfaces ((Op.mkdir 1 [97]).calls (outage 3)) :=
  ⟨trivial, rfl, (errors_surface_iff (by exact trivial) (outage 3)).2 fun unchecked =>
    absurd unchecked.2.2.1 (by decide)⟩

/-- `write` does not look at its `get`: it puts one byte where the file was, and reports that it
was written. -/
theorem failed_get_erases_file : (Op.write 2 0 [88]).Changes ∧
    (Op.write 2 0 [88]).calls (outage 0) =
      ([.get 2 (-1) [], .put 2 [88] 0], some (.ok (.written 1), 2)) ∧
    ¬ Surfaces ((Op.write 2 0 [88]).calls (outage 0)) := by
  refine ⟨trivial, rfl, fun surfaces => ?_⟩
  have failed : (Call.get 2 (-1) []).Failed := show (-1 : ℤ) ≠ 0 by decide
  exact surfaces.reported ⟨_, List.mem_cons_self, failed⟩ (.ok (.written 1)) rfl trivial

end Yfs.Client
