import Yfs.Client.DirView

/-!
# Names and the directory format

A record has 64 bytes for a name, the length of the name behind them, and no check.  A name
of up to 64 bytes survives.  Of a longer one the 65th and 66th byte are written over the
length.

A name has no terminator in the record, and `name_length` has 16 bits, so which names survive is
a question about the two bytes behind the name field.  The equivalence is over names of up to
255 bytes, which is what the kernel passes on.

* `Readable` — the names that a record gives back.
* `NameSurvives` — what is required after an entry was made.
* `names_survive_iff` — the names that survive are the readable ones.
* `long_name_lost` — a name of 65 bytes that is lost.
-/

namespace Yfs.Client

open Storage Storage.ExtentServer

/-- **The names that a record gives back**: those that fit, and those of 65 bytes whose last
byte happens to be their length. -/
def Readable (name : List UInt8) : Prop :=
  name.length ≤ 64 ∨ (name.length = 65 ∧ name.getD 64 0 = 65)

/-! ## One record -/

theorem Readable.length_le {name : List UInt8} (readable : Readable name) : name.length ≤ 65 := by
  rcases readable with short | ⟨length, -⟩
  · omega
  · omega

/-- A readable name is read back. -/
theorem decodeDirent_of_readable (beyond bytes : ℕ → UInt8) {ent : Dirent}
    (readable : Readable ent.name) (bound : ent.inum < 2 ^ 64) :
    decodeDirent beyond (encodeDirent bytes ent) = ent := by
  rcases readable with short | ⟨length, last⟩
  · exact decodeDirent_encodeDirent beyond bytes ⟨short, bound⟩
  · refine decodeDirent_of_nameLength beyond bytes (by omega) bound ?_
    rw [nameLength_encodeDirent bytes (by omega), if_pos (by omega), if_neg (by omega), last,
      length]
    decide

/-- Any other name is not: the length that is read back is wrong. -/
theorem name_decodeDirent_ne (beyond bytes : ℕ → UInt8) {ent : Dirent} (noNul : 0 ∉ ent.name)
    (long : ent.name.length ≤ 255) (unreadable : ¬ Readable ent.name) :
    (decodeDirent beyond (encodeDirent bytes ent)).name ≠ ent.name := by
  intro same
  have length := congrArg List.length same
  rw [length_name_decodeDirent _ (length_encodeDirent bytes ent),
    nameLength_encodeDirent bytes (by omega)] at length
  have exceeds : 64 < ent.name.length := by
    by_contra short
    exact unreadable (Or.inl (by omega))
  rw [if_pos exceeds] at length
  by_cases more : 65 < ent.name.length
  · -- the high byte of the length is a byte of the name, so not zero
    rw [if_pos more] at length
    have mem : ent.name.getD 65 0 ∈ ent.name := by
      rw [List.getD_eq_getElem _ _ more]
      exact List.getElem_mem more
    have pos : (ent.name.getD 65 0).toNat ≠ 0 := by
      intro zero
      have nul : ent.name.getD 65 0 = 0 := UInt8.toNat_inj.mp zero
      rw [nul] at mem
      exact noNul mem
    omega
  · rw [if_neg more] at length
    refine unreadable (Or.inr ⟨by omega, UInt8.toNat_inj.mp ?_⟩)
    have : (65 : UInt8).toNat = 65 := rfl
    omega

/-! ## Strings of records -/

/-- Entries whose names are read back. -/
def Dirent.Lasting (ent : Dirent) : Prop := Readable ent.name ∧ ent.inum < 2 ^ 64

/-- A string of whole records that is read as `entries`, whatever is on the stack.

A record whose length field is too large is read beyond its end, where the stack is, and then no
list of entries will do. -/
structure ReadAs (buf : List UInt8) (entries : List Dirent) : Prop where
  records : direntSize ∣ buf.length
  decode : ∀ stack, decodeDir stack buf = entries

theorem IsDirectory.readAs {buf : List UInt8} (isDirectory : IsDirectory buf) :
    ReadAs buf (entriesOf buf) :=
  ⟨isDirectory.records, isDirectory.decode⟩

theorem IsDirectory.lasting {buf : List UInt8} (isDirectory : IsDirectory buf) :
    ∀ ent ∈ entriesOf buf, ent.Lasting := by
  intro ent mem
  have fits := isDirectory.fits ent mem
  exact ⟨Or.inl fits.name, fits.inum⟩

/-- One more record. -/
theorem ReadAs.append {buf : List UInt8} {entries : List Dirent} (reads : ReadAs buf entries)
    (bytes : ℕ → UInt8) {ent : Dirent} (lasting : ent.Lasting)
    (room : buf.length + direntSize < 2 ^ 32) :
    ReadAs (buf ++ encodeDirent bytes ent) (entries ++ [ent]) := by
  have whole := length_encodeDirent bytes ent
  obtain ⟨n, length⟩ := reads.records
  refine ⟨⟨n + 1, ?_⟩, fun stack => ?_⟩
  · rw [List.length_append, whole, length, Nat.mul_succ]
  · rw [decodeDir_append stack length whole (by rw [List.length_append, whole]; exact room),
      reads.decode, decodeDirent_of_readable _ bytes lasting.1 lasting.2]

/-- Records that are written again. -/
theorem ReadAs.of_encodes {buf : List UInt8} {entries : List Dirent} (encodes : Encodes buf entries)
    (lasting : ∀ ent ∈ entries, ent.Lasting) (bound : buf.length < 2 ^ 32) :
    ReadAs buf entries := by
  obtain ⟨records, decoded⟩ := encodes.decode (fun ent mem bytes =>
    decodeDirent_of_readable _ bytes (lasting ent mem).1 (lasting ent mem).2) bound
  refine ⟨records, fun stack => ?_⟩
  rw [decodeDir_eq_entriesOf (fun ent mem => ?_) stack, decoded]
  rw [decoded] at mem
  have := (lasting ent mem).1.length_le
  omega

/-- The length of a string that is read as so many entries. -/
theorem ReadAs.length {buf : List UInt8} {entries : List Dirent} (reads : ReadAs buf entries)
    (bound : buf.length < 2 ^ 32) : buf.length = direntSize * entries.length := by
  obtain ⟨n, length⟩ := reads.records
  have pos : 0 < direntSize := by decide
  rw [← reads.decode fun _ => 0, decodeDir, List.length_map, List.length_range,
    Nat.mod_eq_of_lt bound, length, Nat.mul_div_cancel_left n pos]

/-! ## What is required -/

/-- The operation returns that. -/
abbrev Yields (s : Alone FileMap) (op : Op) (res : Res) : Prop :=
  Always fileServer op.prog s fun out _ => out = .returned res

/-- **The name survives** in directory `d`, which had the entries `old` before: it is found, the
directory has the old entries and the new one, and all of that stays when another entry is
unlinked.

All of it is about the same client.  The condition on the entry that is unlinked excludes one that
refers to the directory itself, which the unlink would remove. -/
structure NameSurvives (s : Alone FileMap) (d : ℕ) (old : List Dirent) (name : List UInt8)
    (ino : ℕ) : Prop where
  found : Yields s (.lookup d name) (.found (some ino))
  listed : Yields s (.readdir d) (.entries (old ++ [⟨name, ino⟩]))
  kept : ∀ ent ∈ old, Yields s (.lookup d ent.name) (.found (some ent.inum))
  unlinked : ∀ other, other ≠ name → (∀ ent ∈ old, ent.name = other → ent.inum ≠ d) →
    ∀ acts res s', Runs fileServer (Op.prog (.unlink d other)) s acts (.returned res) s' →
      Yields s' (.lookup d name) (.found (some ino)) ∧
        ∀ ent ∈ old, ent.name ≠ other → Yields s' (.lookup d ent.name) (.found (some ent.inum))

section Survival

variable {s : Alone FileMap} {v : FileMap} {d : ℕ} {dir : File}

/-- A name that is bound is found. -/
theorem yields_lookup {entries : List Dirent} (free : d ∉ s.held) (sees : Sees (· = d) s v)
    (here : v d = some dir) (directory : dir.type = tDir) (reads : ReadAs dir.data entries)
    {name : List UInt8} {ino : ℕ} (bound : bindings entries name = some ino) :
    Yields s (.lookup d name) (.found (some ino)) := by
  obtain ⟨runs, all⟩ := always_lookup name free sees rfl here directory
  refine ⟨runs, fun acts out s' run => ?_⟩
  obtain ⟨stack, eq⟩ := all acts out s' run
  rw [eq, reads.decode, bound]

/-- A directory is listed. -/
theorem yields_readdir {entries : List Dirent} (free : d ∉ s.held) (sees : Sees (· = d) s v)
    (here : v d = some dir) (directory : dir.type = tDir) (reads : ReadAs dir.data entries) :
    Yields s (.readdir d) (.entries entries) := by
  obtain ⟨runs, all⟩ := always_readdir free sees rfl here directory
  refine ⟨runs, fun acts out s' run => ?_⟩
  obtain ⟨stack, eq⟩ := all acts out s' run
  rw [eq, reads.decode]

/-- **A readable name survives.** -/
theorem nameSurvives_of_readAs {old : List Dirent} {name : List UInt8} {ino : ℕ}
    (free : d ∉ s.held) (sees : Sees (· = d) s v) (here : v d = some dir)
    (directory : dir.type = tDir) (reads : ReadAs dir.data (old ++ [⟨name, ino⟩]))
    (lasting : ∀ ent ∈ old ++ [(⟨name, ino⟩ : Dirent)], ent.Lasting)
    (nodup : ((old ++ [(⟨name, ino⟩ : Dirent)]).map Dirent.name).Nodup)
    (bound : dir.data.length < 2 ^ 32) :
    NameSurvives s d old name ino := by
  have last : (⟨name, ino⟩ : Dirent) ∈ old ++ [⟨name, ino⟩] :=
    List.mem_append_right _ (List.mem_singleton_self _)
  have first : ∀ ent ∈ old, ent ∈ old ++ [⟨name, ino⟩] := fun ent mem =>
    List.mem_append_left _ mem
  have finds : ∀ ent ∈ old ++ [(⟨name, ino⟩ : Dirent)],
      bindings (old ++ [⟨name, ino⟩]) ent.name = some ent.inum := fun ent mem =>
    (mem_iff_bindings nodup ent.name ent.inum).mp mem
  refine ⟨?_, ?_, fun ent mem => ?_, fun other ne apart acts res s' run => ?_⟩
  · exact yields_lookup free sees here directory reads (finds _ last)
  · exact yields_readdir free sees here directory reads
  · exact yields_lookup free sees here directory reads (finds ent (first ent mem))
  · have notSelf : ∀ stack, ∀ ent ∈ decodeDir stack dir.data, ent.name = other → ent.inum ≠ d := by
      intro stack ent mem named
      rw [reads.decode] at mem
      rcases List.mem_append.mp mem with mem | mem
      · exact apart ent mem named
      · rw [List.mem_singleton.mp mem] at named
        exact absurd named.symm ne
    obtain ⟨r, v', -, held, sees', removed⟩ :=
      (unlinked_view (Or.inl rfl) free sees rfl here directory notSelf).runs run
    have free' : d ∉ s'.held := by rwa [held]
    cases removed with
    | missing =>
        refine ⟨yields_lookup free' sees' here directory reads (finds _ last), fun ent mem _ => ?_⟩
        exact yields_lookup free' sees' here directory reads (finds ent (first ent mem))
    -- the records that stay are written again, from what was read
    | @removed stack ent buf found encodes =>
        rw [reads.decode] at encodes
        have sub : ((old ++ [(⟨name, ino⟩ : Dirent)]).eraseP fun ent => ent.name = other).Sublist
            (old ++ [⟨name, ino⟩]) := List.eraseP_sublist
        have short : buf.length < 2 ^ 32 := by
          have := Nat.mul_le_mul_left direntSize sub.length_le
          rw [encodes.length]
          rw [reads.length bound] at bound
          omega
        have reads' : ReadAs buf
            ((old ++ [(⟨name, ino⟩ : Dirent)]).eraseP fun ent => ent.name = other) :=
          .of_encodes encodes (fun ent mem => lasting ent (sub.subset mem)) short
        have here' : Function.update (Function.update v ent.inum none) d
            (some { dir with data := buf }) d = some { dir with data := buf } :=
          Function.update_self ..
        have finds' : ∀ ent ∈ old ++ [(⟨name, ino⟩ : Dirent)], ent.name ≠ other →
            bindings ((old ++ [(⟨name, ino⟩ : Dirent)]).eraseP fun ent => ent.name = other)
              ent.name = some ent.inum := by
          intro ent mem apart
          rw [bindings_eraseP nodup other, Function.update_of_ne apart, finds ent mem]
        refine ⟨yields_lookup free' sees' here' directory reads' (finds' _ last (Ne.symm ne)), ?_⟩
        intro ent mem apart
        exact yields_lookup free' sees' here' directory reads' (finds' ent (first ent mem) apart)

/-- A directory that a client on its own can add an entry to: it is as the format wants it,
there is room for one more record, and there is a free inum. -/
structure Extensible (s : Alone FileMap) (v : FileMap) (d : ℕ) (dir : File) : Prop where
  sees : Sees (· = d) s v
  here : v d = some dir
  directory : dir.type = tDir
  records : IsDirectory dir.data
  room : dir.data.length + direntSize < 2 ^ 32
  free : d ∉ s.held
  inum : ∃ id, 2 ≤ id ∧ id ≤ inodeNum ∧ v id = none

section Making

variable {name : List UInt8} {op : Op} {new : File}

/-- A new name can be made. -/
theorem Extensible.exists_made (ready : Extensible s v d dir)
    (unbound : directoryOf dir.data name = none) (makes : op.Makes d name new) :
    ∃ acts ino s' bytes, Runs fileServer op.prog s acts (.returned (.made .OK ino)) s' ∧
      s'.held = s.held ∧ Sees (· = d) s' (Function.update (Function.update v ino (some new)) d
        (some { dir with data := dir.data ++ encodeDirent bytes ⟨name, ino⟩ })) := by
  obtain ⟨id, low, high, dead⟩ := ready.inum
  obtain ⟨acts, out, s', run⟩ := exists_runs fileServer op.prog s
  rcases (made_view makes ready.free ready.sees rfl ready.here ready.directory).runs run with
    ⟨full, -⟩ | ⟨r, v', rfl, held, sees', made⟩
  · exact absurd dead (full id low high)
  · cases made with
    | exist bound =>
        rw [ready.records.decode] at bound
        exact nomatch unbound.symm.trans bound
    | @made stack bytes ino => exact ⟨acts, ino, s', bytes, run, held rfl, sees'⟩

/-- A name that survives is readable. -/
theorem readable_of_survives (ready : Extensible s v d dir) (noNul : 0 ∉ name)
    (long : name.length ≤ 255) (unbound : directoryOf dir.data name = none)
    (makes : op.Makes d name new)
    (survives : ∀ acts ino s', Runs fileServer op.prog s acts (.returned (.made .OK ino)) s' →
      NameSurvives s' d (entriesOf dir.data) name ino) : Readable name := by
  by_contra unreadable
  obtain ⟨acts, ino, s', bytes, run, held, sees'⟩ := ready.exists_made unbound makes
  obtain ⟨-, -, directory, records, room, free, -⟩ := ready
  obtain ⟨⟨acts', out', t, look⟩, found⟩ := (survives acts ino s' run).found
  obtain ⟨stack', eq⟩ := (always_lookup name (by rwa [held]) sees' rfl
    (Function.update_self ..) directory).2 acts' out' t look
  rw [found acts' out' t look] at eq
  obtain ⟨n, length⟩ := records.records
  have whole := length_encodeDirent bytes ⟨name, ino⟩
  have other : (decodeDirent (fun k => stack' (2 ^ 16 * n + k))
      (encodeDirent bytes ⟨name, ino⟩)).name ≠ name :=
    name_decodeDirent_ne _ bytes noNul long unreadable
  have absent : bindings (decodeDir stack' (dir.data ++ encodeDirent bytes ⟨name, ino⟩))
      name = none := by
    rw [decodeDir_append stack' length whole (by rw [List.length_append, whole]; exact room),
      records.decode, bindings_eq_none, List.map_append, List.map_singleton, List.mem_append,
      List.mem_singleton]
    rintro (mem | same)
    · exact bindings_eq_none.mp unbound mem
    · exact other same.symm
  rw [absent] at eq
  cases eq

/-- A readable name survives. -/
theorem survives_of_readable (ready : Extensible s v d dir)
    (unbound : directoryOf dir.data name = none) (makes : op.Makes d name new)
    (readable : Readable name) {acts : List Act} {ino : ℕ} {s' : Alone FileMap}
    (run : Runs fileServer op.prog s acts (.returned (.made .OK ino)) s') :
    NameSurvives s' d (entriesOf dir.data) name ino := by
  obtain ⟨sees, here, directory, records, room, free, -⟩ := ready
  rcases (made_view makes free sees rfl here directory).runs run with
    ⟨-, req, eq⟩ | ⟨r, v', eq, held, sees', made⟩
  · cases eq
  · obtain ⟨status, ino'⟩ := r
    obtain ⟨rfl, rfl⟩ := Res.made.inj (Ending.returned.inj eq)
    cases made with
    | @made stack bytes _ _ low high dead =>
        have small : ino < 2 ^ 64 := by
          have : inodeNum < 2 ^ 64 := by decide
          omega
        have lasting : Dirent.Lasting ⟨name, ino⟩ := ⟨readable, small⟩
        refine nameSurvives_of_readAs (by rwa [held rfl]) sees' (Function.update_self ..) directory
          (records.readAs.append bytes lasting room) ?_ ?_ ?_
        · intro ent mem
          rcases List.mem_append.mp mem with mem | mem
          · exact records.lasting ent mem
          · rw [List.mem_singleton.mp mem]
            exact lasting
        · rw [List.map_append, List.map_singleton, List.nodup_append]
          refine ⟨records.nodup, by simp, ?_⟩
          rintro n mem _ last rfl
          rw [List.mem_singleton] at last
          rw [last] at mem
          exact bindings_eq_none.mp unbound mem
        · rw [List.length_append, length_encodeDirent]
          exact room

/-- **The names that survive are the readable ones.**

`Extensible` is what the operation needs to succeed at all.  The bytes of the stack are arbitrary
in every step, so a name survives only if it does whatever they are. -/
theorem names_survive_iff (ready : Extensible s v d dir) (noNul : 0 ∉ name)
    (long : name.length ≤ 255) (unbound : directoryOf dir.data name = none)
    (makes : op.Makes d name new) :
    (∀ acts ino s', Runs fileServer op.prog s acts (.returned (.made .OK ino)) s' →
      NameSurvives s' d (entriesOf dir.data) name ino) ↔ Readable name :=
  ⟨readable_of_survives ready noNul long unbound makes,
    fun readable _ _ _ run => survives_of_readable ready unbound makes readable run⟩

end Making

/-- The empty root of a new file system. -/
theorem extensible_root : Extensible aloneAtRoot initialFiles 1 ⟨tDir, []⟩ where
  sees := by
    constructor
    · funext ino
      show (initialFiles ino).map _ = initialFiles ino
      cases initialFiles ino <;> rfl
    · intro ino file _ _
      exact ⟨nofun, nofun⟩
  here := rfl
  directory := rfl
  records := .nil
  room := by decide
  free := by simp [aloneAtRoot]
  inum := ⟨2, by decide, by decide, rfl⟩

/-- A name of one byte survives in the root. -/
theorem names_survive_in_root : ∃ acts ino s',
    Runs fileServer (Op.prog (.create 1 [97])) aloneAtRoot acts (.returned (.made .OK ino)) s' ∧
      NameSurvives s' 1 (entriesOf []) [97] ino := by
  have makes : Op.Makes (.create 1 [97]) 1 [97] ⟨tFile, []⟩ := Or.inl ⟨rfl, rfl⟩
  have readable : Readable [97] := Or.inl (by decide)
  obtain ⟨acts, ino, s', -, run, -⟩ := extensible_root.exists_made rfl makes
  exact ⟨acts, ino, s', run, (names_survive_iff extensible_root (by decide) (by decide) rfl
    makes).mpr readable acts ino s' run⟩

/-- **A name of 65 bytes is lost.** -/
theorem long_name_lost : ¬ ∀ acts ino s',
    Runs fileServer (Op.prog (.create 1 (List.replicate 65 98))) aloneAtRoot acts
        (.returned (.made .OK ino)) s' →
      NameSurvives s' 1 (entriesOf []) (List.replicate 65 98) ino := by
  intro survives
  have readable := readable_of_survives extensible_root (by decide) (by decide) rfl
    (Or.inl ⟨rfl, rfl⟩) survives
  exact absurd readable (by unfold Readable; decide)

end Survival

end Yfs.Client
