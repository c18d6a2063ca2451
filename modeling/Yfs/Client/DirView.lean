import Yfs.Client.FileView

/-!
# Operations on directories, as a client on its own sees them

What `create`, `mkdir`, `symlink`, `unlink`, `rmdir`, `lookup` and `readdir` do to the files
that the client sees, for every string that a directory may have.

The strings need not be well formed: `decodeDir` gives some list for every string, and what the
operations do is stated for that list.  Where the string is that of a directory,
`Client.DirFormat` says which list it is.

* `EntryMade`, `EntryRemoved` — what the operations do.
* `made_view`, `unlinked_view`, `always_lookup`, `always_readdir` — that they do it.
-/

namespace Yfs.Client

open Storage Storage.ExtentServer

/-- **An entry is made**, unless the name is there: a new file, and a record for it at the end of
the directory.

Which inum the server hands out is left open, and so is the memory in the rest of the record: the
name and the number are there, the bytes behind the name are what the memory held. -/
inductive EntryMade (v : FileMap) (d : ℕ) (dir : File) (name : List UInt8) (new : File) :
    YfsStatus × ℕ → FileMap → Prop
  | exist {stack : ℕ → UInt8} {ino : ℕ}
      (bound : bindings (decodeDir stack dir.data) name = some ino) :
      EntryMade v d dir name new (.EXIST, ino) v
  | made {stack bytes : ℕ → UInt8} {ino : ℕ}
      (unbound : bindings (decodeDir stack dir.data) name = none) (low : 2 ≤ ino)
      (high : ino ≤ inodeNum) (free : v ino = none) :
      EntryMade v d dir name new (.OK, ino) (Function.update (Function.update v ino (some new)) d
        (some { dir with data := dir.data ++ encodeDirent bytes ⟨name, ino⟩ }))

/-- **An entry is removed**, if the name is there: its file, and its record; the other records are
written again.

The file goes first and then the record, as in the source; nothing asks what kind of file it is,
or whether it is a directory with entries. -/
inductive EntryRemoved (v : FileMap) (d : ℕ) (dir : File) (name : List UInt8) :
    YfsStatus → FileMap → Prop
  | missing {stack : ℕ → UInt8} (unbound : bindings (decodeDir stack dir.data) name = none) :
      EntryRemoved v d dir name .NOENT v
  | removed {stack : ℕ → UInt8} {ent : Dirent} {buf : List UInt8}
      (found : (decodeDir stack dir.data).find? (fun ent => ent.name = name) = some ent)
      (encodes : Encodes buf ((decodeDir stack dir.data).eraseP fun ent => ent.name = name)) :
      EntryRemoved v d dir name .OK (Function.update (Function.update v ent.inum none) d
        (some { dir with data := buf }))

/-- An operation that makes an entry, and the file that it makes. -/
def Op.Makes (op : Op) (d : ℕ) (name : List UInt8) (new : File) : Prop :=
  (op = .create d name ∧ new = ⟨tFile, []⟩) ∨ (op = .mkdir d name ∧ new = ⟨tDir, []⟩) ∨
    ∃ link, op = .symlink d name link ∧ new = ⟨tSlink, link⟩

/-- An operation that removes an entry. -/
def Op.Unlinks (op : Op) (d : ℕ) (name : List UInt8) : Prop :=
  op = .unlink d name ∨ op = .rmdir d name

section Operations

variable {β : Type} {P : ℕ → Prop} {post : Ending β → Alone FileMap → Prop} {s : Alone FileMap}
  {v : FileMap} {d : ℕ} {dir : File} {name : List UInt8}

theorem erase_held {t : Alone FileMap} (held : t.held = d :: s.held) :
    ({ t with held := t.held.erase d }).held = s.held := by
  show t.held.erase d = s.held
  rw [held]
  exact List.erase_cons_head ..

/-- The locks do not matter to what the client sees. -/
theorem Sees.release {t : Alone FileMap} {held : List ℕ} (sees : Sees P t v) :
    Sees P { t with held := held } v :=
  ⟨sees.files, sees.faithful⟩

/-- The end of `create`, `mkdir` and `symlink`: the parent gets one more record. -/
theorem append_view {k : YfsStatus × ℕ → Prog β} {t : Alone FileMap} {w : FileMap} {ino : ℕ}
    {buf : List UInt8} (held : t.held = d :: s.held) (sees : Sees P t w) (here : w d = some dir)
    (loaded : Loaded t d)
    (rest : ∀ s' bytes, s'.held = s.held →
      Sees P s' (Function.update w d
        (some { dir with data := buf ++ encodeDirent bytes ⟨name, ino⟩ })) →
      Ensures fileServer post (k (.OK, ino)) s') :
    Ensures fileServer post ((YfsClient.newEntry name ino).bind fun record =>
      (ExtentClient.put d (buf ++ record)).bind fun _ => (Prog.unlock d).bind fun _ =>
        k (.OK, ino)) t := by
  intro bytes
  refine Ensures.put_view sees here loaded fun u same sees _ => Ensures.unlock ?_
  exact rest _ bytes (erase_held (same.trans held)) sees.release

/-- **`create`.** -/
theorem Ensures.create_file {k : YfsStatus × ℕ → Prog β} (free : d ∉ s.held) (sees : Sees P s v)
    (mem : P d) (here : v d = some dir) (directory : dir.type = tDir)
    (full : (∀ id, 2 ≤ id → id ≤ inodeNum → v id ≠ none) → ∀ t req, post (.refused req) t)
    (rest : ∀ s' r v', s'.held = s.held → Sees P s' v' → EntryMade v d dir name ⟨tFile, []⟩ r v' →
      Ensures fileServer post (k r) s') :
    Ensures fileServer post ((YfsClient.create d name).bind k) s := by
  simp only [YfsClient.create, Prog.bind_eq, Prog.bind_assoc]
  refine Ensures.lock free (Ensures.lookup_view ⟨sees.files, sees.faithful⟩ mem here directory
    fun t stack held sees loaded => ?_)
  cases found : bindings (decodeDir stack dir.data) name with
  | some ino => exact rest _ _ _ (erase_held held) sees.release (.exist found)
  | none =>
      simp only [Prog.bind_assoc]
      refine Ensures.create_view sees (fun all => full all _ _)
        fun t ino low high dead same sees _ loads => ?_
      have ne : d ≠ ino := by
        rintro rfl
        rw [here] at dead
        cases dead
      have still : Function.update v ino (some ⟨tFile, []⟩) d = some dir := by
        rw [Function.update_of_ne ne, here]
      refine Ensures.get_view sees still fun u same' sees loads' => ?_
      refine append_view (same'.trans (same.trans held)) sees still (loads' d (loads d loaded))
        fun s' bytes held sees => ?_
      exact rest s' _ _ held sees (.made found low high dead)

/-- **`mkdir`.** -/
theorem Ensures.mkdir {k : YfsStatus × ℕ → Prog β} (free : d ∉ s.held) (sees : Sees P s v)
    (mem : P d) (here : v d = some dir) (directory : dir.type = tDir)
    (full : (∀ id, 2 ≤ id → id ≤ inodeNum → v id ≠ none) → ∀ t req, post (.refused req) t)
    (rest : ∀ s' r v', s'.held = s.held → Sees P s' v' → EntryMade v d dir name ⟨tDir, []⟩ r v' →
      Ensures fileServer post (k r) s') :
    Ensures fileServer post ((YfsClient.mkdir d name).bind k) s := by
  simp only [YfsClient.mkdir, Prog.bind_eq, Prog.bind_assoc]
  refine Ensures.lock free (Ensures.lookup_view ⟨sees.files, sees.faithful⟩ mem here directory
    fun t stack held sees loaded => ?_)
  cases found : bindings (decodeDir stack dir.data) name with
  | some ino => exact rest _ _ _ (erase_held held) sees.release (.exist found)
  | none =>
      simp only [Prog.bind_assoc]
      refine Ensures.get_view sees here fun t same sees loads => ?_
      refine Ensures.create_view sees (fun all => full all _ _)
        fun u ino low high dead same' sees _ loads' => ?_
      have ne : d ≠ ino := by
        rintro rfl
        rw [here] at dead
        cases dead
      have still : Function.update v ino (some ⟨tDir, []⟩) d = some dir := by
        rw [Function.update_of_ne ne, here]
      refine append_view (same'.trans (same.trans held)) sees still (loads' d (loads d loaded))
        fun s' bytes held sees => ?_
      exact rest s' _ _ held sees (.made found low high dead)

/-- **`symlink`**; when the name exists the lock stays. -/
theorem Ensures.symlink {k : YfsStatus × ℕ → Prog β} {link : List UInt8} (free : d ∉ s.held)
    (sees : Sees P s v) (mem : P d) (here : v d = some dir) (directory : dir.type = tDir)
    (full : (∀ id, 2 ≤ id → id ≤ inodeNum → v id ≠ none) → ∀ t req, post (.refused req) t)
    (rest : ∀ s' r v', (s'.held = if r.1 = .EXIST then d :: s.held else s.held) → Sees P s' v' →
      EntryMade v d dir name ⟨tSlink, link⟩ r v' → Ensures fileServer post (k r) s') :
    Ensures fileServer post ((YfsClient.symlink d name link).bind k) s := by
  simp only [YfsClient.symlink, Prog.bind_eq, Prog.bind_assoc]
  refine Ensures.lock free (Ensures.get_view ⟨sees.files, sees.faithful⟩ here
    fun t held sees _ => Ensures.lookup_view sees mem here directory
      fun u stack same sees loaded => ?_)
  cases found : bindings (decodeDir stack dir.data) name with
  | some ino => exact rest _ _ _ (same.trans held) sees (.exist found)
  | none =>
      simp only [Prog.bind_assoc]
      refine Ensures.create_view sees (fun all => full all _ _)
        fun t ino low high dead same' sees new loads => ?_
      have ne : d ≠ ino := by
        rintro rfl
        rw [here] at dead
        cases dead
      refine Ensures.put_view sees (Function.update_self ..) new fun w same'' sees loads' => ?_
      rw [Function.update_idem] at sees
      have still : Function.update v ino (some ⟨tSlink, link⟩) d = some dir := by
        rw [Function.update_of_ne ne, here]
      refine append_view (same''.trans (same'.trans (same.trans held))) sees still
        (loads' d (loads d loaded)) fun s' bytes held sees => ?_
      exact rest s' _ _ held sees (.made found low high dead)

/-- **`rmdir`**, which is also `unlink`, of an entry that is not the directory itself. -/
theorem Ensures.rmdir {k : YfsStatus → Prog β} (free : d ∉ s.held) (sees : Sees P s v)
    (mem : P d) (here : v d = some dir) (directory : dir.type = tDir)
    (other : ∀ stack, ∀ ent ∈ decodeDir stack dir.data, ent.name = name → ent.inum ≠ d)
    (rest : ∀ s' r v', s'.held = s.held → Sees P s' v' → EntryRemoved v d dir name r v' →
      Ensures fileServer post (k r) s') :
    Ensures fileServer post ((YfsClient.rmdir d name).bind k) s := by
  simp only [YfsClient.rmdir, Prog.bind_eq, Prog.bind_assoc]
  refine Ensures.lock free (Ensures.readdir_view ⟨sees.files, sees.faithful⟩ mem here directory
    fun t stack held sees loaded => ?_)
  cases found : (decodeDir stack dir.data).find? fun ent => ent.name = name with
  | none =>
      have unbound : bindings (decodeDir stack dir.data) name = none := by
        rw [bindings, found]
        rfl
      exact rest _ _ _ (erase_held held) sees.release (.missing unbound)
  | some ent =>
      simp only [Prog.bind_assoc]
      have named : ent.name = name := by simpa using List.find?_some found
      have ne : ent.inum ≠ d := other stack ent (List.mem_of_find?_eq_some found) named
      refine Ensures.remove_view sees fun u same sees loads =>
        Ensures.encodeDir_view fun buf encodes => ?_
      have still : Function.update v ent.inum none d = some dir := by
        rw [Function.update_of_ne (Ne.symm ne), here]
      refine Ensures.put_view sees still (loads d (Ne.symm ne) loaded)
        fun w same' sees _ => Ensures.unlock ?_
      exact rest _ _ _ (erase_held (same'.trans (same.trans held))) sees.release
        (.removed found encodes)

/-! ## The operations as they are called -/

/-- How an operation that makes an entry ends: it is done, or no inum is free. -/
def EndsMade (P : ℕ → Prop) (s : Alone FileMap) (v : FileMap) (d : ℕ) (dir : File)
    (name : List UInt8) (new : File) (out : Ending Res) (s' : Alone FileMap) : Prop :=
  ((∀ id, 2 ≤ id → id ≤ inodeNum → v id ≠ none) ∧ ∃ req, out = .refused req) ∨
    ∃ r v', out = .returned (.made r.1 r.2) ∧ (r.1 = .OK → s'.held = s.held) ∧ Sees P s' v' ∧
      EntryMade v d dir name new r v'

/-- How an operation that removes an entry ends. -/
def EndsRemoved (P : ℕ → Prop) (s : Alone FileMap) (v : FileMap) (d : ℕ) (dir : File)
    (name : List UInt8) (out : Ending Res) (s' : Alone FileMap) : Prop :=
  ∃ r v', out = .returned (.status r) ∧ s'.held = s.held ∧ Sees P s' v' ∧
    EntryRemoved v d dir name r v'

/-- **An operation that makes an entry** makes it, unless no inum is free. -/
theorem made_view {op : Op} {new : File} (makes : op.Makes d name new) (free : d ∉ s.held)
    (sees : Sees P s v) (mem : P d) (here : v d = some dir) (directory : dir.type = tDir) :
    Ensures fileServer (EndsMade P s v d dir name new) op.prog s := by
  have full : (∀ id, 2 ≤ id → id ≤ inodeNum → v id ≠ none) → ∀ t req,
      EndsMade P s v d dir name new (.refused req) t :=
    fun all _ req => Or.inl ⟨all, req, rfl⟩
  rcases makes with ⟨rfl, rfl⟩ | ⟨rfl, rfl⟩ | ⟨link, rfl, rfl⟩
  · refine Ensures.create_file free sees mem here directory full fun s' r v' held sees made => ?_
    exact Or.inr ⟨r, v', rfl, fun _ => held, sees, made⟩
  · refine Ensures.mkdir free sees mem here directory full fun s' r v' held sees made => ?_
    exact Or.inr ⟨r, v', rfl, fun _ => held, sees, made⟩
  · refine Ensures.symlink free sees mem here directory full fun s' r v' held sees made => ?_
    refine Or.inr ⟨r, v', rfl, fun ok => ?_, sees, made⟩
    rw [held, if_neg (by rw [ok]; nofun)]

/-- **An operation that removes an entry** removes it. -/
theorem unlinked_view {op : Op} (unlinks : op.Unlinks d name) (free : d ∉ s.held)
    (sees : Sees P s v) (mem : P d) (here : v d = some dir) (directory : dir.type = tDir)
    (other : ∀ stack, ∀ ent ∈ decodeDir stack dir.data, ent.name = name → ent.inum ≠ d) :
    Ensures fileServer (EndsRemoved P s v d dir name) op.prog s := by
  have body : Ensures fileServer (EndsRemoved P s v d dir name)
      ((YfsClient.rmdir d name).result .status) s :=
    Ensures.rmdir free sees mem here directory other fun s' r v' held sees removed =>
      ⟨r, v', rfl, held, sees, removed⟩
  rcases unlinks with rfl | rfl
  · exact body
  · exact body

/-- **`lookup`** returns the binding of the name. -/
theorem always_lookup (name : List UInt8) (free : d ∉ s.held) (sees : Sees P s v) (mem : P d)
    (here : v d = some dir) (directory : dir.type = tDir) :
    Always fileServer (Op.prog (.lookup d name)) s fun out _ => ∃ stack,
      out = .returned (.found (bindings (decodeDir stack dir.data) name)) := by
  apply Ensures.always
  simp only [Op.prog, Prog.result, YfsClient.lookup, Prog.bind_eq, Prog.bind_assoc]
  refine Ensures.lock free (Ensures.lookup_view ⟨sees.files, sees.faithful⟩ mem here directory
    fun t stack held sees loaded => ?_)
  exact ⟨stack, rfl⟩

/-- **`readdir`** returns the entries. -/
theorem always_readdir (free : d ∉ s.held) (sees : Sees P s v) (mem : P d)
    (here : v d = some dir) (directory : dir.type = tDir) :
    Always fileServer (Op.prog (.readdir d)) s fun out _ => ∃ stack,
      out = .returned (.entries (decodeDir stack dir.data)) := by
  apply Ensures.always
  simp only [Op.prog, Prog.result, YfsClient.readdir, Prog.bind_eq, Prog.bind_assoc]
  refine Ensures.lock free (Ensures.readdir_view ⟨sees.files, sees.faithful⟩ mem here directory
    fun t stack held sees loaded => ?_)
  exact ⟨stack, rfl⟩

end Operations

end Yfs.Client
