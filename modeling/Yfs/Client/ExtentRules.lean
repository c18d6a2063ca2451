import Yfs.Client.SectionRuns

/-!
# Rules for the extent client

The weakest preconditions of `get`, `getattr` and `put` of the extent a section is about,
and of programs that leave that extent alone.

The rules come in pairs: one for a call on the extent of the section, which says what the entry
is afterwards, and one for calls on other extents, which leaves the view alone.  With the rule
of sequences they are all that proofs about operations use of `extent_client`.

* `Wp.get`, `Wp.getattr`, `Wp.put` — inside a section.
* `Wp.avoids` — a program that does not touch the extent.
-/

namespace Yfs.Client

open Storage

variable {X Op Res α β : Type} {con : Contract X Op} {spec : Spec X Op Res} {op : Op}
  {own : spec.Own} {v : View} {post : β → spec.Own → Option View → Prop}

/-- An operation that listens at most to new ids. -/
def Spec.Deaf (spec : Spec X Op Res) (own : spec.Own) : Prop :=
  ∀ req reply, (∀ type, req ≠ .create type) → spec.hear own req reply = own

namespace Wp

/-- What follows the remote call of `get` and `getattr`. -/
theorem fill {note : Option Note} {f : FullFile} {k : FullFile → Prog β}
    (sound : Note.Sound con.eid v.content note)
    (still : Note.after con.eid v.content note = v.content)
    (rest : ∀ bytes, Wp con spec op post (k f) own
      (some { v with entry := some ((v.entry.getD (.blank bytes)).filled f) })) :
    Wp con spec op post ((ExtentClient.fill con.eid note f).bind k) own (some v) := by
  intro bytes
  simp only [Prog.bind, Wp, if_true]
  exact fun _ => ⟨sound, by rw [still]; exact rest bytes⟩

/-- **`get`.**  A valid buffer is the content, and without one the content is at the server. -/
theorem get {k : List UInt8 → Prog β} (deaf : spec.Deaf own)
    (hit : ∀ f, v.entry = some f → f.bufValid = true →
      f.buf = v.content ∧ Wp con spec op post (k v.content) own (some v))
    (miss : (∀ f, v.entry = some f → f.bufValid = false) → v.data = v.content ∧
      ∀ bytes f, f.buf = v.data → con.kind f.attr.type → Wp con spec op post (k v.content) own
        (some { v with entry := some ((v.entry.getD (.blank bytes)).filled f) })) :
    Wp con spec op post ((ExtentClient.get con.eid).bind k) own (some v) := by
  have missed : (∀ f, v.entry = some f → f.bufValid = false) → Wp con spec op post
      (((Prog.rpc (.get con.eid)).bind fun reply =>
        (ExtentClient.fill con.eid (some (.got con.eid (replyFile reply).buf))
          (replyFile reply)).bind fun f => .ret f.buf).bind k) own (some v) := by
    intro invalid
    obtain ⟨settled, rest⟩ := miss invalid
    intro _ reply data' serves
    obtain ⟨same, replies⟩ := serves
    obtain ⟨f, rfl, buf, kind⟩ := replies rfl
    subst same
    rw [deaf _ _ (by simp)]
    refine Wp.bind (Wp.fill (fun _ => ?_) rfl fun bytes => ?_)
    · rw [← settled]
      exact buf
    · change Wp con spec op post (k f.buf) own _
      rw [buf.trans settled]
      exact rest bytes f buf kind
  obtain ⟨entry, data, base, content⟩ := v
  simp only [ExtentClient.get, Prog.bind, Wp, if_true, id]
  intro guard
  rcases entry with _ | ⟨attr, buf, _ | _, attrValid, dirty⟩
  · exact ⟨trivial, missed (by simp)⟩
  · exact ⟨trivial, missed (by rintro f ⟨⟩; rfl)⟩
  · obtain ⟨eq, rest⟩ := hit _ rfl rfl
    simp only at eq
    subst eq
    exact ⟨fun _ => rfl, rest⟩

/-- **`getattr`.**  Without valid attributes the whole file is fetched again. -/
theorem getattr {k : Attr → Prog β} (deaf : spec.Deaf own)
    (hit : ∀ f, v.entry = some f → f.attrValid = true →
      Wp con spec op post (k f.attr) own (some v))
    (miss : (∀ f, v.entry = some f → f.attrValid = false) →
      ∀ bytes f, f.buf = v.data → con.kind f.attr.type → Wp con spec op post (k f.attr) own
        (some { v with entry := some ((v.entry.getD (.blank bytes)).filled f) })) :
    Wp con spec op post ((ExtentClient.getattr con.eid).bind k) own (some v) := by
  have missed : (∀ f, v.entry = some f → f.attrValid = false) → Wp con spec op post
      (((Prog.rpc (.getattr con.eid)).bind fun reply =>
        (ExtentClient.fill con.eid none (replyFile reply)).bind fun f => .ret f.attr).bind k)
      own (some v) := by
    intro invalid _ reply data' serves
    obtain ⟨same, replies⟩ := serves
    obtain ⟨f, rfl, buf, kind⟩ := replies rfl
    subst same
    rw [deaf _ _ (by simp)]
    exact Wp.bind (Wp.fill trivial rfl fun bytes => miss invalid bytes f buf kind)
  obtain ⟨entry, data, base, content⟩ := v
  simp only [ExtentClient.getattr, Prog.bind, Wp, if_true, id]
  intro guard
  rcases entry with _ | ⟨attr, buf, bufValid, _ | _, dirty⟩
  · exact ⟨trivial, missed (by simp)⟩
  · exact ⟨trivial, missed (by rintro f ⟨⟩; rfl)⟩
  · exact ⟨trivial, hit _ rfl rfl⟩

/-- **`put`.** -/
theorem put {buf : List UInt8} {k : Unit → Prog β}
    (rest : ∀ bytes atime ctime mtime,
      con.guard op v.entry v.data
        (some ((v.entry.getD (.blank bytes)).written buf atime ctime mtime)) →
      Wp con spec op post (k ()) own (some { v with
        entry := some ((v.entry.getD (.blank bytes)).written buf atime ctime mtime)
        content := buf })) :
    Wp con spec op post ((ExtentClient.put con.eid buf).bind k) own (some v) := by
  intro bytes atime ctime mtime
  simp only [Prog.bind, Wp, if_true, Note.Sound, Note.after, true_and]
  exact rest bytes atime ctime mtime

/-- **`create`**: the new entry is not the extent's. -/
theorem create {type : ℕ} {k : ℕ → Prog β} {place : Option View}
    (rest : ∀ id, id ≠ con.eid → id < 2 ^ 64 →
      Wp con spec op post (k id) (spec.hear own (.create type) (.created id)) place) :
    Wp con spec op post ((ExtentClient.create type).bind k) own place := by
  intro bytes atime ctime mtime
  cases place with
  | none =>
      refine fun _ => ⟨trivial, fun data reply data' serves => ?_⟩
      obtain ⟨-, id, rfl, ne, small⟩ := serves
      exact .entry_of_ne ne fun entry => ⟨by simp, rest id ne small⟩
  | some v =>
      rintro - reply data' ⟨rfl, id, rfl, ne, small⟩
      exact .entry_of_ne ne fun entry => ⟨by simp, rest id ne small⟩

/-- **`remove`** of some extent; this one is not removed. -/
theorem remove {id : ℕ} {k : Unit → Prog β} {place : Option View} (deaf : spec.Deaf own)
    (drops : ∀ entry data, con.guard op entry data none → entry = none)
    (removes : ¬ con.allows (.remove con.eid))
    (rest : id ≠ con.eid → Wp con spec op post (k ()) own place) :
    Wp con spec op post ((ExtentClient.remove id).bind k) own place := by
  have call : Wp con spec op post (.call (.remove id) fun _ => k ()) own place := by
    intro allows
    have ne : id ≠ con.eid := by
      rintro rfl
      exact removes allows
    cases place with
    | none =>
        refine ⟨ne, fun data reply data' serves => ?_⟩
        rw [deaf _ _ (by simp)]
        exact rest ne
    | some v =>
        intro reply data' serves
        rw [deaf _ _ (by simp), serves ne]
        exact rest ne
  by_cases eq : id = con.eid
  · subst eq
    cases place with
    | none =>
        simp only [ExtentClient.remove, Prog.bind, Wp, if_true]
        exact fun entry data guard => ⟨(drops entry data guard).symm, trivial, call⟩
    | some v =>
        simp only [ExtentClient.remove, Prog.bind, Wp, if_true]
        refine fun guard => ⟨trivial, ?_⟩
        have here := drops _ _ guard
        obtain ⟨entry, data, base, content⟩ := v
        simp only at here
        subst here
        exact call
  · exact .entry_of_ne eq fun entry => ⟨by simp, call⟩

/-- `put` of another extent. -/
theorem put_of_ne {id : ℕ} {buf : List UInt8} {k : Unit → Prog β} {place : Option View}
    (ne : id ≠ con.eid) (rest : Wp con spec op post (k ()) own place) :
    Wp con spec op post ((ExtentClient.put id buf).bind k) own place := by
  intro bytes atime ctime mtime
  exact .entry_of_ne ne fun entry => ⟨by rintro n ⟨⟩; exact ne, rest⟩

end Wp

/-! ## Programs that leave the extent alone -/

/-- A program that does not use extent `eid` or its lock, and ends with a result in `post`;
it may drop the cache entry of the extent, before it would remove it. -/
def Avoids (eid : ℕ) (post : α → Prop) : Prog α → Prop
  | .ret a => post a
  | .acquire lid next | .release lid next => lid ≠ eid ∧ Avoids eid post next
  | .call req next => req ≠ .remove eid → Spares eid req ∧ ∀ reply,
      (∀ type, req = .create type → ∃ id, reply = .created id ∧ id ≠ eid ∧ id < 2 ^ 64) →
        Avoids eid post (next reply)
  | .entry id update note next =>
      if id = eid then
        ∀ entry, update entry = none ∧ note entry = none ∧ Avoids eid post (next entry)
      else ∀ entry, (∀ n, note entry = some n → n.eid ≠ eid) ∧ Avoids eid post (next entry)
  | .time next => ∀ now, Avoids eid post (next now)
  | .memory next => ∀ bytes, Avoids eid post (next bytes)
  | .exit => True

namespace Avoids

variable {eid : ℕ}

/-- The rule of sequences. -/
theorem bind {post : β → Prop} {p : Prog α} {k : α → Prog β}
    (first : Avoids eid (fun a => Avoids eid post (k a)) p) : Avoids eid post (p.bind k) := by
  induction p with
  | ret a => exact first
  | acquire lid next ih => exact ⟨first.1, ih first.2⟩
  | release lid next ih => exact ⟨first.1, ih first.2⟩
  | call req next ih =>
      exact fun kept => ⟨(first kept).1, fun reply new => ih reply ((first kept).2 reply new)⟩
  | entry id update note next ih =>
      unfold Avoids at first
      rw [Prog.bind, Avoids]
      split
      next eq =>
          rw [if_pos eq] at first
          exact fun entry => ⟨(first entry).1, (first entry).2.1, ih entry (first entry).2.2⟩
      next ne =>
          rw [if_neg ne] at first
          exact fun entry => ⟨(first entry).1, ih entry (first entry).2⟩
  | time next ih => exact fun now => ih now (first now)
  | memory next ih => exact fun bytes => ih bytes (first bytes)
  | exit => trivial

theorem lock {lid : ℕ} {post : β → Prop} {k : Unit → Prog β} (ne : lid ≠ eid)
    (rest : Avoids eid post (k ())) : Avoids eid post ((Prog.lock lid).bind k) :=
  ⟨ne, rest⟩

theorem unlock {lid : ℕ} {post : β → Prop} {k : Unit → Prog β} (ne : lid ≠ eid)
    (rest : Avoids eid post (k ())) : Avoids eid post ((Prog.unlock lid).bind k) :=
  ⟨ne, rest⟩

theorem uninitialised {post : β → Prop} {k : (ℕ → UInt8) → Prog β}
    (rest : ∀ bytes, Avoids eid post (k bytes)) : Avoids eid post (Prog.uninitialised.bind k) :=
  rest

theorem get {id : ℕ} {post : List UInt8 → Prop} (ne : id ≠ eid) (all : ∀ buf, post buf) :
    Avoids eid post (ExtentClient.get id) := by
  have miss : Avoids eid post ((Prog.rpc (.get id)).bind fun reply =>
      (ExtentClient.fill id (some (.got id (replyFile reply).buf)) (replyFile reply)).bind fun f =>
        .ret f.buf) := by
    refine fun _ => ⟨trivial, fun reply _ bytes => ?_⟩
    simp only [Prog.bind, Avoids, if_neg ne]
    exact fun entry => ⟨by rintro n ⟨⟩; exact ne, all _⟩
  simp only [ExtentClient.get, Avoids, if_neg ne]
  intro entry
  rcases entry with _ | ⟨attr, buf, _ | _, attrValid, dirty⟩
  · exact ⟨by simp, miss⟩
  · exact ⟨by simp, miss⟩
  · exact ⟨by rintro n ⟨⟩; exact ne, all buf⟩

theorem getattr {id : ℕ} {post : Attr → Prop} (ne : id ≠ eid) (all : ∀ attr, post attr) :
    Avoids eid post (ExtentClient.getattr id) := by
  have miss : Avoids eid post ((Prog.rpc (.getattr id)).bind fun reply =>
      (ExtentClient.fill id none (replyFile reply)).bind fun f => .ret f.attr) := by
    refine fun _ => ⟨trivial, fun reply _ bytes => ?_⟩
    simp only [Prog.bind, Avoids, if_neg ne]
    exact fun entry => ⟨by simp, all _⟩
  simp only [ExtentClient.getattr, Avoids, if_neg ne]
  intro entry
  rcases entry with _ | ⟨attr, buf, bufValid, _ | _, dirty⟩
  · exact ⟨by simp, miss⟩
  · exact ⟨by simp, miss⟩
  · exact ⟨by simp, all attr⟩

theorem put {id : ℕ} {buf : List UInt8} {post : Unit → Prop} (ne : id ≠ eid) (rest : post ()) :
    Avoids eid post (ExtentClient.put id buf) := by
  intro bytes atime ctime mtime
  simp only [Prog.bind, Avoids, if_neg ne]
  exact fun entry => ⟨by rintro n ⟨⟩; exact ne, rest⟩

theorem create {type : ℕ} {post : ℕ → Prop} (rest : ∀ id, id ≠ eid → post id) :
    Avoids eid post (ExtentClient.create type) := by
  intro bytes atime ctime mtime
  refine fun _ => ⟨trivial, fun reply new => ?_⟩
  obtain ⟨id, rfl, ne, -⟩ := new type rfl
  simp only [Prog.bind, replyId, Avoids, if_neg ne]
  exact fun entry => ⟨by simp, rest id ne⟩

theorem remove {id : ℕ} {post : Unit → Prop} (rest : post ()) :
    Avoids eid post (ExtentClient.remove id) := by
  have call : Avoids eid post (.call (.remove id) fun _ => .ret ()) := by
    refine fun kept => ⟨?_, fun _ _ => rest⟩
    rintro rfl
    exact kept rfl
  unfold ExtentClient.remove Avoids
  split
  next => exact fun _ => ⟨rfl, rfl, call⟩
  next ne => exact fun entry => ⟨by simp, call⟩

end Avoids

/-- The server's new ids. -/
theorem Serves.new {eid type : ℕ} {kind : ℕ → Prop} {data data' : List UInt8} {req : Request}
    {reply : Reply} (serves : Serves eid kind data req reply data') (creates : req = .create type) :
    ∃ id, reply = .created id ∧ id ≠ eid ∧ id < 2 ^ 64 := by
  subst creates
  exact serves.2

/-- **A program that leaves the extent alone** does so outside a section. -/
theorem Wp.avoids {p : Prog β} (drops : ∀ entry data, con.guard op entry data none → entry = none)
    (removes : ¬ con.allows (.remove con.eid)) (deaf : ∀ req reply, spec.hear own req reply = own)
    (avoids : Avoids con.eid (fun a => post a own none) p) :
    Wp con spec op post p own none := by
  induction p with
  | ret a => exact avoids
  | acquire lid next ih => exact .acquire_of_ne avoids.1 (ih avoids.2)
  | release lid next ih => exact .release_of_ne avoids.1 (ih avoids.2)
  | call req next ih =>
      intro allows
      obtain ⟨spares, rest⟩ := avoids (by rintro rfl; exact removes allows)
      refine ⟨spares, fun data reply data' serves => ?_⟩
      rw [deaf]
      exact ih reply (rest reply fun _ => serves.new)
  | entry id update note next ih =>
      unfold Avoids at avoids
      split at avoids
      next eq =>
          simp only [Wp, if_pos eq]
          intro entry data guard
          obtain ⟨dropped, noNote, rest⟩ := avoids entry
          rw [dropped] at guard
          exact ⟨dropped.trans (drops entry data guard).symm, noNote, ih entry rest⟩
      next ne => exact .entry_of_ne ne fun entry => ⟨(avoids entry).1, ih entry (avoids entry).2⟩
  | time next ih => exact fun now => ih now (avoids now)
  | memory next ih => exact fun bytes => ih bytes (avoids bytes)
  | exit => trivial

end Yfs.Client
