import Yfs.Client.System

/-!
# Programs that use an extent under its lock

A weakest precondition for the programs of a client, with respect to one extent `eid`: a
thread touches the extent only between its `acquire` and its `release` of lock `eid`, and
in between it sees the extent as a `View`: the entry in its client's cache, the string at
the extent server, and the content that the cache and the server stand for together.

The precondition is for one extent, and the program may use others: what it does to them is not
looked at, and what others do to extent `eid` in the meantime is excluded by the lock.  That is
why a view that was established after `acquire` is still there at the next action, and it is the
only use of mutual exclusion; the runs are in `Client.SectionRuns`.

* `Spec` — what the operations are for: steps on an abstract state, one for each section,
  and the results they lead to.
* `Contract` — what holds of the entry and the server between two sections.
* `Wp` — the weakest precondition, with its rule for sequences (`Wp.bind`).
* `Explained` — a history that a run of the specification explains.
-/

namespace Yfs.Client

open Storage Lock

/-! ## The extent at the server and in a cache -/

/-- An entry that says nothing: there is none, or all its flags are cleared. -/
def Quiet (entry : Entry) : Prop :=
  ∀ file, entry = some file → file.bufValid = false ∧ file.attrValid = false ∧ file.dirty = false

theorem quiet_none : Quiet none := by
  rintro file ⟨⟩

/-- **A server that stores extent `eid` faithfully**: what a request does when the extent
has the string `data` before it and `data'` after it.  Every file that the server sends
for the extent has a type of `kind`, and a new id is a 64-bit number and not `eid`. -/
def Serves (eid : ℕ) (kind : ℕ → Prop) (data : List UInt8) :
    Request → Reply → List UInt8 → Prop
  | .create _, reply, data' =>
      data' = data ∧ ∃ id, reply = .created id ∧ id ≠ eid ∧ id < 2 ^ 64
  | .put id buf, _, data' => data' = if id = eid then buf else data
  | .get id, reply, data' | .getattr id, reply, data' =>
      data' = data ∧ (id = eid → ∃ f, reply = .file f ∧ f.buf = data ∧ kind f.attr.type)
  | .remove id, _, data' => id ≠ eid → data' = data

/-- A request that leaves extent `eid` as it is. -/
def Spares (eid : ℕ) : Request → Prop
  | .put id _ | .remove id => id ≠ eid
  | _ => True

theorem Serves.same {eid : ℕ} {kind : ℕ → Prop} {data data' : List UInt8} {req : Request}
    {reply : Reply} (serves : Serves eid kind data req reply data') (spares : Spares eid req) :
    data' = data := by
  cases req with
  | create type => exact serves.1
  | put id buf => rw [show data' = _ from serves, if_neg spares]
  | get id => exact serves.1
  | getattr id => exact serves.1
  | remove id => exact serves spares

/-! ## Notes -/

/-- The content of extent `eid` after a note: the string of the latest put. -/
def Note.after (eid : ℕ) (content : List UInt8) : Option Note → List UInt8
  | some (.put id buf) => if id = eid then buf else content
  | _ => content

/-- A get of extent `eid` returns its content. -/
def Note.Sound (eid : ℕ) (content : List UInt8) : Option Note → Prop
  | some (.got id buf) => id = eid → buf = content
  | _ => True

/-! ## Specifications -/

/-- **What operations are for**, on an abstract state `X`: an operation in progress is somewhere
in `Own`; `enter` is the acquire of the lock, `hear` the reply to a remote call, `commit` a step
on the state, at the end of a section, and `finish` says which result may be returned.

The steps of `commit` are atomic and the others do not touch the state, so that a history which a
specification explains is one in which operations happen at once. -/
structure Spec (X Op Res : Type) where
  Own : Type
  begins : Op → Own
  enter : Own → Own → Prop
  hear : Own → Request → Reply → Own
  commit : X → Own → X → Own → Prop
  finish : Op → Own → Res → Prop

/-- What holds of extent `eid` between two sections. `fits entry data content` is about the cache
entry of the client that has the lock and the string at the server, `good` about the content;
`guard` is what is known of an access that stores an entry, and `allows` what is known of a remote
call.

The last four fields are what the invariant needs: a quiet entry is a good start, and what the
lock leaves behind, in a dirty entry or at the server, is the content. -/
structure Contract (X Op : Type) where
  eid : ℕ
  abs : List UInt8 → X
  kind : ℕ → Prop
  good : List UInt8 → Prop
  fits : Entry → List UInt8 → List UInt8 → Prop
  guard : Op → Entry → List UInt8 → Entry → Prop
  allows : Request → Prop
  fresh : ∀ entry data, Quiet entry → good data → fits entry data data
  sound : ∀ entry data content, fits entry data content → good content
  dirty : ∀ file data content, fits (some file) data content → file.dirty = true →
    file.buf = content
  clean : ∀ entry data content, fits entry data content →
    (∀ file, entry = some file → file.dirty = false) → data = content

/-- Extent `eid` as a thread in a section sees it; `base` is the content at the beginning of the
section.

In a section nobody else changes any of it, so a program can be followed with these four alone. -/
structure View where
  entry : Entry
  data : List UInt8
  base : List UInt8
  content : List UInt8

section Wp

variable {X Op Res α β : Type} (con : Contract X Op) (spec : Spec X Op Res) (op : Op)

/-- **The weakest precondition** of a program of operation `op`.  The thread is outside a
section (`none`) or inside, with a view of the extent. -/
def Wp (post : α → spec.Own → Option View → Prop) :
    Prog α → spec.Own → Option View → Prop
  | .ret a, own, place => post a own place
  | .acquire lid next, own, place =>
      if lid = con.eid then
        match place with
        | none => ∀ entry data content, con.fits entry data content →
            ∃ own', spec.enter own own' ∧ Wp post next own' (some ⟨entry, data, content, content⟩)
        | some _ => True
      else Wp post next own place
  | .release lid next, own, place =>
      if lid = con.eid then
        match place with
        | none => False
        | some v => con.fits v.entry v.data v.content ∧
            ∃ own', spec.commit (con.abs v.base) own (con.abs v.content) own' ∧
              Wp post next own' none
      else Wp post next own place
  | .call req next, own, place =>
      con.allows req →
        match place with
        | none => Spares con.eid req ∧ ∀ data reply data',
            Serves con.eid con.kind data req reply data' →
              Wp post (next reply) (spec.hear own req reply) none
        | some v => ∀ reply data', Serves con.eid con.kind v.data req reply data' →
            Wp post (next reply) (spec.hear own req reply) (some { v with data := data' })
  | .entry id update note next, own, place =>
      if id = con.eid then
        match place with
        | none => ∀ entry data, con.guard op entry data (update entry) →
            update entry = entry ∧ note entry = none ∧ Wp post (next entry) own none
        | some v => con.guard op v.entry v.data (update v.entry) →
            Note.Sound con.eid v.content (note v.entry) ∧
            Wp post (next v.entry) own (some { v with
              entry := update v.entry
              content := Note.after con.eid v.content (note v.entry) })
      else ∀ entry, (∀ n, note entry = some n → n.eid ≠ con.eid) ∧ Wp post (next entry) own place
  | .time next, own, place => ∀ now, Wp post (next now) own place
  | .memory next, own, place => ∀ bytes, Wp post (next bytes) own place
  | .exit, _, _ => True

/-- What an operation has to establish before it returns `res`.  When it returns inside a
section, the section ends there as far as the specification is concerned, and the lock
stays with the thread. -/
def Finishes (res : Res) (own : spec.Own) : Option View → Prop
  | none => spec.finish op own res
  | some v => ∃ own', spec.commit (con.abs v.base) own (con.abs v.content) own' ∧
      spec.finish op own' res

variable {con spec op}

/-- The rule of sequences. -/
theorem Wp.bind {post : β → spec.Own → Option View → Prop} {p : Prog α} {k : α → Prog β}
    {own : spec.Own} {place : Option View}
    (first : Wp con spec op (fun a own place => Wp con spec op post (k a) own place) p own place) :
    Wp con spec op post (p.bind k) own place := by
  induction p generalizing own place with
  | ret a => exact first
  | acquire lid next ih =>
      by_cases eq : lid = con.eid
      · cases place with
        | none =>
            simp only [Wp, if_pos eq] at first
            simp only [Prog.bind, Wp, if_pos eq]
            intro entry data content fits
            obtain ⟨own', enter, rest⟩ := first entry data content fits
            exact ⟨own', enter, ih rest⟩
        | some v => simp only [Prog.bind, Wp, if_pos eq]
      · cases place <;> simp only [Wp, if_neg eq] at first <;>
          simp only [Prog.bind, Wp, if_neg eq] <;> exact ih first
  | release lid next ih =>
      by_cases eq : lid = con.eid
      · cases place with
        | none => simp only [Wp, if_pos eq] at first
        | some v =>
            simp only [Wp, if_pos eq] at first
            simp only [Prog.bind, Wp, if_pos eq]
            obtain ⟨fits, own', commit, rest⟩ := first
            exact ⟨fits, own', commit, ih rest⟩
      · cases place <;> simp only [Wp, if_neg eq] at first <;>
          simp only [Prog.bind, Wp, if_neg eq] <;> exact ih first
  | call req next ih =>
      intro allows
      have first := first allows
      cases place with
      | none =>
          exact ⟨first.1, fun data reply data' serves =>
            ih reply (first.2 data reply data' serves)⟩
      | some v => exact fun reply data' serves => ih reply (first reply data' serves)
  | entry id update note next ih =>
      by_cases eq : id = con.eid
      · cases place with
        | none =>
            simp only [Wp, if_pos eq] at first
            simp only [Prog.bind, Wp, if_pos eq]
            intro entry data guard
            obtain ⟨same, noNote, rest⟩ := first entry data guard
            exact ⟨same, noNote, ih entry rest⟩
        | some v =>
            simp only [Wp, if_pos eq] at first
            simp only [Prog.bind, Wp, if_pos eq]
            intro guard
            obtain ⟨sound, rest⟩ := first guard
            exact ⟨sound, ih v.entry rest⟩
      · cases place <;> simp only [Wp, if_neg eq] at first <;>
          simp only [Prog.bind, Wp, if_neg eq] <;>
          exact fun entry => ⟨(first entry).1, ih entry (first entry).2⟩
  | time next ih => exact fun now => ih now (first now)
  | memory next ih => exact fun bytes => ih bytes (first bytes)
  | exit => trivial

section Rules

variable {post : α → spec.Own → Option View → Prop} {own : spec.Own} {place : Option View}
  {lid : ℕ} {next : Prog α}

/-- A section begins. -/
theorem Wp.enter (rest : ∀ entry data content, con.fits entry data content →
    ∃ own', spec.enter own own' ∧
      Wp con spec op post next own' (some ⟨entry, data, content, content⟩)) :
    Wp con spec op post (.acquire con.eid next) own none := by
  simp only [Wp, if_true]
  exact rest

/-- A section ends. -/
theorem Wp.leave {v : View} {own' : spec.Own} (fits : con.fits v.entry v.data v.content)
    (commit : spec.commit (con.abs v.base) own (con.abs v.content) own')
    (rest : Wp con spec op post next own' none) :
    Wp con spec op post (.release con.eid next) own (some v) := by
  simp only [Wp, if_true]
  exact ⟨fits, own', commit, rest⟩

theorem Wp.acquire_of_ne (ne : lid ≠ con.eid) (rest : Wp con spec op post next own place) :
    Wp con spec op post (.acquire lid next) own place := by
  cases place <;> simp only [Wp, if_neg ne] <;> exact rest

theorem Wp.release_of_ne (ne : lid ≠ con.eid) (rest : Wp con spec op post next own place) :
    Wp con spec op post (.release lid next) own place := by
  cases place <;> simp only [Wp, if_neg ne] <;> exact rest

theorem Wp.entry_of_ne {id : ℕ} {update : Entry → Entry} {note : Entry → Option Note}
    {next : Entry → Prog α} (ne : id ≠ con.eid)
    (rest : ∀ entry, (∀ n, note entry = some n → n.eid ≠ con.eid) ∧
      Wp con spec op post (next entry) own place) :
    Wp con spec op post (.entry id update note next) own place := by
  cases place <;> simp only [Wp, if_neg ne] <;> exact rest

end Rules

end Wp

/-! ## Histories of a specification -/

/-- A split of a history at an event: the event is the last, or the last comes after it. -/
theorem split_of_snoc {C T Op Res : Type} {history before after : List (Event C T Op Res)}
    {event last : Event C T Op Res} (eq : history ++ [last] = before ++ event :: after) :
    (last = event ∧ history = before ∧ after = []) ∨
      ∃ rest, after = rest ++ [last] ∧ history = before ++ event :: rest := by
  rcases after.eq_nil_or_concat with rfl | ⟨rest, last', rfl⟩
  · obtain ⟨old, new⟩ := List.append_inj' eq rfl
    exact Or.inl ⟨(List.cons.inj new).1, old, rfl⟩
  · rw [List.concat_eq_append, ← List.cons_append, ← List.append_assoc] at eq
    obtain ⟨old, new⟩ := List.append_inj' eq rfl
    obtain rfl := (List.cons.inj new).1
    exact Or.inr ⟨rest, List.concat_eq_append, old⟩

section Explained

variable {C T X Op Res : Type} [DecidableEq C] [DecidableEq T]

/-- The specification's state: the abstract state, and the operations in progress. -/
structure SpecState (C T : Type) {X Op Res : Type} (spec : Spec X Op Res) where
  state : X
  own : C → T → Option spec.Own

namespace SpecState

variable {spec : Spec X Op Res}

/-- No operation is in progress. -/
def initial (x : X) : SpecState C T spec := ⟨x, fun _ _ => none⟩

def set (a : SpecState C T spec) (c : C) (t : T) (own : Option spec.Own) : SpecState C T spec :=
  { a with own := fun b u => if b = c ∧ u = t then own else a.own b u }

end SpecState

/-- An event that a specification of the users of lock `eid` says nothing about. -/
def Event.Silent (eid : ℕ) : Event C T Op Res → Prop
  | .invoked .. | .called .. | .returned .. => False
  | .acquired _ _ lid => lid ≠ eid
  | _ => True

/-- **A run of the specification explains the history**: each operation is invoked, gets the lock,
makes its steps on the abstract state, each of them at once, and returns a result that these
allow.

The order of the commits is the order in which the operations took effect; each is between the
invocation and the return of its operation. -/
inductive Explained (spec : Spec X Op Res) (eid : ℕ) (x : X) :
    List (Event C T Op Res) → SpecState C T spec → Prop where
  | nil : Explained spec eid x [] (.initial x)
  | invoked {history : List (Event C T Op Res)} {a : SpecState C T spec} {c : C} {t : T} {op : Op}
      (before : Explained spec eid x history a) (idle : a.own c t = none) :
      Explained spec eid x (history ++ [.invoked c t op]) (a.set c t (some (spec.begins op)))
  | acquired {history : List (Event C T Op Res)} {a : SpecState C T spec} {c : C} {t : T}
      {own own' : spec.Own} (before : Explained spec eid x history a) (runs : a.own c t = some own)
      (enter : spec.enter own own') :
      Explained spec eid x (history ++ [.acquired c t eid]) (a.set c t (some own'))
  | called {history : List (Event C T Op Res)} {a : SpecState C T spec} {c : C} {t : T}
      {own : spec.Own} {req : Request} {reply : Reply} (before : Explained spec eid x history a)
      (runs : a.own c t = some own) :
      Explained spec eid x (history ++ [.called c t req reply])
        (a.set c t (some (spec.hear own req reply)))
  | commit {history : List (Event C T Op Res)} {a : SpecState C T spec} {c : C} {t : T}
      {own own' : spec.Own} {y : X} (before : Explained spec eid x history a)
      (runs : a.own c t = some own) (commit : spec.commit a.state own y own') :
      Explained spec eid x history ({ a with state := y }.set c t (some own'))
  | returned {history : List (Event C T Op Res)} {a : SpecState C T spec} {c : C} {t : T}
      {op : Op} {own : spec.Own} {res : Res} (before : Explained spec eid x history a)
      (runs : a.own c t = some own) (finish : spec.finish op own res) :
      Explained spec eid x (history ++ [.returned c t op res]) (a.set c t none)
  | silent {history : List (Event C T Op Res)} {a : SpecState C T spec}
      {event : Event C T Op Res} (before : Explained spec eid x history a)
      (silent : event.Silent eid) : Explained spec eid x (history ++ [event]) a

end Explained

end Yfs.Client
