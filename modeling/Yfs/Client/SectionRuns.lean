import Yfs.Client.Sections
import Yfs.Client.Threads

/-!
# Runs of programs that use an extent under its lock

When every operation meets the weakest precondition of `Wp` for an extent, the whole
system keeps the contract of that extent, whatever the clients and the servers do in
between: `SectionInv` says for each place the lock can be in (`Lock.Custody`) what the
caches, the server and the threads look like.

The invariant is built along the custody of the lock.  While nobody has the lock the server has
the content and all entries are quiet; a client that has it cached may have a newer string than
the server, and a `sync` that is under way has written it back or is about to.  A thread that
uses the lock has a weakest precondition for what is left of its program, with the view that it
finds.

* `SectionInv.step` — every step keeps the invariant.
* `reach_sections` — in every reachable state each get of the extent has returned the
  string of the latest put, and the specification explains the history.
-/

namespace Yfs.Client

open Storage Lock

variable {C T X Op Res σ : Type}

/-! ## The latest put -/

/-- The string of the latest put to extent `eid`, or `init`. -/
def latest (eid : ℕ) (init : List UInt8) (history : List (Event C T Op Res)) : List UInt8 :=
  history.foldl (fun content event =>
    match event with
    | .noted _ _ note => Note.after eid content (some note)
    | _ => content) init

/-- **Every get of extent `eid` returned the string of the latest put before it.** -/
def GetsLatest (eid : ℕ) (init : List UInt8) (history : List (Event C T Op Res)) : Prop :=
  ∀ before c t buf after, history = before ++ .noted c t (.got eid buf) :: after →
    buf = latest eid init before

/-- An event that is not a note about extent `eid`. -/
def Event.Plain (eid : ℕ) : Event C T Op Res → Prop
  | .noted _ _ note => note.eid ≠ eid
  | _ => True

/-- The event hands out inum `i`. -/
def Event.creates (i : ℕ) : Event C T Op Res → Bool
  | .called _ _ (.create _) (.created id) => id = i
  | _ => false

section Latest

variable {eid : ℕ} {init : List UInt8} {history : List (Event C T Op Res)}
  {event : Event C T Op Res}

@[simp] theorem latest_nil : latest eid init ([] : List (Event C T Op Res)) = init := rfl

theorem latest_noted {c : C} {t : T} {note : Note} :
    latest eid init (history ++ [.noted c t note]) =
      Note.after eid (latest eid init history) (some note) := by
  simp [latest]

theorem latest_plain (plain : event.Plain eid) :
    latest eid init (history ++ [event]) = latest eid init history := by
  cases event with
  | noted c t note =>
      rw [latest_noted]
      cases note with
      | got id buf => rfl
      | put id buf => exact if_neg plain
  | _ => simp [latest]

theorem GetsLatest.nil : GetsLatest eid init ([] : List (Event C T Op Res)) := by
  intro before c t buf after eq
  simp at eq

/-- One more event: a get among them returns the content. -/
theorem GetsLatest.snoc (gets : GetsLatest eid init history)
    (last : ∀ c t buf, event = .noted c t (.got eid buf) → buf = latest eid init history) :
    GetsLatest eid init (history ++ [event]) := by
  intro before c t buf after eq
  rcases List.eq_nil_or_concat after with rfl | ⟨rest, e, rfl⟩
  · obtain ⟨rfl, eq⟩ := List.append_inj' eq rfl
    exact last c t buf (by simpa using eq)
  · rw [List.concat_eq_append, ← List.cons_append, ← List.append_assoc] at eq
    obtain ⟨rfl, -⟩ := List.append_inj' eq rfl
    exact gets before c t buf rest rfl

theorem GetsLatest.plain (gets : GetsLatest eid init history) (plain : event.Plain eid) :
    GetsLatest eid init (history ++ [event]) := by
  refine gets.snoc ?_
  rintro c t buf rfl
  exact absurd rfl plain

end Latest

/-! ## Writing back -/

/-- What is left of a `sync` of extent `eid` leaves the entry quiet and the content at the
server. -/
def SyncOk (eid : ℕ) (content : List UInt8) : Prog Unit → Entry → List UInt8 → Prop
  | .ret _, entry, data => Quiet entry ∧ data = content
  | .call req next, entry, _ => ∃ buf, req = .put eid buf ∧
      ∀ reply, SyncOk eid content (next reply) entry buf
  | .entry id update _ next, entry, data =>
      id = eid ∧ SyncOk eid content (next entry) (update entry) data
  | _, _, _ => False

/-- A `sync` of extent `lid` is about that extent only. -/
def SyncOnly (lid : ℕ) : Prog Unit → Prop
  | .ret _ => True
  | .call req next => (∃ buf, req = .put lid buf) ∧ ∀ reply, SyncOnly lid (next reply)
  | .entry id _ _ next => id = lid ∧ ∀ entry, SyncOnly lid (next entry)
  | _ => False

theorem syncOnly_sync (lid : ℕ) : SyncOnly lid (ExtentClient.sync lid) := by
  refine ⟨rfl, fun entry => ?_⟩
  match entry with
  | none => trivial
  | some ⟨_, _, _, _, false⟩ => trivial
  | some ⟨_, buf, _, _, true⟩ => exact ⟨⟨buf, rfl⟩, fun _ => ⟨rfl, fun _ => trivial⟩⟩

/-- `sync` writes the content back and leaves a quiet entry. -/
theorem Contract.syncOk (con : Contract X Op) {entry : Entry} {data content : List UInt8}
    (fits : con.fits entry data content) :
    SyncOk con.eid content (ExtentClient.sync con.eid) entry data := by
  refine ⟨rfl, ?_⟩
  match entry, fits with
  | none, fits =>
      refine ⟨?_, con.clean _ _ _ fits (by rintro file ⟨⟩)⟩
      rintro file ⟨⟩
  | some ⟨attr, buf, bufValid, attrValid, false⟩, fits =>
      refine ⟨?_, con.clean _ _ _ fits (by rintro file ⟨⟩; rfl)⟩
      rintro file ⟨⟩
      exact ⟨rfl, rfl, rfl⟩
  | some ⟨attr, buf, bufValid, attrValid, true⟩, fits =>
      refine ⟨buf, rfl, fun _ => ⟨rfl, ?_, con.dirty _ _ _ fits rfl⟩⟩
      rintro file ⟨⟩
      exact ⟨rfl, rfl, rfl⟩

/-! ## The invariant -/

section Inv

variable (con : Contract X Op) (spec : Spec X Op Res) (dataOf : σ → List UInt8)
  (init : List UInt8)

/-- A thread with what is left of its operation. -/
def ThreadOk (own : Option spec.Own) (place : Option View) : Thread Op Res → Prop
  | .idle => own = none
  | .run op prog => ∃ o, own = some o ∧ Wp con spec op (Finishes con spec op) prog o place
  | .acquiring op lid next =>
      ∃ o, own = some o ∧ Wp con spec op (Finishes con spec op) (.acquire lid next) o place
  | .releasing op _ next => ∃ o, own = some o ∧ Wp con spec op (Finishes con spec op) next o place

/-- The extent as client `c` sees it. -/
def State.view (s : State C T Op Res σ) (c : C) (base : List UInt8) : View where
  entry := s.cache c con.eid
  data := dataOf s.server
  base := base
  content := latest con.eid init s.history

/-- **The extent, by the place of its lock.**

The cases are those of `Custody`, with three for a thread that has the lock.  `leaked` is a thread
whose operation is over and kept the lock, and nothing is said of the extent then. -/
inductive Held (s : State C T Op Res σ) (a : SpecState C T spec) : Custody C T → Prop where
  /-- Nobody has the lock: the content is at the server. -/
  | nobody (settled : dataOf s.server = latest con.eid init s.history)
      (good : con.good (latest con.eid init s.history))
      (state : a.state = con.abs (latest con.eid init s.history)) : Held s a .nobody
  /-- A client has the lock. -/
  | cached (c : C)
      (fits : con.fits (s.cache c con.eid) (dataOf s.server) (latest con.eid init s.history))
      (state : a.state = con.abs (latest con.eid init s.history)) : Held s a (.cached c)
  /-- A thread has been given the lock and has not returned from `acquire`. -/
  | granted (c : C) (t : T) (op : Op) (next : Prog Res)
      (here : s.thread c t = .acquiring op con.eid next)
      (ok : ThreadOk con spec (a.own c t) none (s.thread c t))
      (fits : con.fits (s.cache c con.eid) (dataOf s.server) (latest con.eid init s.history))
      (state : a.state = con.abs (latest con.eid init s.history)) : Held s a (.used c t)
  /-- A thread is in its section. -/
  | inside (c : C) (t : T) (base : List UInt8) (busy : s.thread c t ≠ .idle)
      (entered : ∀ op next, s.thread c t ≠ .acquiring op con.eid next)
      (ok : ThreadOk con spec (a.own c t) (some (s.view con dataOf init c base)) (s.thread c t))
      (state : a.state = con.abs base) : Held s a (.used c t)
  /-- A thread has returned from its operation without releasing the lock. -/
  | leaked (c : C) (t : T) (entered : ∀ op next, s.thread c t ≠ .acquiring op con.eid next)
      (ok : ThreadOk con spec (a.own c t) none (s.thread c t)) : Held s a (.used c t)
  /-- The content is being written back. -/
  | syncing (who : Releaser C) (c : C) (t : T)
      (sync : SyncOk con.eid (latest con.eid init s.history) (s.sync con.eid c t)
        (s.cache (who.client c) con.eid) (dataOf s.server))
      (good : con.good (latest con.eid init s.history))
      (state : a.state = con.abs (latest con.eid init s.history)) : Held s a (.syncing who c t)

variable [LinearOrder C] [DecidableEq T]

/-- **The invariant.**

The explanation of the history is part of it: the steps on the abstract state are made where the
section ends, and the run of the specification grows along with the run of the machine. -/
structure SectionInv (s : State C T Op Res σ) (a : SpecState C T spec) (k : Custody C T) :
    Prop where
  placed : Placed s
  custody : (s.locks con.eid).In k
  explained : Explained spec con.eid (con.abs init) s.history a
  gets : GetsLatest con.eid init s.history
  quiet : ∀ c, k.keeper ≠ some c → Quiet (s.cache c con.eid)
  only : ∀ lid c t, SyncOnly lid (s.sync lid c t)
  whole : ∀ c t, (∀ who, k ≠ .syncing who c t) → s.sync con.eid c t = ExtentClient.sync con.eid
  outside : ∀ c t, k ≠ .used c t → ThreadOk con spec (a.own c t) none (s.thread c t)
  held : Held con spec dataOf init s a k

/-- **A machine whose operations use extent `eid` under its lock only.**

These are the premises of `reach_sections`.  The first one is about programs and is shown with the
rules of `Sections`; the others are about the server and the conditions on steps. -/
structure Sectioned (m : Machine C T Op Res σ) : Prop where
  ops : ∀ c op, m.mayInvoke c op →
    Wp con spec op (Finishes con spec op) (m.prog op) (spec.begins op) none
  serves : ∀ x req reply y, m.serve x req reply y →
    Serves con.eid con.kind (dataOf x) req reply (dataOf y)
  guard : ∀ s c t op entry, m.mayStore s c t op con.eid entry →
    con.guard op (s.cache c con.eid) (dataOf s.server) entry
  allows : ∀ s req reply, m.mayCall s req reply → con.allows req

end Inv

namespace SpecState

variable [DecidableEq C] [DecidableEq T] {spec : Spec X Op Res} {a : SpecState C T spec}
  {b c : C} {t u : T} {own : Option spec.Own}

@[simp] theorem set_state : (a.set c t own).state = a.state := rfl

@[simp] theorem set_own_self : (a.set c t own).own c t = own := by
  simp [set]

theorem set_own_of_ne (ne : ¬ (b = c ∧ u = t)) : (a.set c t own).own b u = a.own b u := by
  simp [set, ne]

/-- Nothing changes. -/
theorem set_same : a.set c t (a.own c t) = a := by
  obtain ⟨state, own⟩ := a
  simp only [set, SpecState.mk.injEq, true_and]
  funext b u
  split
  next eq =>
      obtain ⟨rfl, rfl⟩ := eq
      rfl
  next ne => rfl

end SpecState

/-- **What a result is worth.**  A property of operations in progress that every move of the
specification keeps holds of each operation when it returns. -/
theorem Explained.returned_of [DecidableEq C] [DecidableEq T] {spec : Spec X Op Res} {eid : ℕ}
    {x : X} {P : spec.Own → Prop} (begins : ∀ op, P (spec.begins op))
    (enter : ∀ own own', P own → spec.enter own own' → P own')
    (hear : ∀ own req reply, P own → P (spec.hear own req reply))
    (commit : ∀ x own y own', P own → spec.commit x own y own' → P own')
    {history : List (Event C T Op Res)} {a : SpecState C T spec}
    (explained : Explained spec eid x history a) :
    (∀ c t own, a.own c t = some own → P own) ∧
      ∀ c t op res, .returned c t op res ∈ history → ∃ own, P own ∧ spec.finish op own res := by
  have set : ∀ {a : SpecState C T spec} {c t} {own : Option spec.Own},
      (∀ c t own, a.own c t = some own → P own) → (∀ o, own = some o → P o) →
      ∀ b u o, (a.set c t own).own b u = some o → P o := by
    intro a c t own old new b u o here
    by_cases same : b = c ∧ u = t
    · obtain ⟨rfl, rfl⟩ := same
      rw [SpecState.set_own_self] at here
      exact new o here
    · rw [SpecState.set_own_of_ne same] at here
      exact old b u o here
  have snoc : ∀ {history : List (Event C T Op Res)} {event : Event C T Op Res},
      (∀ c t op res, .returned c t op res ∈ history → ∃ own, P own ∧ spec.finish op own res) →
      (∀ c t op res, event = .returned c t op res → ∃ own, P own ∧ spec.finish op own res) →
      ∀ c t op res, .returned c t op res ∈ history ++ [event] →
        ∃ own, P own ∧ spec.finish op own res := by
    intro history event old new c t op res mem
    rcases List.mem_append.mp mem with mem | mem
    · exact old c t op res mem
    · exact new c t op res (List.mem_singleton.mp mem).symm
  -- on the run of the specification; the property of the operations in progress carries it, and a
  -- result has it from the operation that returned
  induction explained with
  | nil => exact ⟨by rintro c t own ⟨⟩, by simp⟩
  | invoked _ idle ih =>
      exact ⟨set ih.1 (by rintro _ ⟨⟩; exact begins _), snoc ih.2 (by rintro _ _ _ _ ⟨⟩)⟩
  | acquired _ runs enters ih =>
      exact ⟨set ih.1 (by rintro _ ⟨⟩; exact enter _ _ (ih.1 _ _ _ runs) enters),
        snoc ih.2 (by rintro _ _ _ _ ⟨⟩)⟩
  | called _ runs ih =>
      exact ⟨set ih.1 (by rintro _ ⟨⟩; exact hear _ _ _ (ih.1 _ _ _ runs)),
        snoc ih.2 (by rintro _ _ _ _ ⟨⟩)⟩
  | commit _ runs commits ih =>
      exact ⟨set ih.1 (by rintro _ ⟨⟩; exact commit _ _ _ _ (ih.1 _ _ _ runs) commits), ih.2⟩
  | returned _ runs finish ih =>
      refine ⟨set ih.1 (by rintro _ ⟨⟩), snoc ih.2 ?_⟩
      rintro _ _ _ _ ⟨⟩
      exact ⟨_, ih.1 _ _ _ runs, finish⟩
  | silent _ silent ih =>
      refine ⟨ih.1, snoc ih.2 ?_⟩
      rintro _ _ _ _ rfl
      exact silent.elim

section Steps

variable [LinearOrder C] [DecidableEq T] {con : Contract X Op} {spec : Spec X Op Res}
  {dataOf : σ → List UInt8} {init : List UInt8} {m : Machine C T Op Res σ} {start : σ → Prop}
  {s s' : State C T Op Res σ} {a : SpecState C T spec} {k k' : Custody C T} {c : C} {t : T}

namespace SectionInv

/-- A thread outside a section goes on, and the extent stays as it is.  If it has the lock,
it has left it behind. -/
theorem apart {thread : Thread Op Res} {own : Option spec.Own}
    (inv : SectionInv con spec dataOf init s a k) (placed : Placed s')
    (locks : s'.locks con.eid = s.locks con.eid)
    (cache : ∀ b, s'.cache b con.eid = s.cache b con.eid)
    (server : dataOf s'.server = dataOf s.server) (sync : s'.sync = s.sync)
    (threads : s'.thread = (s.setThread c t thread).thread)
    (content : latest con.eid init s'.history = latest con.eid init s.history)
    (gets : GetsLatest con.eid init s'.history)
    (explained : Explained spec con.eid (con.abs init) s'.history (a.set c t own))
    (new : ∀ op next, thread ≠ .acquiring op con.eid next)
    (ok : ThreadOk con spec own none thread) :
    SectionInv con spec dataOf init s' (a.set c t own) k := by
  have self : s'.thread c t = thread := by rw [threads, State.setThread_thread_self]
  have other : ∀ {b u}, ¬ (b = c ∧ u = t) → s'.thread b u = s.thread b u := by
    intro b u ne
    rw [threads, State.setThread_thread_of_ne ne]
  have view : ∀ b base, s'.view con dataOf init b base = s.view con dataOf init b base := by
    intro b base
    simp only [State.view, cache, server, content]
  refine ⟨placed, by rw [locks]; exact inv.custody, explained, gets,
    fun b keeper => by rw [cache]; exact inv.quiet b keeper, by rw [sync]; exact inv.only,
    by rw [sync]; exact inv.whole, fun b u ne => ?_, ?_⟩
  · by_cases same : b = c ∧ u = t
    · obtain ⟨rfl, rfl⟩ := same
      rw [self, SpecState.set_own_self]
      exact ok
    · rw [other same, SpecState.set_own_of_ne same]
      exact inv.outside b u ne
  -- a thread that goes on outside a section while it has the lock has returned without a release
  · by_cases mine : k = .used c t
    · subst mine
      refine .leaked c t (by rw [self]; exact new) ?_
      rw [self, SpecState.set_own_self]
      exact ok
    · have ne : ∀ {b u}, k = .used b u → ¬ (b = c ∧ u = t) := by
        rintro b u rfl ⟨rfl, rfl⟩
        exact mine rfl
      cases inv.held with
      | nobody settled good state =>
          exact .nobody (by rw [server, content, settled]) (by rw [content]; exact good)
            (by rw [content]; exact state)
      | cached b fits state =>
          exact .cached b (by rw [cache, server, content]; exact fits)
            (by rw [content]; exact state)
      | granted b u op next here threadOk fits state =>
          refine .granted b u op next (by rw [other (ne rfl), here]) ?_
            (by rw [cache, server, content]; exact fits) (by rw [content]; exact state)
          rw [other (ne rfl), SpecState.set_own_of_ne (ne rfl)]
          exact threadOk
      | inside b u base busy entered threadOk state =>
          refine .inside b u base (by rw [other (ne rfl)]; exact busy)
            (by rw [other (ne rfl)]; exact entered) ?_ state
          rw [other (ne rfl), SpecState.set_own_of_ne (ne rfl), view]
          exact threadOk
      | leaked b u entered threadOk =>
          refine .leaked b u (by rw [other (ne rfl)]; exact entered) ?_
          rw [other (ne rfl), SpecState.set_own_of_ne (ne rfl)]
          exact threadOk
      | syncing who b u syncOk good state =>
          refine .syncing who b u ?_ (by rw [content]; exact good) (by rw [content]; exact state)
          rw [sync, cache, server, content]
          exact syncOk

/-- The thread that has the lock goes on. -/
theorem used {a' : SpecState C T spec} {thread : Thread Op Res}
    (inv : SectionInv con spec dataOf init s a (.used c t)) (placed : Placed s')
    (locks : s'.locks con.eid = s.locks con.eid)
    (cache : ∀ b, b ≠ c → s'.cache b con.eid = s.cache b con.eid) (sync : s'.sync = s.sync)
    (threads : s'.thread = (s.setThread c t thread).thread)
    (gets : GetsLatest con.eid init s'.history)
    (explained : Explained spec con.eid (con.abs init) s'.history a')
    (own : ∀ b u, ¬ (b = c ∧ u = t) → a'.own b u = a.own b u)
    (held : Held con spec dataOf init s' a' (.used c t)) :
    SectionInv con spec dataOf init s' a' (.used c t) := by
  refine ⟨placed, by rw [locks]; exact inv.custody, explained, gets, fun b keeper => ?_,
    by rw [sync]; exact inv.only, by rw [sync]; exact inv.whole, fun b u ne => ?_, held⟩
  · rw [cache b (by rintro rfl; exact keeper rfl)]
    exact inv.quiet b keeper
  · have other : ¬ (b = c ∧ u = t) := by
      rintro ⟨rfl, rfl⟩
      exact ne rfl
    rw [threads, State.setThread_thread_of_ne other, own b u other]
    exact inv.outside b u ne

/-- A thread in the middle of an operation is in its section or outside. -/
theorem situated (inv : SectionInv con spec dataOf init s a k)
    (entered : ∀ op next, s.thread c t ≠ .acquiring op con.eid next) :
    (k = .used c t ∧ s.thread c t ≠ .idle ∧ ∃ base, a.state = con.abs base ∧
      ThreadOk con spec (a.own c t) (some (s.view con dataOf init c base)) (s.thread c t)) ∨
    ThreadOk con spec (a.own c t) none (s.thread c t) := by
  by_cases mine : k = .used c t
  · subst mine
    cases inv.held with
    -- it has the lock, but has not come back from `acquire`
    | granted _ _ op next here ok fits state => exact absurd here (entered op next)
    | inside _ _ base busy _ ok state => exact Or.inl ⟨rfl, busy, base, state, ok⟩
    | leaked _ _ _ ok => exact Or.inr ok
  · exact Or.inr (inv.outside c t mine)

/-- A thread goes on, inside its section or outside, and the extent stays as it is. -/
theorem thread {thread : Thread Op Res}
    (inv : SectionInv con spec dataOf init s a k) (placed : Placed s')
    (locks : s'.locks con.eid = s.locks con.eid)
    (cache : ∀ b, s'.cache b con.eid = s.cache b con.eid) (server : s'.server = s.server)
    (sync : s'.sync = s.sync) (threads : s'.thread = (s.setThread c t thread).thread)
    (content : latest con.eid init s'.history = latest con.eid init s.history)
    (gets : GetsLatest con.eid init s'.history)
    (explained : Explained spec con.eid (con.abs init) s'.history a)
    (old : ∀ op next, s.thread c t ≠ .acquiring op con.eid next)
    (new : ∀ op next, thread ≠ .acquiring op con.eid next) (busy : thread ≠ .idle)
    (ok : ∀ place, ThreadOk con spec (a.own c t) place (s.thread c t) →
      ThreadOk con spec (a.own c t) place thread) :
    SectionInv con spec dataOf init s' a k := by
  have self : s'.thread c t = thread := by rw [threads, State.setThread_thread_self]
  rcases inv.situated old with ⟨rfl, -, base, state, threadOk⟩ | threadOk
  · refine inv.used placed locks (fun b _ => cache b) sync threads gets explained
      (fun _ _ _ => rfl)
      (.inside c t base (by rw [self]; exact busy) (by rw [self]; exact new) ?_ state)
    have view : s'.view con dataOf init c base = s.view con dataOf init c base := by
      simp only [State.view, cache, server, content]
    rw [self, view]
    exact ok _ threadOk
  · have apart := inv.apart placed locks cache (by rw [server]) sync threads
      content gets (by rw [SpecState.set_same]; exact explained) new (ok _ threadOk)
    rwa [SpecState.set_same] at apart

/-- The lock moves, and nobody releases it or ends a `sync`. -/
theorem lockMoves {label : Label C T} (inv : SectionInv con spec dataOf init s a k)
    (placed : Placed s') (step : Lock.Step false label (s.locks con.eid) (s'.locks con.eid))
    (notRelease : ∀ c t, label ≠ .release c t) (notSynced : ∀ c, label ≠ .synced c)
    (cache : s'.cache = s.cache) (server : s'.server = s.server) (sync : s'.sync = s.sync)
    (history : s'.history = s.history)
    (threads : ∀ b u, s'.thread b u = s.thread b u ∨ ∃ op next,
      s.thread b u = .run op (.acquire con.eid next) ∧
        s'.thread b u = .acquiring op con.eid next ∧ (s.locks con.eid).pc b u = .idle)
    (acquires : ∀ b u, (s.locks con.eid).pc b u ≠ .holding →
      (s'.locks con.eid).pc b u = .holding →
        ∃ op next, s'.thread b u = .acquiring op con.eid next) :
    ∃ k', SectionInv con spec dataOf init s' a k' := by
  obtain ⟨k', custody, move⟩ := (inv.placed.lock con.eid).moves inv.custody step
  have same : ∀ {b u place}, ThreadOk con spec (a.own b u) place (s'.thread b u) ↔
      ThreadOk con spec (a.own b u) place (s.thread b u) := by
    intro b u place
    rcases threads b u with eq | ⟨op, next, eq, eq', -⟩
    · rw [eq]
    · rw [eq, eq']
      exact Iff.rfl
  have view : ∀ b base, s'.view con dataOf init b base = s.view con dataOf init b base := by
    intro b base
    simp only [State.view, cache, server, history]
  have only : ∀ lid b u, SyncOnly lid (s'.sync lid b u) := by rw [sync]; exact inv.only
  -- whoever is given the lock is in a call of `acquire`, and finds the content
  have granted : ∀ {b u}, k ≠ .used b u → k' = .used b u →
      con.fits (s.cache b con.eid) (dataOf s.server) (latest con.eid init s.history) →
      a.state = con.abs (latest con.eid init s.history) →
      Held con spec dataOf init s' a (.used b u) := by
    intro b u ne eq fits state
    obtain ⟨op, next, here⟩ := acquires b u (fun holds => ne ((inv.custody.used b u).mp holds))
      ((custody.used b u).mpr eq)
    refine .granted b u op next here (same.mpr (inv.outside b u ne)) ?_
      (by rw [history]; exact state)
    rw [cache, server, history]
    exact fits
  refine ⟨k', placed, custody, by rw [history]; exact inv.explained,
    by rw [history]; exact inv.gets, fun b keeper => ?_, only, fun b u ne => ?_,
    fun b u ne => ?_, ?_⟩
  · rw [cache]
    refine inv.quiet b ?_
    cases move with
    | stay => exact keeper
    | take => exact keeper
    | grant => simp [Custody.keeper]
    | reclaim => exact keeper
    | putBack c t => exact absurd rfl (notRelease c t)
    | leave c t => exact absurd rfl (notRelease c t)
    | synced who c t => exact absurd rfl (notSynced _)
  · rw [sync]
    refine inv.whole b u fun who eq => ?_
    cases move with
    | stay => exact ne who eq
    | take => cases eq
    | grant => cases eq
    | reclaim => cases eq
    | putBack c t => cases eq
    | leave c t => cases eq
    | synced who c t => exact absurd rfl (notSynced _)
  · by_cases used : k = .used b u
    · cases move with
      | stay => exact absurd used ne
      | take => cases used
      | grant => cases used
      | reclaim => cases used
      | putBack c t => exact absurd rfl (notRelease c t)
      | leave c t => exact absurd rfl (notRelease c t)
      | synced who c t => cases used
    · exact same.mpr (inv.outside b u used)
  · cases move with
    -- the lock stays where it is, and so does the extent
    | stay =>
        cases inv.held with
        | nobody settled good state =>
            exact .nobody (by rw [server, history, settled]) (by rw [history]; exact good)
              (by rw [history]; exact state)
        | cached b fits state =>
            exact .cached b (by rw [cache, server, history]; exact fits)
              (by rw [history]; exact state)
        | granted b u op next here threadOk fits state =>
            have still : s'.thread b u = s.thread b u := by
              rcases threads b u with eq | ⟨op', next', eq, -, -⟩
              · exact eq
              · rw [here] at eq
                cases eq
            exact .granted b u op next (by rw [still, here]) (same.mpr threadOk)
              (by rw [cache, server, history]; exact fits) (by rw [history]; exact state)
        | inside b u base busy entered threadOk state =>
            have still : s'.thread b u = s.thread b u := by
              rcases threads b u with eq | ⟨op', next', -, -, idle⟩
              · exact eq
              · rw [(inv.custody.used b u).mpr rfl] at idle
                cases idle
            refine .inside b u base (by rw [still]; exact busy)
              (by rw [still]; exact entered) ?_ state
            rw [view]
            exact same.mpr threadOk
        | leaked b u entered threadOk =>
            have still : s'.thread b u = s.thread b u := by
              rcases threads b u with eq | ⟨op', next', -, -, idle⟩
              · exact eq
              · rw [(inv.custody.used b u).mpr rfl] at idle
                cases idle
            exact .leaked b u (by rw [still]; exact entered) (same.mpr threadOk)
        | syncing who b u syncOk good state =>
            refine .syncing who b u ?_ (by rw [history]; exact good) (by rw [history]; exact state)
            rw [sync, cache, server, history]
            exact syncOk
    | take b u =>
        cases inv.held with
        | cached b fits state => exact granted (by simp) rfl fits state
    -- from the server: what every cache has is quiet, so the string there is the content
    | grant b u =>
        cases inv.held with
        | nobody settled good state =>
            refine granted (by simp) rfl ?_ state
            rw [settled]
            exact con.fresh _ _ (inv.quiet b (by simp [Custody.keeper])) good
    -- the revoke handler takes the lock from a client, and its `sync` begins
    | reclaim h status b u =>
        cases inv.held with
        | cached _ fits state =>
            refine .syncing _ b u ?_ (by rw [history]; exact con.sound _ _ _ fits)
              (by rw [history]; exact state)
            rw [sync, inv.whole b u (by simp), cache, server, history]
            exact con.syncOk fits
    | putBack c t => exact absurd rfl (notRelease c t)
    | leave c t => exact absurd rfl (notRelease c t)
    | synced who c t => exact absurd rfl (notSynced _)

/-- `acquire` returns. -/
theorem acquired {op : Op} {next : Prog Res} (inv : SectionInv con spec dataOf init s a k)
    (here : s.thread c t = .acquiring op con.eid next)
    (holds : (s.locks con.eid).pc c t = .holding)
    (placed : Placed ((s.setThread c t (.run op next)).record (.acquired c t con.eid))) :
    ∃ a' k', SectionInv con spec dataOf init
      ((s.setThread c t (.run op next)).record (.acquired c t con.eid)) a' k' := by
  obtain rfl := (inv.custody.used c t).mp holds
  have content : latest con.eid init (s.history ++ [Event.acquired c t con.eid]) =
      latest con.eid init s.history := latest_plain trivial
  cases inv.held with
  | granted _ _ op' next' here' ok fits state =>
      rw [here] at ok
      obtain ⟨o, own, wp⟩ := ok
      simp only [Wp, if_true] at wp
      obtain ⟨o', enter, rest⟩ := wp _ _ _ fits
      refine ⟨a.set c t (some o'), _, inv.used placed rfl (fun _ _ => rfl) rfl rfl
        (inv.gets.plain trivial) (.acquired inv.explained own enter)
        (fun b u ne => SpecState.set_own_of_ne ne)
        (.inside c t (latest con.eid init s.history) (by simp) (by simp) ?_ state)⟩
      rw [State.record_thread, State.setThread_thread_self, SpecState.set_own_self]
      refine ⟨o', rfl, ?_⟩
      simp only [State.view, State.record_history, State.setThread_history, content]
      exact rest
  -- it has come back before
  | inside _ _ base busy entered ok state => exact absurd here (entered op next)
  | leaked _ _ entered ok => exact absurd here (entered op next)

/-- `release` is called. -/
theorem release {op : Op} {next : Prog Res} {lock : LockState C T}
    (inv : SectionInv con spec dataOf init s a k)
    (here : s.thread c t = .run op (.release con.eid next))
    (step : Lock.Step false (.release c t) (s.locks con.eid) lock)
    (placed : Placed (((s.setLock con.eid lock).setThread c t (.releasing op con.eid next)).record
      (.released c t con.eid))) :
    ∃ a' k', SectionInv con spec dataOf init
      (((s.setLock con.eid lock).setThread c t (.releasing op con.eid next)).record
        (.released c t con.eid)) a' k' := by
  obtain rfl := (inv.custody.used c t).mp step.release_pc.1
  obtain ⟨k', custody, move⟩ := (inv.placed.lock con.eid).moves inv.custody step
  rcases inv.situated (c := c) (t := t) (by simp [here]) with ⟨-, -, base, state, ok⟩ | ok <;>
    rw [here] at ok <;> obtain ⟨o, own, wp⟩ := ok
  -- in its section, which ends here: the operation makes its step on the abstract state
  · simp only [Wp, if_true, State.view] at wp
    obtain ⟨fits, o', commit, rest⟩ := wp
    rw [← state] at commit
    have content : latest con.eid init (s.history ++ [Event.released c t con.eid]) =
        latest con.eid init s.history := latest_plain trivial
    have threads : ∀ b u, ThreadOk con spec
        ((SpecState.set { a with state := con.abs (latest con.eid init s.history) } c t
          (some o')).own b u) none
        ((s.setThread c t (.releasing op con.eid next)).thread b u) := by
      intro b u
      by_cases same : b = c ∧ u = t
      · obtain ⟨rfl, rfl⟩ := same
        rw [State.setThread_thread_self, SpecState.set_own_self]
        exact ⟨o', rfl, rest⟩
      · rw [State.setThread_thread_of_ne same, SpecState.set_own_of_ne same]
        exact inv.outside b u (by rintro ⟨⟩; exact same ⟨rfl, rfl⟩)
    refine ⟨_, k', placed, by simpa using custody,
      .silent (.commit inv.explained own commit) trivial, inv.gets.plain trivial,
      fun b keeper => inv.quiet b ?_, inv.only, fun b u ne => inv.whole b u (by simp),
      fun b u ne => threads b u, ?_⟩
    · cases move with
      -- the lock stays with the client; the entry is as the contract wants it between two
      -- sections
      | putBack => exact keeper
      -- the server wants the lock, so the extent is written back first
      | leave => exact keeper
      | stay _ notRelease => exact absurd rfl (notRelease c t)
    · cases move with
      | putBack =>
          refine .cached c ?_ ?_ <;>
            simp only [State.record_history, State.setThread_history, State.setLock_history,
              content]
          · exact fits
          · rfl
      | leave =>
          refine .syncing .thread c t ?_ ?_ ?_ <;>
            simp only [State.record_history, State.setThread_history, State.setLock_history,
              content]
          · rw [State.record_sync, State.setThread_sync, State.setLock_sync,
              inv.whole c t (by simp)]
            exact con.syncOk fits
          · exact con.sound _ _ _ fits
          · rfl
      | stay _ notRelease => exact absurd rfl (notRelease c t)
  · simp only [Wp, if_true] at wp

/-- A remote call. -/
theorem call {op : Op} {req : Request} {next : Reply → Prog Res} {reply : Reply} {server : σ}
    (inv : SectionInv con spec dataOf init s a k) (here : s.thread c t = .run op (.call req next))
    (serves : Serves con.eid con.kind (dataOf s.server) req reply (dataOf server))
    (allows : con.allows req)
    (placed : Placed (({ s with server := server }.setThread c t (.run op (next reply))).record
      (.called c t req reply))) :
    ∃ a', SectionInv con spec dataOf init
      (({ s with server := server }.setThread c t (.run op (next reply))).record
        (.called c t req reply)) a' k := by
  have content : latest con.eid init (s.history ++ [Event.called c t req reply]) =
      latest con.eid init s.history := latest_plain trivial
  have gets : GetsLatest con.eid init (s.history ++ [.called c t req reply]) :=
    inv.gets.plain trivial
  rcases inv.situated (c := c) (t := t) (by simp [here]) with ⟨rfl, -, base, state, ok⟩ | ok <;>
    rw [here] at ok <;> obtain ⟨o, own, wp⟩ := ok
  · refine ⟨_, inv.used placed rfl (fun _ _ => rfl) rfl rfl gets (.called inv.explained own)
      (fun b u ne => SpecState.set_own_of_ne ne) (.inside c t base (by simp) (by simp) ?_ state)⟩
    rw [State.record_thread, State.setThread_thread_self, SpecState.set_own_self]
    refine ⟨_, rfl, ?_⟩
    simp only [State.view, State.record_history, State.setThread_history, content]
    exact wp allows reply (dataOf server) serves
  · obtain ⟨spares, wp⟩ := wp allows
    exact ⟨_, inv.apart (c := c) (t := t) placed rfl (fun _ => rfl) (serves.same spares) rfl rfl
      content gets (.called inv.explained own) (by simp) ⟨_, rfl, wp _ reply _ serves⟩⟩

/-- An access to the cache. -/
theorem entry {op : Op} {id : ℕ} {update : Entry → Entry} {note : Entry → Option Note}
    {next : Entry → Prog Res} (inv : SectionInv con spec dataOf init s a k)
    (here : s.thread c t = .run op (.entry id update note next))
    (guard : id = con.eid →
      con.guard op (s.cache c con.eid) (dataOf s.server) (update (s.cache c con.eid)))
    (placed : Placed (((s.setEntry c id (update (s.cache c id))).setThread c t
      (.run op (next (s.cache c id)))).recordNote c t (note (s.cache c id)))) :
    SectionInv con spec dataOf init (((s.setEntry c id (update (s.cache c id))).setThread c t
      (.run op (next (s.cache c id)))).recordNote c t (note (s.cache c id))) a k := by
  by_cases same : id = con.eid
  · subst same
    rcases inv.situated (c := c) (t := t) (by simp [here]) with ⟨rfl, -, base, state, ok⟩ | ok <;>
      rw [here] at ok <;> obtain ⟨o, own, wp⟩ := ok
    -- in its section the thread may store what the contract lets it store
    · simp only [Wp, if_true, State.view] at wp
      obtain ⟨sound, rest⟩ := wp (guard rfl)
      have threads : ((((s.setEntry c con.eid (update (s.cache c con.eid))).setThread c t
          (.run op (next (s.cache c con.eid)))).recordNote c t (note (s.cache c con.eid)))).thread =
          (s.setThread c t (.run op (next (s.cache c con.eid)))).thread := by
        simp [State.setThread]
      refine inv.used placed (by simp)
        (fun b ne => by simp [State.setEntry_cache_of_ne, ne]) (by simp) threads ?_ ?_
        (fun _ _ _ => rfl) (.inside c t base (by simp) (by simp) ?_ state)
      · cases eq : note (s.cache c con.eid) with
        | none => exact inv.gets
        | some n =>
            refine inv.gets.snoc ?_
            rintro b u buf ⟨⟩
            rw [eq] at sound
            exact sound rfl
      · cases eq : note (s.cache c con.eid) with
        | none => exact inv.explained
        | some n => exact .silent inv.explained trivial
      · rw [State.recordNote_thread, State.setThread_thread_self]
        refine ⟨o, own, ?_⟩
        have content : latest con.eid init (((s.setEntry c con.eid
            (update (s.cache c con.eid))).setThread c t
              (.run op (next (s.cache c con.eid)))).recordNote
                c t (note (s.cache c con.eid))).history =
            Note.after con.eid (latest con.eid init s.history) (note (s.cache c con.eid)) := by
          cases note (s.cache c con.eid) with
          | none => rfl
          | some n => exact latest_noted
        simp only [State.view, content, State.recordNote_cache, State.recordNote_server,
          State.setThread_cache, State.setEntry_cache_self, State.setThread_server,
          State.setEntry_server]
        exact rest
    -- outside it leaves the entry of the extent as it is
    · simp only [Wp, if_true] at wp
      obtain ⟨same, noNote, rest⟩ := wp _ _ (guard rfl)
      simp only [same, noNote, State.recordNote] at placed ⊢
      have apart := inv.apart (c := c) (t := t)
        placed rfl (fun b => ?_) rfl rfl rfl rfl
        inv.gets (by rw [SpecState.set_same]; exact inv.explained) (by simp) ⟨o, own, rest⟩
      · rwa [SpecState.set_same] at apart
      · rw [State.setThread_cache]
        by_cases eq : b = c
        · subst eq
          rw [State.setEntry_cache_self]
        · exact State.setEntry_cache_of_ne fun h => eq h.1
  -- the entry of another extent
  · have spared : ∀ place, ThreadOk con spec (a.own c t) place (s.thread c t) →
        (∀ n, note (s.cache c id) = some n → n.eid ≠ con.eid) ∧
          ThreadOk con spec (a.own c t) place (.run op (next (s.cache c id))) := by
      intro place ok
      rw [here] at ok
      obtain ⟨o, own, wp⟩ := ok
      cases place <;> simp only [Wp, if_neg same] at wp <;>
        exact ⟨(wp _).1, o, own, (wp _).2⟩
    have elsewhere : ∀ n, note (s.cache c id) = some n → n.eid ≠ con.eid := by
      rcases inv.situated (c := c) (t := t) (by simp [here]) with ⟨-, -, base, -, ok⟩ | ok
      · exact (spared _ ok).1
      · exact (spared _ ok).1
    refine inv.thread placed (by simp)
      (fun b => by simp [State.setEntry_cache_of_ne, Ne.symm same]) (by simp) (by simp)
      (by simp [State.setThread]) ?_ ?_ ?_ (by simp [here]) (by simp) (by simp)
      fun place ok => (spared place ok).2
    · cases eq : note (s.cache c id) with
      | none => rfl
      | some n => exact latest_plain (elsewhere n eq)
    · cases eq : note (s.cache c id) with
      | none => exact inv.gets
      | some n => exact inv.gets.plain (elsewhere n eq)
    · cases eq : note (s.cache c id) with
      | none => exact inv.explained
      | some n => exact .silent inv.explained trivial

/-- An operation returns. -/
theorem returned {op : Op} {res : Res} (inv : SectionInv con spec dataOf init s a k)
    (here : s.thread c t = .run op (.ret res))
    (placed : Placed ((s.setThread c t .idle).record (.returned c t op res))) :
    ∃ a', SectionInv con spec dataOf init
      ((s.setThread c t .idle).record (.returned c t op res)) a' k := by
  have content : latest con.eid init (s.history ++ [Event.returned c t op res]) =
      latest con.eid init s.history := latest_plain trivial
  have gets : GetsLatest con.eid init (s.history ++ [.returned c t op res]) :=
    inv.gets.plain trivial
  rcases inv.situated (c := c) (t := t) (by simp [here]) with ⟨rfl, -, base, state, ok⟩ | ok <;>
    rw [here] at ok <;> obtain ⟨o, own, wp⟩ := ok
  -- the operation ends without a release: its section ends with it
  · obtain ⟨o', commit, finish⟩ := wp
    simp only [State.view, ← state] at commit
    refine ⟨_, inv.used placed rfl (fun _ _ => rfl) rfl rfl gets
      (.returned (.commit inv.explained own commit) SpecState.set_own_self finish)
      (fun b u ne => ?_) (.leaked c t (by simp) ?_)⟩
    · rw [SpecState.set_own_of_ne ne, SpecState.set_own_of_ne ne]
    · rw [SpecState.set_own_self, State.record_thread, State.setThread_thread_self]
      rfl
  · exact ⟨_, inv.apart (c := c) (t := t) placed rfl (fun _ => rfl) rfl rfl rfl content gets
      (.returned inv.explained own wp) (by simp) rfl⟩

/-- Something else happens. -/
theorem elsewhere (inv : SectionInv con spec dataOf init s a k) (placed : Placed s')
    (locks : s'.locks con.eid = s.locks con.eid)
    (cache : ∀ b, s'.cache b con.eid = s.cache b con.eid)
    (server : dataOf s'.server = dataOf s.server) (threads : s'.thread = s.thread)
    (history : s'.history = s.history) (only : ∀ lid b u, SyncOnly lid (s'.sync lid b u))
    (sync : s'.sync con.eid = s.sync con.eid) : SectionInv con spec dataOf init s' a k := by
  have view : ∀ b base, s'.view con dataOf init b base = s.view con dataOf init b base := by
    intro b base
    simp only [State.view, cache, server, history]
  refine ⟨placed, by rw [locks]; exact inv.custody, by rw [history]; exact inv.explained,
    by rw [history]; exact inv.gets, fun b keeper => by rw [cache]; exact inv.quiet b keeper,
    only, by rw [sync]; exact inv.whole, by rw [threads]; exact inv.outside, ?_⟩
  cases inv.held with
  | nobody settled good state =>
      exact .nobody (by rw [server, history, settled]) (by rw [history]; exact good)
        (by rw [history]; exact state)
  | cached b fits state =>
      exact .cached b (by rw [cache, server, history]; exact fits) (by rw [history]; exact state)
  | granted b u op next here ok fits state =>
      exact .granted b u op next (by rw [threads, here]) (by rw [threads]; exact ok)
        (by rw [cache, server, history]; exact fits) (by rw [history]; exact state)
  | inside b u base busy entered ok state =>
      exact .inside b u base (by rw [threads]; exact busy) (by rw [threads]; exact entered)
        (by rw [threads, view]; exact ok) state
  | leaked b u entered ok =>
      exact .leaked b u (by rw [threads]; exact entered) (by rw [threads]; exact ok)
  | syncing who b u syncOk good state =>
      refine .syncing who b u ?_ (by rw [history]; exact good) (by rw [history]; exact state)
      rw [sync, cache, server, history]
      exact syncOk

/-- The content is written back, one action further. -/
theorem writesBack {who : Releaser C} (inv : SectionInv con spec dataOf init s a (.syncing who c t))
    (placed : Placed s') (locks : s'.locks con.eid = s.locks con.eid)
    (cache : ∀ b, b ≠ who.client c → s'.cache b con.eid = s.cache b con.eid)
    (threads : s'.thread = s.thread) (history : s'.history = s.history)
    (only : ∀ lid b u, SyncOnly lid (s'.sync lid b u))
    (others : ∀ b u, ¬ (b = c ∧ u = t) → s'.sync con.eid b u = s.sync con.eid b u)
    (rest : SyncOk con.eid (latest con.eid init s.history) (s'.sync con.eid c t)
      (s'.cache (who.client c) con.eid) (dataOf s'.server)) :
    SectionInv con spec dataOf init s' a (.syncing who c t) := by
  refine ⟨placed, by rw [locks]; exact inv.custody, by rw [history]; exact inv.explained,
    by rw [history]; exact inv.gets, fun b keeper => ?_, only, fun b u ne => ?_,
    by rw [threads]; exact inv.outside, ?_⟩
  · rw [cache b (by rintro rfl; exact keeper rfl)]
    exact inv.quiet b keeper
  · rw [others b u (by rintro ⟨rfl, rfl⟩; exact ne who rfl)]
    exact inv.whole b u ne
  · cases inv.held with
    | syncing _ _ _ syncOk good state =>
        exact .syncing who c t (by rw [history]; exact rest) (by rw [history]; exact good)
          (by rw [history]; exact state)

/-- What is left of the `sync`s after one of them went on. -/
theorem only_setSync {lid : ℕ} {prog : Prog Unit} (inv : SectionInv con spec dataOf init s a k)
    (rest : SyncOnly lid prog) (l : ℕ) (b : C) (u : T) :
    SyncOnly l ((s.setSync lid c t prog).sync l b u) := by
  by_cases same : l = lid ∧ b = c ∧ u = t
  · obtain ⟨rfl, rfl, rfl⟩ := same
    rw [State.setSync_sync_self]
    exact rest
  · rw [State.setSync_sync_of_ne same]
    exact inv.only l b u

/-- The remote call of a `sync`. -/
theorem syncCall {lid : ℕ} {who : Releaser C} {req : Request} {next : Reply → Prog Unit}
    {reply : Reply} {server : σ} (inv : SectionInv con spec dataOf init s a k)
    (runs : (s.locks lid).pc c t = .releasing who .sync) (here : s.sync lid c t = .call req next)
    (serves : Serves con.eid con.kind (dataOf s.server) req reply (dataOf server))
    (placed : Placed ({ s with server := server }.setSync lid c t (next reply))) :
    SectionInv con spec dataOf init
      ({ s with server := server }.setSync lid c t (next reply)) a k := by
  have shape := inv.only lid c t
  rw [here] at shape
  obtain ⟨⟨buf, rfl⟩, rest⟩ := shape
  have only := inv.only_setSync (c := c) (t := t) (rest reply)
  by_cases same : lid = con.eid
  · subst same
    obtain rfl := (inv.custody.syncing c t who).mp runs
    refine inv.writesBack placed rfl (fun _ _ => rfl) rfl rfl only
      (fun b u ne => State.setSync_sync_of_ne fun eq => ne eq.2) ?_
    rw [State.setSync_sync_self]
    cases inv.held with
    | syncing _ _ _ syncOk good state =>
        rw [here] at syncOk
        obtain ⟨buf', eq, rest⟩ := syncOk
        cases eq
        have stored : dataOf server = buf := by simpa [Serves] using serves
        simp only [State.setSync_cache, State.setSync_server, stored]
        exact rest reply
  · refine inv.elsewhere placed rfl (fun _ => rfl) (serves.same same) rfl rfl only ?_
    funext b u
    exact State.setSync_sync_of_ne fun eq => same eq.1.symm

/-- An access of a `sync` to the cache. -/
theorem syncEntry {lid id : ℕ} {who : Releaser C} {update : Entry → Entry}
    {note : Entry → Option Note} {next : Entry → Prog Unit}
    (inv : SectionInv con spec dataOf init s a k)
    (runs : (s.locks lid).pc c t = .releasing who .sync)
    (here : s.sync lid c t = .entry id update note next)
    (placed : Placed ((s.setEntry (who.client c) id (update (s.cache (who.client c) id))).setSync
      lid c t (next (s.cache (who.client c) id)))) :
    SectionInv con spec dataOf init
      ((s.setEntry (who.client c) id (update (s.cache (who.client c) id))).setSync
        lid c t (next (s.cache (who.client c) id))) a k := by
  have shape := inv.only lid c t
  rw [here] at shape
  obtain ⟨rfl, rest⟩ := shape
  have only := inv.only_setSync (c := c) (t := t) (rest (s.cache (who.client c) id))
  by_cases same : id = con.eid
  · subst same
    obtain rfl := (inv.custody.syncing c t who).mp runs
    refine inv.writesBack placed rfl (fun b ne => by simp [State.setEntry_cache_of_ne, ne]) rfl rfl
      only (fun b u ne => State.setSync_sync_of_ne fun eq => ne eq.2) ?_
    rw [State.setSync_sync_self]
    cases inv.held with
    | syncing _ _ _ syncOk good state =>
        rw [here] at syncOk
        rw [State.setSync_cache, State.setEntry_cache_self]
        exact syncOk.2
  · refine inv.elsewhere placed rfl (fun b => ?_) rfl rfl rfl only ?_
    · rw [State.setSync_cache, State.setEntry_cache_of_ne fun eq => same eq.2.symm]
    · funext b u
      exact State.setSync_sync_of_ne fun eq => same eq.1.symm

/-- A `sync` returns. -/
theorem synced {lid : ℕ} {who : Releaser C} (inv : SectionInv con spec dataOf init s a k)
    (runs : (s.locks lid).pc c t = .releasing who .sync) (here : s.sync lid c t = .ret ())
    (placed : Placed ((s.setLock lid ((s.locks lid).setPc c t (.releasing who .call))).setSync
      lid c t (ExtentClient.sync lid))) :
    ∃ k', SectionInv con spec dataOf init
      ((s.setLock lid ((s.locks lid).setPc c t (.releasing who .call))).setSync
        lid c t (ExtentClient.sync lid)) a k' := by
  have only := inv.only_setSync (c := c) (t := t) (syncOnly_sync lid)
  by_cases same : lid = con.eid
  · subst same
    obtain rfl := (inv.custody.syncing c t who).mp runs
    obtain ⟨k', custody, move⟩ := (inv.placed.lock con.eid).moves inv.custody (.synced runs)
    -- the call of `release` to the server can follow, and nobody has the lock
    obtain rfl := move.eq_nobody
    cases inv.held with
    | syncing _ _ _ syncOk good state =>
        rw [here] at syncOk
        refine ⟨.nobody, placed, by simpa using custody, inv.explained, inv.gets, fun b _ => ?_,
          only, fun b u _ => ?_, fun b u _ => inv.outside b u (by simp),
          .nobody syncOk.2 good state⟩
        · by_cases eq : b = who.client c
          · subst eq
            exact syncOk.1
          · exact inv.quiet b fun keeper => eq (Option.some_injective _ keeper).symm
        · by_cases eq : b = c ∧ u = t
          · obtain ⟨rfl, rfl⟩ := eq
            rw [State.setSync_sync_self]
          · rw [State.setSync_sync_of_ne fun h => eq h.2]
            exact inv.whole b u (by rintro who' ⟨⟩; exact eq ⟨rfl, rfl⟩)
  · refine ⟨k, inv.elsewhere placed ?_ (fun _ => rfl) rfl rfl rfl only ?_⟩
    · rw [State.setSync_locks, State.setLock_locks_of_ne (Ne.symm same)]
    · funext b u
      exact State.setSync_sync_of_ne fun eq => same eq.1.symm

/-- **Every step keeps the invariant.** -/
theorem step (sectioned : Sectioned con spec dataOf m)
    (inv : SectionInv con spec dataOf init s a k) (step : Step m s s') :
    ∃ a' k', SectionInv con spec dataOf init s' a' k' := by
  have placed := inv.placed.step step
  cases step with
  | @invoke c t op idle may =>
      -- an idle thread has no operation in progress
      have own : a.own c t = none := by
        rcases inv.situated (c := c) (t := t) (by simp [idle]) with ⟨-, busy, -⟩ | ok
        · exact absurd idle busy
        · rw [idle] at ok
          exact ok
      exact ⟨_, k, inv.apart (c := c) (t := t) placed rfl
        (fun _ => rfl) rfl rfl rfl (latest_plain trivial) (inv.gets.plain trivial)
        (.invoked inv.explained own) (by simp) ⟨_, rfl, sectioned.ops c op may⟩⟩
  | @acquire c t op lid next lock here step mutex =>
      by_cases same : lid = con.eid
      · subst same
        have idle := step.acquire_pc.1
        suffices moved : ∃ k', SectionInv con spec dataOf init
            ((s.setLock con.eid lock).setThread c t (.acquiring op con.eid next)) a k' by
          exact ⟨a, moved⟩
        refine inv.lockMoves placed (by simpa using step)
          (by simp) (by simp) rfl rfl rfl rfl (fun b u => ?_) (fun b u free holds => ?_)
        · by_cases eq : b = c ∧ u = t
          · obtain ⟨rfl, rfl⟩ := eq
            exact Or.inr ⟨op, next, here, State.setThread_thread_self, idle⟩
          · exact Or.inl (State.setThread_thread_of_ne eq)
        · by_cases eq : b = c ∧ u = t
          · obtain ⟨rfl, rfl⟩ := eq
            exact ⟨op, next, State.setThread_thread_self⟩
          · have goes := step.goes (c := b) (t := u) (by rintro ⟨⟩; exact eq ⟨rfl, rfl⟩)
            rw [State.setThread_thread_of_ne eq]
            exact inv.placed.acquires goes free (by simpa using holds)
      · refine ⟨a, k, inv.thread (c := c) (t := t) placed ?_ (fun _ => rfl) rfl rfl rfl rfl inv.gets
          inv.explained (by simp [here]) ?_ (by simp) fun place ok => ?_⟩
        · rw [State.setThread_locks, State.setLock_locks_of_ne (Ne.symm same)]
        · rintro op' next' ⟨⟩
          exact same rfl
        · rw [here] at ok
          exact ok
  | @acquired c t op lid next here done =>
      by_cases same : lid = con.eid
      · subst same
        exact inv.acquired here (done.resolve_right (inv.placed.lock _).not_noent) placed
      · refine ⟨a, k, inv.thread (c := c) (t := t) placed rfl (fun _ => rfl) rfl rfl rfl
          (latest_plain trivial) (inv.gets.plain trivial) (.silent inv.explained same) ?_ (by simp)
          (by simp) fun place ok => ?_⟩
        · rintro op' next' eq
          rw [here] at eq
          cases eq
          exact same rfl
        · rw [here] at ok
          obtain ⟨o, own, wp⟩ := ok
          cases place <;> simp only [Wp, if_neg same] at wp <;> exact ⟨o, own, wp⟩
  | @release c t op lid next lock here step mutex =>
      by_cases same : lid = con.eid
      · subst same
        exact inv.release here step placed
      · refine ⟨a, k, inv.thread (c := c) (t := t) placed ?_ (fun _ => rfl) rfl rfl rfl
          (latest_plain trivial) (inv.gets.plain trivial) (.silent inv.explained trivial)
          (by simp [here]) (by simp) (by simp) fun place ok => ?_⟩
        · rw [State.record_locks, State.setThread_locks, State.setLock_locks_of_ne (Ne.symm same)]
        · rw [here] at ok
          obtain ⟨o, own, wp⟩ := ok
          cases place <;> simp only [Wp, if_neg same] at wp <;> exact ⟨o, own, wp⟩
  | @released c t op lid next here done =>
      refine ⟨a, k, inv.thread (c := c) (t := t) placed rfl (fun _ => rfl) rfl rfl rfl rfl inv.gets
        inv.explained (by simp [here]) (by simp) (by simp) fun place ok => ?_⟩
      rw [here] at ok
      exact ok
  | call here serves may =>
      obtain ⟨a', kept⟩ := inv.call here (sectioned.serves _ _ _ _ serves)
        (sectioned.allows _ _ _ may) placed
      exact ⟨a', k, kept⟩
  | entry here may =>
      refine ⟨a, k, inv.entry here ?_ placed⟩
      rintro rfl
      exact sectioned.guard _ _ _ _ _ may
  | @time c t op next now here =>
      refine ⟨a, k, inv.thread (c := c) (t := t) placed rfl (fun _ => rfl) rfl rfl rfl rfl inv.gets
        inv.explained (by simp [here]) (by simp) (by simp) fun place ok => ?_⟩
      rw [here] at ok
      obtain ⟨o, own, wp⟩ := ok
      exact ⟨o, own, wp now⟩
  | @memory c t op next bytes here =>
      refine ⟨a, k, inv.thread (c := c) (t := t) placed rfl (fun _ => rfl) rfl rfl rfl rfl inv.gets
        inv.explained (by simp [here]) (by simp) (by simp) fun place ok => ?_⟩
      rw [here] at ok
      obtain ⟨o, own, wp⟩ := ok
      exact ⟨o, own, wp bytes⟩
  | returned here =>
      obtain ⟨a', kept⟩ := inv.returned here placed
      exact ⟨a', k, kept⟩
  | @lock lid label lock step inside other mutex =>
      by_cases same : lid = con.eid
      · subst same
        obtain ⟨k', moved⟩ := inv.lockMoves placed (by simpa using step)
          (by rintro c t rfl; cases inside) other rfl rfl rfl rfl (fun b u => Or.inl rfl)
          (fun b u free holds => inv.placed.acquires (step.goes (by simp [inside])) free
            (by simpa using holds))
        exact ⟨a, k', moved⟩
      · exact ⟨a, k, inv.elsewhere placed (State.setLock_locks_of_ne (Ne.symm same)) (fun _ => rfl)
          rfl rfl rfl inv.only rfl⟩
  | syncCall runs here serves may =>
      exact ⟨a, k, inv.syncCall runs here (sectioned.serves _ _ _ _ serves) placed⟩
  | syncEntry runs here => exact ⟨a, k, inv.syncEntry runs here placed⟩
  | synced runs here =>
      obtain ⟨k', kept⟩ := inv.synced runs here placed
      exact ⟨a, k', kept⟩

/-- Nothing is cached and nothing runs. -/
theorem initial {server : σ} (settled : dataOf server = init) (good : con.good init) :
    SectionInv con spec dataOf init (.initial server : State C T Op Res σ)
      (.initial (con.abs init)) .nobody where
  placed := .initial server
  custody := .initial
  explained := .nil
  gets := .nil
  quiet _ _ := quiet_none
  only lid _ _ := syncOnly_sync lid
  whole _ _ _ := rfl
  outside _ _ _ := rfl
  held := .nobody settled good rfl

end SectionInv

/-- **The contract of an extent holds along every run.** -/
theorem reach_sections (sectioned : Sectioned con spec dataOf m)
    (begins : ∀ server, start server → dataOf server = init) (good : con.good init)
    (reach : Reach m start s) : ∃ a k, SectionInv con spec dataOf init s a k := by
  refine Transition.Reachable.invariant
    (I := fun s => ∃ a k, SectionInv con spec dataOf init s a k) ?_ ?_ reach
  · rintro s ⟨server, started, rfl⟩
    exact ⟨_, _, .initial (begins server started) good⟩
  · rintro s s' - ⟨a, k, inv⟩ step
    exact inv.step sectioned step

end Steps

end Yfs.Client
