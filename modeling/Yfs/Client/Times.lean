import Yfs.Client.ExtentCalls
import Yfs.Lock.Custody
import Yfs.Storage.Times

/-!
# Modification times under caches

Any number of clients with their extent caches, the extent server with its clock, and the lock of
one extent.  Times are set in three places: in the cache by `create` and by `put`, and at the server
when a `put` is flushed.  So they can change without a modification: when `sync` flushes a buffer
that was put earlier, when it drops the attributes that `create` made up, and when a client finds
an entry that it created before it had the lock.

A call of `extent_client` is a single step here, and so is a `sync`; the lock moves as in
`Lock.System`.  Only `get` and `getattr` have to be made under the lock, as the operations make
them.  `create` and the `put` of `symlink` for a new inum are not, and that is one of the ways
in which times change without a modification.

* `TimedStep` — one call of a client, one step of the lock, or the `sync` of a release.
* `SteadyTimes` — two calls of `getattr` return the same times if nothing was modified in between.
* `observed` — the times that nothing has changed since somebody saw them.
* `keepsTimes` — the condition on `sync` and on a client that is given the lock.
* `times_steady` — in every run in which these meet the condition the times are steady.
-/

namespace Yfs.Client

open Storage Storage.ExtentServer Lock Transition

variable {C T : Type}

/-! ## Clients, lock and server -/

/-- The extent server at a time, for puts within the size limits. -/
def diskServer (now : Clock) (bm : BlockManager) (req : Request) (reply : Reply)
    (bm' : BlockManager) : Prop :=
  Bounded req ∧ handle now req bm = .ok (reply, bm')

/-- A call that was made. -/
structure CallRecord (C : Type) where
  client : C
  call : ExtentCall
  res : ExtentRes
  deriving DecidableEq, Repr

/-- The lock of the extent, the caches, the server, and the calls so far. -/
structure TimedState (C T : Type) where
  lock : LockState C T
  cache : C → Cache
  server : BlockManager
  history : List (CallRecord C)

/-- Conditions on the `sync` of a client, with what the server's clock then shows, and on a client
that is given the lock.

Both are always true for the code as it is; what is shown of the times is about runs that keep to
a rule. -/
structure TimesRule (C T : Type) where
  maySync : TimedState C T → C → Clock → Prop
  mayEnter : TimedState C T → C → Prop

section Steps

variable [LinearOrder C] [DecidableEq T]

/-- **One step** of the clients that share extent `eid`. -/
inductive TimedStep (eid : ℕ) (rule : TimesRule C T) : TimedState C T → TimedState C T → Prop where
  /-- A client makes a call, of `get` and `getattr` of the extent under its lock.  (A `sync` of
  another extent belongs to the release of another lock.) -/
  | call {s : TimedState C T} {c : C} {now : Clock} {bytes : ℕ → UInt8} {call : ExtentCall}
      {res : ExtentRes} {acts : List Act} {after : Alone BlockManager}
      (named : ∀ id, call.eid? = some id → id ≤ inodeNum)
      (locked : call = .get eid ∨ call = .getattr eid → ∃ t, s.lock.pc c t = .holding)
      (other : call ≠ .sync eid)
      (runs : Runs (diskServer now) (call.prog.given bytes) ⟨[], s.cache c, s.server⟩ acts
        (.returned res) after) :
      TimedStep eid rule s { s with
        cache := Function.update s.cache c after.cache
        server := after.server
        history := s.history ++ [⟨c, call, res⟩] }
  /-- The lock moves on. -/
  | lock {s : TimedState C T} {label : Label C T} {lock : LockState C T}
      (step : Lock.Step false label s.lock lock) (other : ∀ c, label ≠ .synced c)
      (enters : ∀ c, (lock.client c).Cached → ¬ (s.lock.client c).Cached → rule.mayEnter s c) :
      TimedStep eid rule s { s with lock := lock }
  /-- A release writes the extent back. -/
  | sync {s : TimedState C T} {c : C} {t : T} {who : Releaser C} {now : Clock}
      {bytes : ℕ → UInt8} {acts : List Act} {after : Alone BlockManager}
      (releases : s.lock.pc c t = .releasing who .sync) (may : rule.maySync s (who.client c) now)
      (runs : Runs (diskServer now) ((ExtentCall.prog (.sync eid)).given bytes)
        ⟨[], s.cache (who.client c), s.server⟩ acts (.returned .done) after) :
      TimedStep eid rule s { s with
        lock := s.lock.setPc c t (.releasing who .call)
        cache := Function.update s.cache (who.client c) after.cache
        server := after.server }

/-- Nothing is cached, and the server has handled any requests. -/
def TimedState.Initial (s : TimedState C T) : Prop :=
  s.lock = .initial ∧ s.cache = (fun _ _ => none) ∧ s.history = [] ∧
    ∃ uninit, Storage.ExtentServer.Reach (fun _ => Bounded) uninit s.server

/-- The states of the clients that share extent `eid`. -/
def TimedReach (eid : ℕ) (rule : TimesRule C T) : TimedState C T → Prop :=
  Reachable TimedState.Initial (TimedStep eid rule)

end Steps

/-! ## Steady times -/

namespace CallRecord

/-- The call was a `create`, `put` or `remove` of the extent. -/
def Modifies (eid : ℕ) (r : CallRecord C) : Prop :=
  match r.call, r.res with
  | .create _, .id id => id = eid
  | .put id _, _ | .remove id, _ => id = eid
  | _, _ => False

/-- What is known of the times after the call. -/
def seen (eid : ℕ) (old : Option (ℕ × ℕ)) (r : CallRecord C) : Option (ℕ × ℕ) :=
  match r.call, r.res with
  | .create _, .id id => if id = eid then none else old
  | .put id _, _ | .remove id, _ => if id = eid then none else old
  | .getattr id, .attr attr => if id = eid then some attr.times else old
  | _, _ => old

end CallRecord

/-- **Two calls of `getattr` with no modification between them return the same times.** -/
def SteadyTimes (eid : ℕ) (history : List (CallRecord C)) : Prop :=
  ∀ before c attr between c' attr' after,
    history = before ++ ⟨c, .getattr eid, .attr attr⟩ ::
      (between ++ ⟨c', .getattr eid, .attr attr'⟩ :: after) →
    (∀ r ∈ between, ¬ r.Modifies eid) → attr'.times = attr.times

/-- The times that the latest `getattr` returned, if nothing was modified since. -/
def observed (eid : ℕ) (history : List (CallRecord C)) : Option (ℕ × ℕ) :=
  history.foldl (fun old r => r.seen eid old) none

/-- **The condition.**  Where `getattr` was called and nothing was modified since, `sync` finds an
entry that is clean, and its attributes are not valid or have the server's times; or the entry is
dirty, and the server's clock shows the times that `getattr` would return.  A client that is given
the lock then has no valid attributes, or ones with the server's times. -/
def keepsTimes (eid : ℕ) : TimesRule C T where
  maySync s c now := (observed eid s.history).isSome → ∀ file, s.cache c eid = some file →
    if file.dirty then
      (now 1 % 2 ^ 32, now 2 % 2 ^ 32) =
        if file.attrValid then file.attr.times else s.server.times eid
    else file.attrValid = true → file.attr.times = s.server.times eid
  mayEnter s c := (observed eid s.history).isSome → ∀ file, s.cache c eid = some file →
    file.attrValid = true → file.attr.times = s.server.times eid

section History

variable {eid : ℕ} {history : List (CallRecord C)} {r : CallRecord C} {times : ℕ × ℕ}

theorem observed_snoc :
    observed eid (history ++ [r]) = r.seen eid (observed eid history) := by
  rw [observed, List.foldl_append]
  rfl

theorem seen_getattr {c : C} {attr : Attr} (old : Option (ℕ × ℕ)) :
    (⟨c, .getattr eid, .attr attr⟩ : CallRecord C).seen eid old = some attr.times := if_pos rfl

/-- What is known after a call was returned by it, or was known before. -/
theorem seen_eq_some {old : Option (ℕ × ℕ)} (known : r.seen eid old = some times) :
    ¬ r.Modifies eid ∧ ((∃ attr, r.call = .getattr eid ∧ r.res = .attr attr ∧ attr.times = times) ∨
      old = some times) := by
  have guarded : ∀ {id}, (if id = eid then none else old) = some times →
      ¬ id = eid ∧ old = some times := by
    intro id known
    by_cases here : id = eid
    · rw [if_pos here] at known
      cases known
    · rw [if_neg here] at known
      exact ⟨here, known⟩
  obtain ⟨c, call, res⟩ := r
  cases call with
  | create type =>
      cases res with
      | id id => exact ⟨(guarded known).1, .inr (guarded known).2⟩
      | _ => exact ⟨nofun, .inr known⟩
  | put id buf => exact ⟨(guarded known).1, .inr (guarded known).2⟩
  | remove id => exact ⟨(guarded known).1, .inr (guarded known).2⟩
  | getattr id =>
      refine ⟨nofun, ?_⟩
      cases res with
      | attr attr =>
          by_cases here : id = eid
          · subst here
            exact .inl ⟨attr, rfl, rfl, Option.some.inj ((seen_getattr old).symm.trans known)⟩
          · exact .inr ((if_neg here).symm.trans known)
      | _ => exact .inr known
  | _ => exact ⟨nofun, .inr known⟩

/-- Without a modification, what is known stays true if `getattr` returns it. -/
theorem seen_of_same (calm : ¬ r.Modifies eid)
    (same : ∀ attr, r.call = .getattr eid → r.res = .attr attr → attr.times = times) :
    r.seen eid (some times) = some times := by
  obtain ⟨c, call, res⟩ := r
  cases call with
  | create type =>
      cases res with
      | id id => exact if_neg calm
      | _ => rfl
  | put id buf => exact if_neg calm
  | remove id => exact if_neg calm
  | getattr id =>
      cases res with
      | attr attr =>
          by_cases here : id = eid
          · subst here
            exact (if_pos rfl).trans (congrArg some (same attr rfl rfl))
          · exact if_neg here
      | _ => rfl
  | _ => rfl

theorem SteadyTimes.nil : SteadyTimes eid ([] : List (CallRecord C)) := by
  intro before c attr between c' attr' after eq
  cases before with
  | nil => cases eq
  | cons _ _ => cases eq

/-- A shorter history. -/
theorem SteadyTimes.init (steady : SteadyTimes eid (history ++ [r])) : SteadyTimes eid history := by
  intro before c attr between c' attr' after eq calm
  refine steady before c attr between c' attr' (after ++ [r]) ?_ calm
  rw [eq]
  simp

/-- **While the times are steady, what was returned is what is observed.** -/
theorem observed_of_steady {c : C} {attr : Attr} (before between : List (CallRecord C))
    (steady : SteadyTimes eid (before ++ ⟨c, .getattr eid, .attr attr⟩ :: between))
    (calm : ∀ r ∈ between, ¬ r.Modifies eid) :
    observed eid (before ++ ⟨c, .getattr eid, .attr attr⟩ :: between) = some attr.times := by
  induction between using List.reverseRecOn with
  | nil =>
      rw [observed_snoc]
      exact seen_getattr _
  | append_singleton between r ih =>
      rw [← List.cons_append, ← List.append_assoc] at steady ⊢
      rw [observed_snoc, ih steady.init fun r mem => calm r (List.mem_append_left _ mem)]
      refine seen_of_same (calm r (by simp)) fun attr' call res => ?_
      obtain ⟨c', _, _⟩ := r
      cases call
      cases res
      refine steady before c attr between c' attr' [] ?_ fun r mem =>
        calm r (List.mem_append_left _ mem)
      simp

/-- One more call: a `getattr` returns what is observed. -/
theorem SteadyTimes.snoc (steady : SteadyTimes eid history)
    (last : ∀ attr times, r.call = .getattr eid → r.res = .attr attr →
      observed eid history = some times → attr.times = times) :
    SteadyTimes eid (history ++ [r]) := by
  intro before c attr between c' attr' after eq calm
  rcases after.eq_nil_or_concat with rfl | ⟨rest, last', rfl⟩
  · rw [← List.cons_append, ← List.append_assoc] at eq
    obtain ⟨whole, new⟩ := List.append_inj' eq rfl
    obtain rfl := List.singleton_inj.1 new
    subst whole
    exact last attr' attr.times rfl rfl (observed_of_steady before between steady calm)
  · rw [List.concat_eq_append, ← List.cons_append, ← List.append_assoc, ← List.cons_append,
      ← List.append_assoc] at eq
    obtain ⟨whole, -⟩ := List.append_inj' eq rfl
    refine steady before c attr between c' attr' rest ?_ calm
    rw [whole]
    simp

end History

/-! ## What one call does to the times -/

/-- The times that `getattr` returns to a client with this entry. -/
def shownTo (entry : Entry) (times : ℕ × ℕ) : ℕ × ℕ :=
  entry.elim times fun file => if file.attrValid then file.attr.times else times

/-- Where attributes are valid the buffer is. -/
def Entry.Whole (entry : Entry) : Prop :=
  ∀ file, entry = some file → file.attrValid = true → file.bufValid = true

theorem shownTo_of_invalid {entry : Entry}
    (invalid : ∀ file, entry = some file → file.attrValid = false)
    (times : ℕ × ℕ) : shownTo entry times = times := by
  cases entry with
  | none => rfl
  | some file => exact if_neg (by rw [invalid file rfl]; exact nofun)

theorem shownTo_of_valid {file : CachedFile} (valid : file.attrValid = true) (times : ℕ × ℕ) :
    shownTo (some file) times = file.attr.times := if_pos valid

theorem maskId_of_le {id : ℕ} (le : id ≤ inodeNum) : maskId id = id := by
  rw [inodeNum] at le
  exact Nat.mod_eq_of_lt (by omega)

section Call

variable {now : Clock} {bytes : ℕ → UInt8} {s s' : Alone BlockManager} {call : ExtentCall}
  {res : ExtentRes} {eid : ℕ}

theorem CallRun.allPlaced (run : CallRun (diskServer now) bytes s call res s')
    (all : BlockManager.AllPlaced s.server) : BlockManager.AllPlaced s'.server := by
  have handled : ∀ {req reply server}, diskServer now s.server req reply server →
      BlockManager.AllPlaced server :=
    fun serves => step_allPlaced all ⟨now, _, _, serves.1, serves.2⟩
  cases run with
  | create serves => exact handled serves
  | getMiss _ serves => exact handled serves
  | getattrMiss _ serves => exact handled serves
  | remove serves => exact handled serves
  | syncDirty _ _ serves => exact handled serves
  | _ => exact all

/-- Every call stores whole entries only. -/
theorem CallRun.whole (run : CallRun (diskServer now) bytes s call res s')
    (whole : (s.cache eid).Whole) : (s'.cache eid).Whole := by
  have stored : ∀ id (entry : Entry), entry.Whole →
      (Function.update s.cache id entry eid : Entry).Whole := by
    intro id entry new
    by_cases same : eid = id
    · rw [same, Function.update_self]
      exact new
    · rw [Function.update_of_ne same]
      exact whole
  cases run with
  | create serves =>
      refine stored _ _ ?_
      rintro _ ⟨⟩ -
      rfl
  | getMiss _ serves =>
      refine stored _ _ ?_
      rintro _ ⟨⟩ -
      rfl
  | put =>
      refine stored _ _ ?_
      rintro _ ⟨⟩ -
      rfl
  | getattrMiss _ serves =>
      refine stored _ _ ?_
      rintro _ ⟨⟩ -
      rfl
  | remove serves => exact stored _ _ nofun
  | syncClean clean =>
      refine stored _ _ fun file here valid => ?_
      obtain ⟨entry, -, rfl⟩ := Option.map_eq_some_iff.1 here
      cases valid
  | syncDirty _ _ serves =>
      refine stored _ _ ?_
      rintro _ ⟨⟩ ⟨⟩
  | _ => exact whole

/-- A call that does not modify the extent, and is not its `sync`, leaves the times as they are,
at the server and for the client; a `getattr` returns them. -/
structure Calm (eid : ℕ) (call : ExtentCall) (res : ExtentRes) (s s' : Alone BlockManager) :
    Prop where
  server : s'.server.times eid = s.server.times eid
  shown : shownTo (s'.cache eid) (s.server.times eid) = shownTo (s.cache eid) (s.server.times eid)
  returned : ∀ attr, call = .getattr eid → res = .attr attr →
    attr.times = shownTo (s.cache eid) (s.server.times eid)

/-- A file that the server sends for the extent. -/
theorem times_fetched (le : eid ≤ inodeNum) {server : BlockManager} {req : Request} {reply : Reply}
    (asks : req = .get eid ∨ req = .getattr eid)
    (serves : diskServer now s.server req reply server) :
    (replyFile reply).attr.times = s.server.times eid := by
  obtain ⟨f, rfl, times⟩ := times_of_file asks serves.2
  rw [maskId_of_le le] at times
  exact times

theorem CallRun.calm (run : CallRun (diskServer now) bytes s call res s') (le : eid ≤ inodeNum)
    (all : BlockManager.AllPlaced s.server) (whole : (s.cache eid).Whole)
    (named : ∀ id, call.eid? = some id → id ≤ inodeNum) (other : call ≠ .sync eid) {c : C}
    (modest : ¬ (⟨c, call, res⟩ : CallRecord C).Modifies eid) : Calm eid call res s s' := by
  have kept : ∀ {req reply server}, diskServer now s.server req reply server → Apart eid req →
      server.times eid = s.server.times eid :=
    fun serves apart => times_of_apart all serves.1 apart le serves.2
  -- a call that stores an entry of another extent
  have away : ∀ {id entry server}, id ≠ eid → server.times eid = s.server.times eid →
      call ≠ .getattr eid →
      Calm eid call res s (({ s with server := server } : Alone BlockManager).store id entry) := by
    intro id entry server ne times notStat
    have same : (({ s with server := server } : Alone BlockManager).store id entry).cache eid =
        s.cache eid := Alone.store_cache_of_ne _ _ (Ne.symm ne)
    exact ⟨times, by rw [same], fun attr stat => absurd stat notStat⟩
  -- a file that is fetched, for this extent or for another
  have fetched : ∀ {id req reply server}, id ≤ inodeNum → req = .get id ∨ req = .getattr id →
      diskServer now s.server req reply server →
      (id = eid → ∀ file, s.cache id = some file → file.attrValid = false) →
      (∀ attr, call = .getattr eid → res = .attr attr → id = eid ∧ attr = (replyFile reply).attr) →
      Calm eid call res s (({ s with server := server } : Alone BlockManager).store id
        (some (((s.cache id).getD (.blank bytes)).filled (replyFile reply)))) := by
    intro id req reply server inum asks serves invalid returns
    have times : server.times eid = s.server.times eid := by
      refine kept serves ?_
      rcases asks with rfl | rfl
      · trivial
      · trivial
    by_cases here : id = eid
    · subst here
      have sent := times_fetched inum asks serves
      have before := shownTo_of_invalid (invalid rfl) (s.server.times id)
      refine ⟨times, ?_, fun attr stat result => ?_⟩
      · rw [Alone.store_cache_self, shownTo_of_valid rfl, before]
        exact sent
      · rw [(returns attr stat result).2, before]
        exact sent
    · have same : (({ s with server := server } : Alone BlockManager).store id
          (some (((s.cache id).getD (.blank bytes)).filled (replyFile reply)))).cache eid =
          s.cache eid := Alone.store_cache_of_ne _ _ (Ne.symm here)
      exact ⟨times, by rw [same], fun attr stat result => absurd (returns attr stat result).1 here⟩
  cases run with
  | @create type atime ctime mtime reply server serves =>
      refine away ?_ (kept serves trivial) nofun
      exact modest
  | getHit cached valid =>
      exact ⟨rfl, rfl, nofun⟩
  -- a get that misses also fetches the attributes; they were not valid, since the entry is whole
  | @getMiss id reply server invalid serves =>
      refine fetched (named id rfl) (.inl rfl) serves ?_ nofun
      rintro rfl file cached
      refine Bool.eq_false_iff.2 fun valid => ?_
      exact absurd (whole file cached valid) (Bool.eq_false_iff.1 (invalid file cached))
  | @put id buf =>
      exact away modest rfl nofun
  | @getattrHit id entry cached valid =>
      refine ⟨rfl, rfl, ?_⟩
      rintro attr ⟨⟩ ⟨⟩
      rw [cached, shownTo_of_valid valid]
  | @getattrMiss id reply server invalid serves =>
      refine fetched (named id rfl) (.inr rfl) serves (fun _ => invalid) ?_
      rintro attr ⟨⟩ ⟨⟩
      exact ⟨rfl, rfl⟩
  | @remove id reply server serves =>
      refine away modest (kept serves ?_) nofun
      rw [Apart, maskId_of_le (named id rfl)]
      exact modest
  | @syncClean id clean =>
      exact away (fun same => other (by rw [same])) rfl nofun
  | @syncDirty id entry reply server cached dirty serves =>
      have ne : id ≠ eid := fun same => other (by rw [same])
      refine away ne (kept serves ?_) nofun
      rw [Apart, maskId_of_le (named id rfl)]
      exact ne

end Call

/-! ## Two clients -/

section Run

variable [LinearOrder C] [DecidableEq T] {eid : ℕ} {rule : TimesRule C T} {s : TimedState C T}

/-- The lock moves on, without the `sync` of a release. -/
def LockMoves : LockState C T → LockState C T → Prop :=
  Relation.ReflTransGen fun l l' => ∃ label, Lock.Step false label l l' ∧ ∀ c, label ≠ .synced c

/-- Client 1 asks for the lock while client 0 has it, and gets it after the `sync` of client 0. -/
theorem handover : ∃ first second third : LockState ℕ Unit,
    (LockMoves .initial first ∧ first.pc 0 () = .holding) ∧
    (LockMoves first second ∧ second.pc 0 () = .releasing .thread .sync) ∧
    LockMoves (second.setPc 0 () (.releasing .thread .call)) third ∧ third.pc 1 () = .holding := by
  -- client 0 gets the lock, client 1 asks, the server revokes, client 0 releases
  let s₀ : LockState ℕ Unit := .initial
  let s₁ := s₀.acquiring 0 () ((s₀.client 0).acquire ())
  let s₂ := s₁.served 0 ()
  let s₃ := s₂.acquiring 0 () ((s₂.client 0).rpcReturned .OK)
  let s₄ := s₃.acquiring 1 () ((s₃.client 1).acquire ())
  let s₅ := s₄.served 1 ()
  let s₆ := s₅.setPc 1 () (.revoking 0 .RETRY)
  let s₇ := (s₆.setClient 0 (s₆.client 0).revokeHandler.1).setPc 1 () (.replied .RETRY)
  let s₈ := s₇.acquiring 1 () ((s₇.client 1).rpcReturned .RETRY)
  let s₉ := (s₈.setClient 0 (s₈.client 0).release.1).setPc 0 () (.releasing .thread .sync)
  -- the server has it back and calls client 1, which asks again and gets it
  let t₀ := s₉.setPc 0 () (.releasing .thread .call)
  let t₁ := { t₀ with server := t₀.server.release.1 }.setPc 0 () (.releasing .thread (.retry 1))
  let t₂ := (t₁.signalled 1 (t₁.client 1).retryHandler).setPc 0 () (.releasing .thread .done)
  let t₃ := t₂.acquiring 1 () ((t₂.client 1).wake .retried)
  let t₄ := t₃.served 1 ()
  let t₅ := t₄.acquiring 1 () ((t₄.client 1).rpcReturned .OK)
  have step : ∀ {label} {l l' l'' : LockState ℕ Unit}, LockMoves l l' →
      Lock.Step false label l' l'' → (∀ c, label ≠ .synced c) → LockMoves l l'' :=
    fun moves step other => moves.tail ⟨_, step, other⟩
  have m₁ : LockMoves s₀ s₁ := step .refl (.acquire (c := 0) (t := ()) rfl) nofun
  have m₂ : LockMoves s₀ s₂ := step m₁ (.serverAcquire (c := 0) (t := ()) rfl) nofun
  have m₃ : LockMoves s₀ s₃ := step m₂ (.replied (c := 0) (t := ()) rfl) nofun
  have m₄ : LockMoves s₃ s₄ := step .refl (.acquire (c := 1) (t := ()) rfl) nofun
  have m₅ : LockMoves s₃ s₅ := step m₄ (.serverAcquire (c := 1) (t := ()) rfl) nofun
  have m₆ : LockMoves s₃ s₆ := step m₅ (.readHolding (c := 1) (t := ()) rfl rfl) nofun
  have m₇ : LockMoves s₃ s₇ := step m₆ (.revoke (c := 1) (t := ()) rfl) nofun
  have m₈ : LockMoves s₃ s₈ := step m₇ (.replied (c := 1) (t := ()) rfl) nofun
  have m₉ : LockMoves s₃ s₉ := step m₈ (.release (c := 0) (t := ()) rfl rfl) nofun
  have n₁ : LockMoves t₀ t₁ := step .refl (.serverRelease (c := 0) (t := ()) rfl) nofun
  have n₂ : LockMoves t₀ t₂ := step n₁ (.retry (c := 0) (t := ()) rfl) nofun
  have n₃ : LockMoves t₀ t₃ := step n₂ (.wake (c := 1) (t := ()) rfl (.inl rfl)) nofun
  have n₄ : LockMoves t₀ t₄ := step n₃ (.serverAcquire (c := 1) (t := ()) rfl) nofun
  have n₅ : LockMoves t₀ t₅ := step n₄ (.replied (c := 1) (t := ()) rfl) nofun
  exact ⟨s₃, s₉, t₅, ⟨m₃, rfl⟩, ⟨m₉, rfl⟩, n₅, rfl⟩

namespace TimedReach

theorem moves (reach : TimedReach eid rule s) {l : LockState C T} (moves : LockMoves s.lock l)
    (enters : ∀ l c, rule.mayEnter { s with lock := l } c) :
    TimedReach eid rule { s with lock := l } := by
  induction moves with
  | refl => exact reach
  | @tail l l' _ step ih =>
      obtain ⟨label, step, other⟩ := step
      exact ih.step (.lock step other fun c _ _ => enters l c)

theorem call (reach : TimedReach eid rule s) {c : C} {now : Clock} {bytes : ℕ → UInt8}
    {call : ExtentCall} {res : ExtentRes} {after : Alone BlockManager}
    (run : CallRun (diskServer now) bytes ⟨[], s.cache c, s.server⟩ call res after)
    (named : ∀ id, call.eid? = some id → id ≤ inodeNum)
    (locked : call = .get eid ∨ call = .getattr eid → ∃ t, s.lock.pc c t = .holding)
    (other : call ≠ .sync eid) :
    TimedReach eid rule { s with
      cache := Function.update s.cache c after.cache
      server := after.server
      history := s.history ++ [⟨c, call, res⟩] } := by
  obtain ⟨acts, runs⟩ := run.runs
  exact reach.step (.call named locked other runs)

theorem sync (reach : TimedReach eid rule s) {c : C} {t : T} {who : Releaser C} {now : Clock}
    {bytes : ℕ → UInt8} {after : Alone BlockManager}
    (releases : s.lock.pc c t = .releasing who .sync) (may : rule.maySync s (who.client c) now)
    (run : CallRun (diskServer now) bytes ⟨[], s.cache (who.client c), s.server⟩ (.sync eid) .done
      after) :
    TimedReach eid rule { s with
      lock := s.lock.setPc c t (.releasing who .call)
      cache := Function.update s.cache (who.client c) after.cache
      server := after.server } := by
  obtain ⟨acts, runs⟩ := run.runs
  exact reach.step (.sync releases may runs)

end TimedReach

/-- Client 0 looks at the attributes, the lock passes on with a clean entry, and client 1 looks. -/
theorem exists_passed {rule : TimesRule ℕ Unit} {s looked synced : TimedState ℕ Unit} {now : Clock}
    {bytes : ℕ → UInt8} {attr : Attr} {after : Alone BlockManager} {f : FullFile}
    {server : BlockManager} (reach : TimedReach eid rule s) (start : s.lock = .initial)
    (le : eid ≤ inodeNum) (missing : s.cache 1 eid = none)
    (first : CallRun (diskServer now) bytes ⟨[], s.cache 0, s.server⟩ (.getattr eid) (.attr attr)
      after)
    (clean : ∀ file, after.cache eid = some file → file.dirty = false)
    (second : diskServer now after.server (.getattr eid) (.file f) server)
    (looked_eq : looked = { s with
      cache := Function.update s.cache 0 after.cache
      server := after.server
      history := s.history ++ [⟨0, .getattr eid, .attr attr⟩] })
    (synced_eq : synced = { looked with
      cache := Function.update looked.cache 0 (Function.update (looked.cache 0) eid
        ((looked.cache 0 eid).map CachedFile.invalid)) })
    (enters : ∀ l c, rule.mayEnter { s with lock := l } c ∧
      rule.mayEnter { looked with lock := l } c ∧ rule.mayEnter { synced with lock := l } c)
    (syncs : ∀ l, rule.maySync { looked with lock := l } 0 now) :
    ∃ s', TimedReach eid rule s' ∧
      s'.history =
        s.history ++ [⟨0, .getattr eid, .attr attr⟩, ⟨1, .getattr eid, .attr f.attr⟩] := by
  -- the lock goes from client 0 to client 1 on its own path, and calls and `sync` come in between
  obtain ⟨l₁, l₂, l₃, ⟨moves₁, holds₁⟩, ⟨moves₂, releases⟩, moves₃, holds₃⟩ := handover
  rw [← start] at moves₁
  have named : ∀ id, (ExtentCall.getattr eid).eid? = some id → id ≤ inodeNum := by
    rintro id ⟨⟩
    exact le
  have reach₁ := reach.moves moves₁ fun l c => (enters l c).1
  have reach₂ := reach₁.call first named (fun _ => ⟨(), holds₁⟩) nofun
  have reach₃ : TimedReach eid rule { looked with lock := l₂ } := by
    subst looked_eq
    exact reach₂.moves moves₂ fun l c => (enters l c).2.1
  have cached : looked.cache 0 = after.cache := by
    rw [looked_eq]
    show Function.update s.cache 0 after.cache 0 = after.cache
    rw [Function.update_self]
  have syncing :
      CallRun (diskServer now) bytes ⟨[], looked.cache 0, looked.server⟩ (.sync eid) .done
        (Alone.store ⟨[], looked.cache 0, looked.server⟩ eid
        ((looked.cache 0 eid).map CachedFile.invalid)) := by
    refine .syncClean fun file here => clean file ?_
    rw [← cached]
    exact here
  have reach₄ : TimedReach eid rule
      { synced with lock := l₂.setPc 0 () (.releasing .thread .call) } := by
    rw [synced_eq]
    exact reach₃.sync releases (syncs l₂) syncing
  have reach₅ := reach₄.moves moves₃ fun l c => (enters l c).2.2
  have invalid : ∀ file, synced.cache 1 eid = some file → file.attrValid = false := by
    rw [show synced.cache 1 eid = none by rw [synced_eq, looked_eq]; exact missing]
    exact nofun
  have asked : diskServer now synced.server (.getattr eid) (.file f) server := by
    rw [synced_eq, looked_eq]
    exact second
  have last : CallRun (diskServer now) bytes ⟨[], synced.cache 1, synced.server⟩ (.getattr eid)
      (.attr (replyFile (.file f)).attr) _ := .getattrMiss invalid asked
  refine ⟨_, reach₅.call last named (fun _ => ⟨(), holds₃⟩) nofun, ?_⟩
  rw [synced_eq, looked_eq]
  exact List.append_assoc ..

/-- Two clients and a server that has just booted. -/
def TimedState.booted (bm : BlockManager) : TimedState ℕ Unit :=
  ⟨.initial, fun _ _ => none, bm, []⟩

theorem timedReach_booted {uninit : Inode} {now : Clock} {bm : BlockManager}
    (boots : boot uninit now = .ok bm) (eid : ℕ) (rule : TimesRule ℕ Unit) :
    TimedReach eid rule (.booted bm) :=
  .init ⟨rfl, rfl, rfl, uninit, .init ⟨now, boots⟩⟩

end Run

/-! ## Every step -/

section Inv

variable [LinearOrder C] [DecidableEq T] {eid : ℕ} {s s' : TimedState C T} {k : Custody C T}

/-- The times that the next `getattr` under the lock returns. -/
def TimedState.shown (eid : ℕ) (s : TimedState C T) (keeper : Option C) : ℕ × ℕ :=
  keeper.elim (s.server.times eid) fun c => shownTo (s.cache c eid) (s.server.times eid)

/-- **The invariant**: the times that were observed are still shown.

What is shown is a matter of the client that has the lock, or of the server if nobody has it: a
client with valid attributes shows its own. -/
structure TimedInv (eid : ℕ) (s : TimedState C T) (k : Custody C T) : Prop where
  reach : ReachLock false s.lock
  custody : s.lock.In k
  placed : BlockManager.AllPlaced s.server
  whole : ∀ c, (s.cache c eid).Whole
  steady : SteadyTimes eid s.history
  shows : ∀ times, observed eid s.history = some times → s.shown eid k.keeper = times

namespace TimedInv

theorem initial (start : s.Initial) : TimedInv eid s .nobody := by
  obtain ⟨lock, cache, history, uninit, reach⟩ := start
  refine ⟨?_, ?_, reach_allPlaced reach, fun c => ?_, ?_, ?_⟩
  · rw [lock]
    exact .init rfl
  · rw [lock]
    exact .initial
  · rw [cache]
    exact nofun
  · rw [history]
    exact .nil
  · rw [history]
    exact nofun

/-- A call of a client. -/
theorem call (inv : TimedInv eid s k) (le : eid ≤ inodeNum) {c : C} {now : Clock}
    {bytes : ℕ → UInt8} {call : ExtentCall} {res : ExtentRes} {after : Alone BlockManager}
    (named : ∀ id, call.eid? = some id → id ≤ inodeNum)
    (locked : call = .get eid ∨ call = .getattr eid → ∃ t, s.lock.pc c t = .holding)
    (other : call ≠ .sync eid)
    (run : CallRun (diskServer now) bytes ⟨[], s.cache c, s.server⟩ call res after) :
    TimedInv eid { s with
      cache := Function.update s.cache c after.cache
      server := after.server
      history := s.history ++ [⟨c, call, res⟩] } k := by
  -- the keeper of the lock is the only one that gets or stats the extent
  have keeper : call = .get eid ∨ call = .getattr eid → k.keeper = some c := by
    intro reads
    obtain ⟨t, holds⟩ := locked reads
    rw [(inv.custody.used c t).1 holds]
    rfl
  have calm : ¬ (⟨c, call, res⟩ : CallRecord C).Modifies eid →
      Calm eid call res ⟨[], s.cache c, s.server⟩ after :=
    fun modest => run.calm le inv.placed (inv.whole c) named other modest
  have stat : ∀ attr times, call = .getattr eid → res = .attr attr →
      observed eid s.history = some times → attr.times = times := by
    rintro attr times rfl rfl known
    rw [(calm nofun).returned attr rfl rfl, ← inv.shows times known, keeper (.inr rfl)]
    rfl
  refine ⟨inv.reach, inv.custody, run.allPlaced inv.placed, fun b => ?_, inv.steady.snoc stat, ?_⟩
  · by_cases same : b = c
    · subst same
      show (Function.update s.cache b after.cache b eid : Entry).Whole
      rw [Function.update_self]
      exact run.whole (inv.whole b)
    · show (Function.update s.cache c after.cache b eid : Entry).Whole
      rw [Function.update_of_ne same]
      exact inv.whole b
  · intro times known
    rw [observed_snoc] at known
    obtain ⟨modest, known⟩ := seen_eq_some known
    have calm := calm modest
    -- a calm call leaves what is shown, whoever makes it
    have same : TimedState.shown eid { s with
        cache := Function.update s.cache c after.cache
        server := after.server
        history := s.history ++ [⟨c, call, res⟩] } k.keeper = s.shown eid k.keeper := by
      cases k.keeper with
      | none => exact calm.server
      | some b =>
          by_cases mine : b = c
          · subst mine
            show shownTo (Function.update s.cache b after.cache b eid) (after.server.times eid) = _
            rw [Function.update_self, calm.server]
            exact calm.shown
          · show shownTo (Function.update s.cache c after.cache b eid) (after.server.times eid) = _
            rw [Function.update_of_ne mine, calm.server]
            rfl
    rw [same]
    rcases known with ⟨attr, rfl, rfl, rfl⟩ | known
    · rw [calm.returned attr rfl rfl, keeper (.inr rfl)]
      rfl
    · exact inv.shows times known

/-- A step of the lock. -/
theorem lock (inv : TimedInv eid s k) {label : Label C T} {lock : LockState C T}
    (step : Lock.Step false label s.lock lock) (other : ∀ c, label ≠ .synced c)
    (enters : ∀ c, (lock.client c).Cached → ¬ (s.lock.client c).Cached →
      (keepsTimes eid).mayEnter s c) :
    ∃ k', TimedInv eid { s with lock := lock } k' := by
  obtain ⟨k', custody, move⟩ := inv.reach.moves inv.custody step
  refine ⟨k', inv.reach.step ⟨label, step⟩, custody, inv.placed, inv.whole, inv.steady, ?_⟩
  intro times known
  have before := inv.shows times known
  cases holder : k.keeper with
  | some b =>
      rw [move.keeper other holder]
      rw [holder] at before
      exact before
  | none =>
      rw [holder] at before
      cases holder' : k'.keeper with
      | none => exact before
      | some c =>
          -- a new keeper gets the lock from the server, with the times that the server shows
          have granted : k = .nobody ∧ ∃ t, k' = .used c t := by
            cases move with
            | stay k =>
                rw [holder] at holder'
                cases holder'
            | grant b t =>
                cases holder'
                exact ⟨rfl, t, rfl⟩
            | _ => cases holder
          obtain ⟨rfl, t, rfl⟩ := granted
          have away : ¬ (s.lock.client c).Cached := by
            intro cached
            rcases (inv.custody.cached c).1 cached with elsewhere | ⟨_, elsewhere⟩
            · cases elsewhere
            · cases elsewhere
          have agrees := enters c ((custody.cached c).2 (.inr ⟨t, rfl⟩)) away
            (Option.isSome_iff_exists.2 ⟨times, known⟩)
          rw [← before]
          show shownTo (s.cache c eid) (s.server.times eid) = s.server.times eid
          cases entry : s.cache c eid with
          | none => rfl
          | some file =>
              cases valid : file.attrValid with
              | true => rw [shownTo_of_valid valid, agrees file entry valid]
              | false => exact if_neg (by rw [valid]; exact nofun)

/-- The `sync` of a release. -/
theorem sync (inv : TimedInv eid s k) (le : eid ≤ inodeNum) {c : C} {t : T} {who : Releaser C}
    {now : Clock} {bytes : ℕ → UInt8} {after : Alone BlockManager}
    (releases : s.lock.pc c t = .releasing who .sync)
    (may : (keepsTimes eid).maySync s (who.client c) now)
    (run : CallRun (diskServer now) bytes ⟨[], s.cache (who.client c), s.server⟩ (.sync eid) .done
      after) :
    TimedInv eid { s with
      lock := s.lock.setPc c t (.releasing who .call)
      cache := Function.update s.cache (who.client c) after.cache
      server := after.server } .nobody := by
  have keeper : k = .syncing who c t := (inv.custody.syncing c t who).1 releases
  obtain ⟨k', custody, move⟩ := inv.reach.moves inv.custody (.synced releases)
  obtain rfl := move.eq_nobody
  refine ⟨inv.reach.step ⟨_, .synced releases⟩, custody, run.allPlaced inv.placed, fun b => ?_,
    inv.steady, fun times known => ?_⟩
  · by_cases same : b = who.client c
    · rw [same]
      show (Function.update s.cache (who.client c) after.cache (who.client c) eid : Entry).Whole
      rw [Function.update_self]
      exact run.whole (inv.whole _)
    · show (Function.update s.cache (who.client c) after.cache b eid : Entry).Whole
      rw [Function.update_of_ne same]
      exact inv.whole b
  · have before : shownTo (s.cache (who.client c) eid) (s.server.times eid) = times := by
      rw [← inv.shows times known, keeper]
      rfl
    have allowed := may (Option.isSome_iff_exists.2 ⟨times, known⟩)
    show after.server.times eid = times
    cases run with
    | syncClean clean =>
        show s.server.times eid = times
        cases entry : s.cache (who.client c) eid with
        | none =>
            rw [entry] at before
            exact before
        | some file =>
            have kept := allowed file entry
            rw [clean file entry] at kept
            rw [entry] at before
            cases valid : file.attrValid with
            | true =>
                rw [shownTo_of_valid valid] at before
                exact (kept valid).symm.trans before
            | false =>
                rw [shownTo_of_invalid] at before
                · exact before
                · rintro _ ⟨⟩
                  exact valid
    | @syncDirty _ file reply server cached dirty serves =>
        have kept := allowed file cached
        rw [dirty] at kept
        have wrote := times_put serves.2
        rw [maskId_of_le le] at wrote
        rw [show s.cache (who.client c) eid = some file from cached] at before
        exact (wrote.trans kept).trans before

/-- **Every step keeps the invariant.** -/
theorem step (inv : TimedInv eid s k) (le : eid ≤ inodeNum)
    (step : TimedStep eid (keepsTimes eid) s s') : ∃ k', TimedInv eid s' k' := by
  cases step with
  | call named locked other runs =>
      exact ⟨k, inv.call le named locked other (callRun_of_runs runs)⟩
  | lock step other enters => exact inv.lock step other enters
  | sync releases may runs => exact ⟨_, inv.sync le releases may (callRun_of_runs runs)⟩

end TimedInv

/-- **Modification times change only with modifications**, in every run in which each `sync` of
the extent and each client that is given its lock meets the condition.

The invariant follows the times that the keeper of the lock would be shown, by its own entry or by
the server.  Two moments can change them: a `sync`, after which the server has times of its own,
and the moment when a client that still has attributes gets the lock. -/
theorem times_steady (le : eid ≤ inodeNum) (reach : TimedReach eid (keepsTimes eid) s) :
    SteadyTimes eid s.history := by
  have inv : ∃ k, TimedInv eid s k := by
    refine Reachable.invariant (I := fun s => ∃ k, TimedInv eid s k) ?_ ?_ reach
    · exact fun s start => ⟨_, .initial start⟩
    · rintro s s' - ⟨k, inv⟩ step
      exact inv.step le step
  obtain ⟨k, inv⟩ := inv
  exact inv.steady

/-- Two clients look at the root, one after the other. -/
theorem times_steady_passed : ∃ s : TimedState ℕ Unit, TimedReach 1 (keepsTimes 1) s ∧
    (∃ attr attr', s.history = [⟨0, .getattr 1, .attr attr⟩, ⟨1, .getattr 1, .attr attr'⟩]) ∧
    SteadyTimes 1 s.history := by
  have boots := boot_ok ⟨0, 0, 0, 0, 0, fun _ => 0⟩ still
  generalize (BlockManager.fresh.setInode 1 _) = bm₀ at boots
  have blank := boot_blank boots
  have live : BlockManager.Live bm₀ 1 := (blank.live 1).2 (by decide)
  obtain ⟨bm₁, out, read⟩ := getattr_ok blank.exclusive.toPlaced live still
  obtain ⟨excl, files⟩ := read_keeps blank.exclusive live read
  have live₁ : BlockManager.Live bm₁ 1 := by
    refine not_not.1 fun dead => ?_
    rw [← BlockManager.files_eq_none_iff, files, BlockManager.files_eq_none_iff] at dead
    exact dead live
  obtain ⟨bm₂, out₂, -⟩ := getattr_ok excl.toPlaced live₁ still
  have times : (BlockManager.attrOf (bm₀.inodeAt 1)).times = bm₁.times 1 :=
    (BlockManager.times_of_read read 1).symm
  let f : FullFile := ⟨BlockManager.attrOf (bm₀.inodeAt 1), bm₀.fileData (bm₀.inodeAt 1)⟩
  let fetched : CachedFile := (CachedFile.blank fun _ => 0).filled f
  have asked : diskServer still bm₀ (.getattr 1) (.file f) bm₁ := ⟨trivial, out⟩
  have looks : CallRun (diskServer still) (fun _ => 0) ⟨[], fun _ => none, bm₀⟩ (.getattr 1)
      (.attr f.attr) (Alone.store ⟨[], fun _ => none, bm₁⟩ 1 (some fetched)) :=
    @CallRun.getattrMiss _ _ _ _ 1 (.file f) bm₁ nofun asked
  have passed : ∃ s : TimedState ℕ Unit, TimedReach 1 (keepsTimes 1) s ∧
      s.history = [⟨0, .getattr 1, .attr f.attr⟩,
        ⟨1, .getattr 1, .attr (BlockManager.attrOf (bm₁.inodeAt 1))⟩] := by
    refine exists_passed (timedReach_booted boots 1 (keepsTimes 1)) rfl (by decide) rfl looks ?_
      ⟨trivial, out₂⟩ rfl rfl
      (fun l c => ⟨nofun, fun _ file here _ => ?_, fun _ file here _ => ?_⟩) ?_
    · rintro _ ⟨⟩
      rfl
    -- nobody but client 0 has an entry
    · cases c with
      | zero =>
          cases here
          exact times
      | succ n => cases here
    · cases c with
      | zero =>
          cases here
          exact times
      | succ n => cases here
    · rintro l - _ ⟨⟩
      exact fun _ => times
  obtain ⟨s, reach, history⟩ := passed
  exact ⟨s, reach, ⟨_, _, history⟩, times_steady (by decide) reach⟩

/-- No condition on `sync` and on a client that is given the lock. -/
def anyTimes : TimesRule C T := ⟨fun _ _ _ => True, fun _ _ => True⟩

/-- **The times of a new file change when its lock passes on**: client 0 creates the file at time 5
and finds these times in its cache, and client 1 finds those that the inode had before. -/
theorem times_change_unmodified : ∃ s : TimedState ℕ Unit, TimedReach 2 anyTimes s ∧
    (∃ attr attr', s.history = [⟨0, .create tFile, .id 2⟩, ⟨0, .getattr 2, .attr attr⟩,
      ⟨1, .getattr 2, .attr attr'⟩] ∧ attr.times = (5, 5) ∧ attr'.times = (0, 0)) ∧
    ¬ SteadyTimes 2 s.history := by
  obtain ⟨bm₀, boots, zero⟩ : ∃ bm₀, boot ⟨0, 0, 0, 0, 0, fun _ => 0⟩ still = .ok bm₀ ∧
      bm₀.times 2 = (0, 0) := by
    refine ⟨_, boot_ok _ _, ?_⟩
    rw [BlockManager.times, BlockManager.inodeAt_setInode_of_ne (by decide), inodeAt_fresh]
  obtain ⟨bm₁, out, blank⟩ : ∃ bm₁, handle still (.create tFile) bm₀ = .ok (.created 2, bm₁) ∧
      Blank bm₁ 2 := (boot_blank boots).create still le_rfl (by decide) (by decide)
  have times : bm₁.times 2 = (0, 0) := by
    rw [← zero]
    have bounded : Bounded (.create tFile) := trivial
    exact times_of_apart (reach_allPlaced (.init ⟨still, boots⟩)) bounded trivial (by decide) out
  obtain ⟨bm₂, out₂, -⟩ := getattr_ok blank.exclusive.toPlaced ((blank.live 2).2 (by decide)) still
  -- the client's clock shows 5 when it creates the file
  let born : CachedFile :=
    ⟨{ attrOfMemory (fun _ => 0) with type := tFile, atime := 5, ctime := 5, mtime := 5 }, [], true,
      true, false⟩
  have created : diskServer still bm₀ (.create tFile) (.created 2) bm₁ := ⟨trivial, out⟩
  have creates : CallRun (diskServer still) (fun _ => 0) ⟨[], fun _ => none, bm₀⟩ (.create tFile)
      (.id 2) (Alone.store ⟨[], fun _ => none, bm₁⟩ 2 (some born)) :=
    @CallRun.create _ _ _ _ tFile 5 5 5 (.created 2) bm₁ created
  have looks : CallRun (diskServer still) (fun _ => 0)
      (Alone.store ⟨[], fun _ => none, bm₁⟩ 2 (some born)) (.getattr 2) (.attr born.attr) _ :=
    .getattrHit rfl rfl
  have reach := (timedReach_booted boots 2 anyTimes).call (c := 0) creates (by rintro _ ⟨⟩)
    (by simp) (by rintro ⟨⟩)
  obtain ⟨s, reach, history⟩ := exists_passed reach rfl (by decide) rfl looks
    (by rintro _ ⟨⟩; rfl) ⟨trivial, out₂⟩ rfl rfl (fun _ _ => ⟨trivial, trivial, trivial⟩)
    fun _ => trivial
  refine ⟨s, reach, ⟨born.attr, _, history, rfl, times⟩, fun steady => ?_⟩
  have same : (BlockManager.attrOf (bm₁.inodeAt 2)).times = born.attr.times :=
    steady _ 0 _ [] 1 _ [] history (by simp)
  exact absurd (times.symm.trans same) (by decide)

end Inv

end Yfs.Client
