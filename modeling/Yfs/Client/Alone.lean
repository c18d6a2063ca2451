import Yfs.Client.ExtentClient

/-!
# One thread of one client, on its own

The programs of `Client.Prog` run to their end by one thread of a client that shares
nothing with other clients.  The lock server then has nobody to take a lock back for, so
no `sync` comes in between, and a call of `acquire` waits only for a lock that the thread
holds itself.

A run says what the program did (`Act`) and how it ended (`Ending`): with a result, by `exit`,
waiting for itself, or at a request that the server does not answer.  `Ensures` is a predicate
transformer, so that the operations are run symbolically; `Always` adds that there is a run at
all.

* `Runs` — a run of a program, with what it does on the way; `exists_runs`: there always is
  one.
* `Always` — all runs of the program end as required.
* `Ensures` — the same, computed over the program; `Ensures.always` connects the two.
-/

namespace Yfs.Client

open Storage

variable {σ α β : Type}

/-- What the thread finds: the locks it holds, the cache, and the extent server. -/
structure Alone (σ : Type) where
  held : List ℕ
  cache : Cache
  server : σ

/-- What a program does on the way. -/
inductive Act where
  | acquire (lid : ℕ)
  | release (lid : ℕ)
  | access (eid : ℕ)
  | call (req : Request)
  deriving DecidableEq, Repr

/-- How a program ends.  `blocked` is a call of `acquire` for a lock that the thread holds,
`refused` a request that the server does not answer. -/
inductive Ending (α : Type) where
  | returned (a : α)
  | exited
  | blocked (lid : ℕ)
  | refused (req : Request)
  deriving DecidableEq, Repr

namespace Alone

variable (s : Alone σ)

/-- The state after an access to one entry. -/
def store (eid : ℕ) (entry : Entry) : Alone σ :=
  { s with cache := Function.update s.cache eid entry }

@[simp] theorem store_held (eid : ℕ) (entry : Entry) : (s.store eid entry).held = s.held := rfl
@[simp] theorem store_server (eid : ℕ) (entry : Entry) :
    (s.store eid entry).server = s.server := rfl
@[simp] theorem store_cache_self (eid : ℕ) (entry : Entry) :
    (s.store eid entry).cache eid = entry :=
  Function.update_self ..

theorem store_cache_of_ne {eid id : ℕ} (entry : Entry) (ne : id ≠ eid) :
    (s.store eid entry).cache id = s.cache id :=
  Function.update_of_ne ne ..

/-- An access that leaves the entry as it is. -/
@[simp] theorem store_self (eid : ℕ) : s.store eid (s.cache eid) = s := by
  rw [store, Function.update_eq_self]

end Alone

/-- **A run of a program**, with any clock, any uninitialised memory, and replies that the server
may give.

What is not determined is the clock, the memory, and the reply with the server after it.  A thread
that waits for itself and a request without an answer end the program, so that every program has
some ending; what the server does on its way to a refusal is not seen. -/
inductive Runs (serve : σ → Request → Reply → σ → Prop) :
    Prog α → Alone σ → List Act → Ending α → Alone σ → Prop where
  | ret {a : α} {s : Alone σ} : Runs serve (.ret a) s [] (.returned a) s
  | exit {s : Alone σ} : Runs serve .exit s [] .exited s
  | blocked {lid : ℕ} {next : Prog α} {s : Alone σ} (held : lid ∈ s.held) :
      Runs serve (.acquire lid next) s [] (.blocked lid) s
  | acquire {lid : ℕ} {next : Prog α} {s s' : Alone σ} {acts : List Act} {out : Ending α}
      (free : lid ∉ s.held) (rest : Runs serve next { s with held := lid :: s.held } acts out s') :
      Runs serve (.acquire lid next) s (.acquire lid :: acts) out s'
  | release {lid : ℕ} {next : Prog α} {s s' : Alone σ} {acts : List Act} {out : Ending α}
      (rest : Runs serve next { s with held := s.held.erase lid } acts out s') :
      Runs serve (.release lid next) s (.release lid :: acts) out s'
  | refused {req : Request} {next : Reply → Prog α} {s : Alone σ}
      (refuses : ∀ reply server, ¬ serve s.server req reply server) :
      Runs serve (.call req next) s [] (.refused req) s
  | call {req : Request} {next : Reply → Prog α} {s s' : Alone σ} {acts : List Act}
      {out : Ending α} {reply : Reply} {server : σ} (serves : serve s.server req reply server)
      (rest : Runs serve (next reply) { s with server := server } acts out s') :
      Runs serve (.call req next) s (.call req :: acts) out s'
  | entry {eid : ℕ} {update : Entry → Entry} {note : Entry → Option Note}
      {next : Entry → Prog α} {s s' : Alone σ} {acts : List Act} {out : Ending α}
      (rest : Runs serve (next (s.cache eid)) (s.store eid (update (s.cache eid))) acts out s') :
      Runs serve (.entry eid update note next) s (.access eid :: acts) out s'
  | time {next : ℕ → Prog α} {s s' : Alone σ} {acts : List Act} {out : Ending α} (now : ℕ)
      (rest : Runs serve (next now) s acts out s') : Runs serve (.time next) s acts out s'
  | memory {next : (ℕ → UInt8) → Prog α} {s s' : Alone σ} {acts : List Act} {out : Ending α}
      (bytes : ℕ → UInt8) (rest : Runs serve (next bytes) s acts out s') :
      Runs serve (.memory next) s acts out s'

/-- **The program comes to an end, and all its ends are in `post`.** -/
def Always (serve : σ → Request → Reply → σ → Prop) (prog : Prog α) (s : Alone σ)
    (post : Ending α → Alone σ → Prop) : Prop :=
  (∃ acts out s', Runs serve prog s acts out s') ∧
    ∀ acts out s', Runs serve prog s acts out s' → post out s'

/-- Every program comes to an end. -/
theorem exists_runs (serve : σ → Request → Reply → σ → Prop) (prog : Prog α) (s : Alone σ) :
    ∃ acts out s', Runs serve prog s acts out s' := by
  induction prog generalizing s with
  | ret a => exact ⟨_, _, _, .ret⟩
  | exit => exact ⟨_, _, _, .exit⟩
  | acquire lid next ih =>
      by_cases held : lid ∈ s.held
      · exact ⟨_, _, _, .blocked held⟩
      · obtain ⟨acts, out, s', run⟩ := ih { s with held := lid :: s.held }
        exact ⟨_, out, s', .acquire held run⟩
  | release lid next ih =>
      obtain ⟨acts, out, s', run⟩ := ih { s with held := s.held.erase lid }
      exact ⟨_, out, s', .release run⟩
  | call req next ih =>
      by_cases answers : ∃ reply server, serve s.server req reply server
      · obtain ⟨reply, server, serves⟩ := answers
        obtain ⟨acts, out, s', run⟩ := ih reply { s with server := server }
        exact ⟨_, out, s', .call serves run⟩
      · exact ⟨_, _, _, .refused fun reply server serves => answers ⟨reply, server, serves⟩⟩
  | entry eid update note next ih =>
      obtain ⟨acts, out, s', run⟩ := ih (s.cache eid) (s.store eid (update (s.cache eid)))
      exact ⟨_, out, s', .entry run⟩
  | time next ih =>
      obtain ⟨acts, out, s', run⟩ := ih 0 s
      exact ⟨_, out, s', .time 0 run⟩
  | memory next ih =>
      obtain ⟨acts, out, s', run⟩ := ih (fun _ => 0) s
      exact ⟨_, out, s', .memory (fun _ => 0) run⟩

/-! ## Rules -/

/-- What the program has to do from `s` on to end in `post`, action by action. -/
def Ensures (serve : σ → Request → Reply → σ → Prop) (post : Ending α → Alone σ → Prop) :
    Prog α → Alone σ → Prop
  | .ret a, s => post (.returned a) s
  | .exit, s => post .exited s
  | .acquire lid next, s => if lid ∈ s.held then post (.blocked lid) s
      else Ensures serve post next { s with held := lid :: s.held }
  | .release lid next, s => Ensures serve post next { s with held := s.held.erase lid }
  | .call req next, s =>
      ((∀ reply server, ¬ serve s.server req reply server) → post (.refused req) s) ∧
        ∀ reply server, serve s.server req reply server →
          Ensures serve post (next reply) { s with server := server }
  | .entry eid update _ next, s =>
      Ensures serve post (next (s.cache eid)) (s.store eid (update (s.cache eid)))
  | .time next, s => ∀ now, Ensures serve post (next now) s
  | .memory next, s => ∀ bytes, Ensures serve post (next bytes) s

/-- What is required of the first of two programs: where it returns, the second goes on. -/
def Ending.andThen (post : Ending β → Alone σ → Prop) (next : α → Alone σ → Prop) :
    Ending α → Alone σ → Prop
  | .returned a, s => next a s
  | .exited, s => post .exited s
  | .blocked lid, s => post (.blocked lid) s
  | .refused req, s => post (.refused req) s

namespace Ensures

variable {serve : σ → Request → Reply → σ → Prop} {s s' : Alone σ}

/-- Every run ends as it should. -/
theorem runs {post : Ending α → Alone σ → Prop} {prog : Prog α} {acts : List Act}
    {out : Ending α} (ensures : Ensures serve post prog s) (run : Runs serve prog s acts out s') :
    post out s' := by
  induction run with
  | ret => exact ensures
  | exit => exact ensures
  | blocked held => rwa [Ensures, if_pos held] at ensures
  | acquire free _ ih =>
      rw [Ensures, if_neg free] at ensures
      exact ih ensures
  | release _ ih => exact ih ensures
  | refused refuses => exact ensures.1 refuses
  | call serves _ ih => exact ih (ensures.2 _ _ serves)
  | entry _ ih => exact ih ensures
  | time now _ ih => exact ih (ensures now)
  | memory bytes _ ih => exact ih (ensures bytes)

/-- **What is computed over the program holds of its runs.** -/
theorem always {post : Ending α → Alone σ → Prop} {prog : Prog α}
    (ensures : Ensures serve post prog s) : Always serve prog s post :=
  ⟨exists_runs serve prog s, fun _ _ _ run => ensures.runs run⟩

theorem mono {post post' : Ending α → Alone σ → Prop} {prog : Prog α}
    (ensures : Ensures serve post prog s) (weaker : ∀ out s', post out s' → post' out s') :
    Ensures serve post' prog s := by
  induction prog generalizing s with
  | ret a => exact weaker _ _ ensures
  | exit => exact weaker _ _ ensures
  | acquire lid next ih =>
      rw [Ensures] at ensures ⊢
      split at ensures
      next held =>
          rw [if_pos held]
          exact weaker _ _ ensures
      next free =>
          rw [if_neg free]
          exact ih ensures
  | release lid next ih => exact ih ensures
  | call req next ih =>
      refine ⟨fun refuses => weaker _ _ (ensures.1 refuses), fun reply server serves => ?_⟩
      exact ih reply (ensures.2 reply server serves)
  | entry eid update note next ih => exact ih _ ensures
  | time next ih => exact fun now => ih now (ensures now)
  | memory next ih => exact fun bytes => ih bytes (ensures bytes)

/-- **The rule of sequences.** -/
theorem bind {post : Ending β → Alone σ → Prop} {p : Prog α} {k : α → Prog β}
    (first : Ensures serve (Ending.andThen post fun a s' => Ensures serve post (k a) s') p s) :
    Ensures serve post (p.bind k) s := by
  induction p generalizing s with
  | ret a => exact first
  | exit => exact first
  | acquire lid next ih =>
      rw [Ensures] at first
      rw [Prog.bind, Ensures]
      split at first
      next held =>
          rw [if_pos held]
          exact first
      next free =>
          rw [if_neg free]
          exact ih first
  | release lid next ih => exact ih first
  | call req next ih => exact ⟨first.1, fun reply server serves => ih reply (first.2 _ _ serves)⟩
  | entry eid update note next ih => exact ih _ first
  | time next ih => exact fun now => ih now (first now)
  | memory next ih => exact fun bytes => ih bytes (first bytes)

theorem lock {post : Ending β → Alone σ → Prop} {k : Unit → Prog β} {lid : ℕ}
    (free : lid ∉ s.held) (rest : Ensures serve post (k ()) { s with held := lid :: s.held }) :
    Ensures serve post ((Prog.lock lid).bind k) s := by
  rw [Prog.lock_bind, Ensures, if_neg free]
  exact rest

theorem unlock {post : Ending β → Alone σ → Prop} {k : Unit → Prog β} {lid : ℕ}
    (rest : Ensures serve post (k ()) { s with held := s.held.erase lid }) :
    Ensures serve post ((Prog.unlock lid).bind k) s :=
  rest

theorem memory {post : Ending β → Alone σ → Prop} {k : (ℕ → UInt8) → Prog β}
    (rest : ∀ bytes, Ensures serve post (k bytes) s) :
    Ensures serve post (Prog.uninitialised.bind k) s :=
  rest

/-- `get` of an extent: a hit returns the buffer, a miss stores what the server has. -/
theorem get {post : Ending β → Alone σ → Prop} {k : List UInt8 → Prog β} {eid : ℕ}
    (hit : ∀ file, s.cache eid = some file → file.bufValid = true →
      Ensures serve post (k file.buf) s)
    (miss : (∀ file, s.cache eid = some file → file.bufValid = false) →
      ((∀ reply server, ¬ serve s.server (.get eid) reply server) → post (.refused (.get eid)) s) ∧
        ∀ reply server, serve s.server (.get eid) reply server → ∀ bytes,
          Ensures serve post (k (replyFile reply).buf) (({ s with server := server }).store eid
            (some (((s.cache eid).getD (.blank bytes)).filled (replyFile reply))))) :
    Ensures serve post ((ExtentClient.get eid).bind k) s := by
  simp only [ExtentClient.get, ExtentClient.fill, Prog.uninitialised, Prog.rpc, Prog.bind_eq,
    Prog.bind, Ensures, id, Alone.store_self]
  rcases here : s.cache eid with _ | ⟨attr, buf, _ | _, attrValid, dirty⟩
  · exact miss fun file eq => by
      rw [here] at eq
      cases eq
  · exact miss fun file eq => by
      rw [here] at eq
      cases eq
      rfl
  · exact hit _ here rfl

/-- `getattr` of an extent: a miss stores all of what the server has. -/
theorem getattr {post : Ending β → Alone σ → Prop} {k : Attr → Prog β} {eid : ℕ}
    (hit : ∀ file, s.cache eid = some file → file.attrValid = true →
      Ensures serve post (k file.attr) s)
    (miss : (∀ file, s.cache eid = some file → file.attrValid = false) →
      ((∀ reply server, ¬ serve s.server (.getattr eid) reply server) →
        post (.refused (.getattr eid)) s) ∧
        ∀ reply server, serve s.server (.getattr eid) reply server → ∀ bytes,
          Ensures serve post (k (replyFile reply).attr) (({ s with server := server }).store eid
            (some (((s.cache eid).getD (.blank bytes)).filled (replyFile reply))))) :
    Ensures serve post ((ExtentClient.getattr eid).bind k) s := by
  simp only [ExtentClient.getattr, ExtentClient.fill, Prog.uninitialised, Prog.rpc, Prog.bind_eq,
    Prog.bind, Ensures, id, Alone.store_self]
  rcases here : s.cache eid with _ | ⟨attr, buf, bufValid, _ | _, dirty⟩
  · exact miss fun file eq => by
      rw [here] at eq
      cases eq
  · exact miss fun file eq => by
      rw [here] at eq
      cases eq
      rfl
  · exact hit _ here rfl

/-- `put` of an extent. -/
theorem put {post : Ending β → Alone σ → Prop} {k : Unit → Prog β} {eid : ℕ} {buf : List UInt8}
    (rest : ∀ bytes atime ctime mtime, Ensures serve post (k ())
      (s.store eid (some (((s.cache eid).getD (.blank bytes)).written buf atime ctime mtime)))) :
    Ensures serve post ((ExtentClient.put eid buf).bind k) s :=
  fun bytes atime ctime mtime => rest bytes atime ctime mtime

end Ensures

end Yfs.Client
