import Yfs.Client.DirView
import Yfs.Client.FileSharing

/-!
# What completed operations leave behind

A history that a specification explains respects time: an operation that has returned has
acted on the state, so whatever it established there, and nobody undoes, is found by every
operation that is invoked afterwards, at any client.

Real time enters by the history only.  That an operation is invoked after another has returned
is a fact about positions in it, and an abstract run that explains the history has acted for
each operation at a point between its two ends; so what the earlier one established is there
when the later one acts.

* `Lasting` — a fact that some operations establish, that all keep, and that shows in results.
* `Explained.shows_later` — a fact that was established shows in all later results.
* `completed_write_shows` — later reads of a file return the bytes of a completed write.
* `completed_change_shows` — later operations on a directory find a name that was created, and
  do not find one that was removed.
-/

namespace Yfs.Client

open Storage Storage.ExtentServer ByteBlock Lock

variable {C T X Op' Res' : Type}

/-! ## The order of operations in a history -/

/-- An operation with a result in `first` has returned. -/
def Marked (first : Op' → Res' → Prop) (history : List (Event C T Op' Res')) : Prop :=
  ∃ b u op res, .returned b u op res ∈ history ∧ first op res

/-- The latest operation that a thread invoked, it invoked when one with a result in `first` had
returned. -/
def InvokedAfter (first : Op' → Res' → Prop) (history : List (Event C T Op' Res')) (c : C) (t : T) :
    Prop :=
  ∃ before op during, history = before ++ .invoked c t op :: during ∧ Marked first before ∧
    ∀ op, .invoked c t op ∉ during

/-- **Results in `first` show in those of later operations**: an operation that was invoked when one
with a result in `first` had returned has a result in `later`. -/
def ShowsLater (first later : Op' → Res' → Prop) (history : List (Event C T Op' Res')) : Prop :=
  ∀ front back c t op res, history = front ++ .returned c t op res :: back →
    InvokedAfter first front c t → later op res

section Order

variable {first later : Op' → Res' → Prop} {history : List (Event C T Op' Res')}
  {event : Event C T Op' Res'} {c : C} {t : T}

theorem marked_snoc : Marked first (history ++ [event]) ↔
    Marked first history ∨ ∃ b u op res, event = .returned b u op res ∧ first op res := by
  simp only [Marked, List.mem_append, List.mem_singleton, or_and_right, exists_or, eq_comm]

/-- An invocation is after what has returned before it. -/
theorem InvokedAfter.marked {op : Op'}
    (after : InvokedAfter first (history ++ [.invoked c t op]) c t) : Marked first history := by
  obtain ⟨before, op', during, eq, marked, latest⟩ := after
  rcases split_of_snoc eq with ⟨-, rfl, -⟩ | ⟨rest, rfl, -⟩
  · exact marked
  · exact absurd (List.mem_append_right _ (List.mem_singleton.mpr rfl)) (latest op)

/-- Other events leave the order as it is. -/
theorem InvokedAfter.of_snoc (other : ∀ op, event ≠ .invoked c t op)
    (after : InvokedAfter first (history ++ [event]) c t) : InvokedAfter first history c t := by
  obtain ⟨before, op, during, eq, marked, latest⟩ := after
  rcases split_of_snoc eq with ⟨rfl, -, -⟩ | ⟨rest, rfl, rfl⟩
  · exact absurd rfl (other op)
  · exact ⟨before, op, rest, rfl, marked, fun op mem => latest op (List.mem_append_left _ mem)⟩

/-- One more event: only a result that is new has to be looked at. -/
theorem ShowsLater.snoc (shows : ShowsLater first later history)
    (new : ∀ c t op res, event = .returned c t op res → InvokedAfter first history c t →
      later op res) : ShowsLater first later (history ++ [event]) := by
  intro front back c t op res eq after
  rcases split_of_snoc eq with ⟨rfl, rfl, -⟩ | ⟨rest, rfl, rfl⟩
  · exact new c t op res rfl after
  · exact shows front rest c t op res rfl after

end Order

/-- The operation that an event starts. -/
def Event.invocation : Event C T Op' Res' → Option Op'
  | .invoked _ _ op => some op
  | _ => none

/-- The operations that were invoked. -/
def invocations (history : List (Event C T Op' Res')) : List Op' :=
  history.filterMap Event.invocation

theorem mem_invocations {history : List (Event C T Op' Res')} {op : Op'} :
    op ∈ invocations history ↔ ∃ c t, .invoked c t op ∈ history := by
  rw [invocations, List.mem_filterMap]
  constructor
  · rintro ⟨event, mem, eq⟩
    cases event with
    | invoked c t op =>
        cases eq
        exact ⟨c, t, mem⟩
    | _ => cases eq
  · rintro ⟨c, t, mem⟩
    exact ⟨_, mem, rfl⟩

/-! ## Facts that last -/

/-- The operation in progress will return a result in `first`. -/
def Spec.Returns (spec : Spec X Op' Res') (first : Op' → Res' → Prop) (own : spec.Own) : Prop :=
  ∃ op res, spec.finish op own res ∧ first op res

/-- Whatever the operation in progress returns is in `later`. -/
def Spec.ReturnsOnly (spec : Spec X Op' Res') (later : Op' → Res' → Prop) (own : spec.Own) : Prop :=
  ∀ op res, spec.finish op own res → later op res

/-- **A fact about the abstract state that lasts.** An operation whose result is in `first` has
established it, the operations in `Keeps` keep it, and while it holds results are in `later`. An
operation that has not acted yet has no result at all.

The four fields follow the four steps of a specification; a return changes nothing but the
history. -/
structure Lasting (spec : Spec X Op' Res') (Fact : X → Prop) (Keeps : spec.Own → Prop)
    (first later : Op' → Res' → Prop) : Prop where
  begins : ∀ op, ¬ spec.Returns first (spec.begins op) ∧ spec.ReturnsOnly later (spec.begins op)
  enter : ∀ own own', spec.enter own own' → (Keeps own → Keeps own') ∧
    ¬ spec.Returns first own' ∧ spec.ReturnsOnly later own'
  hear : ∀ own req reply, (Keeps own → Keeps (spec.hear own req reply)) ∧
    (spec.Returns first (spec.hear own req reply) → spec.Returns first own) ∧
    (spec.ReturnsOnly later own → spec.ReturnsOnly later (spec.hear own req reply))
  commit : ∀ x own y own', Keeps own → spec.commit x own y own' → Keeps own' ∧ (Fact x → Fact y) ∧
    (spec.Returns first own' → Fact y) ∧ (Fact x → spec.ReturnsOnly later own')

section Explained

variable [DecidableEq C] [DecidableEq T] {spec : Spec X Op' Res'} {Fact : X → Prop}
  {Keeps : spec.Own → Prop} {first later : Op' → Res' → Prop} {eid : ℕ} {x : X}
  {history : List (Event C T Op' Res')} {a : SpecState C T spec}

/-- What holds of the operations in progress.

`sees` is about operations that were invoked after the fact was established, since an operation
that was under way at that time may have acted before. -/
structure Knows (Fact : X → Prop) (Keeps : spec.Own → Prop) (first later : Op' → Res' → Prop)
    (history : List (Event C T Op' Res')) (a : SpecState C T spec) : Prop where
  keeps : ∀ c t own, a.own c t = some own → Keeps own
  acted : ∀ c t own, a.own c t = some own → spec.Returns first own → Fact a.state
  marked : Marked first history → Fact a.state
  sees : ∀ c t own, a.own c t = some own → InvokedAfter first history c t →
    spec.ReturnsOnly later own
  shows : ShowsLater first later history

namespace Knows

omit [DecidableEq C] [DecidableEq T] in
/-- The history grows. -/
theorem record (knows : Knows Fact Keeps first later history a) (event : Event C T Op' Res')
    (fresh : ∀ c t op own, event = .invoked c t op → a.own c t = some own →
      spec.ReturnsOnly later own)
    (result : ∀ c t op res, event = .returned c t op res → (first op res → Fact a.state) ∧
      (InvokedAfter first history c t → later op res)) :
    Knows Fact Keeps first later (history ++ [event]) a where
  keeps := knows.keeps
  acted := knows.acted
  marked mark := by
    rcases marked_snoc.mp mark with old | ⟨c, t, op, res, returned, mark⟩
    · exact knows.marked old
    · exact (result c t op res returned).1 mark
  sees c t own runs after := by
    by_cases invoked : ∃ op, event = .invoked c t op
    · obtain ⟨op, eq⟩ := invoked
      exact fresh c t op own eq runs
    · exact knows.sees c t own runs (after.of_snoc fun op eq => invoked ⟨op, eq⟩)
  shows := knows.shows.snoc fun c t op res returned => (result c t op res returned).2

/-- The operation of a thread moves on. -/
theorem set {c : C} {t : T} {y : X} (knows : Knows Fact Keeps first later history a)
    (own : Option spec.Own) (kept : Fact a.state → Fact y)
    (new : ∀ o, own = some o → Keeps o ∧ (spec.Returns first o → Fact y) ∧
      (InvokedAfter first history c t → spec.ReturnsOnly later o)) :
    Knows Fact Keeps first later history ({ a with state := y }.set c t own) where
  keeps b u o here := by
    by_cases same : b = c ∧ u = t
    · obtain ⟨rfl, rfl⟩ := same
      rw [SpecState.set_own_self] at here
      exact (new o here).1
    · rw [SpecState.set_own_of_ne same] at here
      exact knows.keeps b u o here
  acted b u o here returns := by
    by_cases same : b = c ∧ u = t
    · obtain ⟨rfl, rfl⟩ := same
      rw [SpecState.set_own_self] at here
      exact (new o here).2.1 returns
    · rw [SpecState.set_own_of_ne same] at here
      exact kept (knows.acted b u o here returns)
  marked mark := kept (knows.marked mark)
  sees b u o here after := by
    by_cases same : b = c ∧ u = t
    · obtain ⟨rfl, rfl⟩ := same
      rw [SpecState.set_own_self] at here
      exact (new o here).2.2 after
    · rw [SpecState.set_own_of_ne same] at here
      exact knows.sees b u o here after
  shows := knows.shows

end Knows

/-- **What the operations in progress know**, along a history. -/
theorem Explained.knows (lasting : Lasting spec Fact Keeps first later)
    (explained : Explained spec eid x history a)
    (invoked : ∀ c t op, .invoked c t op ∈ history → Keeps (spec.begins op)) :
    Knows Fact Keeps first later history a := by
  have earlier : ∀ {history : List (Event C T Op' Res')} {event : Event C T Op' Res'},
      (∀ c t op, .invoked c t op ∈ history ++ [event] → Keeps (spec.begins op)) →
      ∀ c t op, .invoked c t op ∈ history → Keeps (spec.begins op) :=
    fun all c t op mem => all c t op (List.mem_append_left _ mem)
  -- on the run of the specification; each of its steps has its field in `lasting`
  induction explained with
  | nil =>
      refine ⟨by simp [SpecState.initial], by simp [SpecState.initial], ?_,
        by simp [SpecState.initial], fun front back c t op res eq => by simp at eq⟩
      rintro ⟨c, t, op, res, mem, -⟩
      cases mem
  | @invoked history a c t op before idle ih =>
      have fresh := lasting.begins op
      refine ((ih (earlier invoked)).set (c := c) (t := t) (some (spec.begins op)) id
        ?_).record _ ?_ (by rintro _ _ _ _ ⟨⟩)
      · rintro o ⟨⟩
        exact ⟨invoked c t op (by simp), fun returns => absurd returns fresh.1, fun _ => fresh.2⟩
      · rintro b u op' own ⟨⟩ here
        rw [SpecState.set_own_self] at here
        cases here
        exact fresh.2
  | @acquired history a c t own own' before runs enter ih =>
      have old := ih (earlier invoked)
      obtain ⟨keeps, acts, sees⟩ := lasting.enter own own' enter
      refine (old.set (c := c) (t := t) (some own') id ?_).record _
        (by rintro _ _ _ _ ⟨⟩) (by rintro _ _ _ _ ⟨⟩)
      rintro o ⟨⟩
      exact ⟨keeps (old.keeps c t own runs), fun returns => absurd returns acts, fun _ => sees⟩
  | @called history a c t own req reply before runs ih =>
      have old := ih (earlier invoked)
      obtain ⟨keeps, acts, sees⟩ := lasting.hear own req reply
      refine (old.set (c := c) (t := t) (some (spec.hear own req reply)) id ?_).record _
        (by rintro _ _ _ _ ⟨⟩) (by rintro _ _ _ _ ⟨⟩)
      rintro o ⟨⟩
      exact ⟨keeps (old.keeps c t own runs), fun returns => old.acted c t own runs (acts returns),
        fun after => sees (old.sees c t own runs after)⟩
  | @commit history a c t own own' y before runs commit ih =>
      have old := ih invoked
      obtain ⟨keeps, kept, acts, sees⟩ :=
        lasting.commit a.state own y own' (old.keeps c t own runs) commit
      refine old.set _ kept ?_
      rintro o ⟨⟩
      -- an operation that was invoked later than the mark acts while the fact holds
      refine ⟨keeps, acts, fun after => sees (old.marked ?_)⟩
      obtain ⟨front, op, during, rfl, ⟨b, u, op', res, mem, mark⟩, -⟩ := after
      exact ⟨b, u, op', res, List.mem_append_left _ mem, mark⟩
  | @returned history a c t op own res before runs finish ih =>
      have old := ih (earlier invoked)
      refine (old.record (.returned c t op res) (by rintro _ _ _ _ ⟨⟩) ?_).set
        (c := c) (t := t) none id (by rintro _ ⟨⟩)
      rintro _ _ _ _ ⟨⟩
      exact ⟨fun mark => old.acted c t own runs ⟨op, res, finish, mark⟩,
        fun after => old.sees c t own runs after op res finish⟩
  | @silent history a event before silent ih =>
      refine (ih (earlier invoked)).record event ?_ ?_
      · rintro c t op own rfl
        exact silent.elim
      · rintro c t op res rfl
        exact silent.elim

/-- **A fact that was established shows in all later results.** -/
theorem Explained.shows_later (lasting : Lasting spec Fact Keeps first later)
    (explained : Explained spec eid x history a)
    (invoked : ∀ op ∈ invocations history, Keeps (spec.begins op)) :
    ShowsLater first later history :=
  (explained.knows lasting fun c t op mem => invoked op (mem_invocations.mpr ⟨c, t, mem⟩)).shows

end Explained

/-! ## Files -/

section Files

variable {f type : ℕ}

/-- A fact about the string of a file lasts when each step on the string keeps it. -/
theorem fileSpec_lasting {Fact : List UInt8 → Prop} {keeps : Op → Prop}
    {first later : Op → Res → Prop} (about : ∀ op res, first op res → op.target = f)
    (other : ∀ op res, op.target ≠ f → later op res)
    (step : ∀ op x res y, keeps op → FileStep type op x res y →
      (Fact x → Fact y) ∧ (first op res → Fact y) ∧ (Fact x → later op res)) :
    Lasting (fileSpec f type) Fact
      (fun own => ∀ op, own = .invoked op ∨ own = .entered op → keeps op)
      first later := by
  have unacted : ∀ own : FileOwn, (∀ op res, own ≠ .applied op res) →
      ¬ (fileSpec f type).Returns first own ∧ (fileSpec f type).ReturnsOnly later own := by
    intro own noResult
    constructor
    · rintro ⟨op, res, ⟨target, -⟩ | rfl, mark⟩
      · exact target (about op res mark)
      · exact noResult op res rfl
    · rintro op res (⟨target, -⟩ | rfl)
      · exact other op res target
      · exact absurd rfl (noResult op res)
  refine ⟨fun op => unacted _ ?_, ?_, fun own req reply => ⟨id, id, id⟩, ?_⟩
  · intro op' res eq
    simp only [fileSpec] at eq
    split at eq <;> cases eq
  · rintro _ _ ⟨op, rfl, rfl⟩
    refine ⟨?_, unacted _ (by rintro _ _ ⟨⟩)⟩
    rintro kept _ (⟨⟨⟩⟩ | ⟨⟨⟩⟩)
    exact kept op (Or.inl rfl)
  · rintro x own y own' kept (⟨op, res, rfl, rfl, acts⟩ | ⟨rfl, rfl⟩)
    · obtain ⟨keeps, marks, sees⟩ := step op x res y (kept op (Or.inr rfl)) acts
      refine ⟨by rintro _ (⟨⟨⟩⟩ | ⟨⟨⟩⟩), keeps, ?_, ?_⟩
      · rintro ⟨op', res', ⟨-, ⟨⟩⟩ | ⟨⟨⟩⟩, mark⟩
        exact marks mark
      · rintro fact op' res' (⟨-, ⟨⟩⟩ | ⟨⟨⟩⟩)
        exact sees fact
    · obtain ⟨noMark, only⟩ := unacted .throwing (by rintro _ _ ⟨⟩)
      exact ⟨by rintro _ (⟨⟨⟩⟩ | ⟨⟨⟩⟩), id, fun returns => absurd returns noMark, fun _ => only⟩

/-- The string has the bytes of the write. -/
def HasBytes (w : Write) (content : List UInt8) : Prop :=
  ∀ k, w.Covers k → k < content.length ∧ content.getD k 0 = w.2.getD (k - w.1) 0

/-- The operation is about another file, or leaves the bytes of the write alone: another write is
apart from it, or is the same, and `setattr` does not cut it off. -/
def LeavesBytes (f : ℕ) (w : Write) : Op → Prop
  | .write ino off data => ino = f → (off, data) = w ∨ Write.Apart (off, data) w
  | .setattr ino size => ino = f → ∀ k, w.Covers k → k < size
  | _ => True

/-- A read of the file returns the bytes of the write, as far as it covers them. -/
def ReadsBytes (f : ℕ) (w : Write) (op : Op) (res : Res) : Prop :=
  ∀ size off bytes, op = .read f size off → res = .data bytes → ∀ k, w.Covers k → off ≤ k →
    k < off + size → k - off < bytes.length ∧ bytes.getD (k - off) 0 = w.2.getD (k - w.1) 0

namespace HasBytes

variable {w : Write} {content : List UInt8}

/-- A write has its bytes stored. -/
theorem overwritten_self (w : Write) (content : List UInt8) :
    HasBytes w (overwritten content w.1 w.2) := by
  rintro k ⟨low, high⟩
  rw [length_overwritten, getD_overwritten, if_pos ⟨low, high⟩]
  exact ⟨lt_max_of_lt_right high, rfl⟩

/-- Another write leaves them. -/
theorem overwritten {v : Write} (has : HasBytes w content) (apart : v.Apart w) :
    HasBytes w (Yfs.Client.overwritten content v.1 v.2) := by
  intro k covers
  obtain ⟨inside, byte⟩ := has k covers
  have outside : ¬ (v.1 ≤ k ∧ k < v.1 + v.2.length) := fun inV => apart k ⟨inV, covers⟩
  rw [length_overwritten, getD_overwritten, if_neg outside]
  exact ⟨lt_max_of_lt_left inside, byte⟩

theorem resize {size : ℕ} (has : HasBytes w content) (within : ∀ k, w.Covers k → k < size) :
    HasBytes w (ByteBlock.resize size content) := by
  intro k covers
  rw [length_resize, getD_resize content (within k covers)]
  exact ⟨within k covers, (has k covers).2⟩

/-- A part of the string that is read. -/
theorem take_drop {size off k : ℕ} (has : HasBytes w content) (covers : w.Covers k) (low : off ≤ k)
    (high : k < off + size) : k - off < ((content.drop off).take size).length ∧
      ((content.drop off).take size).getD (k - off) 0 = w.2.getD (k - w.1) 0 := by
  obtain ⟨inside, byte⟩ := has k covers
  constructor
  · rw [List.length_take, List.length_drop]
    omega
  · rw [List.getD_eq_getElem?_getD, List.getElem?_take_of_lt (by omega), List.getElem?_drop,
      ← List.getD_eq_getElem?_getD, Nat.add_sub_cancel' low, byte]

end HasBytes

/-- **The bytes of a write last**, until somebody writes there or cuts the file off. -/
theorem hasBytes_lasting (f type : ℕ) (w : Write) :
    Lasting (fileSpec f type) (HasBytes w)
      (fun own => ∀ op, own = .invoked op ∨ own = .entered op → op.target = f ∧ LeavesBytes f w op)
      (fun op _ => op = .write f w.1 w.2) (ReadsBytes f w) := by
  refine fileSpec_lasting (by rintro _ _ rfl; rfl) ?_ ?_
  · rintro op res target size off bytes rfl
    exact absurd rfl target
  · rintro op x res y ⟨target, leaves⟩ acts
    cases op with
    | read ino size off =>
        obtain ⟨-, rfl, rfl⟩ := acts
        refine ⟨id, by rintro ⟨⟩, ?_⟩
        rintro has _ _ _ ⟨⟩ ⟨⟩ k covers low high
        exact has.take_drop covers low high
    | write ino off data =>
        obtain ⟨-, rfl, rfl⟩ := acts
        refine ⟨fun has => ?_, ?_, by rintro - _ _ _ ⟨⟩⟩
        · rcases leaves target with rfl | apart
          · exact .overwritten_self _ _
          · exact has.overwritten apart
        · rintro ⟨⟩
          exact .overwritten_self _ _
    | setattr ino size =>
        obtain ⟨rfl, rfl⟩ := acts
        exact ⟨fun has => has.resize (leaves target), by rintro ⟨⟩, by rintro - _ _ _ ⟨⟩⟩
    | readlink ino =>
        obtain ⟨rfl, rfl⟩ := acts
        exact ⟨id, by rintro ⟨⟩, by rintro - _ _ _ ⟨⟩⟩
    | getfile ino | getdir ino | isfile ino | isdir ino | issymlink ino =>
        obtain ⟨-, rfl⟩ := acts
        exact ⟨id, by rintro ⟨⟩, by rintro - _ _ _ ⟨⟩⟩
    | _ => exact acts.elim

variable {σ : Type} [LinearOrder C] [DecidableEq T]

/-- **A completed write shows in all later reads.**  The clients run any operations on file `f`,
which the server stores faithfully, and among others one that writes `data` at `off`.  All
other writes to the file that are invoked are apart from it, and no `setattr` cuts it off.
Then every read, at any client, that is invoked when the write has returned returns its
bytes. -/
theorem completed_write_shows (other : type ≠ tDir) {init : List UInt8}
    {serve : σ → Request → Reply → σ → Prop} {dataOf : σ → List UInt8} {start : σ → Prop}
    {s : State C T Op Res σ}
    (faithful : ∀ x req reply y, serve x req reply y →
      Serves f (· = type) (dataOf x) req reply (dataOf y))
    (begins : ∀ server, start server → dataOf server = init)
    (reach : Reach (filesOf f serve) start s) {off : ℕ} {data : List UInt8}
    (leaves : ∀ op ∈ invocations s.history, LeavesBytes f (off, data) op) :
    ShowsLater (fun op _ => op = .write f off data) (ReadsBytes f (off, data)) s.history := by
  obtain ⟨a, k, inv⟩ := reach_sections (filesOf_sectioned other faithful) begins trivial reach
  refine inv.explained.shows_later (hasBytes_lasting f type (off, data))
    fun op invoked op' here => ?_
  have target : op.target = f := by
    by_contra elsewhere
    simp only [fileSpec, if_neg elsewhere] at here
    rcases here with ⟨⟨⟩⟩ | ⟨⟨⟩⟩
  simp only [fileSpec, if_pos target] at here
  rcases here with ⟨⟨⟩⟩ | ⟨⟨⟩⟩
  exact ⟨target, leaves op invoked⟩

/-- Client 1 reads the byte that client 0 wrote. -/
theorem completed_write_shows_shared : ∃ s : State ℕ Unit Op Res FileMap,
    Reach (filesOf 2 (fileServerAt 2 tFile)) (· = oneFile) s ∧
      results s.history = [(0, .written 1), (1, .data [120])] ∧
      ShowsLater (fun op _ => op = .write 2 0 [120]) (ReadsBytes 2 (0, [120])) s.history := by
  have may : ∀ c t op, .invoke c t op ∈ writeThenReadAt 0 → op = .mount → 2 ≠ 1 :=
    fun _ _ _ _ _ => by decide
  obtain ⟨s, reach, shows⟩ := Driver.exists_reach fileDriver_drives (· = oneFile) may rfl
    (P := fun s => results s.history = [(0, .written 1), (1, .data [120])] ∧
      invocations s.history = [.write 2 0 [120], .read 2 5 0]) (by decide +kernel)
  obtain ⟨returned, invoked⟩ := of_decide_eq_true shows
  have begins : ∀ server, server = oneFile → dataAt 2 server = [] := by
    rintro server rfl
    rfl
  refine ⟨s, reach, returned, completed_write_shows (by decide)
    (fun x req reply y serves => fileServerAt_serves serves) begins reach fun op mem => ?_⟩
  rw [invoked] at mem
  simp only [List.mem_cons, List.not_mem_nil, or_false] at mem
  rcases mem with rfl | rfl
  · exact fun _ => Or.inl rfl
  · trivial

end Files

/-! ## Names in a directory -/

section Names

variable {d : ℕ}

/-- A fact about the map of a directory lasts when each step on the map keeps it. -/
theorem dirSpec_lasting {Fact : Directory → Prop} {keeps : Op → Prop}
    {first later : Op → Res → Prop} (about : ∀ op res, first op res → op.target = d)
    (other : ∀ op res, op.target ≠ d → later op res)
    (step : ∀ op new x res y, keeps op → DirStep op new x res y →
      (Fact x → Fact y) ∧ (first op res → Fact y) ∧ (Fact x → later op res)) :
    Lasting (dirSpec d) Fact
      (fun own => ∀ op, own = .invoked op ∨ (∃ new, own = .entered op new) → keeps op)
      first later := by
  have unacted : ∀ own : DirOwn, (∀ op res, own ≠ .applied op res) →
      ¬ (dirSpec d).Returns first own ∧ (dirSpec d).ReturnsOnly later own := by
    intro own noResult
    constructor
    · rintro ⟨op, res, ⟨target, -⟩ | rfl, mark⟩
      · exact target (about op res mark)
      · exact noResult op res rfl
    · rintro op res (⟨target, -⟩ | rfl)
      · exact other op res target
      · exact absurd rfl (noResult op res)
  refine ⟨fun op => unacted _ ?_, ?_, fun own req reply => ?_, ?_⟩
  · intro op' res eq
    simp only [dirSpec] at eq
    split at eq <;> cases eq
  · rintro _ _ ⟨op, rfl, rfl⟩
    refine ⟨?_, unacted _ (by rintro _ _ ⟨⟩)⟩
    rintro kept _ (⟨⟨⟩⟩ | ⟨_, ⟨⟩⟩)
    exact kept op (Or.inl rfl)
  · -- a new inum is heard of by an operation that has the lock; it stays what it is
    by_cases same : (dirSpec d).hear own req reply = own
    · rw [same]
      exact ⟨id, id, id⟩
    · obtain ⟨op, old, new, rfl, eq⟩ : ∃ op old new, own = .entered op old ∧
          (dirSpec d).hear own req reply = .entered op new := by
        cases own with
        | entered op old =>
            cases req <;> cases reply <;>
              first | exact absurd rfl same | exact ⟨op, old, _, rfl, rfl⟩
        | _ => cases req <;> cases reply <;> exact absurd rfl same
      rw [eq]
      refine ⟨?_, fun returns => absurd returns (unacted _ (by rintro _ _ ⟨⟩)).1,
        fun _ => (unacted _ (by rintro _ _ ⟨⟩)).2⟩
      rintro kept _ (⟨⟨⟩⟩ | ⟨_, ⟨⟩⟩)
      exact kept op (Or.inr ⟨old, rfl⟩)
  · rintro x own y own' kept ⟨op, new, res, rfl, rfl, acts⟩
    obtain ⟨keeps, marks, sees⟩ := step op new x res y (kept op (Or.inr ⟨new, rfl⟩)) acts
    refine ⟨by rintro _ (⟨⟨⟩⟩ | ⟨_, ⟨⟩⟩), keeps, ?_, ?_⟩
    · rintro ⟨op', res', ⟨-, ⟨⟩⟩ | ⟨⟨⟩⟩, mark⟩
      exact marks mark
    · rintro fact op' res' (⟨-, ⟨⟩⟩ | ⟨⟨⟩⟩)
      exact sees fact

/-- The operation adds an entry, unless there is one. -/
def Op.Adds (op : Op) (d : ℕ) (name : List UInt8) : Prop :=
  op = .create d name ∨ op = .mkdir d name ∨ ∃ link, op = .symlink d name link

/-- The operation has given the name the binding: it added the entry, or it removed it or did not
find it. -/
def Binds (d : ℕ) (name : List UInt8) : Option ℕ → Op → Res → Prop
  | some ino, op, res => op.Adds d name ∧ res = .made .OK ino
  | none, op, _ => op.Unlinks d name

/-- The operation does not change the binding of the name. -/
def LeavesName (d : ℕ) (name : List UInt8) : Option ℕ → Op → Prop
  | some _, op => ¬ op.Unlinks d name
  | none, op => ¬ op.Adds d name

/-- **The result fits the binding of the name.** -/
structure FindsName (d : ℕ) (name : List UInt8) (binding : Option ℕ) (op : Op) (res : Res) :
    Prop where
  lookup : op = .lookup d name → res = .found binding
  readdir : op = .readdir d → ∃ list, res = .entries list ∧
    ∀ ino, ⟨name, ino⟩ ∈ list ↔ binding = some ino
  adds : ∀ ino, binding = some ino → op.Adds d name → res = .made .EXIST ino
  unlinks : binding = none → op.Unlinks d name → res = .status .NOENT

/-- A step of an operation that adds an entry. -/
theorem DirStep.adds {op : Op} {name : List UInt8} {new : Option ℕ} {map map' : Directory}
    {res : Res}
    (adds : op.Adds d name) (step : DirStep op new map res map') :
    (∃ ino, map name = some ino ∧ res = .made .EXIST ino ∧ map' = map) ∨
      ∃ ino, map name = none ∧ new = some ino ∧ res = .made .OK ino ∧
        map' = Function.update map name (some ino) := by
  rcases adds with rfl | rfl | ⟨link, rfl⟩
  · exact step
  · exact step
  · exact step

/-- A step of an operation that removes an entry. -/
theorem DirStep.unlinks {op : Op} {name : List UInt8} {new : Option ℕ} {map map' : Directory}
    {res : Res} (unlinks : op.Unlinks d name) (step : DirStep op new map res map') :
    (map name = none ∧ res = .status .NOENT ∧ map' = map) ∨
      (map name ≠ none ∧ res = .status .OK ∧ map' = Function.update map name none) := by
  rcases unlinks with rfl | rfl
  · exact step
  · exact step

/-- A step that changes the binding of a name adds or removes its entry. -/
theorem DirStep.same {op : Op} {name : List UInt8} {new : Option ℕ} {map map' : Directory}
    {res : Res}
    (target : op.target = d) (noAdd : ¬ op.Adds d name ∨ map name ≠ none)
    (noUnlink : ¬ op.Unlinks d name ∨ map name = none) (step : DirStep op new map res map') :
    map' name = map name := by
  have adds : ∀ {n}, op.Adds d n → map' name = map name := by
    intro n adds
    rcases step.adds adds with ⟨ino, -, -, rfl⟩ | ⟨ino, free, -, -, rfl⟩
    · rfl
    · refine Function.update_of_ne ?_ ..
      rintro rfl
      rcases noAdd with noAdd | bound
      · exact noAdd adds
      · exact bound free
  have unlinks : ∀ {n}, op.Unlinks d n → map' name = map name := by
    intro n unlinks
    rcases step.unlinks unlinks with ⟨-, -, rfl⟩ | ⟨bound, -, rfl⟩
    · rfl
    · refine Function.update_of_ne ?_ ..
      rintro rfl
      rcases noUnlink with noUnlink | free
      · exact noUnlink unlinks
      · exact bound free
  cases op with
  | create parent n =>
      obtain rfl : parent = d := target
      exact adds (Or.inl rfl)
  | mkdir parent n =>
      obtain rfl : parent = d := target
      exact adds (Or.inr (Or.inl rfl))
  | symlink parent n link =>
      obtain rfl : parent = d := target
      exact adds (Or.inr (Or.inr ⟨link, rfl⟩))
  | unlink parent n =>
      obtain rfl : parent = d := target
      exact unlinks (Or.inl rfl)
  | rmdir parent n =>
      obtain rfl : parent = d := target
      exact unlinks (Or.inr rfl)
  | lookup parent n => rw [step.2]
  | readdir dir => rw [step.2]
  | _ => rw [show map' = map from step]

/-- **A binding lasts**, until somebody changes it. -/
theorem binding_lasting (d : ℕ) (name : List UInt8) (binding : Option ℕ) :
    Lasting (dirSpec d) (fun map => map name = binding)
      (fun own => ∀ op, own = .invoked op ∨ (∃ new, own = .entered op new) →
        op.target = d ∧ LeavesName d name binding op)
      (Binds d name binding) (FindsName d name binding) := by
  have adds_target : ∀ {op : Op}, op.Adds d name → op.target = d := by
    rintro op (rfl | rfl | ⟨link, rfl⟩) <;> rfl
  have unlinks_target : ∀ {op : Op}, op.Unlinks d name → op.target = d := by
    rintro op (rfl | rfl) <;> rfl
  refine dirSpec_lasting ?_ ?_ ?_
  · intro op res binds
    cases binding with
    | some ino => exact adds_target binds.1
    | none => exact unlinks_target binds
  · intro op res other
    refine ⟨?_, ?_, fun _ _ adds => absurd (adds_target adds) other,
      fun _ unlinks => absurd (unlinks_target unlinks) other⟩
    · rintro rfl
      exact absurd rfl other
    · rintro rfl
      exact absurd rfl other
  · rintro op new x res y ⟨target, leaves⟩ step
    refine ⟨?_, ?_, ?_⟩
    · rintro rfl
      refine step.same target ?_ ?_
      · cases here : x name with
        | some ino => exact Or.inr (by simp)
        | none =>
            rw [here] at leaves
            exact Or.inl leaves
      · cases here : x name with
        | some ino =>
            rw [here] at leaves
            exact Or.inl leaves
        | none => exact Or.inr rfl
    · intro binds
      cases binding with
      | some ino =>
          obtain ⟨adds, rfl⟩ := binds
          rcases step.adds adds with ⟨_, -, ⟨⟩, -⟩ | ⟨_, -, -, ⟨⟩, rfl⟩
          exact Function.update_self ..
      | none =>
          rcases step.unlinks binds with ⟨free, -, rfl⟩ | ⟨-, -, rfl⟩
          · exact free
          · exact Function.update_self ..
    · rintro rfl
      refine ⟨?_, ?_, fun ino bound adds => ?_, fun free unlinks => ?_⟩
      · rintro rfl
        exact step.1
      · rintro rfl
        obtain ⟨⟨list, rfl, lists⟩, -⟩ := step
        exact ⟨list, rfl, lists.mem_iff name⟩
      · rcases step.adds adds with ⟨_, same, rfl, -⟩ | ⟨_, free, -⟩
        · rw [same] at bound
          cases bound
          rfl
        · rw [free] at bound
          cases bound
      · rcases step.unlinks unlinks with ⟨-, rfl, -⟩ | ⟨bound, -⟩
        · rfl
        · exact absurd free bound

variable {σ : Type} [LinearOrder C] [DecidableEq T]

omit [LinearOrder C] [DecidableEq T] in
/-- The clients keep the contract of the directory. -/
theorem directories_sectioned {serve : σ → Request → Reply → σ → Prop} {dataOf : σ → List UInt8}
    (faithful : ∀ x req reply y, serve x req reply y →
      Serves d (· = tDir) (dataOf x) req reply (dataOf y)) :
    Sectioned (dirContract d fun _ _ _ => True) (dirSpec d) dataOf
      (directories d serve : Machine C T Op Res σ) where
  ops _ _ may := dirOk_of_onDirectory may
  serves := faithful
  guard _ _ _ _ _ may := ⟨may rfl, trivial⟩
  allows _ _ _ may := may

/-- **A completed change of a directory shows in all later operations.**  The clients work on
directory `d`, which the server stores faithfully and which is not removed.  When `create`, `mkdir`
or `symlink` has returned `OK` for a name, with an inum, or `unlink` or `rmdir` has returned for it,
and no operation that changes the name back is invoked, then every operation, at any client, that is
invoked afterwards finds the name bound to that inum, or not at all. -/
theorem completed_change_shows {init : List UInt8} {serve : σ → Request → Reply → σ → Prop}
    {dataOf : σ → List UInt8} {start : σ → Prop} {s : State C T Op Res σ}
    (faithful : ∀ x req reply y, serve x req reply y →
      Serves d (· = tDir) (dataOf x) req reply (dataOf y))
    (begins : ∀ server, start server → dataOf server = init) (directory : IsDirectory init)
    (reach : Reach (directories d serve) start s) {name : List UInt8} {binding : Option ℕ}
    (leaves : ∀ op ∈ invocations s.history, LeavesName d name binding op) :
    ShowsLater (Binds d name binding) (FindsName d name binding) s.history := by
  obtain ⟨a, k, inv⟩ := reach_sections (directories_sectioned faithful) begins directory reach
  refine inv.explained.shows_later (binding_lasting d name binding) fun op invoked op' here => ?_
  have target : op.target = d := by
    by_contra elsewhere
    simp only [dirSpec, if_neg elsewhere] at here
    rcases here with ⟨⟨⟩⟩ | ⟨_, ⟨⟩⟩
  simp only [dirSpec, if_pos target] at here
  rcases here with ⟨⟨⟩⟩ | ⟨_, ⟨⟩⟩
  exact ⟨target, leaves op invoked⟩

/-- Client 1 finds the file that client 0 created. -/
theorem completed_change_shows_shared : ∃ s : State ℕ Unit Op Res FileMap,
    Reach (directories 1 (fileServerAt 1 tDir)) (· = initialFiles) s ∧
      results s.history = [(0, .made .OK 2), (1, .found (some 2))] ∧
      ShowsLater (Binds 1 [97] (some 2)) (FindsName 1 [97] (some 2)) s.history := by
  have drives : rootDriver.Drives
      (directories 1 (fileServerAt 1 tDir) : Machine ℕ Unit Op Res FileMap) := by
    refine ⟨rfl, fun _ _ _ _ => handleFilesAt_serves, fun s c _ _ eid entry may => ?_,
      fun _ req _ may => of_decide_eq_true (p := req ≠ .remove 1) may⟩
    rintro rfl
    exact storable_of_mayStore may
  have may : ∀ c t op, .invoke c t op ∈ createThenLookup → OnDirectory 1 op := by
    intro c t op mem
    simp only [createThenLookup, List.mem_append, invoke_mem_turn] at mem
    rcases mem with ⟨-, -, rfl⟩ | ⟨-, -, rfl⟩ <;> exact fun _ => ⟨by decide, by decide⟩
  obtain ⟨s, reach, shows⟩ := Driver.exists_reach drives (· = initialFiles) may rfl
    (P := fun s => results s.history = [(0, .made .OK 2), (1, .found (some 2))] ∧
      invocations s.history = [.create 1 [97], .lookup 1 [97]]) (by decide +kernel)
  obtain ⟨returned, invoked⟩ := of_decide_eq_true shows
  have begins : ∀ server, server = initialFiles → dataAt 1 server = [] := by
    rintro server rfl
    rfl
  refine ⟨s, reach, returned, completed_change_shows
    (fun x req reply y serves => fileServerAt_serves serves) begins .nil reach fun op mem => ?_⟩
  rw [invoked] at mem
  simp only [List.mem_cons, List.not_mem_nil, or_false] at mem
  rcases mem with rfl | rfl
  · rintro (⟨⟨⟩⟩ | ⟨⟨⟩⟩)
  · rintro (⟨⟨⟩⟩ | ⟨⟨⟩⟩)

end Names

end Yfs.Client
