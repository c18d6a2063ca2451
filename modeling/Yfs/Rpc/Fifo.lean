import Yfs.Lib.Monitor

/-!
# The queue between threads

`rpc/fifo.h`: a list behind a mutex.  `enq` waits while the list is full, or refuses, `deq` waits
while it is empty.  A capacity of 0 means none.

The queue is an instance of `Lib.Monitor` with two conditions, one for elements and one for space.
The history of the calls that returned is what the first result is about: the elements that came
out and those inside, one behind the other, are the elements that went in.  The second counts: with
`deq` as with `enq`, while some thread sleeps there, each thing that is there is matched by a
waiting thread that is awake.

* `Fifo.enq`, `Fifo.deq`, `Fifo.size` — the code, round by round.
* `fifo_is_bounded_queue` — elements come out in the order in which they went in, none is lost
  or comes out twice, and the capacity is kept.
* `fifo_loses_no_wakeup` — while threads sleep in `deq`, as many are awake as there are elements;
  and the same of `enq` and the space.
-/

namespace Yfs.Rpc

open Transition

namespace Fifo

variable {α T : Type}

/-- The operations of `fifo<T>`. -/
inductive Op (α : Type) where
  | enq (e : α) (blocking : Bool)
  | deq
  | size
  deriving DecidableEq, Repr

/-- `non_empty_c_` and `has_space_c_`. -/
inductive Cond where
  | nonEmpty
  | hasSpace
  deriving DecidableEq, Repr

/-- What they return. -/
inductive Res (α : Type) where
  | enqueued (done : Bool)
  | dequeued (e : α)
  | size (some : Bool)
  deriving DecidableEq, Repr

/-- One round of the loop of `enq`. -/
def enq (max : ℕ) (e : α) (blocking : Bool) (q : List α) : Round (List α) Cond (Res α) :=
  if max = 0 ∨ q.length < max then .returns (q ++ [e]) (.enqueued true) (some .nonEmpty)
  else if blocking then .waits .hasSpace
  else .returns q (.enqueued false) none

/-- One round of the loop of `deq`. -/
def deq (max : ℕ) : List α → Round (List α) Cond (Res α)
  | [] => .waits .nonEmpty
  | e :: q =>
      .returns q (.dequeued e) (if max ≠ 0 ∧ q.length < max then some .hasSpace else none)

/-- `size`, which is a `bool`. -/
def size (q : List α) : Round (List α) Cond (Res α) := .returns q (.size (q.length ≠ 0)) none

/-- A round of an operation. -/
def round (max : ℕ) : Op α → List α → Round (List α) Cond (Res α)
  | .enq e blocking, q => enq max e blocking q
  | .deq, q => deq max q
  | .size, q => size q

end Fifo

open Fifo

variable {α T : Type}

/-- `fifo<T>` with capacity `max`. -/
def fifo (α : Type) (max : ℕ) : Monitor (List α) Cond (Op α) (Res α) where
  first op q := round max op q
  again op _ q := round max op q

namespace Fifo

/-- The runs of any number of threads, from an empty queue on. -/
def Reach (max : ℕ) [DecidableEq T] : Monitor.State (List α) Cond (Op α) (Res α) T → Prop :=
  Monitor.Reach (fifo α max) (fun _ _ _ => True) []

/-! ## The queue -/

/-- A log of operations that have returned. -/
abbrev Log (T α : Type) := List (T × Op α × Res α)

/-- The element that an operation has put in. -/
def put : T × Op α × Res α → Option α
  | (_, .enq e _, .enqueued true) => some e
  | _ => none

/-- The element that an operation has taken out. -/
def taken : T × Op α × Res α → Option α
  | (_, .deq, .dequeued e) => some e
  | _ => none

/-- What went in, in order. -/
def entered (log : Log T α) : List α := log.filterMap put

/-- What came out, in order. -/
def left (log : Log T α) : List α := log.filterMap taken

theorem entered_append (log : Log T α) (entry : T × Op α × Res α) :
    entered (log ++ [entry]) = entered log ++ (put entry).toList := by
  rw [entered, List.filterMap_append, ← entered, List.filterMap_cons]
  cases put entry <;> rfl

theorem left_append (log : Log T α) (entry : T × Op α × Res α) :
    left (log ++ [entry]) = left log ++ (taken entry).toList := by
  rw [left, List.filterMap_append, ← left, List.filterMap_cons]
  cases taken entry <;> rfl

/-- **A bounded queue**: what has returned, in order, and what is inside then.

The log has the calls in the order in which they returned, and the second index is the queue after
them.  A call that is refused found the queue full, and one that waits is not in the log until it
returns. -/
inductive Behaves (max : ℕ) : Log T α → List α → Prop
  | nil : Behaves max [] []
  | enqueued {log : Log T α} {q : List α} {t : T} {e : α} {blocking : Bool}
      (before : Behaves max log q) (room : max = 0 ∨ q.length < max) :
      Behaves max (log ++ [(t, .enq e blocking, .enqueued true)]) (q ++ [e])
  | refused {log : Log T α} {q : List α} {t : T} {e : α} (before : Behaves max log q)
      (limited : max ≠ 0) (full : q.length = max) :
      Behaves max (log ++ [(t, .enq e false, .enqueued false)]) q
  | dequeued {log : Log T α} {q : List α} {t : T} {e : α} (before : Behaves max log (e :: q)) :
      Behaves max (log ++ [(t, .deq, .dequeued e)]) q
  | size {log : Log T α} {q : List α} {t : T} (before : Behaves max log q) :
      Behaves max (log ++ [(t, .size, .size (q.length ≠ 0))]) q

namespace Behaves

variable {max : ℕ} {q : List α} {log : Log T α}

/-- **First in, first out.** -/
theorem order (behaves : Behaves max log q) : entered log = left log ++ q := by
  induction behaves with
  | nil => rfl
  | enqueued before room ih => simp [entered_append, left_append, put, taken, ih]
  | refused before limited full ih => simp [entered_append, left_append, put, taken, ih]
  | dequeued before ih => simp [entered_append, left_append, put, taken, ih]
  | size before ih => simp [entered_append, left_append, put, taken, ih]

/-- **The capacity is kept.** -/
theorem length_le (behaves : Behaves max log q) (limited : max ≠ 0) : q.length ≤ max := by
  induction behaves with
  | nil => exact Nat.zero_le max
  | enqueued before room ih =>
      rw [List.length_append, List.length_singleton]
      exact room.resolve_left limited
  | refused before limited full ih => exact ih
  | dequeued before ih => exact Nat.le_of_succ_le ih
  | size before ih => exact ih

end Behaves

theorem round_ne_crashes (max : ℕ) (op : Op α) (q : List α) : round max op q ≠ .crashes := by
  cases op with
  | enq e blocking =>
      rw [round, enq]
      by_cases room : max = 0 ∨ q.length < max
      · rw [if_pos room]
        rintro ⟨⟩
      · rw [if_neg room]
        cases blocking with
        | true => rintro ⟨⟩
        | false => rintro ⟨⟩
  | deq =>
      cases q with
      | nil => rintro ⟨⟩
      | cons e q => rintro ⟨⟩
  | size => rintro ⟨⟩

/-- Which operation waits where. -/
def WaitsAt (op : Op α) (v : Cond) (_ : List α) : Prop :=
  match v with
  | .nonEmpty => op = .deq
  | .hasSpace => ∃ e, op = .enq e true

/-- A round behaves. -/
theorem keeps_round {max : ℕ} {q : List α} {log : Log T α} (behaves : Behaves max log q) (t : T)
    (op : Op α) :
    Monitor.Keeps (fun q log => Behaves max log q) WaitsAt log t op q (round max op q) := by
  cases op with
  | enq e blocking =>
      rw [round, enq]
      by_cases room : max = 0 ∨ q.length < max
      · rw [if_pos room]
        exact ⟨behaves.enqueued room, fun _ _ => id⟩
      · rw [if_neg room]
        obtain ⟨limited, full⟩ := not_or.mp room
        have length := behaves.length_le limited
        cases blocking with
        | true => exact ⟨e, rfl⟩
        | false => exact ⟨behaves.refused limited (by omega), fun _ _ => id⟩
  | deq =>
      cases q with
      | nil => exact (rfl : (Op.deq : Op α) = .deq)
      | cons e q => exact ⟨behaves.dequeued, fun _ _ => id⟩
  | size => exact ⟨behaves.size, fun _ _ => id⟩

/-- The operations behave in every run. -/
theorem reach_serial [DecidableEq T] {max : ℕ} {s : Monitor.State (List α) Cond (Op α) (Res α) T}
    (reach : Reach max s) :
    Monitor.Serial (fun _ _ _ => True) WaitsAt (fun q log => Behaves max log q) s := by
  refine Monitor.Reach.serial ?_ .nil (fun behaves _ => keeps_round behaves _ _)
    (fun behaves _ _ => keeps_round behaves _ _) reach
  intro log t u op entry _ permitted
  exact permitted

/-- **The queue between threads is a bounded queue.** In every state that any number of threads
reach, in any order, the operations have behaved in the order in which they returned, what went in
is what came out and what is inside, and no more is inside than the capacity.

Each round is atomic, as it has the mutex, and the rounds that return are put in their order.
What a round does in between, when it waits, leaves no trace in the log. -/
theorem fifo_is_bounded_queue [DecidableEq T] {max : ℕ}
    {s : Monitor.State (List α) Cond (Op α) (Res α) T} (reach : Reach max s) :
    Behaves max s.log s.data ∧ entered s.log = left s.log ++ s.data ∧
      (max ≠ 0 → s.data.length ≤ max) := by
  have serial := reach_serial reach
  exact ⟨serial.holds, serial.holds.order, serial.holds.length_le⟩

/-- Threads 1 and 2 sleep in `deq`, and thread 0 puts an element in, which wakes thread 1. -/
theorem exists_contended : ∃ s : Monitor.State (List ℕ) Cond (Op ℕ) (Res ℕ) ℕ, Reach 1 s ∧
    s.crashed = false ∧ s.data = [7] ∧ s.log = [(0, .enq 7 true, .enqueued true)] ∧
    s.place 1 = .waiting .deq .nonEmpty ∧ (s.cond .nonEmpty).woken = {1} ∧
    (s.cond .nonEmpty).sleeping = {2} ∧ (s.cond .hasSpace).sleeping = ∅ := by
  have start : Reach 1 (.initial [] : Monitor.State (List ℕ) Cond (Op ℕ) (Res ℕ) ℕ) := .init rfl
  have call₁ := start.step (.call 1 .deq rfl trivial)
  have sleep₁ := call₁.step (.first (t := 1) rfl rfl .waits)
  have call₂ := sleep₁.step (.call 2 .deq rfl trivial)
  have sleep₂ := call₂.step (.first (t := 2) rfl rfl .waits)
  have call₀ := sleep₂.step (.call 0 (.enq 7 true) rfl trivial)
  have put := call₀.step (.first (t := 0) rfl rfl (.signals (.wakes (t := 1) (by decide))))
  exact ⟨_, put, rfl, rfl, rfl, rfl, by decide, by decide, rfl⟩

/-- Thread 1 takes it out. -/
theorem fifo_is_bounded_queue_contended :
    ∃ s : Monitor.State (List ℕ) Cond (Op ℕ) (Res ℕ) ℕ, Reach 1 s ∧
      s.log = [(0, .enq 7 true, .enqueued true), (1, .deq, .dequeued 7)] ∧
      Behaves 1 s.log s.data ∧ entered s.log = left s.log ++ s.data ∧
        (1 ≠ 0 → s.data.length ≤ 1) := by
  obtain ⟨s, reach, runs, inside, log, place, awake, -, nobody⟩ := exists_contended
  have returns : (fifo ℕ 1).again .deq .nonEmpty s.data =
      .returns [] (.dequeued 7) (some .hasSpace) := by
    rw [inside]
    rfl
  have mem : 1 ∈ (s.cond .nonEmpty).woken := by
    rw [awake]
    exact Finset.mem_singleton_self 1
  have signal :
      ((s.enter .nonEmpty 1).cond .hasSpace).Signal ((s.enter .nonEmpty 1).cond .hasSpace) :=
    .nobody nobody
  have step := reach.step (.again runs place mem (by rw [returns]; exact .signals signal))
  refine ⟨_, step, ?_, fifo_is_bounded_queue step⟩
  show s.log ++ [(1, .deq, .dequeued 7)] = _
  rw [log]
  rfl

/-! ## Wake-ups -/

/-- What is there for those who wait: elements, and space. -/
def avail (max : ℕ) : Cond → List α → ℕ
  | .nonEmpty, q => q.length
  | .hasSpace, q => max - q.length

section Rounds

variable {max : ℕ} {q : List α} {left : Cond → ℕ}

/-- `enq` may have taken space before. -/
theorem within_enq (e : α) (blocking : Bool) (items : q.length ≤ left .nonEmpty)
    (space : max - q.length ≤ left .hasSpace + 1) : Monitor.Within (fun _ => True)
      WaitsAt (avail max) left (.enq e blocking) q (enq max e blocking q) := by
  rw [enq]
  by_cases room : max = 0 ∨ q.length < max
  · rw [if_pos room]
    refine ⟨trivial, fun _ _ => id, ?_⟩
    rintro (_ | _)
    · simpa [avail] using items
    · simp only [avail, List.length_append, List.length_singleton]
      omega
  · rw [if_neg room]
    have full : max - q.length = 0 := by omega
    have less : ∀ w, avail max w q ≤ left w := by
      rintro (_ | _)
      · exact items
      · exact full.le.trans (Nat.zero_le _)
    cases blocking with
    | true => exact ⟨⟨e, rfl⟩, full, less⟩
    | false => exact ⟨trivial, fun _ _ => id, fun w => Nat.le_add_right_of_le (less w)⟩

/-- `deq` may have taken an element before. -/
theorem within_deq (items : q.length ≤ left .nonEmpty + 1)
    (space : max - q.length ≤ left .hasSpace) :
    Monitor.Within (fun _ => True) WaitsAt (avail max) left .deq q (deq max q) := by
  cases q with
  | nil =>
      refine ⟨rfl, rfl, ?_⟩
      rintro (_ | _)
      · exact Nat.zero_le _
      · exact space
  | cons e q =>
      rw [List.length_cons] at items space
      refine ⟨trivial, fun _ _ => id, ?_⟩
      rintro (_ | _)
      · show q.length ≤ _
        omega
      · show max - q.length ≤ _
        by_cases room : max ≠ 0 ∧ q.length < max
        · rw [if_pos room, if_pos rfl]
          omega
        · omega

end Rounds

/-- The rounds keep the account. -/
theorem accounts (max : ℕ) : Monitor.Accounts (fifo α max) (fun _ => True) WaitsAt (avail max) where
  first op q _ := by
    cases op with
    | enq e blocking => exact within_enq e blocking (Nat.le_refl _) (Nat.le_succ _)
    | deq => exact within_deq (Nat.le_succ _) (Nat.le_refl _)
    | size => exact ⟨trivial, fun _ _ => id, fun _ => Nat.le_add_right _ _⟩
  again op v q _ waits := by
    cases v with
    | nonEmpty =>
        obtain rfl : op = .deq := waits
        refine within_deq ?_ ?_
        · simp only [avail, if_pos]
          omega
        · simp [avail]
    | hasSpace =>
        obtain ⟨e, rfl⟩ : ∃ e, op = .enq e true := waits
        refine within_enq e true ?_ ?_
        · simp [avail]
        · simp only [avail, if_pos]
          omega
  safe op _ q _ _ := round_ne_crashes max op q

/-- **No wake-up is lost.**  In every state that any number of threads reach, in any order: while
threads sleep in `deq`, at least as many are awake as there are elements, and while threads
sleep in `enq`, as there is space.  Where there is something, one of those who are awake gets
it with its next round. -/
theorem fifo_loses_no_wakeup [DecidableEq T] {max : ℕ}
    {s : Monitor.State (List α) Cond (Op α) (Res α) T} (reach : Reach max s) (v : Cond)
    (sleeps : (s.cond v).sleeping.Nonempty) : avail max v s.data ≤ (s.cond v).woken.card ∧
      (0 < avail max v s.data → ∃ t op q r signals, t ∈ (s.cond v).woken ∧
        s.place t = .waiting op v ∧ WaitsAt op v s.data ∧
          round max op s.data = .returns q r signals) := by
  have runs := (reach_serial reach).runs
  have accounted := (accounts max).accounted trivial reach runs
  refine ⟨(accounted.supplied v).resolve_left sleeps.ne_empty, fun some => ?_⟩
  obtain ⟨t, op, q, r, signals, awake, place, returns⟩ :=
    (accounts max).goes_on trivial reach runs some sleeps
  exact ⟨t, op, q, r, signals, awake, place, accounted.waits t op v place, returns⟩

/-- Thread 2 sleeps, and thread 1 gets the element. -/
theorem fifo_loses_no_wakeup_contended :
    ∃ s : Monitor.State (List ℕ) Cond (Op ℕ) (Res ℕ) ℕ, Reach 1 s ∧ s.data = [7] ∧
      2 ∈ (s.cond .nonEmpty).sleeping ∧ avail 1 .nonEmpty s.data ≤ (s.cond .nonEmpty).woken.card ∧
      (0 < avail 1 .nonEmpty s.data → ∃ t op q r signals, t ∈ (s.cond .nonEmpty).woken ∧
        s.place t = .waiting op .nonEmpty ∧ WaitsAt op .nonEmpty s.data ∧
        round 1 op s.data = .returns q r signals) := by
  obtain ⟨s, reach, -, inside, -, -, -, asleep, -⟩ := exists_contended
  have mem : 2 ∈ (s.cond .nonEmpty).sleeping := by
    rw [asleep]
    exact Finset.mem_singleton_self 2
  exact ⟨s, reach, inside, mem, fifo_loses_no_wakeup reach .nonEmpty ⟨2, mem⟩⟩

end Fifo

end Yfs.Rpc
