import Mathlib.Data.Finset.Card
import Yfs.Lib.Transition

/-!
# Monitors

An object behind one mutex, with condition variables.  A thread that has the mutex runs one
round of its operation: it waits for a condition, or it changes the object, signals at most
one condition, and returns.  A thread that waits can be woken at any time, also when nobody
signals, and runs another round once it has the mutex again.

A round is a function of the data and the operation, so what one thread does under the mutex is a
single step, and an interleaving is a list of rounds.  Waiting is between the rounds: the model lets
a thread come back from its wait at any time, and what follows holds for wake-ups that nobody
caused, too.

Lost wake-ups are excluded by counting.  A condition variable stands for things of which there may
be some number (a lock that is free, elements, space), and each of those is matched by a thread that
is awake and may take it.  A signal moves one thread from the sleeping to the awake, so a round that
makes one more thing available has to signal, and a round that takes one need not.

* `CondVar` — the threads at a condition variable; `CondVar.Supplied`: what they wait for is
  left to those who are awake.
* `Monitor`, `Monitor.Step`, `Monitor.Reach` — the rounds, and the runs of any number of
  threads.
* `Monitor.Accounts` — a count of what is there for the threads at each variable, which the
  rounds keep.
* `Accounts.goes_on` — then no wake-up is lost: while something is there for a thread that
  sleeps, a thread that waited for it is awake and can finish its operation.
-/

namespace Yfs

open Transition

universe u

/-! ## Condition variables -/

/-- **The threads at a condition variable**: those who sleep, and those who are awake and do not
have the mutex yet.

A thread leaves the first set by a signal or by waking up on its own, and the second when it runs
its next round.  The code behind a monitor sees neither set. -/
structure CondVar (T : Type u) where
  sleeping : Finset T
  woken : Finset T
  apart : Disjoint sleeping woken

namespace CondVar

variable {T : Type u}

/-- Nobody waits. -/
def empty : CondVar T := ⟨∅, ∅, Finset.disjoint_empty_left _⟩

variable [DecidableEq T] (cv : CondVar T) (t : T)

/-- A thread goes to sleep. -/
def wait : CondVar T :=
  ⟨insert t cv.sleeping, cv.woken.erase t, Finset.disjoint_insert_left.mpr
    ⟨Finset.notMem_erase t _, cv.apart.mono_right (Finset.erase_subset t _)⟩⟩

/-- A thread wakes up. -/
def wake : CondVar T :=
  ⟨cv.sleeping.erase t, insert t cv.woken, Finset.disjoint_insert_right.mpr
    ⟨Finset.notMem_erase t _, cv.apart.mono_left (Finset.erase_subset t _)⟩⟩

/-- A thread that is awake gets the mutex. -/
def leave : CondVar T :=
  ⟨cv.sleeping, cv.woken.erase t, cv.apart.mono_right (Finset.erase_subset t _)⟩

/-- **`signal`** wakes one of the threads that sleep, if there is one. -/
inductive Signal (cv : CondVar T) : CondVar T → Prop
  | nobody (none : cv.sleeping = ∅) : Signal cv cv
  | wakes {t : T} (asleep : t ∈ cv.sleeping) : Signal cv (cv.wake t)

/-- The thread is at the variable. -/
def Has : Prop := t ∈ cv.sleeping ∨ t ∈ cv.woken

variable {cv t} {u : T}

omit [DecidableEq T] in
theorem not_has_empty : ¬ (empty : CondVar T).Has t := by
  simp [Has, empty]

theorem has_wait : (cv.wait t).Has u ↔ u = t ∨ cv.Has u := by
  by_cases same : u = t
  · simp [Has, wait, same]
  · simp [Has, wait, same]

theorem has_wake (asleep : t ∈ cv.sleeping) : (cv.wake t).Has u ↔ cv.Has u := by
  by_cases same : u = t
  · subst same
    simp [Has, wake, asleep]
  · simp [Has, wake, same]

theorem has_leave (awake : t ∈ cv.woken) : (cv.leave t).Has u ↔ u ≠ t ∧ cv.Has u := by
  by_cases same : u = t
  · subst same
    simp [Has, leave, Finset.disjoint_right.mp cv.apart awake]
  · simp [Has, leave, same]

theorem Signal.has {cv' : CondVar T} (signal : cv.Signal cv') : cv'.Has u ↔ cv.Has u := by
  cases signal with
  | nobody => exact Iff.rfl
  | wakes asleep => exact has_wake asleep

/-! ### What is there for the threads -/

/-- **Of `n` things that the threads at the variable may use, none is left to a thread that
sleeps**: as many threads are awake. -/
def Supplied (cv : CondVar T) (n : ℕ) : Prop := cv.sleeping = ∅ ∨ n ≤ cv.woken.card

namespace Supplied

variable {n m : ℕ}

omit [DecidableEq T] in
theorem of_le (supplied : cv.Supplied n) (le : m ≤ n) : cv.Supplied m :=
  supplied.imp_right (Nat.le_trans le)

omit [DecidableEq T] in
/-- Nothing is there. -/
theorem zero : cv.Supplied 0 := Or.inr (Nat.zero_le _)

/-- A thread wakes up. -/
theorem wake (supplied : cv.Supplied n) : (cv.wake t).Supplied n := by
  rcases supplied with none | enough
  · refine Or.inl ?_
    show cv.sleeping.erase t = ∅
    rw [none, Finset.erase_empty]
  · exact Or.inr (Nat.le_trans enough (Finset.card_le_card (Finset.subset_insert _ _)))

/-- **One thing more, and a signal.** -/
theorem signal {cv' : CondVar T} (supplied : cv.Supplied n) (signal : cv.Signal cv') :
    cv'.Supplied (n + 1) := by
  cases signal with
  | nobody none => exact Or.inl none
  | @wakes t asleep =>
      rcases supplied with none | enough
      · rw [none] at asleep
        cases asleep
      · refine Or.inr ?_
        show n + 1 ≤ (insert t cv.woken).card
        rw [Finset.card_insert_of_notMem (Finset.disjoint_left.mp cv.apart asleep)]
        exact Nat.succ_le_succ enough

/-- **One thread less is awake, and one thing less is there.** -/
theorem leave (supplied : cv.Supplied (n + 1)) : (cv.leave t).Supplied n := by
  rcases supplied with none | enough
  · exact Or.inl none
  · refine Or.inr ?_
    have less : cv.woken.card - 1 ≤ (cv.woken.erase t).card := Finset.pred_card_le_card_erase
    show n ≤ (cv.woken.erase t).card
    omega

omit [DecidableEq T] in
/-- If something is there and a thread sleeps, another one is awake. -/
theorem exists_woken (supplied : cv.Supplied n) (some : 0 < n) (sleeps : cv.sleeping.Nonempty) :
    ∃ t, t ∈ cv.woken := by
  rcases supplied with none | enough
  · rw [none] at sleeps
    exact absurd sleeps Finset.not_nonempty_empty
  · exact Finset.card_pos.mp (Nat.lt_of_lt_of_le some enough)

end Supplied

end CondVar

/-! ## Monitors -/

/-- **What one round of an operation does** to the object: it waits at a variable, it returns and
signals, or it ends the process. -/
inductive Round (S V R : Type u) where
  | waits (v : V)
  | returns (data : S) (result : R) (signals : Option V)
  | crashes

/-- **The operations of a monitor**: the first round of an operation, and a round after a wait. -/
structure Monitor (S V Op R : Type u) where
  first : Op → S → Round S V R
  again : Op → V → S → Round S V R

namespace Monitor

variable {S V Op R T : Type u}

/-- Where a thread is. -/
inductive Place (V Op : Type u) where
  | idle
  | called (op : Op)
  | waiting (op : Op) (v : V)

/-- The object, the threads, and what has returned, in order. -/
structure State (S V Op R T : Type u) where
  data : S
  cond : V → CondVar T
  place : T → Place V Op
  log : List (T × Op × R)
  crashed : Bool

/-- Nothing was called. -/
def State.initial (init : S) : State S V Op R T :=
  ⟨init, fun _ => .empty, fun _ => .idle, [], false⟩

variable [DecidableEq V] [DecidableEq T]

/-- A thread that is awake gets the mutex. -/
def State.enter (s : State S V Op R T) (v : V) (t : T) : State S V Op R T :=
  { s with cond := Function.update s.cond v ((s.cond v).leave t) }

/-- **The end of a round** of thread `t`. -/
inductive Ends (t : T) (op : Op) (s : State S V Op R T) : Round S V R → State S V Op R T → Prop
  | waits {v : V} : Ends t op s (.waits v)
      { s with
        cond := Function.update s.cond v ((s.cond v).wait t)
        place := Function.update s.place t (.waiting op v) }
  | returns {data : S} {r : R} : Ends t op s (.returns data r none)
      { s with
        data := data
        place := Function.update s.place t .idle
        log := s.log ++ [(t, op, r)] }
  | signals {data : S} {r : R} {v : V} {cv : CondVar T} (signal : (s.cond v).Signal cv) :
      Ends t op s (.returns data r (some v))
        { s with
          data := data
          cond := Function.update s.cond v cv
          place := Function.update s.place t .idle
          log := s.log ++ [(t, op, r)] }
  | crashes : Ends t op s .crashes { s with crashed := true }

variable (M : Monitor S V Op R) (may : List (T × Op × R) → T → Op → Prop)

/-- **A step of a thread**: it calls an operation as `may` permits, it runs the first round or
another one, or it wakes up without a signal. -/
inductive Step (s : State S V Op R T) : State S V Op R T → Prop
  | call (t : T) (op : Op) (idle : s.place t = .idle) (permitted : may s.log t op) :
      Step s { s with place := Function.update s.place t (.called op) }
  | first {t : T} {op : Op} {s' : State S V Op R T} (runs : s.crashed = false)
      (called : s.place t = .called op) (ends : Ends t op s (M.first op s.data) s') : Step s s'
  | again {t : T} {op : Op} {v : V} {s' : State S V Op R T} (runs : s.crashed = false)
      (waiting : s.place t = .waiting op v) (awake : t ∈ (s.cond v).woken)
      (ends : Ends t op (s.enter v t) (M.again op v s.data) s') : Step s s'
  | wake {t : T} {v : V} (asleep : t ∈ (s.cond v).sleeping) :
      Step s { s with cond := Function.update s.cond v ((s.cond v).wake t) }

/-- The states that runs reach. -/
def Reach (init : S) : State S V Op R T → Prop :=
  Reachable (· = .initial init) (Step M may)

/-! ### What the rounds keep -/

section Serial

variable {M may}

/-- Permissions are the thread's own affair: what other threads do takes none away. -/
def Stable (may : List (T × Op × R) → T → Op → Prop) : Prop :=
  ∀ {log t u op e}, u ≠ t → may log t op → may (log ++ [(u, e)]) t op

/-- Where a thread may be: its operation was permitted, and waits where such an operation waits
(`At`). -/
def Fits (may : List (T × Op × R) → T → Op → Prop) (At : Op → V → S → Prop)
    (log : List (T × Op × R)) (data : S) (t : T) : Place V Op → Prop
  | .idle => True
  | .called op => may log t op
  | .waiting op v => may log t op ∧ At op v data

/-- A round that keeps what holds of object and log, and of the threads that wait. -/
def Keeps (I : S → List (T × Op × R) → Prop) (At : Op → V → S → Prop) (log : List (T × Op × R))
    (t : T) (op : Op) (data : S) : Round S V R → Prop
  | .waits v => At op v data
  | .returns data' r _ => I data' (log ++ [(t, op, r)]) ∧ ∀ op' v, At op' v data → At op' v data'
  | .crashes => False

/-- What holds of object and log, and of the operations in progress.

The three clauses are kept together, since each needs the others: a round keeps `I` where it is at
the place that `Fits` gives it, and it does not crash there. -/
structure Serial (may : List (T × Op × R) → T → Op → Prop) (At : Op → V → S → Prop)
    (I : S → List (T × Op × R) → Prop) (s : State S V Op R T) : Prop where
  runs : s.crashed = false
  holds : I s.data s.log
  fits : ∀ t, Fits may At s.log s.data t (s.place t)

variable {At : Op → V → S → Prop} {I : S → List (T × Op × R) → Prop}

omit [DecidableEq V] in
/-- One thread is somewhere else. -/
theorem fits_update {place : T → Place V Op} {log : List (T × Op × R)} {data : S} {t : T}
    {new : Place V Op} (others : ∀ u, u ≠ t → Fits may At log data u (place u))
    (own : Fits may At log data t new) (u : T) :
    Fits may At log data u (Function.update place t new u) := by
  by_cases same : u = t
  · subst same
    rw [Function.update_self]
    exact own
  · rw [Function.update_of_ne same]
    exact others u same

omit [DecidableEq V] [DecidableEq T] in
/-- Another thread has returned. -/
theorem Fits.append {log : List (T × Op × R)} {data data' : S} {t u : T} {e : Op × R}
    {place : Place V Op} (fits : Fits may At log data t place) (stable : Stable may) (other : u ≠ t)
    (keeps : ∀ op v, At op v data → At op v data') :
    Fits may At (log ++ [(u, e)]) data' t place := by
  cases place with
  | idle => trivial
  | called op => exact stable other fits
  | waiting op v => exact ⟨stable other fits.1, keeps op v fits.2⟩

/-- A round of an operation that is permitted. -/
theorem Ends.serial {s s' : State S V Op R T} {t : T} {op : Op} {round : Round S V R}
    (stable : Stable may) (serial : Serial may At I s) (permitted : may s.log t op)
    (keeps : Keeps I At s.log t op s.data round) (ends : Ends t op s round s') :
    Serial may At I s' := by
  cases ends with
  | waits =>
      exact ⟨serial.runs, serial.holds, fits_update (fun u _ => serial.fits u) ⟨permitted, keeps⟩⟩
  | returns =>
      obtain ⟨holds, stays⟩ := keeps
      exact ⟨serial.runs, holds, fits_update
        (fun u other => (serial.fits u).append stable (Ne.symm other) stays) trivial⟩
  | signals =>
      obtain ⟨holds, stays⟩ := keeps
      exact ⟨serial.runs, holds, fits_update
        (fun u other => (serial.fits u).append stable (Ne.symm other) stays) trivial⟩
  | crashes => exact keeps.elim

/-- **Serial rule.**  The operations act on the object one after the other, in the order of the
log: what the rounds keep, each where it is permitted, holds of object and log. -/
theorem Reach.serial {init : S} (stable : Stable may) (start : I init [])
    (first : ∀ {log t op data}, I data log → may log t op →
      Keeps I At log t op data (M.first op data))
    (again : ∀ {log t op v data}, I data log → may log t op → At op v data →
      Keeps I At log t op data (M.again op v data))
    {s : State S V Op R T} (reach : Reach M may init s) : Serial may At I s := by
  refine Reachable.invariant (I := Serial may At I) ?_ ?_ reach
  · rintro s rfl
    exact ⟨rfl, start, fun t => trivial⟩
  · rintro s s' - serial step
    cases step with
    | call t op idle permitted =>
        exact ⟨serial.runs, serial.holds, fits_update (fun u _ => serial.fits u) permitted⟩
    | @first t op _ _ called ended =>
        have permitted := serial.fits t
        rw [called] at permitted
        exact ended.serial stable serial permitted (first serial.holds permitted)
    | @again t op v _ _ waiting _ ended =>
        have fits := serial.fits t
        rw [waiting] at fits
        have entered : Serial may At I (s.enter v t) := ⟨serial.runs, serial.holds, serial.fits⟩
        exact ended.serial stable entered fits.1 (again serial.holds fits.1 fits.2)
    | wake => exact ⟨serial.runs, serial.holds, serial.fits⟩

end Serial

/-! ### What is there for the threads that wait -/

section Accounts

variable {M may}

/-- The end of a round, with what it leaves at each variable: a thread waits where nothing is
there, and a thread that returns signals what it adds. -/
def Within (Good : S → Prop) (At : Op → V → S → Prop) (avail : V → S → ℕ) (left : V → ℕ) (op : Op)
    (data : S) : Round S V R → Prop
  | .waits v => At op v data ∧ avail v data = 0 ∧ ∀ w, avail w data ≤ left w
  | .returns data' _ signals => Good data' ∧ (∀ op' v, At op' v data → At op' v data') ∧
      ∀ w, avail w data' ≤ left w + if signals = some w then 1 else 0
  | .crashes => True

/-- **A count of what is there** for the threads at each variable.  `At op v` says that `op` may
wait at `v`; when it goes on after a wait, it takes one of the things that are there.

A round may leave at each variable no more than it signals for.  `avail v` counts the things for
which the threads at `v` wait, and what the round itself takes is not counted for the others. -/
structure Accounts (M : Monitor S V Op R) (Good : S → Prop) (At : Op → V → S → Prop)
    (avail : V → S → ℕ) : Prop where
  first : ∀ op data, Good data →
    Within Good At avail (fun w => avail w data) op data (M.first op data)
  again : ∀ op v data, Good data → At op v data →
    Within Good At avail (fun w => avail w data - if v = w then 1 else 0) op data
      (M.again op v data)
  safe : ∀ op v data, Good data → At op v data → M.again op v data ≠ .crashes

variable {Good : S → Prop} {At : Op → V → S → Prop} {avail : V → S → ℕ}

/-- **No wake-up is lost.**

`supplied` is the statement itself: at each variable, while somebody sleeps there, at least as
many threads are awake as there are things to be had.  The other fields say that the condition
variables and the threads tell the same story. -/
structure Accounted (Good : S → Prop) (At : Op → V → S → Prop) (avail : V → S → ℕ)
    (s : State S V Op R T) : Prop where
  good : Good s.data
  placed : ∀ v t, (s.cond v).Has t ↔ ∃ op, s.place t = .waiting op v
  waits : ∀ t op v, s.place t = .waiting op v → At op v s.data
  supplied : ∀ v, (s.cond v).Supplied (avail v s.data)

/-- Thread `t` has the mutex, and is at no variable; `left` is there for those who are.

This is the state in the middle of a round.  The thread has been taken out of its variable, and
what it has taken is no longer there for those who are left. -/
structure Inside (At : Op → V → S → Prop) (left : V → ℕ) (t : T) (s : State S V Op R T) : Prop where
  placed : ∀ v u, (s.cond v).Has u ↔ u ≠ t ∧ ∃ op, s.place u = .waiting op v
  waits : ∀ u op v, u ≠ t → s.place u = .waiting op v → At op v s.data
  supplied : ∀ v, (s.cond v).Supplied (left v)

namespace Inside

variable {left : V → ℕ} {t : T} {s : State S V Op R T}

omit [DecidableEq V] in
/-- The thread goes somewhere else. -/
theorem waits_update (inside : Inside At left t s) {new : Place V Op} {data : S}
    (stays : ∀ op v, At op v s.data → At op v data)
    (own : ∀ op v, new = .waiting op v → At op v data) (u : T) (op : Op) (v : V)
    (place : Function.update s.place t new u = .waiting op v) : At op v data := by
  by_cases same : u = t
  · subst same
    rw [Function.update_self] at place
    exact own op v place
  · rw [Function.update_of_ne same] at place
    exact stays op v (inside.waits u op v same place)

omit [DecidableEq V] in
/-- And that is at no variable. -/
theorem placed_update (inside : Inside At left t s) {new : Place V Op}
    (other : ∀ op v, new ≠ .waiting op v) (v : V) (u : T) :
    (s.cond v).Has u ↔ ∃ op, Function.update s.place t new u = .waiting op v := by
  rw [inside.placed]
  by_cases same : u = t
  · subst same
    simp [other]
  · rw [Function.update_of_ne same]
    simp [same]

end Inside

variable {t : T} {op : Op}

/-- A round keeps the account. -/
theorem Ends.accounted {s s' : State S V Op R T} {round : Round S V R} {left : V → ℕ}
    (good : Good s.data) (inside : Inside At left t s) (ends : Ends t op s round s')
    (within : Within Good At avail left op s.data round) (safe : round ≠ .crashes) :
    Accounted Good At avail s' := by
  cases ends with
  -- the thread goes to sleep; it found nothing at its variable, so nothing is missed
  | @waits v =>
      obtain ⟨at_, nothing, less⟩ := within
      refine ⟨good, fun w u => ?_, inside.waits_update (fun _ _ => id) ?_, fun w => ?_⟩
      · show (Function.update s.cond v _ w).Has u ↔ ∃ op', Function.update s.place t _ u = _
        have placed := inside.placed w u
        by_cases here : w = v
        · subst here
          rw [Function.update_self, CondVar.has_wait, placed]
          by_cases same : u = t
          · simp [same]
          · simp [same]
        · rw [Function.update_of_ne here, placed]
          by_cases same : u = t
          · subst same
            simp [Ne.symm here]
          · simp [same]
      · rintro op' w ⟨⟩
        exact at_
      · show (Function.update s.cond v _ w).Supplied (avail w s.data)
        by_cases here : w = v
        · subst here
          rw [Function.update_self, nothing]
          exact .zero
        · rw [Function.update_of_ne here]
          exact (inside.supplied w).of_le (less w)
  | returns =>
      obtain ⟨good', stays, less⟩ := within
      exact ⟨good', inside.placed_update (by rintro op' w ⟨⟩),
        inside.waits_update stays (by rintro op' w ⟨⟩),
        fun w => (inside.supplied w).of_le (less w)⟩
  -- one thing more may be there, for which one thread more is awake
  | @signals data r v cv signal =>
      obtain ⟨good', stays, less⟩ := within
      refine ⟨good', fun w u => ?_, inside.waits_update stays (by rintro op' w ⟨⟩), fun w => ?_⟩
      · rw [← inside.placed_update (by rintro op' w ⟨⟩)]
        show (Function.update s.cond v cv w).Has u ↔ _
        by_cases here : w = v
        · subst here
          rw [Function.update_self]
          exact signal.has
        · rw [Function.update_of_ne here]
      · show (Function.update s.cond v cv w).Supplied (avail w data)
        have enough := less w
        by_cases here : w = v
        · subst here
          rw [if_pos rfl] at enough
          rw [Function.update_self]
          exact ((inside.supplied w).signal signal).of_le enough
        · rw [if_neg (fun eq => here (Option.some.inj eq).symm)] at enough
          rw [Function.update_of_ne here]
          exact (inside.supplied w).of_le enough
  | crashes => exact absurd rfl safe

omit [DecidableEq V] [DecidableEq T] in
/-- A thread that does not wait. -/
theorem Accounted.inside {s : State S V Op R T} (accounted : Accounted Good At avail s)
    (other : ∀ op v, s.place t ≠ .waiting op v) : Inside At (fun w => avail w s.data) t s := by
  refine ⟨fun v u => ?_, fun u op v _ => accounted.waits u op v, accounted.supplied⟩
  rw [accounted.placed]
  refine ⟨fun ⟨op, place⟩ => ⟨?_, op, place⟩, And.right⟩
  rintro rfl
  exact other op v place

/-- A thread that is awake gets the mutex, and takes one of the things that are there. -/
theorem Accounted.enter {s : State S V Op R T} {v : V} (accounted : Accounted Good At avail s)
    (awake : t ∈ (s.cond v).woken) :
    Inside At (fun w => avail w s.data - if v = w then 1 else 0) t (s.enter v t) := by
  obtain ⟨op, place⟩ := (accounted.placed v t).mp (Or.inr awake)
  refine ⟨fun w u => ?_, fun u op w _ => accounted.waits u op w, fun w => ?_⟩
  · show (Function.update s.cond v _ w).Has u ↔ u ≠ t ∧ ∃ op, s.place u = .waiting op w
    rw [← accounted.placed w u]
    by_cases here : w = v
    · subst here
      rw [Function.update_self, CondVar.has_leave awake]
    · rw [Function.update_of_ne here]
      refine ⟨fun has => ⟨?_, has⟩, And.right⟩
      rintro rfl
      obtain ⟨op', place'⟩ := (accounted.placed w u).mp has
      rw [place] at place'
      cases place'
      exact here rfl
  · show (Function.update s.cond v _ w).Supplied _
    by_cases here : w = v
    · subst here
      rw [Function.update_self, if_pos rfl]
      -- the thread counted as awake for one thing, and takes that away
      cases count : avail w s.data with
      | zero => exact .zero
      | succ n =>
          have supplied := accounted.supplied w
          rw [count] at supplied
          exact supplied.leave
    · rw [Function.update_of_ne here]
      exact (accounted.supplied w).of_le (Nat.sub_le _ _)

omit [DecidableEq V] [DecidableEq T] in
/-- Nothing is called at first. -/
theorem accounted_initial {init : S} (good : Good init) :
    Accounted Good At avail (State.initial init : State S V Op R T) :=
  ⟨good, fun v t => ⟨fun has => absurd has CondVar.not_has_empty, by rintro ⟨op, ⟨⟩⟩⟩,
    by rintro t op v ⟨⟩, fun v => Or.inl rfl⟩

/-- One step keeps the account, unless it crashes. -/
theorem Accounts.step (accounts : Accounts M Good At avail) {s s' : State S V Op R T}
    (accounted : Accounted Good At avail s) (step : Step M may s s') (runs : s'.crashed = false) :
    Accounted Good At avail s' := by
  cases step with
  | call t op idle permitted =>
      have inside := accounted.inside (t := t) (by simp [idle])
      exact ⟨accounted.good, inside.placed_update (by rintro op' v ⟨⟩),
        inside.waits_update (fun _ _ => id) (by rintro op' v ⟨⟩), accounted.supplied⟩
  | @first t op _ _ called ended =>
      have inside := accounted.inside (t := t) (by simp [called])
      refine ended.accounted accounted.good inside (accounts.first op s.data accounted.good) ?_
      intro crashes
      rw [crashes] at ended
      cases ended
      cases runs
  | @again t op v _ _ waiting awake ended =>
      have at_ := accounted.waits t op v waiting
      exact Ends.accounted (s := s.enter v t) accounted.good (accounted.enter awake) ended
        (accounts.again op v s.data accounted.good at_)
        (accounts.safe op v s.data accounted.good at_)
  -- a spurious wake-up: one thread more is awake
  | @wake t v asleep =>
      refine ⟨accounted.good, fun w u => ?_, accounted.waits, fun w => ?_⟩
      · rw [← accounted.placed w u]
        show (Function.update s.cond v _ w).Has u ↔ _
        by_cases here : w = v
        · subst here
          rw [Function.update_self, CondVar.has_wake asleep]
        · rw [Function.update_of_ne here]
      · show (Function.update s.cond v _ w).Supplied _
        by_cases here : w = v
        · subst here
          rw [Function.update_self]
          exact (accounted.supplied w).wake
        · rw [Function.update_of_ne here]
          exact accounted.supplied w

/-- A process that has crashed stays so. -/
theorem Step.not_crashed {s s' : State S V Op R T} (step : Step M may s s')
    (runs : s'.crashed = false) : s.crashed = false := by
  cases step with
  | call => exact runs
  | first alive => exact alive
  | again alive => exact alive
  | wake => exact runs

/-- **Every run keeps the account**, as long as nothing crashes. -/
theorem Accounts.accounted (accounts : Accounts M Good At avail) {init : S} (good : Good init)
    {s : State S V Op R T} (reach : Reach M may init s) (runs : s.crashed = false) :
    Accounted Good At avail s := by
  refine Reachable.invariant (I := fun s => s.crashed = false → Accounted Good At avail s) ?_ ?_
    reach runs
  · rintro s rfl -
    exact accounted_initial good
  · intro s s' _ accounted step runs
    exact accounts.step (accounted (step.not_crashed runs)) step runs

/-- **While something is there for a thread that sleeps, a thread that waited for it is awake and
finishes its operation with its next round.** -/
theorem Accounts.goes_on (accounts : Accounts M Good At avail) {init : S} (good : Good init)
    {s : State S V Op R T} (reach : Reach M may init s) (runs : s.crashed = false) {v : V}
    (some : 0 < avail v s.data) (sleeps : (s.cond v).sleeping.Nonempty) :
    ∃ t op data r signals, t ∈ (s.cond v).woken ∧ s.place t = .waiting op v ∧
      M.again op v s.data = .returns data r signals := by
  have accounted := accounts.accounted good reach runs
  obtain ⟨t, awake⟩ := (accounted.supplied v).exists_woken some sleeps
  obtain ⟨op, place⟩ := (accounted.placed v t).mp (Or.inr awake)
  have at_ := accounted.waits t op v place
  have within := accounts.again op v s.data accounted.good at_
  have safe := accounts.safe op v s.data accounted.good at_
  cases round : M.again op v s.data with
  -- it would have found nothing, but something is there
  | waits w =>
      rw [round] at within
      obtain ⟨-, -, less⟩ := within
      have here := less v
      simp only [if_pos] at here
      omega
  | returns data r signals => exact ⟨t, op, data, r, signals, awake, place, round⟩
  | crashes => exact absurd round safe

end Accounts

end Monitor

end Yfs
