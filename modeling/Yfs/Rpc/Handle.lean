import Mathlib.Data.Int.Notation
import Mathlib.Data.List.Perm.Basic
import Mathlib.Logic.Function.Basic
import Yfs.Lib.Transition

/-!
# Connection handles

The lock server keeps its connections to the clients in `handle_mgr` (`handle.cc`): one
`hinfo` for a host name, shared by all `handle` objects for it and deleted when the last of
them is gone and it was marked so.

A step is one section under `handle_mutex`, or one `safebind`.  Objects on the heap have a
number that is never used again, so a pointer to an object that was deleted is told apart
from a pointer to a later one; following it is no step at all (`none`).  `refcnt` is an `int`
that counts objects in memory and does not overflow.

The heap is explicit, because the question is about pointers.  A record that was marked is freed by
whoever drops the last reference, under the mutex, while other handles are being bound without it;
so the invariant counts the references that exist and compares the number with the one that the
record keeps.  From that everything else follows: a record that a live handle points to has a
positive count and is not freed, and one whose count falls to zero has no handle left.

* `getHandle`, `safebind`, `doneHandle`, `deleteHandleWo` — the code.
* `Step` — handles are made, bound, destroyed, hosts deleted, in any order.
* `Counted` — the invariant: the references to an `hinfo` are those of the live handles.
* `handles_counted` — what follows for every run.
-/

namespace Yfs.Rpc

/-- `struct hinfo`, with the number of its connection; the mutex is that of one `safebind`. -/
structure Hinfo where
  cl : Option ℕ
  refcnt : ℤ
  del : Bool
  m : String
  deriving DecidableEq, Repr

/-- `handle_mgr` and the objects it uses.  `hinfos` and `rpccs` count the objects made so far,
`bound` tells which connections exist, and `erased` is history: each `hinfo` that was deleted,
with its `refcnt` at that moment. -/
structure Mgr where
  hmap : String → Option ℕ
  heap : ℕ → Option Hinfo
  hinfos : ℕ
  bound : ℕ → Bool
  rpccs : ℕ
  erased : List (ℕ × ℤ)

namespace Mgr

/-- `handle_mgr::handle_mgr`. -/
def initial : Mgr where
  hmap := fun _ => none
  heap := fun _ => none
  hinfos := 0
  bound := fun _ => false
  rpccs := 0
  erased := []

/-- An `hinfo` is changed. -/
def set (s : Mgr) (p : ℕ) (h : Hinfo) : Mgr :=
  { s with heap := Function.update s.heap p (some h) }

@[simp] theorem set_heap_self (s : Mgr) (p : ℕ) (h : Hinfo) : (s.set p h).heap p = some h :=
  Function.update_self ..

theorem set_heap_of_ne (s : Mgr) {p q : ℕ} (h : Hinfo) (ne : q ≠ p) :
    (s.set p h).heap q = s.heap q :=
  Function.update_of_ne ne ..

/-- What is found after a change. -/
theorem set_heap_cases {s : Mgr} {p q : ℕ} {new h : Hinfo} (found : (s.set p new).heap q = some h) :
    (q = p ∧ h = new) ∨ (q ≠ p ∧ s.heap q = some h) := by
  by_cases eq : q = p
  · subst eq
    rw [set_heap_self] at found
    exact .inl ⟨rfl, (Option.some.inj found).symm⟩
  · rw [set_heap_of_ne s new eq] at found
    exact .inr ⟨eq, found⟩

/-- `handle_mgr::get_handle`. -/
def getHandle (s : Mgr) (m : String) : Option (Option ℕ × Mgr) :=
  match s.hmap m with
  | none => some (some s.hinfos,
      { s.set s.hinfos ⟨none, 1, false, m⟩ with
        hmap := Function.update s.hmap m (some s.hinfos)
        hinfos := s.hinfos + 1 })
  | some p => do
      let h ← s.heap p
      if h.del then some (none, s)
      else some (some p, s.set p { h with refcnt := h.refcnt + 1 })

/-- `handle::safebind` through the pointer of a handle; `ok` tells whether `bind` succeeds. -/
def safebind (s : Mgr) (ptr : Option ℕ) (ok : Bool) : Option (Option ℕ × Mgr) :=
  match ptr with
  | none => some (none, s)
  | some p => do
      let h ← s.heap p
      if h.del then some (none, s)
      else match h.cl with
        | some cl => some (some cl, s)
        | none =>
          let cl := s.rpccs
          if ok then
            some (some cl, { s.set p { h with cl := some cl } with
              rpccs := cl + 1
              bound := Function.update s.bound cl true })
          else some (none, { s.set p { h with del := true } with rpccs := cl + 1 })

/-- `handle_mgr::delete_handle_wo`. -/
def deleteHandleWo (s : Mgr) (m : String) : Option Mgr :=
  match s.hmap m with
  | none => some s
  | some p => do
      let h ← s.heap p
      if h.refcnt = 0 then
        some { s with
          hmap := Function.update s.hmap m none
          heap := Function.update s.heap p none
          bound := h.cl.elim s.bound fun cl => Function.update s.bound cl false
          erased := (p, h.refcnt) :: s.erased }
      else some (s.set p { h with del := true })

/-- `handle_mgr::delete_handle`. -/
def deleteHandle (s : Mgr) (m : String) : Option Mgr := s.deleteHandleWo m

/-- `handle_mgr::done_handle`. -/
def doneHandle (s : Mgr) (p : ℕ) : Option Mgr := do
  let h ← s.heap p
  let left := { h with refcnt := h.refcnt - 1 }
  if left.refcnt = 0 ∧ left.del then (s.set p left).deleteHandleWo left.m
  else some (s.set p left)

/-- `handle::~handle`. -/
def destroy (s : Mgr) : Option ℕ → Option Mgr
  | none => some s
  | some p => s.doneHandle p

/-! ## What the sections do -/

variable {s s' : Mgr} {m : String} {p : ℕ}

/-- `get_handle` makes an `hinfo`, finds one that is marked, or takes a reference. -/
theorem getHandle_cases {r : Option ℕ} (gets : s.getHandle m = some (r, s')) :
    (s.hmap m = none ∧ r = some s.hinfos ∧
      s' = { s.set s.hinfos ⟨none, 1, false, m⟩ with
        hmap := Function.update s.hmap m (some s.hinfos)
        hinfos := s.hinfos + 1 }) ∨
    ∃ p h, s.hmap m = some p ∧ s.heap p = some h ∧
      ((h.del = true ∧ r = none ∧ s' = s) ∨
        (h.del = false ∧ r = some p ∧ s' = s.set p { h with refcnt := h.refcnt + 1 })) := by
  unfold getHandle at gets
  split at gets
  next new =>
    obtain ⟨rfl, rfl⟩ := Prod.mk.inj (Option.some.inj gets)
    exact .inl ⟨new, rfl, rfl⟩
  next p known =>
    obtain ⟨h, here, gets⟩ := Option.bind_eq_some_iff.mp gets
    refine .inr ⟨p, h, known, here, ?_⟩
    split at gets
    next del =>
      obtain ⟨rfl, rfl⟩ := Prod.mk.inj (Option.some.inj gets)
      exact .inl ⟨del, rfl, rfl⟩
    next del =>
      obtain ⟨rfl, rfl⟩ := Prod.mk.inj (Option.some.inj gets)
      exact .inr ⟨Bool.eq_false_iff.mpr del, rfl, rfl⟩

/-- `safebind` through a pointer: nothing for a marked `hinfo`, the connection that is there,
or the outcome of `bind`. -/
theorem safebind_cases {ok : Bool} {r : Option ℕ} (binds : s.safebind (some p) ok = some (r, s')) :
    ∃ h, s.heap p = some h ∧
      ((h.del = true ∧ r = none ∧ s' = s) ∨
        (h.del = false ∧ h.cl = r ∧ s' = s) ∨
        (h.del = false ∧ h.cl = none ∧ ok = true ∧ r = some s.rpccs ∧
          s' = { s.set p { h with cl := some s.rpccs } with
            rpccs := s.rpccs + 1
            bound := Function.update s.bound s.rpccs true }) ∨
        (h.del = false ∧ h.cl = none ∧ ok = false ∧ r = none ∧
          s' = { s.set p { h with del := true } with rpccs := s.rpccs + 1 })) := by
  obtain ⟨h, here, binds⟩ := Option.bind_eq_some_iff.mp binds
  refine ⟨h, here, ?_⟩
  split at binds
  next del =>
    obtain ⟨rfl, rfl⟩ := Prod.mk.inj (Option.some.inj binds)
    exact .inl ⟨del, rfl, rfl⟩
  next del =>
    have del := Bool.eq_false_iff.mpr del
    split at binds
    next cl there =>
      obtain ⟨rfl, rfl⟩ := Prod.mk.inj (Option.some.inj binds)
      exact .inr (.inl ⟨del, there, rfl⟩)
    next first =>
      cases ok with
      | true =>
          obtain ⟨rfl, rfl⟩ := Prod.mk.inj (Option.some.inj binds)
          exact .inr (.inr (.inl ⟨del, first, rfl, rfl, rfl⟩))
      | false =>
          obtain ⟨rfl, rfl⟩ := Prod.mk.inj (Option.some.inj binds)
          exact .inr (.inr (.inr ⟨del, first, rfl, rfl, rfl⟩))

/-- `delete_handle_wo` finds nothing, erases an `hinfo` without references, or marks it. -/
theorem deleteHandleWo_cases (deletes : s.deleteHandleWo m = some s') :
    (s.hmap m = none ∧ s' = s) ∨
    ∃ p h, s.hmap m = some p ∧ s.heap p = some h ∧
      ((h.refcnt = 0 ∧ s' = { s with
          hmap := Function.update s.hmap m none
          heap := Function.update s.heap p none
          bound := h.cl.elim s.bound fun cl => Function.update s.bound cl false
          erased := (p, h.refcnt) :: s.erased }) ∨
        (h.refcnt ≠ 0 ∧ s' = s.set p { h with del := true })) := by
  unfold deleteHandleWo at deletes
  split at deletes
  next new => exact .inl ⟨new, (Option.some.inj deletes).symm⟩
  next p known =>
    obtain ⟨h, here, deletes⟩ := Option.bind_eq_some_iff.mp deletes
    refine .inr ⟨p, h, known, here, ?_⟩
    split at deletes
    next zero => exact .inl ⟨zero, (Option.some.inj deletes).symm⟩
    next some => exact .inr ⟨some, (Option.some.inj deletes).symm⟩

/-- `done_handle` gives a reference back and erases a marked `hinfo` with the last one. -/
theorem doneHandle_cases (ends : s.doneHandle p = some s') :
    ∃ h, s.heap p = some h ∧
      ((s.set p { h with refcnt := h.refcnt - 1 }).deleteHandleWo h.m = some s' ∨
        s' = s.set p { h with refcnt := h.refcnt - 1 }) := by
  obtain ⟨h, here, ends⟩ := Option.bind_eq_some_iff.mp ends
  refine ⟨h, here, ?_⟩
  dsimp only at ends
  split at ends
  next => exact .inl ends
  next => exact .inr (Option.some.inj ends).symm

end Mgr

/-! ## Runs -/

/-- The manager and the live handle objects, each with its `h`.

Handles are a list with repetitions, since several objects may have the same `h`; their order has
no meaning. -/
structure HandleState where
  mgr : Mgr
  handles : List (Option ℕ)

/-- What is done to handles and hosts. -/
inductive Action where
  | construct (m : String)
  | safebind (i : ℕ) (ok : Bool)
  | destroy (i : ℕ)
  | deleteHandle (m : String)

/-- What an action returns: the `h` of a new handle, or the connection of `safebind`. -/
inductive Returned where
  | handle (h : Option ℕ)
  | rpcc (cl : Option ℕ)
  | nothing

/-- **One step**, by any thread; `i` is the number of a live handle.

Whoever acts has a live handle, or makes one.  A step is possible only where every pointer that
the code follows leads to an object that exists, so a run that could use freed memory would stop
here; that none does is `handles_counted`. -/
inductive Step : Action → Returned → HandleState → HandleState → Prop where
  | construct {s : HandleState} {m : String} {h : Option ℕ} {mgr : Mgr}
      (gets : s.mgr.getHandle m = some (h, mgr)) :
      Step (.construct m) (.handle h) s ⟨mgr, h :: s.handles⟩
  | safebind {s : HandleState} {i : ℕ} {ok : Bool} {h cl : Option ℕ} {mgr : Mgr}
      (live : s.handles[i]? = some h) (binds : s.mgr.safebind h ok = some (cl, mgr)) :
      Step (.safebind i ok) (.rpcc cl) s ⟨mgr, s.handles⟩
  | destroy {s : HandleState} {i : ℕ} {h : Option ℕ} {mgr : Mgr}
      (live : s.handles[i]? = some h) (ends : s.mgr.destroy h = some mgr) :
      Step (.destroy i) .nothing s ⟨mgr, s.handles.eraseIdx i⟩
  | deleteHandle {s : HandleState} {m : String} {mgr : Mgr}
      (deletes : s.mgr.deleteHandle m = some mgr) :
      Step (.deleteHandle m) .nothing s ⟨mgr, s.handles⟩

/-- Some step. -/
def AnyStep (s s' : HandleState) : Prop := ∃ action returned, Step action returned s s'

/-- The states of a process that starts with no handles. -/
def Reach : HandleState → Prop := Transition.Reachable (fun s => s = ⟨.initial, []⟩) AnyStep

theorem Reach.start : Reach ⟨.initial, []⟩ := .init rfl

theorem Reach.next {s s' : HandleState} {action : Action} {returned : Returned} (reach : Reach s)
    (step : Step action returned s s') : Reach s' :=
  .step reach ⟨action, returned, step⟩

/-- The states that come after a state, itself included. -/
def Later (s s' : HandleState) : Prop := Relation.ReflTransGen AnyStep s s'

/-- The action is about a live handle, if it is about one. -/
def Action.Possible (s : HandleState) : Action → Prop
  | .safebind i _ | .destroy i => i < s.handles.length
  | .construct _ | .deleteHandle _ => True

/-! ## The invariant -/

/-- **The references to an `hinfo` are those of the live handles**, and the objects that the map,
the handles and the `hinfo`s point to exist.

`refcnt` is the statement; the others keep the pointers in order.  The map and the heap have the
same objects, a live handle points to one of them or to nothing, and an object that was deleted
had no reference left and does not come back. -/
structure Counted (s : Mgr) (handles : List (Option ℕ)) : Prop where
  mapped : ∀ m p, s.hmap m = some p → ∃ h, s.heap p = some h ∧ h.m = m
  kept : ∀ p h, s.heap p = some h → s.hmap h.m = some p
  refcnt : ∀ p h, s.heap p = some h → h.refcnt = handles.count (some p)
  alive : ∀ p, some p ∈ handles → ∃ h, s.heap p = some h
  made : ∀ p h, s.heap p = some h → p < s.hinfos
  erased : ∀ p n, (p, n) ∈ s.erased → n = 0 ∧ p < s.hinfos ∧ s.heap p = none

namespace Counted

variable {s s' : Mgr} {handles : List (Option ℕ)} {m : String} {p : ℕ}

theorem initial : Counted .initial [] :=
  ⟨nofun, nofun, nofun, by simp, nofun, by simp [Mgr.initial]⟩

/-- The order of the handles does not matter. -/
theorem perm {others : List (Option ℕ)} (counted : Counted s handles)
    (perm : handles.Perm others) : Counted s others where
  mapped := counted.mapped
  kept := counted.kept
  refcnt := fun p h here => by rw [counted.refcnt p h here, perm.count_eq]
  alive := fun p mem => counted.alive p (perm.mem_iff.mpr mem)
  made := counted.made
  erased := counted.erased

/-- A handle that refers to nothing. -/
theorem null_iff : Counted s (none :: handles) ↔ Counted s handles := by
  constructor
  · intro counted
    refine ⟨counted.mapped, counted.kept, fun p h here => ?_,
      fun p mem => counted.alive p (List.mem_cons_of_mem _ mem), counted.made, counted.erased⟩
    rw [counted.refcnt p h here, List.count_cons_of_ne (by simp)]
  · intro counted
    refine ⟨counted.mapped, counted.kept, fun p h here => ?_, fun p mem => ?_, counted.made,
      counted.erased⟩
    · rw [counted.refcnt p h here, List.count_cons_of_ne (by simp)]
    · rcases List.mem_cons.mp mem with eq | mem
      · cases eq
      · exact counted.alive p mem

/-- An `hinfo` is changed together with the handles that refer to it. -/
theorem set {others : List (Option ℕ)} {old new : Hinfo} (counted : Counted s handles)
    (here : s.heap p = some old) (name : new.m = old.m)
    (count : new.refcnt = others.count (some p))
    (rest : ∀ q, q ≠ p → others.count (some q) = handles.count (some q)) :
    Counted (s.set p new) others := by
  refine ⟨?_, ?_, ?_, ?_, ?_, ?_⟩
  · intro m q found
    obtain ⟨h, at_q, named⟩ := counted.mapped m q found
    by_cases eq : q = p
    · subst eq
      obtain rfl : old = h := Option.some.inj (here.symm.trans at_q)
      exact ⟨new, Mgr.set_heap_self .., name.trans named⟩
    · exact ⟨h, (s.set_heap_of_ne new eq).trans at_q, named⟩
  · intro q h found
    rcases Mgr.set_heap_cases found with ⟨rfl, rfl⟩ | ⟨-, found⟩
    · rw [name]
      exact counted.kept _ _ here
    · exact counted.kept q h found
  · intro q h found
    rcases Mgr.set_heap_cases found with ⟨rfl, rfl⟩ | ⟨ne, found⟩
    · exact count
    · rw [rest q ne]
      exact counted.refcnt q h found
  · intro q mem
    by_cases eq : q = p
    · subst eq
      exact ⟨new, Mgr.set_heap_self ..⟩
    · have before : some q ∈ handles := by
        rw [← List.count_pos_iff, ← rest q eq, List.count_pos_iff]
        exact mem
      obtain ⟨h, at_q⟩ := counted.alive q before
      exact ⟨h, (s.set_heap_of_ne new eq).trans at_q⟩
  · intro q h found
    rcases Mgr.set_heap_cases found with ⟨rfl, -⟩ | ⟨-, found⟩
    · exact counted.made _ _ here
    · exact counted.made q h found
  · intro q n mem
    obtain ⟨zero, below, gone⟩ := counted.erased q n mem
    have ne : q ≠ p := by
      rintro rfl
      rw [here] at gone
      cases gone
    exact ⟨zero, below, (s.set_heap_of_ne new ne).trans gone⟩

/-- Connections do not matter to the count. -/
theorem connections (counted : Counted s handles) (bound : ℕ → Bool) (rpccs : ℕ) :
    Counted { s with bound := bound, rpccs := rpccs } handles :=
  ⟨counted.mapped, counted.kept, counted.refcnt, counted.alive, counted.made, counted.erased⟩

/-- A new `hinfo` with its first handle. -/
theorem allocate (counted : Counted s handles) (new : s.hmap m = none) :
    Counted { s.set s.hinfos ⟨none, 1, false, m⟩ with
      hmap := Function.update s.hmap m (some s.hinfos)
      hinfos := s.hinfos + 1 } (some s.hinfos :: handles) := by
  -- the next pointer was never used, so no object and no handle has it
  have fresh : s.heap s.hinfos = none := by
    by_contra there
    obtain ⟨h, here⟩ := Option.ne_none_iff_exists'.mp there
    exact absurd (counted.made _ h here) (Nat.lt_irrefl _)
  have unused : some s.hinfos ∉ handles := by
    intro mem
    obtain ⟨h, here⟩ := counted.alive _ mem
    rw [fresh] at here
    cases here
  refine ⟨?_, ?_, ?_, ?_, ?_, ?_⟩
  · intro name q found
    by_cases eq : name = m
    · subst eq
      dsimp only at found
      rw [Function.update_self] at found
      obtain rfl : s.hinfos = q := Option.some.inj found
      exact ⟨_, Mgr.set_heap_self .., rfl⟩
    · obtain ⟨h, at_q, named⟩ :=
        counted.mapped name q ((Function.update_of_ne eq ..).symm.trans found)
      have ne : q ≠ s.hinfos := Nat.ne_of_lt (counted.made q h at_q)
      exact ⟨h, (s.set_heap_of_ne _ ne).trans at_q, named⟩
  · intro q h found
    rcases Mgr.set_heap_cases found with ⟨rfl, rfl⟩ | ⟨-, at_q⟩
    · exact Function.update_self ..
    · have known := counted.kept q h at_q
      have ne : h.m ≠ m := by
        intro eq
        rw [eq, new] at known
        cases known
      exact (Function.update_of_ne ne ..).trans known
  · intro q h found
    rcases Mgr.set_heap_cases found with ⟨rfl, rfl⟩ | ⟨ne, at_q⟩
    · rw [List.count_cons_self, List.count_eq_zero.mpr unused]
      rfl
    · rw [List.count_cons_of_ne (by simpa using ne.symm)]
      exact counted.refcnt q h at_q
  · intro q mem
    by_cases eq : q = s.hinfos
    · subst eq
      exact ⟨_, Mgr.set_heap_self ..⟩
    · rcases List.mem_cons.mp mem with same | mem
      · exact absurd (Option.some.inj same) eq
      · obtain ⟨h, at_q⟩ := counted.alive q mem
        exact ⟨h, (s.set_heap_of_ne _ eq).trans at_q⟩
  · intro q h found
    rcases Mgr.set_heap_cases found with ⟨rfl, -⟩ | ⟨-, at_q⟩
    · exact Nat.lt_succ_self _
    · exact Nat.lt_succ_of_lt (counted.made q h at_q)
  · intro q n mem
    obtain ⟨zero, below, gone⟩ := counted.erased q n mem
    exact ⟨zero, Nat.lt_succ_of_lt below, (s.set_heap_of_ne _ (Nat.ne_of_lt below)).trans gone⟩

/-- An `hinfo` without references is erased. -/
theorem erase {h : Hinfo} (counted : Counted s handles) (known : s.hmap m = some p)
    (here : s.heap p = some h) (zero : h.refcnt = 0) (bound : ℕ → Bool) :
    Counted { s with
      hmap := Function.update s.hmap m none
      heap := Function.update s.heap p none
      bound := bound
      erased := (p, h.refcnt) :: s.erased } handles := by
  -- with no reference left no live handle points to it
  have unused : some p ∉ handles := by
    rw [← List.count_eq_zero]
    have count := counted.refcnt p h here
    rw [zero] at count
    exact_mod_cast count.symm
  have below := counted.made p h here
  have elsewhere :
      ∀ {q g}, Function.update s.heap p none q = some g → q ≠ p ∧ s.heap q = some g := by
    intro q g found
    by_cases eq : q = p
    · subst eq
      rw [Function.update_self] at found
      cases found
    · exact ⟨eq, (Function.update_of_ne eq ..).symm.trans found⟩
  refine ⟨?_, ?_, ?_, ?_, ?_, ?_⟩
  · intro name q found
    by_cases eq : name = m
    · subst eq
      exact absurd ((Function.update_self ..).symm.trans found) nofun
    · have there : s.hmap name = some q := (Function.update_of_ne eq ..).symm.trans found
      obtain ⟨g, at_q, named⟩ := counted.mapped name q there
      obtain ⟨g', at_p, named'⟩ := counted.mapped m p known
      -- two names do not share an object
      have ne : q ≠ p := by
        rintro rfl
        obtain rfl : g = g' := Option.some.inj (at_q.symm.trans at_p)
        exact eq (named.symm.trans named')
      exact ⟨g, (Function.update_of_ne ne ..).trans at_q, named⟩
  · intro q g found
    obtain ⟨ne, at_q⟩ := elsewhere found
    have there := counted.kept q g at_q
    have other : g.m ≠ m := by
      intro eq
      rw [eq, known] at there
      exact ne (Option.some.inj there).symm
    exact (Function.update_of_ne other ..).trans there
  · intro q g found
    exact counted.refcnt q g (elsewhere found).2
  · intro q mem
    have ne : q ≠ p := by
      rintro rfl
      exact unused mem
    obtain ⟨g, at_q⟩ := counted.alive q mem
    exact ⟨g, (Function.update_of_ne ne ..).trans at_q⟩
  · intro q g found
    exact counted.made q g (elsewhere found).2
  · intro q n mem
    rcases List.mem_cons.mp mem with eq | mem
    · obtain ⟨rfl, rfl⟩ := Prod.mk.inj eq
      exact ⟨zero, below, Function.update_self ..⟩
    · obtain ⟨none, made, gone⟩ := counted.erased q n mem
      refine ⟨none, made, ?_⟩
      by_cases eq : q = p
      · subst eq
        exact Function.update_self ..
      · exact (Function.update_of_ne eq ..).trans gone

/-! ## Every section keeps the invariant -/

theorem getHandle {r : Option ℕ} (counted : Counted s handles)
    (gets : s.getHandle m = some (r, s')) : Counted s' (r :: handles) := by
  rcases Mgr.getHandle_cases gets with
    ⟨new, rfl, rfl⟩ | ⟨p, h, -, here, ⟨-, rfl, rfl⟩ | ⟨-, rfl, rfl⟩⟩
  · exact counted.allocate new
  · exact null_iff.mpr counted
  · refine counted.set here rfl ?_ fun q ne => List.count_cons_of_ne (by simpa using ne.symm)
    rw [List.count_cons_self, counted.refcnt p h here]
    push_cast
    rfl

theorem safebind {ptr r : Option ℕ} {ok : Bool} (counted : Counted s handles)
    (binds : s.safebind ptr ok = some (r, s')) : Counted s' handles := by
  cases ptr with
  | none =>
      obtain ⟨-, rfl⟩ := Prod.mk.inj (Option.some.inj binds)
      exact counted
  | some p =>
      obtain ⟨h, here, ⟨-, -, rfl⟩ | ⟨-, -, rfl⟩ | ⟨-, -, -, -, rfl⟩ | ⟨-, -, -, -, rfl⟩⟩ :=
        Mgr.safebind_cases binds
      · exact counted
      · exact counted
      · have kept : Counted (s.set p { h with cl := some s.rpccs }) handles :=
          counted.set here rfl (counted.refcnt p h here) fun _ _ => rfl
        exact kept.connections _ _
      · have kept : Counted (s.set p { h with del := true }) handles :=
          counted.set here rfl (counted.refcnt p h here) fun _ _ => rfl
        exact kept.connections _ _

theorem deleteHandleWo (counted : Counted s handles) (deletes : s.deleteHandleWo m = some s') :
    Counted s' handles := by
  rcases Mgr.deleteHandleWo_cases deletes with
    ⟨-, rfl⟩ | ⟨p, h, known, here, ⟨zero, rfl⟩ | ⟨-, rfl⟩⟩
  · exact counted
  · exact counted.erase known here zero _
  · exact counted.set here rfl (counted.refcnt p h here) fun _ _ => rfl

/-- A reference is given back with the handle that had it. -/
theorem giveBack {h : Hinfo} (counted : Counted s (some p :: handles))
    (here : s.heap p = some h) :
    Counted (s.set p { h with refcnt := h.refcnt - 1 }) handles := by
  refine counted.set here rfl ?_ fun q ne => (List.count_cons_of_ne (by simpa using ne.symm)).symm
  rw [counted.refcnt p h here, List.count_cons_self]
  push_cast
  exact Int.add_sub_cancel _ _

theorem destroy {ptr : Option ℕ} (counted : Counted s (ptr :: handles))
    (ends : s.destroy ptr = some s') : Counted s' handles := by
  cases ptr with
  | none =>
      obtain rfl : s = s' := Option.some.inj ends
      exact null_iff.mp counted
  | some p =>
      obtain ⟨h, here, rest⟩ := Mgr.doneHandle_cases ends
      have left := counted.giveBack here
      rcases rest with deletes | rfl
      · exact left.deleteHandleWo deletes
      · exact left

/-! ## No section follows a pointer to a deleted object -/

theorem exists_getHandle (counted : Counted s handles) (m : String) :
    ∃ r s', s.getHandle m = some (r, s') := by
  unfold Mgr.getHandle
  split
  next => exact ⟨_, _, rfl⟩
  next p known =>
    obtain ⟨h, here, -⟩ := counted.mapped m p known
    rw [here]
    cases del : h.del with
    | true => exact ⟨none, s, by simp [del]⟩
    | false => exact ⟨some p, s.set p { h with refcnt := h.refcnt + 1 }, by simp [del]⟩

theorem exists_safebind {ptr : Option ℕ} (counted : Counted s handles) (live : ptr ∈ handles)
    (ok : Bool) : ∃ r s', s.safebind ptr ok = some (r, s') := by
  cases ptr with
  | none => exact ⟨none, s, rfl⟩
  | some p =>
      obtain ⟨h, here⟩ := counted.alive p live
      obtain ⟨cl, refcnt, del, m⟩ := h
      unfold Mgr.safebind
      dsimp only
      rw [here]
      cases del with
      | true => exact ⟨_, _, rfl⟩
      | false =>
          cases cl with
          | some cl => exact ⟨_, _, rfl⟩
          | none =>
              cases ok with
              | true => exact ⟨_, _, rfl⟩
              | false => exact ⟨_, _, rfl⟩

theorem exists_deleteHandleWo (counted : Counted s handles) (m : String) :
    ∃ s', s.deleteHandleWo m = some s' := by
  unfold Mgr.deleteHandleWo
  split
  next => exact ⟨_, rfl⟩
  next p known =>
    obtain ⟨h, here, -⟩ := counted.mapped m p known
    rw [here, Option.bind_eq_bind, Option.bind_some]
    split
    next => exact ⟨_, rfl⟩
    next => exact ⟨_, rfl⟩

theorem exists_destroy {ptr : Option ℕ} (counted : Counted s (ptr :: handles)) :
    ∃ s', s.destroy ptr = some s' := by
  cases ptr with
  | none => exact ⟨s, rfl⟩
  | some p =>
      obtain ⟨h, here⟩ := counted.alive p List.mem_cons_self
      show ∃ s', s.doneHandle p = some s'
      unfold Mgr.doneHandle
      rw [here, Option.bind_eq_bind, Option.bind_some]
      dsimp only
      split
      next => exact (counted.giveBack here).exists_deleteHandleWo h.m
      next => exact ⟨_, rfl⟩

end Counted

/-- The handle of that number, taken out. -/
theorem perm_eraseIdx {handles : List (Option ℕ)} {i : ℕ} {h : Option ℕ}
    (live : handles[i]? = some h) : handles.Perm (h :: handles.eraseIdx i) := by
  obtain ⟨below, rfl⟩ := List.getElem?_eq_some_iff.mp live
  exact (List.getElem_cons_eraseIdx_perm below).symm

/-- **Every run keeps the invariant.** -/
theorem Reach.counted {s : HandleState} (reach : Reach s) : Counted s.mgr s.handles := by
  refine Transition.Reachable.invariant (I := fun s => Counted s.mgr s.handles) ?_ ?_ reach
  · rintro s rfl
    exact Counted.initial
  · rintro s s' - counted ⟨action, returned, step⟩
    cases step with
    | construct gets => exact counted.getHandle gets
    | safebind live binds => exact counted.safebind binds
    | destroy live ends => exact (counted.perm (perm_eraseIdx live)).destroy ends
    | deleteHandle deletes => exact counted.deleteHandleWo deletes

/-! ## Marks -/

/-- The `hinfo` is marked, or was and is gone. -/
def Marked (s : Mgr) (p : ℕ) : Prop :=
  p < s.hinfos ∧ ∀ h, s.heap p = some h → h.del = true

namespace Marked

variable {s s' : Mgr} {p q : ℕ} {m : String}

/-- A change that does not take a mark away. -/
theorem set {old new : Hinfo} (marked : Marked s p) (here : s.heap q = some old)
    (keeps : old.del = true → new.del = true) : Marked (s.set q new) p := by
  refine ⟨marked.1, fun h found => ?_⟩
  rcases Mgr.set_heap_cases found with ⟨rfl, rfl⟩ | ⟨-, there⟩
  · exact keeps (marked.2 old here)
  · exact marked.2 h there

theorem getHandle {r : Option ℕ} (marked : Marked s p) (gets : s.getHandle m = some (r, s')) :
    Marked s' p := by
  rcases Mgr.getHandle_cases gets with
    ⟨-, -, rfl⟩ | ⟨q, h, -, here, ⟨-, -, rfl⟩ | ⟨-, -, rfl⟩⟩
  · refine ⟨Nat.lt_succ_of_lt marked.1, fun h found => ?_⟩
    rcases Mgr.set_heap_cases found with ⟨rfl, -⟩ | ⟨-, there⟩
    · exact absurd marked.1 (Nat.lt_irrefl _)
    · exact marked.2 h there
  · exact marked
  · exact marked.set here id

theorem safebind {ptr r : Option ℕ} {ok : Bool} (marked : Marked s p)
    (binds : s.safebind ptr ok = some (r, s')) : Marked s' p := by
  cases ptr with
  | none =>
      obtain ⟨-, rfl⟩ := Prod.mk.inj (Option.some.inj binds)
      exact marked
  | some q =>
      obtain ⟨h, here, ⟨-, -, rfl⟩ | ⟨-, -, rfl⟩ | ⟨-, -, -, -, rfl⟩ | ⟨-, -, -, -, rfl⟩⟩ :=
        Mgr.safebind_cases binds
      · exact marked
      · exact marked
      · have kept : Marked (s.set q { h with cl := some s.rpccs }) p := marked.set here id
        exact kept
      · have kept : Marked (s.set q { h with del := true }) p := marked.set here fun _ => rfl
        exact kept

theorem deleteHandleWo (marked : Marked s p) (deletes : s.deleteHandleWo m = some s') :
    Marked s' p := by
  rcases Mgr.deleteHandleWo_cases deletes with
    ⟨-, rfl⟩ | ⟨q, h, -, here, ⟨-, rfl⟩ | ⟨-, rfl⟩⟩
  · exact marked
  · refine ⟨marked.1, fun g found => ?_⟩
    by_cases eq : p = q
    · subst eq
      exact absurd ((Function.update_self ..).symm.trans found) nofun
    · exact marked.2 g ((Function.update_of_ne eq ..).symm.trans found)
  · exact marked.set here fun _ => rfl

theorem destroy {ptr : Option ℕ} (marked : Marked s p) (ends : s.destroy ptr = some s') :
    Marked s' p := by
  cases ptr with
  | none =>
      obtain rfl : s = s' := Option.some.inj ends
      exact marked
  | some q =>
      obtain ⟨h, here, rest⟩ := Mgr.doneHandle_cases ends
      have left : Marked (s.set q { h with refcnt := h.refcnt - 1 }) p := marked.set here id
      rcases rest with deletes | rfl
      · exact left.deleteHandleWo deletes
      · exact left

/-- **A mark stays.** -/
theorem later {s s' : HandleState} (marked : Marked s.mgr p) (later : Later s s') :
    Marked s'.mgr p := by
  induction later with
  | refl => exact marked
  | tail _ step ih =>
      obtain ⟨action, returned, step⟩ := step
      cases step with
      | construct gets => exact ih.getHandle gets
      | safebind live binds => exact ih.safebind binds
      | destroy live ends => exact ih.destroy ends
      | deleteHandle deletes => exact ih.deleteHandleWo deletes

/-- Through a marked `hinfo` there is no connection. -/
theorem safebind_eq_none {r : Option ℕ} {ok : Bool} (marked : Marked s p)
    (binds : s.safebind (some p) ok = some (r, s')) : r = none := by
  obtain ⟨h, here, rest⟩ := Mgr.safebind_cases binds
  have del := marked.2 h here
  rcases rest with ⟨-, none, -⟩ | ⟨unmarked, -⟩ | ⟨unmarked, -⟩ | ⟨unmarked, -⟩
  · exact none
  · exact absurd (del.symm.trans unmarked) nofun
  · exact absurd (del.symm.trans unmarked) nofun
  · exact absurd (del.symm.trans unmarked) nofun

/-- A handle for the host of a marked `hinfo` refers to nothing. -/
theorem getHandle_eq_none {r : Option ℕ} (marked : Marked s p) (known : s.hmap m = some p)
    (gets : s.getHandle m = some (r, s')) : r = none := by
  rcases Mgr.getHandle_cases gets with ⟨new, -, -⟩ | ⟨q, h, found, here, rest⟩
  · rw [known] at new
    cases new
  · obtain rfl : p = q := Option.some.inj (known.symm.trans found)
    rcases rest with ⟨-, none, -⟩ | ⟨unmarked, -⟩
    · exact none
    · exact absurd ((marked.2 h here).symm.trans unmarked) nofun

end Marked

/-! ## Every run -/

/-- **Reference counting**: in every state that is reached, the `refcnt` of an `hinfo` in the map
is the number of the live handles that refer to it; live handles refer to an `hinfo` that was not
erased; what was erased had no references; and an `hinfo` that is marked gives no connection and
no handle any more.  No step can fail for a pointer that leads nowhere.

The state has all live handles, wherever they are in the program, so counting is over the whole
process.  `delete_handle` may come at any time and marks an object that is still referred to; the
last of its handles erases it. -/
theorem handles_counted {s : HandleState} (reach : Reach s) :
    (∀ m p, s.mgr.hmap m = some p →
      ∃ h, s.mgr.heap p = some h ∧ h.refcnt = s.handles.count (some p)) ∧
    (∀ p, some p ∈ s.handles → (s.mgr.heap p).isSome ∧ p ∉ s.mgr.erased.map Prod.fst) ∧
    (∀ p n, (p, n) ∈ s.mgr.erased → n = 0) ∧
    (∀ p h, s.mgr.heap p = some h → h.del = true → ∀ s', Later s s' →
      (∀ i ok cl s'', s'.handles[i]? = some (some p) →
        Step (.safebind i ok) (.rpcc cl) s' s'' → cl = none) ∧
      ∀ m h s'', s'.mgr.hmap m = some p → Step (.construct m) (.handle h) s' s'' → h = none) ∧
    ∀ action, action.Possible s → ∃ returned s', Step action returned s s' := by
  have counted := reach.counted
  refine ⟨?_, ?_, ?_, ?_, ?_⟩
  · intro m p known
    obtain ⟨h, here, -⟩ := counted.mapped m p known
    exact ⟨h, here, counted.refcnt p h here⟩
  · intro p live
    obtain ⟨h, here⟩ := counted.alive p live
    refine ⟨by rw [here]; rfl, fun mem => ?_⟩
    obtain ⟨⟨q, n⟩, logged, rfl⟩ := List.mem_map.mp mem
    have gone := (counted.erased q n logged).2.2
    rw [here] at gone
    cases gone
  · exact fun p n mem => (counted.erased p n mem).1
  · intro p h here del s' later
    -- a mark is for ever, or the object is gone and its pointer with it
    have marked : Marked s'.mgr p := by
      refine Marked.later ⟨counted.made p h here, fun g there => ?_⟩ later
      rw [← Option.some.inj (here.symm.trans there)]
      exact del
    refine ⟨?_, ?_⟩
    · intro i ok cl s'' handle step
      cases step with
      | safebind live binds =>
          obtain rfl := Option.some.inj (handle.symm.trans live)
          exact marked.safebind_eq_none binds
    · intro m h s'' known step
      cases step with
      | construct gets => exact marked.getHandle_eq_none known gets
  · intro action possible
    cases action with
    | construct m =>
        obtain ⟨r, mgr, gets⟩ := counted.exists_getHandle m
        exact ⟨_, _, .construct gets⟩
    | safebind i ok =>
        have live := List.getElem?_eq_getElem possible
        obtain ⟨r, mgr, binds⟩ := counted.exists_safebind (List.getElem_mem possible) ok
        exact ⟨_, _, .safebind live binds⟩
    | destroy i =>
        have live := List.getElem?_eq_getElem possible
        obtain ⟨mgr, ends⟩ := (counted.perm (perm_eraseIdx live)).exists_destroy
        exact ⟨_, _, .destroy live ends⟩
    | deleteHandle m =>
        obtain ⟨mgr, deletes⟩ := counted.exists_deleteHandleWo m
        exact ⟨_, _, .deleteHandle deletes⟩

/-- A host to which `bind` failed, with the handle that tried it still there. -/
theorem handles_counted_unreachable_host : ∃ s, Reach s ∧
    (∃ h, s.mgr.heap 0 = some h ∧ h.refcnt = 1 ∧ h.del = true) ∧
    ∀ h s', Step (.construct "host:1") (.handle h) s s' → h = none := by
  have made := Reach.start.next (.construct (m := "host:1") rfl)
  have failed := made.next (.safebind (i := 0) rfl
    (show Mgr.safebind _ (some 0) false = some (none, _) from rfl))
  have known : Function.update (fun _ => none) "host:1" (some 0) "host:1" = some 0 :=
    Function.update_self ..
  exact ⟨_, failed, ⟨_, rfl, rfl, rfl⟩, fun h s' =>
    ((handles_counted failed).2.2.2.1 0 _ rfl rfl _ .refl).2 "host:1" h s' known⟩

/-! ## Connections -/

/-- The connections that the `hinfo`s have exist, and no two share one. -/
structure Connected (s : Mgr) : Prop where
  bound : ∀ p h cl, s.heap p = some h → h.cl = some cl → s.bound cl = true ∧ cl < s.rpccs
  own : ∀ p q g h cl, s.heap p = some g → s.heap q = some h → g.cl = some cl → h.cl = some cl →
    p = q

namespace Connected

variable {s s' : Mgr} {p : ℕ} {m : String}

theorem initial : Connected .initial := ⟨nofun, nofun⟩

/-- An `hinfo` keeps its connection. -/
theorem set {old new : Hinfo} (connected : Connected s) (here : s.heap p = some old)
    (same : new.cl = old.cl) : Connected (s.set p new) := by
  have before : ∀ {q h cl}, (s.set p new).heap q = some h → h.cl = some cl →
      ∃ g, s.heap q = some g ∧ g.cl = some cl := by
    intro q h cl found has
    rcases Mgr.set_heap_cases found with ⟨rfl, rfl⟩ | ⟨-, there⟩
    · exact ⟨old, here, same.symm.trans has⟩
    · exact ⟨h, there, has⟩
  refine ⟨?_, ?_⟩
  · intro q h cl found has
    obtain ⟨g, there, had⟩ := before found has
    exact connected.bound q g cl there had
  · intro q r g h cl atq atr hasg hash
    obtain ⟨g', wasg, hadg⟩ := before atq hasg
    obtain ⟨h', wash, hadh⟩ := before atr hash
    exact connected.own q r g' h' cl wasg wash hadg hadh

theorem getHandle {r : Option ℕ} (connected : Connected s) (gets : s.getHandle m = some (r, s')) :
    Connected s' := by
  rcases Mgr.getHandle_cases gets with
    ⟨-, -, rfl⟩ | ⟨p, h, -, here, ⟨-, -, rfl⟩ | ⟨-, -, rfl⟩⟩
  · -- the new `hinfo` has no connection
    have before : ∀ {q h cl}, (s.set s.hinfos ⟨none, 1, false, m⟩).heap q = some h →
        h.cl = some cl → s.heap q = some h := by
      intro q h cl found has
      rcases Mgr.set_heap_cases found with ⟨rfl, rfl⟩ | ⟨-, there⟩
      · cases has
      · exact there
    exact ⟨fun q h cl found has => connected.bound q h cl (before found has) has,
      fun q r g h cl atq atr hasg hash =>
        connected.own q r g h cl (before atq hasg) (before atr hash) hasg hash⟩
  · exact connected
  · exact connected.set here rfl

theorem safebind {ptr r : Option ℕ} {ok : Bool} (connected : Connected s)
    (binds : s.safebind ptr ok = some (r, s')) : Connected s' := by
  cases ptr with
  | none =>
      obtain ⟨-, rfl⟩ := Prod.mk.inj (Option.some.inj binds)
      exact connected
  | some p =>
      obtain ⟨h, here, ⟨-, -, rfl⟩ | ⟨-, -, rfl⟩ | ⟨-, -, -, -, rfl⟩ | ⟨-, -, -, -, rfl⟩⟩ :=
        Mgr.safebind_cases binds
      · exact connected
      · exact connected
      -- a new connection, with a number that no other has
      · refine ⟨?_, ?_⟩
        · intro q g cl found has
          rcases Mgr.set_heap_cases found with ⟨rfl, rfl⟩ | ⟨-, there⟩
          · obtain rfl : s.rpccs = cl := Option.some.inj has
            exact ⟨Function.update_self .., Nat.lt_succ_self _⟩
          · obtain ⟨bound, below⟩ := connected.bound q g cl there has
            exact ⟨(Function.update_of_ne (Nat.ne_of_lt below) ..).trans bound,
              Nat.lt_succ_of_lt below⟩
        · intro q r g h' cl atq atr hasg hash
          rcases Mgr.set_heap_cases atq with ⟨rfl, rfl⟩ | ⟨-, wasq⟩
          · rcases Mgr.set_heap_cases atr with ⟨rfl, rfl⟩ | ⟨-, wasr⟩
            · rfl
            · have below := (connected.bound r h' cl wasr hash).2
              rw [Option.some.inj hasg] at below
              exact absurd below (Nat.lt_irrefl _)
          · rcases Mgr.set_heap_cases atr with ⟨rfl, rfl⟩ | ⟨-, wasr⟩
            · have below := (connected.bound q g cl wasq hasg).2
              rw [Option.some.inj hash] at below
              exact absurd below (Nat.lt_irrefl _)
            · exact connected.own q r g h' cl wasq wasr hasg hash
      · have kept : Connected (s.set p { h with del := true }) := connected.set here rfl
        exact ⟨fun q g cl found has => ⟨(kept.bound q g cl found has).1,
          Nat.lt_succ_of_lt (kept.bound q g cl found has).2⟩, kept.own⟩

theorem deleteHandleWo (connected : Connected s) (deletes : s.deleteHandleWo m = some s') :
    Connected s' := by
  rcases Mgr.deleteHandleWo_cases deletes with
    ⟨-, rfl⟩ | ⟨p, h, -, here, ⟨-, rfl⟩ | ⟨-, rfl⟩⟩
  · exact connected
  · have before :
        ∀ {q g}, Function.update s.heap p none q = some g → q ≠ p ∧ s.heap q = some g := by
      intro q g found
      by_cases eq : q = p
      · subst eq
        rw [Function.update_self] at found
        cases found
      · exact ⟨eq, (Function.update_of_ne eq ..).symm.trans found⟩
    refine ⟨?_, ?_⟩
    · intro q g cl found has
      obtain ⟨ne, there⟩ := before found
      obtain ⟨bound, below⟩ := connected.bound q g cl there has
      refine ⟨?_, below⟩
      cases closed : h.cl with
      | none => exact bound
      | some c =>
          have other : cl ≠ c := by
            rintro rfl
            exact ne (connected.own q p g h cl there here has closed)
          exact (Function.update_of_ne other ..).trans bound
    · intro q r g h' cl atq atr hasg hash
      exact connected.own q r g h' cl (before atq).2 (before atr).2 hasg hash
  · exact connected.set here rfl

theorem destroy {ptr : Option ℕ} (connected : Connected s) (ends : s.destroy ptr = some s') :
    Connected s' := by
  cases ptr with
  | none =>
      obtain rfl : s = s' := Option.some.inj ends
      exact connected
  | some p =>
      obtain ⟨h, here, rest⟩ := Mgr.doneHandle_cases ends
      have left : Connected (s.set p { h with refcnt := h.refcnt - 1 }) := connected.set here rfl
      rcases rest with deletes | rfl
      · exact left.deleteHandleWo deletes
      · exact left

end Connected

/-- **The connection of a live handle was not deleted.** -/
theorem Reach.connection_bound {s : HandleState} (reach : Reach s) {p cl : ℕ} {h : Hinfo}
    (here : s.mgr.heap p = some h) (has : h.cl = some cl) : s.mgr.bound cl = true := by
  have connected : Connected s.mgr := by
    refine Transition.Reachable.invariant (I := fun s => Connected s.mgr) ?_ ?_ reach
    · rintro s rfl
      exact Connected.initial
    · rintro s s' - connected ⟨action, returned, step⟩
      cases step with
      | construct gets => exact connected.getHandle gets
      | safebind live binds => exact connected.safebind binds
      | destroy live ends => exact connected.destroy ends
      | deleteHandle deletes => exact connected.deleteHandleWo deletes
  exact (connected.bound p h cl here has).1

end Yfs.Rpc
