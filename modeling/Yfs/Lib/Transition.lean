import Mathlib.Logic.Relation

/-!
# Transition systems, reachable states and invariants

A transition system is a set of initial states and a step relation.  This file has
the rules by which facts about every reachable state are proved here:
`Reachable.invariant` turns a fact about one step into one about whole runs, and
`Reachable.mono` carries reachability along an inclusion of step relations.

Reachability is an inductive predicate and not a list of states, so a fact about every reachable
state is an induction with one case for a start and one for a step.  What a run leaves behind, such
as the calls that were made, is kept in the state itself by those who need it.
-/

namespace Yfs.Transition

universe u

variable {State : Type u}

/-- The states reachable from an initial state by finitely many steps. -/
inductive Reachable (init : State → Prop) (step : State → State → Prop) : State → Prop
  | init {s : State} : init s → Reachable init step s
  | step {s t : State} : Reachable init step s → step s t → Reachable init step t

namespace Reachable

variable {init init' : State → Prop} {step step' : State → State → Prop} {s : State}

/-- **Invariant rule.**  A predicate that holds initially and is kept by every step
from a reachable state holds in every reachable state. -/
theorem invariant {I : State → Prop} (start : ∀ s, init s → I s)
    (keep : ∀ s t, Reachable init step s → I s → step s t → I t)
    (reach : Reachable init step s) : I s := by
  induction reach with
  | init h => exact start _ h
  | step h hs ih => exact keep _ _ h ih hs

/-- More initial states and more steps reach more states. -/
theorem mono (start : ∀ s, init s → init' s) (more : ∀ s t, step s t → step' s t)
    (reach : Reachable init step s) : Reachable init' step' s := by
  induction reach with
  | init h => exact .init (start _ h)
  | step _ hs ih => exact .step ih (more _ _ hs)

end Reachable

end Yfs.Transition
