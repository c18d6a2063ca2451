import Mathlib.Algebra.BigOperators.Group.Finset.Basic
import Mathlib.Algebra.Order.BigOperators.Group.Finset
import Mathlib.Order.WellFounded
import Yfs.Lib.Transition

/-!
# Runs that end

Finite runs of a transition system, counted, and the rules by which they are bounded here.

Two notions of an end are used.  A bound on the number of steps is the stronger one; it needs a rank
in the natural numbers.  `Terminates` only says that there is no run without end; it is what is left
where a step may make an unbounded number of further steps necessary, so that ranks are ordinals.

* `Run.length_le` — ranks for finitely many tasks, none of which a step raises while it lowers
  one, bound the length of every run.
* `Run.passes` — a run that leaves a set of states comes through its exit.
* `Terminates` — there is no run without end; `terminates_of_rank` for ranks in any well-founded
  order, `terminates_of_layers` for a rank and, where it stays, steps that end by themselves.
-/

namespace Yfs.Transition

universe u

variable {State : Type u} {ι : Type*} {step : State → State → Prop} {I P Q : State → Prop}
  {s t u : State} {n : ℕ}

/-- The runs of `n` steps. -/
inductive Run (step : State → State → Prop) : ℕ → State → State → Prop
  | nil (s : State) : Run step 0 s s
  | cons {n : ℕ} {s t u : State} : step s t → Run step n t u → Run step (n + 1) s u

namespace Run

/-- What every step keeps holds at the end. -/
theorem keeps (keep : ∀ s t, I s → step s t → I t) (run : Run step n s t) (inv : I s) : I t := by
  induction run with
  | nil s => exact inv
  | cons first _ ih => exact ih (keep _ _ inv first)

/-- **The rule of ranks.**  Each task `i` has a rank, and only finitely many have one at first.  If
every step lowers the rank of a task and raises none, the ranks at first bound the length. -/
theorem length_le (rank : State → ι → ℕ) (keep : ∀ s t, I s → step s t → I t)
    (falls : ∀ s t, I s → step s t → rank t < rank s) {support : Finset ι}
    (zero : ∀ i, i ∉ support → rank s i = 0) (run : Run step n s t) (inv : I s) :
    n + ∑ i ∈ support, rank t i ≤ ∑ i ∈ support, rank s i := by
  induction run with
  | nil s => exact (Nat.zero_add _).le
  | @cons n s t u first _ ih =>
      obtain ⟨le, i, lt⟩ := Pi.lt_def.mp (falls s t inv first)
      have here : i ∈ support := by
        by_contra out
        rw [zero i out] at lt
        exact absurd lt (Nat.not_lt_zero _)
      have less : ∑ i ∈ support, rank t i < ∑ i ∈ support, rank s i :=
        Finset.sum_lt_sum (fun i _ => le i) ⟨i, here, lt⟩
      have rest := ih (fun i out => Nat.le_zero.mp (zero i out ▸ le i)) (keep s t inv first)
      omega

/-- **The rule of exits.**  If a step leaves `P` only to `Q`, then a run out of `P` comes through
`Q`. -/
theorem passes (keep : ∀ s t, I s → step s t → I t)
    (exits : ∀ s t, I s → P s → step s t → P t ∨ Q t) (run : Run step n s t) (inv : I s)
    (inside : P s) (outside : ¬ P t) : ∃ i j m, Run step i s m ∧ Run step j m t ∧ Q m := by
  induction run with
  | nil s => exact absurd inside outside
  | @cons n s t u first rest ih =>
      rcases exits s t inv inside first with stays | leaves
      · obtain ⟨i, j, m, before, after, here⟩ := ih (keep s t inv first) stays outside
        exact ⟨i + 1, j, m, before.cons first, after, here⟩
      · exact ⟨1, n, t, .cons first (.nil t), rest, leaves⟩

end Run

/-! ## Without a bound -/

/-- No run from here goes on for ever. -/
def Terminates (step : State → State → Prop) (s : State) : Prop := Acc (fun t s => step s t) s

/-- A rank that every step lowers. -/
theorem terminates_of_rank {α : Type*} [LT α] [WellFoundedLT α] (rank : State → α)
    (keep : ∀ s t, I s → step s t → I t) (falls : ∀ s t, I s → step s t → rank t < rank s)
    (inv : I s) : Terminates step s := by
  have all : ∀ a s, rank s = a → I s → Terminates step s := by
    intro a
    induction a using WellFoundedLT.induction with
    | ind a ih =>
        rintro s rfl inv
        exact Acc.intro s fun t first =>
          ih (rank t) (falls s t inv first) t rfl (keep s t inv first)
  exact all _ s rfl inv

/-- **The rule of layers.**  Every step lowers the rank, or it leaves the rank as it is and is
one of the `inner` steps, which end by themselves. -/
theorem terminates_of_layers {α : Type*} [LT α] [WellFoundedLT α] (rank : State → α)
    (inner : State → State → Prop) (keep : ∀ s t, I s → step s t → I t)
    (layers : ∀ s t, I s → step s t → rank t < rank s ∨ rank t = rank s ∧ inner s t)
    (ends : ∀ s, I s → Terminates inner s) (inv : I s) : Terminates step s := by
  have all : ∀ a s, rank s = a → I s → Terminates step s := by
    intro a
    induction a using WellFoundedLT.induction with
    | ind a ih =>
        intro s here inv
        -- below this rank everything ends, and at it the inner steps do
        have inside := ends s inv
        induction inside with
        | intro s _ ih' =>
            refine Acc.intro s fun t first => ?_
            rcases layers s t inv first with lower | ⟨same, inner⟩
            · exact ih (rank t) (here ▸ lower) t rfl (keep s t inv first)
            · exact ih' t inner (same.trans here) (keep s t inv first)
  exact all _ s rfl inv

end Yfs.Transition
