import Mathlib.Logic.ExistsUnique
import Mathlib.Data.Prod.Basic

/-!
# Rooted trees of labelled edges

A set of live nodes and a relation of labelled edges between them form a tree when every
live node is reached from the root and no node has two edges into it.  This file has the
two changes that keep a tree a tree: a new leaf (`RootedTree.grow`) and the removal of a
leaf (`RootedTree.prune`).

The edges out of a node are not bounded in number and the set of live nodes need not be finite.
Reachability from the root is an inductive predicate (`FromRoot`), so that the two changes are shown
by induction over the path: a new leaf is at the end of no path but its own, and a leaf that is
removed is inside of none.
-/

namespace Yfs

universe u v

variable {ι : Type u} {κ : Type v} {root : ι} {live live' : ι → Prop}
  {edge edge' : ι → κ → ι → Prop}

/-- The nodes to which edges lead from the root. -/
inductive FromRoot (root : ι) (edge : ι → κ → ι → Prop) : ι → Prop
  | root : FromRoot root edge root
  | edge {a b : ι} {k : κ} : FromRoot root edge a → edge a k b → FromRoot root edge b

/-- **A tree**: edges lead to live nodes other than the root, to each of them one, and every live
node is reached.

Labels take part: two edges between the same nodes with different labels are two edges, and a tree
has at most one into each node. -/
structure RootedTree (root : ι) (live : ι → Prop) (edge : ι → κ → ι → Prop) : Prop where
  root_live : live root
  target_live : ∀ {a k b}, edge a k b → live b
  target_ne_root : ∀ {a k b}, edge a k b → b ≠ root
  single : ∀ {a k a' k' b}, edge a k b → edge a' k' b → a = a' ∧ k = k'
  reached : ∀ {a}, live a → FromRoot root edge a

namespace RootedTree

/-- **Every node but the root has exactly one edge into it.** -/
theorem existsUnique_edge (tree : RootedTree root live edge) {b : ι} (alive : live b)
    (ne : b ≠ root) : ∃! from_ : ι × κ, edge from_.1 from_.2 b := by
  cases tree.reached alive with
  | root => exact absurd rfl ne
  | @edge a _ k reached step =>
      refine ⟨(a, k), step, ?_⟩
      rintro ⟨a', k'⟩ other
      obtain ⟨rfl, rfl⟩ := tree.single other step
      rfl

/-- **A new leaf.** -/
theorem grow (tree : RootedTree root live edge) {a b : ι} {k : κ} (alive : live a)
    (fresh : ¬ live b) (edges : ∀ x l y, edge' x l y ↔ edge x l y ∨ (x = a ∧ l = k ∧ y = b))
    (lives : ∀ x, live' x ↔ live x ∨ x = b) : RootedTree root live' edge' := by
  have old : ∀ {x}, FromRoot root edge x → FromRoot root edge' x := by
    intro x reached
    induction reached with
    | root => exact .root
    | edge _ step ih => exact .edge ih ((edges _ _ _).mpr (Or.inl step))
  refine ⟨(lives root).mpr (Or.inl tree.root_live), ?_, ?_, ?_, ?_⟩
  · intro x l y step
    rcases (edges x l y).mp step with step | ⟨-, -, rfl⟩
    · exact (lives y).mpr (Or.inl (tree.target_live step))
    · exact (lives y).mpr (Or.inr rfl)
  · intro x l y step
    rcases (edges x l y).mp step with step | ⟨-, -, rfl⟩
    · exact tree.target_ne_root step
    · rintro rfl
      exact fresh tree.root_live
  · intro x l x' l' y step step'
    rcases (edges x l y).mp step with step | ⟨rfl, rfl, rfl⟩
    · rcases (edges x' l' y).mp step' with step' | ⟨-, -, rfl⟩
      · exact tree.single step step'
      · exact absurd (tree.target_live step) fresh
    · rcases (edges x' l' y).mp step' with step' | ⟨rfl, rfl, -⟩
      · exact absurd (tree.target_live step') fresh
      · exact ⟨rfl, rfl⟩
  · intro x alive'
    rcases (lives x).mp alive' with alive' | rfl
    · exact old (tree.reached alive')
    · exact .edge (old (tree.reached alive)) ((edges a k x).mpr (Or.inr ⟨rfl, rfl, rfl⟩))

/-- **A leaf is removed**, with the edge into it. -/
theorem prune (tree : RootedTree root live edge) {a b : ι} {k : κ} (step : edge a k b)
    (leaf : ∀ l y, ¬ edge b l y)
    (edges : ∀ x l y, edge' x l y ↔ edge x l y ∧ ¬ (x = a ∧ l = k ∧ y = b))
    (lives : ∀ x, live' x ↔ live x ∧ x ≠ b) : RootedTree root live' edge' := by
  refine ⟨(lives root).mpr ⟨tree.root_live, (tree.target_ne_root step).symm⟩, ?_, ?_, ?_, ?_⟩
  · intro x l y step'
    obtain ⟨old, other⟩ := (edges x l y).mp step'
    refine (lives y).mpr ⟨tree.target_live old, ?_⟩
    rintro rfl
    obtain ⟨rfl, rfl⟩ := tree.single old step
    exact other ⟨rfl, rfl, rfl⟩
  · exact fun step' => tree.target_ne_root ((edges _ _ _).mp step').1
  · exact fun one two => tree.single ((edges _ _ _).mp one).1 ((edges _ _ _).mp two).1
  · -- no path goes on from the leaf, so the paths to the other nodes stay
    have stays : ∀ {x}, FromRoot root edge x → x ≠ b → FromRoot root edge' x := by
      intro x reached ne
      induction reached with
      | root => exact .root
      | @edge c d l _ old ih =>
          have notLeaf : c ≠ b := by
            rintro rfl
            exact leaf l d old
          refine .edge (ih notLeaf) ((edges c l d).mpr ⟨old, ?_⟩)
          rintro ⟨-, -, rfl⟩
          exact ne rfl
    intro x alive
    obtain ⟨alive, ne⟩ := (lives x).mp alive
    exact stays (tree.reached alive) ne

end RootedTree

end Yfs
