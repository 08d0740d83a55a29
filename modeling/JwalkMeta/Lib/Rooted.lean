import Mathlib.Data.Nat.Find
import Mathlib.Logic.Function.Iterate
import Mathlib.SetTheory.Cardinal.Finite

/-!
# Levels below a root

Individuals with one parent each, and a root. Where the parents lead to the root, an individual lies
a number of levels below it, and there are at least as many individuals as levels.

## Main definitions

* `Rooted`: an individual lies a number of levels below the root.

## Main results

* `Rooted.child`: a child lies one level below its parent.
* `Rooted.lt_card`: there are more individuals than levels.
-/

variable {α : Type}

/-- The root is reached after `n` steps to the parent, and not before. -/
structure Rooted (parent : α → α) (root : α) (n : ℕ) (a : α) : Prop where
  reached : parent^[n] a = root
  not_before : ∀ k < n, parent^[k] a ≠ root

namespace Rooted

variable {parent : α → α} {root a : α} {n : ℕ}

/-- Where the parents lead to the root, there is a first time. -/
theorem exists_of_iterate (h : parent^[n] a = root) : ∃ m, Rooted parent root m a := by
  classical
  have hreached : ∃ m, parent^[m] a = root := ⟨n, h⟩
  exact ⟨Nat.find hreached, Nat.find_spec hreached, fun k => Nat.find_min hreached⟩

/-- A child lies one level below its parent. -/
theorem child (h : Rooted parent root n (parent a)) (hne : a ≠ root) :
    Rooted parent root (n + 1) a where
  reached := h.reached
  not_before := by
    intro k hk
    cases k with
    | zero => exact hne
    | succ k => exact h.not_before k (Nat.lt_of_succ_lt_succ hk)

/-- **There are more individuals than levels.** -/
theorem lt_card [Finite α] (h : Rooted parent root n a) : n < Nat.card α := by
  have hdifferent {i j : ℕ} (hij : i < j) (hj : j ≤ n) : parent^[i] a ≠ parent^[j] a := by
    -- what follows the later one would follow the earlier one, and the root would come too early
    intro heq
    refine h.not_before (n - j + i) (by omega) ?_
    rw [Function.iterate_add_apply, heq, ← Function.iterate_add_apply, Nat.sub_add_cancel hj,
      h.reached]
  have hinjective : Function.Injective fun k : Fin (n + 1) => parent^[k.val] a := by
    intro i j heq
    rcases Nat.lt_trichotomy i.val j.val with hlt | hval | hgt
    · exact absurd heq (hdifferent hlt (Nat.le_of_lt_succ j.isLt))
    · exact Fin.ext hval
    · exact absurd heq.symm (hdifferent hgt (Nat.le_of_lt_succ i.isLt))
  have hcard := Nat.card_le_card_of_injective _ hinjective
  rw [Nat.card_eq_fintype_card, Fintype.card_fin] at hcard
  exact hcard

end Rooted
