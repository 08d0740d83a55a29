import Mathlib.Algebra.BigOperators.Fin
import Mathlib.Algebra.BigOperators.Group.Finset.Basic
import Mathlib.Algebra.GroupWithZero.Nat
import Mathlib.Data.List.FinRange
import Mathlib.Data.List.Flatten
import Mathlib.Data.Fintype.Basic

/-!
# What the members of a pool hold

A pool has members numbered by `Fin N`, each in a state of its own. What all members hold together
is gathered in one list; when a single member changes its state, the list changes by what that
member holds, up to order.

## Main definitions

* `Pool.gather`: the concatenation of what the members hold.

## Main results

* `Pool.gather_update`, `Pool.length_gather_update`: the list before and after the change of one
  member.
* `Pool.sum_update`: the sum of numbers that belong to the members.
* `Pool.exists_update_iff`: a property of some member.
-/

namespace Pool

variable {N : ℕ} {W α β : Type}

/-- What the members of a pool hold together. -/
def gather (held : W → List α) (members : Fin N → W) : List α :=
  (List.finRange N).flatMap fun i => held (members i)

theorem mem_gather {held : W → List α} {members : Fin N → W} {a : α} :
    a ∈ gather held members ↔ ∃ i, a ∈ held (members i) := by
  simp [gather]

theorem gather_eq_nil_iff {held : W → List α} {members : Fin N → W} :
    gather held members = [] ↔ ∀ i, held (members i) = [] := by
  simp [gather]

theorem gather_sublist {held held' : W → List α} (h : ∀ w, (held w).Sublist (held' w))
    (members : Fin N → W) : (gather held members).Sublist (gather held' members) :=
  List.Sublist.flatMap_right _ fun _ _ => h _

/-- A duplicate-free list of members splits at one of them. -/
private theorem flatMap_split {l : List (Fin N)} {i : Fin N} (hi : i ∈ l) (hl : l.Nodup)
    (f : Fin N → List α) :
    ∃ rest, ∀ g : Fin N → List α, (∀ j, j ≠ i → g j = f j) →
      (l.flatMap g).Perm (g i ++ rest) := by
  obtain ⟨l₁, l₂, rfl⟩ := List.append_of_mem hi
  have hnot : i ∉ l₁ ++ l₂ := (List.nodup_middle.mp hl).notMem
  refine ⟨l₁.flatMap f ++ l₂.flatMap f, fun g hg => ?_⟩
  have hcongr (m : List (Fin N)) (hm : ∀ j ∈ m, j ∈ l₁ ++ l₂) : m.flatMap g = m.flatMap f :=
    List.flatMap_congr fun j hj => hg j (ne_of_mem_of_not_mem (hm j hj) hnot)
  rw [List.flatMap_append, List.flatMap_cons, hcongr l₁ (fun j hj => List.mem_append_left _ hj),
    hcongr l₂ (fun j hj => List.mem_append_right _ hj), ← List.append_assoc, ← List.append_assoc]
  exact List.perm_append_comm.append_right _

/-- **The change of one member.** What the others hold stays as it is. -/
theorem gather_update (held : W → List α) (members : Fin N → W) (i : Fin N) :
    ∃ rest, (gather held members).Perm (held (members i) ++ rest) ∧
      ∀ w, (gather held (Function.update members i w)).Perm (held w ++ rest) := by
  obtain ⟨rest, hrest⟩ := flatMap_split (List.mem_finRange i) (List.nodup_finRange N)
    fun j => held (members j)
  refine ⟨rest, hrest _ fun _ _ => rfl, fun w => ?_⟩
  have hperm := hrest (fun j => held (Function.update members i w j)) fun j hj => by
    rw [Function.update_of_ne hj]
  rwa [Function.update_self] at hperm

/-- The change of one member that holds the same as before. -/
theorem gather_update_of_eq (held : W → List α) (members : Fin N → W) (i : Fin N) {w : W}
    (h : held w = held (members i)) :
    gather held (Function.update members i w) = gather held members := by
  refine List.flatMap_congr fun j _ => ?_
  by_cases hj : j = i
  · rw [hj, Function.update_self, h]
  · rw [Function.update_of_ne hj]

/-- How much the members hold together changes by what one of them holds. -/
theorem length_gather_update (held : W → List α) (members : Fin N → W) (i : Fin N) (w : W) :
    (gather held (Function.update members i w)).length + (held (members i)).length =
      (gather held members).length + (held w).length := by
  obtain ⟨rest, hbefore, hafter⟩ := gather_update held members i
  have hlength := hbefore.length_eq
  have hlength' := (hafter w).length_eq
  rw [List.length_append] at hlength hlength'
  omega

/-- How much the members hold together. -/
theorem length_gather (held : W → List α) (members : Fin N → W) :
    (gather held members).length = ∑ i, (held (members i)).length := by
  rw [gather, List.length_flatMap, Fin.sum_univ_def]

/-- A sum over the members changes by the summand of one of them. -/
theorem sum_update (f : W → ℕ) (members : Fin N → W) (i : Fin N) (w : W) :
    (∑ j, f (Function.update members i w j)) + f (members i) = (∑ j, f (members j)) + f w := by
  have hothers : ∑ j ∈ Finset.univ.erase i, f (Function.update members i w j) =
      ∑ j ∈ Finset.univ.erase i, f (members j) := by
    refine Finset.sum_congr rfl fun j hj => ?_
    rw [Function.update_of_ne (Finset.ne_of_mem_erase hj)]
  have hbefore := Finset.add_sum_erase Finset.univ (fun j => f (members j)) (Finset.mem_univ i)
  have hafter := Finset.add_sum_erase Finset.univ (fun j => f (Function.update members i w j))
    (Finset.mem_univ i)
  rw [hothers] at hafter
  simp only [Function.update_self] at hafter
  omega

/-- Some member has a property after the change of one that has it before and after, or neither. -/
theorem exists_update_iff {p : W → Bool} {members : Fin N → W} {i : Fin N} {w : W}
    (h : p w = p (members i)) :
    (∃ j, p (Function.update members i w j) = true) ↔ ∃ j, p (members j) = true := by
  refine exists_congr fun j => ?_
  by_cases hj : j = i
  · rw [hj, Function.update_self, h]
  · rw [Function.update_of_ne hj]

end Pool
