import Mathlib.Logic.Relation
import Mathlib.Order.RelClasses

/-!
# What a run can reach

A machine is given by its step relation, and a run is a sequence of steps. What holds at the start
and is kept by every step holds all along a run. And a goal can be reached from every state if each
state short of it has a run to a state of smaller measure.

## Main results

* `Reachability.invariant`: the invariant rule.
* `Reachability.exists_of_measure`: the progress rule.
-/

namespace Reachability

variable {σ : Type} {r : σ → σ → Prop} {P Goal : σ → Prop} {s s' : σ}

/-- **The invariant rule.** What holds at the start and is kept by every step holds in every
reachable state. -/
theorem invariant (h : Relation.ReflTransGen r s s') (hinit : P s)
    (hstep : ∀ s s', P s → r s s' → P s') : P s' := by
  induction h with
  | refl => exact hinit
  | tail _ hs ih => exact hstep _ _ ih hs

/-- **The progress rule.** Let every state that satisfies an invariant be one of the goal, or have a
run to a state of smaller measure that satisfies it. Then the goal can be reached. -/
theorem exists_of_measure {κ : Type} [LT κ] [WellFoundedLT κ] (measure : σ → κ)
    (hprogress : ∀ s, P s → Goal s ∨
      ∃ s', Relation.ReflTransGen r s s' ∧ P s' ∧ measure s' < measure s) (hinit : P s) :
    ∃ s', Relation.ReflTransGen r s s' ∧ P s' ∧ Goal s' := by
  induction hmeasure : measure s using WellFoundedLT.induction generalizing s with
  | _ size ih =>
    rcases hprogress s hinit with hgoal | ⟨s₁, hrun, hs₁, hlt⟩
    · exact ⟨s, .refl, hinit, hgoal⟩
    · obtain ⟨s', hrun', hs', hgoal⟩ := ih (measure s₁) (hmeasure ▸ hlt) hs₁ rfl
      exact ⟨s', hrun.trans hrun', hs', hgoal⟩

end Reachability
