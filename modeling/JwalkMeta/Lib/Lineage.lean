import Mathlib.Algebra.BigOperators.Group.List.Basic
import Mathlib.Algebra.GroupWithZero.Nat
import Mathlib.Data.Nat.Notation

/-!
# Lines of descent

Every individual spawns others. A lineage is a line of descent from a root down to an individual.
If the individuals that each one spawns are listed and no lineage is longer than `n`, every root has
finitely many descendants; their total cost is the `weight` of the root, which is its own cost and
the weights of its children.

## Main definitions

* `Lineage`: the lines of descent.
* `Lineage.Shallow`: no line of descent from an individual has more than `n` members.
* `Lineage.weight`: the total cost of an individual and its descendants.

## Main results

* `Lineage.shallow`: the members of lineages are shallow if lineages are bounded.
* `Lineage.Shallow.weight_eq`: the weight of an individual is its cost and the weights of its
  children.
-/

variable {α : Type}

/-- The lines of descent from the roots, the latest individual first. -/
inductive Lineage (roots : List α) (spawns : α → α → Prop) : List α → Prop
  | root {a : α} : a ∈ roots → Lineage roots spawns [a]
  | child {a b : α} {l : List α} : Lineage roots spawns (a :: l) → spawns a b →
      Lineage roots spawns (b :: a :: l)

namespace Lineage

/-- No line of descent from an individual has more than `n` members. -/
def Shallow (children : α → List α) : ℕ → α → Prop
  | 0, _ => False
  | n + 1, a => ∀ b ∈ children a, Shallow children n b

/-- The total cost of an individual and its descendants, down to the `n`-th generation. -/
def weight (cost : α → ℕ) (children : α → List α) : ℕ → α → ℕ
  | 0, _ => 0
  | n + 1, a => cost a + ((children a).map (weight cost children n)).sum

variable {roots l : List α} {spawns : α → α → Prop} {children : α → List α} {n : ℕ} {a b : α}

theorem mono {roots' : List α} (h : Lineage roots spawns l) (hroots : roots ⊆ roots') :
    Lineage roots' spawns l := by
  induction h with
  | root ha => exact .root (hroots ha)
  | child _ hb ih => exact ih.child hb

/-- A line of descent from the children of an individual goes on from a line that leads to it. -/
theorem append {roots' m : List α} (h : Lineage roots' spawns l)
    (hroots : ∀ b ∈ roots', spawns a b) (ha : Lineage roots spawns (a :: m)) :
    Lineage roots spawns (l ++ a :: m) := by
  induction h with
  | root hb => exact ha.child (hroots _ hb)
  | child _ hb ih => exact ih.child hb

/-- A property of the roots that individuals hand down to their children holds of all members. -/
theorem forall_mem {p : α → Prop} (h : Lineage roots spawns l) (hroots : ∀ a ∈ roots, p a)
    (hspawns : ∀ a b, p a → spawns a b → p b) : ∀ a ∈ l, p a := by
  induction h with
  | root ha =>
    intro b hb
    rw [List.mem_singleton.mp hb]
    exact hroots _ ha
  | child _ hb ih =>
    intro c hc
    rcases List.mem_cons.mp hc with rfl | hc
    · exact hspawns _ _ (ih _ List.mem_cons_self) hb
    · exact ih c hc

/-- A lineage that cannot get longer than `n` leaves room for few generations. -/
theorem shallow_of_length (hspawns : ∀ a, ∀ b ∈ children a, spawns a b)
    (hbound : ∀ l, Lineage roots spawns l → l.length ≤ n) {l : List α}
    (h : Lineage roots spawns (a :: l)) (k : ℕ) (hk : n < (a :: l).length + k) :
    Shallow children k a := by
  induction k generalizing a l with
  | zero =>
    have := hbound _ h
    omega
  | succ k ih =>
    intro b hb
    refine ih (h.child (hspawns a b hb)) ?_
    simp only [List.length_cons] at hk ⊢
    omega

/-- All members of lineages are shallow if lineages are bounded. -/
theorem shallow (hspawns : ∀ a, ∀ b ∈ children a, spawns a b)
    (hbound : ∀ l, Lineage roots spawns l → l.length ≤ n) {l : List α}
    (h : Lineage roots spawns (a :: l)) : Shallow children n a := by
  refine h.shallow_of_length hspawns hbound n ?_
  simp only [List.length_cons]
  omega

theorem Shallow.succ (h : Shallow children n a) : Shallow children (n + 1) a := by
  induction n generalizing a with
  | zero => exact h.elim
  | succ n ih => exact fun b hb => ih (h b hb)

theorem Shallow.mono {m : ℕ} (h : Shallow children n a) (hle : n ≤ m) : Shallow children m a := by
  induction hle with
  | refl => exact h
  | step _ ih => exact ih.succ

theorem Shallow.child (h : Shallow children n a) (hb : b ∈ children a) : Shallow children n b := by
  cases n with
  | zero => exact h.elim
  | succ n => exact (h b hb).succ

/-- Beyond the last generation nothing is added. -/
theorem Shallow.weight_succ (h : Shallow children n a) (cost : α → ℕ) :
    weight cost children (n + 1) a = weight cost children n a := by
  induction n generalizing a with
  | zero => exact h.elim
  | succ n ih =>
    have hchildren : (children a).map (weight cost children (n + 1)) =
        (children a).map (weight cost children n) :=
      List.map_congr_left fun b hb => ih (h b hb)
    rw [weight, hchildren, weight]

/-- **The weight of an individual is its cost and the weights of its children.** -/
theorem Shallow.weight_eq (h : Shallow children n a) (cost : α → ℕ) :
    weight cost children n a =
      cost a + ((children a).map (weight cost children n)).sum := by
  rw [← h.weight_succ cost]
  rfl

end Lineage
