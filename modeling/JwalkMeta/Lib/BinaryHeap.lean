import Mathlib.Data.List.Perm.Basic
import Mathlib.Order.Basic

/-!
# Binary heaps as collections with a greatest element

A max-heap is observed only through `push`, `peek` and `pop`, so it is kept as the list of its
elements: `pop` removes a greatest element for the order of the element type, and `peek` shows the
element that `pop` would remove. Among elements that compare equal, which one leaves first is not
specified by a heap; here it is the one pushed last.

## Main definitions

* `BinaryHeap.push`, `BinaryHeap.pop`, `BinaryHeap.peek`.

## Main results

* `BinaryHeap.pop_perm`: `pop` removes one element and keeps the others.
* `BinaryHeap.pop_ge`: the element removed is a greatest one.
-/

namespace BinaryHeap

variable {α : Type*} [Ord α]

/-- Add an element. -/
def push (h : List α) (x : α) : List α := x :: h

/-- Remove a greatest element; `none` on an empty heap. -/
def pop : List α → Option (α × List α)
  | [] => none
  | x :: h =>
    match pop h with
    | none => some (x, [])
    | some (y, rest) => if (compare x y).isLT then some (y, x :: rest) else some (x, h)

/-- The element that `pop` would remove. -/
def peek (h : List α) : Option α := (pop h).map Prod.fst

@[simp] theorem pop_nil : pop ([] : List α) = none := rfl

@[simp] theorem peek_nil : peek ([] : List α) = none := rfl

theorem pop_eq_none_iff {h : List α} : pop h = none ↔ h = [] := by
  cases h with
  | nil => simp
  | cons x h =>
    simp only [pop, reduceCtorEq, iff_false]
    cases pop h with
    | none => simp
    | some yr =>
      obtain ⟨y, rest⟩ := yr
      simp only
      split_ifs <;> simp

/-- A nonempty heap has an element to pop. -/
theorem exists_pop_of_ne_nil {h : List α} (hne : h ≠ []) : ∃ x rest, pop h = some (x, rest) := by
  cases he : pop h with
  | none => exact absurd (pop_eq_none_iff.mp he) hne
  | some xr => exact ⟨xr.1, xr.2, rfl⟩

/-- What `pop` removes of a heap: a greatest element of the rest that is greater than the last one
pushed, or this one. -/
theorem pop_cons_cases {a x : α} {h rest : List α} (hp : pop (a :: h) = some (x, rest)) :
    (∃ r, pop h = some (x, r) ∧ rest = a :: r ∧ compare a x = .lt) ∨
      x = a ∧ rest = h ∧ ∀ y r, pop h = some (y, r) → compare a y ≠ .lt := by
  simp only [pop] at hp
  cases he : pop h with
  | none =>
    rw [he] at hp
    obtain ⟨rfl, rfl⟩ : a = x ∧ [] = rest := by simpa using hp
    exact Or.inr ⟨rfl, (pop_eq_none_iff.mp he).symm, by simp⟩
  | some yr =>
    obtain ⟨y, r⟩ := yr
    rw [he] at hp
    simp only at hp
    split_ifs at hp with hlt
    · obtain ⟨rfl, rfl⟩ : y = x ∧ a :: r = rest := by simpa using hp
      exact Or.inl ⟨r, rfl, rfl, by simpa using hlt⟩
    · obtain ⟨rfl, rfl⟩ : a = x ∧ h = rest := by simpa using hp
      refine Or.inr ⟨rfl, rfl, fun y' r' hpop => ?_⟩
      obtain ⟨rfl, -⟩ := Prod.mk.inj (Option.some.inj hpop)
      simpa using hlt

theorem pop_perm {h rest : List α} {x : α} (hp : pop h = some (x, rest)) : h.Perm (x :: rest) := by
  induction h generalizing x rest with
  | nil => simp at hp
  | cons a h ih =>
    obtain ⟨r, hpop, rfl, -⟩ | ⟨rfl, rfl, -⟩ := pop_cons_cases hp
    · exact ((ih hpop).cons a).trans (List.Perm.swap x a r)
    · exact List.Perm.refl _

theorem mem_of_pop {h rest : List α} {x : α} (hp : pop h = some (x, rest)) : x ∈ h :=
  (pop_perm hp).mem_iff.mpr List.mem_cons_self

theorem pop_of_peek {h : List α} {x : α} (hp : peek h = some x) :
    ∃ rest, pop h = some (x, rest) := by
  obtain ⟨xr, hxr, rfl⟩ := Option.map_eq_some_iff.mp hp
  exact ⟨xr.2, hxr⟩

theorem peek_of_pop {h rest : List α} {x : α} (hp : pop h = some (x, rest)) : peek h = some x := by
  rw [peek, hp, Option.map_some]

/-- No element of the heap is greater than the one that `pop` removes. -/
theorem pop_ge [Std.TransOrd α] {h rest : List α} {x : α} (hp : pop h = some (x, rest)) :
    ∀ y ∈ h, (compare y x).isLE := by
  induction h generalizing x rest with
  | nil => simp at hp
  | cons a h ih =>
    intro y hy
    obtain ⟨r, hpop, -, hlt⟩ | ⟨rfl, rfl, hnot⟩ := pop_cons_cases hp
    · rcases List.mem_cons.mp hy with rfl | hy
      · exact Ordering.isLE_of_eq_lt hlt
      · exact ih hpop y hy
    · rcases List.mem_cons.mp hy with rfl | hy
      · simp [Std.ReflOrd.compare_self]
      · -- the greatest element of the others is not greater than the last one pushed
        obtain ⟨z, r, hpop⟩ := exists_pop_of_ne_nil (List.ne_nil_of_mem hy)
        have hz : (compare z x).isLE := by
          rw [Std.OrientedOrd.eq_swap, Ordering.isLE_swap]
          exact Ordering.isGE_iff_ne_lt.mpr (hnot z r hpop)
        exact Std.TransOrd.isLE_trans (ih hpop y hy) hz

end BinaryHeap
