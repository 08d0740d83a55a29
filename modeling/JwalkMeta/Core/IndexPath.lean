import Mathlib.Data.List.Lex
import Mathlib.Order.Basic

/-!
# Index paths and the two queue orders

Every directory read of a parallel walk carries an `IndexPath`, the list of child positions that
leads to it from the root read. The results are put back into depth-first order by index path
(`Ordered`), the pending reads are scheduled by weight and index path (`Weighted`).

Source: `src/core/index_path.rs`, `src/core/ordered.rs`, `src/core/weighted.rs`. The crate's
`Ord for IndexPath` compares with its arguments exchanged, so that the greatest element of a
max-heap is the first one in depth-first order.

## Main definitions

* `IndexPath`, with `adding`, `push`, `pop`, `incrementLast` and its reversed order.
* `Ordered`, `Weighted`: the queue items and their heap orders.

## Main results

* `Ordered.compare_isLE_iff`: the heap order of results is the reverse of the preorder.
* `Weighted.compare_isLE_iff`: the heap order of pending reads.
-/

namespace JwalkMeta

/-- `IndexPath`: the positions that lead from the root read to a directory read, outermost
first. -/
structure IndexPath where
  indices : List ℕ
  deriving DecidableEq, Repr

namespace IndexPath

/-- The index path of the child number `index`. -/
def adding (p : IndexPath) (index : ℕ) : IndexPath := ⟨p.indices ++ [index]⟩

/-- Go down to the child number `index`, in place. -/
def push (p : IndexPath) (index : ℕ) : IndexPath := ⟨p.indices ++ [index]⟩

/-- Move to the next sibling, in place. On an empty path the debug assertion of the source fails,
which is `none` here. -/
def incrementLast (p : IndexPath) : Option IndexPath :=
  match p.indices.getLast? with
  | none => none
  | some last => some ⟨p.indices.dropLast ++ [last + 1]⟩

/-- Go up to the parent, in place. -/
def pop (p : IndexPath) : IndexPath := ⟨p.indices.dropLast⟩

/-- Whether the path is the empty one. -/
def isEmpty (p : IndexPath) : Bool := p.indices.isEmpty

/-- `Ord for IndexPath`: the lexicographic order of the indices with exchanged arguments. -/
instance : Ord IndexPath := ⟨fun a b => List.compareLex compare b.indices a.indices⟩

@[simp] theorem adding_indices (p : IndexPath) (i : ℕ) :
    (p.adding i).indices = p.indices ++ [i] := rfl

theorem isEmpty_iff (p : IndexPath) : p.isEmpty = true ↔ p.indices = [] := List.isEmpty_iff

theorem ext_indices {p q : IndexPath} (h : p.indices = q.indices) : p = q := by
  cases p
  cases q
  exact congrArg IndexPath.mk h

theorem adding_injective {p q : IndexPath} {i j : ℕ} (h : p.adding i = q.adding j) :
    p = q ∧ i = j := by
  obtain ⟨h₁, h₂⟩ := List.append_inj' (congrArg indices h) rfl
  exact ⟨ext_indices h₁, List.singleton_inj.mp h₂⟩

end IndexPath

/-- The lexicographic comparison finds `l` not after `m` exactly when `l ≤ m`. -/
theorem compareLex_isLE_iff (l m : List ℕ) : (List.compareLex compare l m).isLE ↔ l ≤ m := by
  induction l generalizing m with
  | nil => cases m <;> simp [List.compareLex_nil_nil, List.compareLex_nil_cons, ← not_lt]
  | cons a l ih =>
    cases m with
    | nil => simp [List.compareLex_cons_nil, ← not_lt]
    | cons b m =>
      rw [List.compareLex_cons_cons, ← not_lt, List.cons_lt_cons_iff]
      rcases lt_trichotomy a b with h | rfl | h
      · simp [Nat.compare_eq_lt.mpr h, h.not_gt, h.ne']
      · simp [ih m]
      · simp [Nat.compare_eq_gt.mpr h, h]

/-- `Ordered`: the result of a directory read at its index path, with the number of child reads
that it announces. -/
structure Ordered (T : Type) where
  value : T
  indexPath : IndexPath
  childCount : ℕ

namespace Ordered

variable {T : Type}

/-- `Ord for Ordered`: by index path only. -/
instance : Ord (Ordered T) := ⟨fun a b => compare a.indexPath b.indexPath⟩

private theorem transCmp_indices : Std.TransCmp (List.compareLex (compare : ℕ → ℕ → Ordering)) :=
  inferInstance

instance : Std.TransOrd (Ordered T) where
  eq_swap := transCmp_indices.eq_swap
  isLE_trans h₁ h₂ := transCmp_indices.isLE_trans h₂ h₁

/-- In a heap of results `a` is below `b` when `b` comes first in depth-first order. -/
theorem compare_isLE_iff (a b : Ordered T) :
    (compare a b).isLE ↔ b.indexPath.indices ≤ a.indexPath.indices :=
  compareLex_isLE_iff _ _

end Ordered

/-- `Weighted`: a directory read that is still to be made, at its index path, with its weight. -/
structure Weighted (T : Type) where
  value : T
  indexPath : IndexPath
  weight : ℕ

/-- `Ord for Weighted`: the weights compared with exchanged arguments, then the index paths. -/
instance {T : Type} : Ord (Weighted T) :=
  ⟨fun a b =>
    match compare b.weight a.weight with
    | .eq => compare a.indexPath b.indexPath
    | ord => ord⟩

namespace Weighted

variable {T : Type}

/-- In a heap of pending reads `a` is below `b` when `b` is lighter, or when they weigh the same and
`b` comes first in depth-first order. -/
theorem compare_isLE_iff (a b : Weighted T) :
    (compare a b).isLE ↔ b.weight < a.weight ∨
      b.weight = a.weight ∧ b.indexPath.indices ≤ a.indexPath.indices := by
  rw [← compareLex_isLE_iff]
  change (match compare b.weight a.weight with
    | .eq => compare a.indexPath b.indexPath
    | ord => ord).isLE ↔ _
  rcases lt_trichotomy b.weight a.weight with h | h | h
  · simp [Nat.compare_eq_lt.mpr h, h]
  · simp only [h, lt_irrefl, true_and, false_or, Nat.compare_eq_eq.mpr]
    rfl
  · simp [Nat.compare_eq_gt.mpr h, h.ne', h.not_gt]

instance : Std.TransOrd (Weighted T) where
  eq_swap {a b} := by
    change (match compare b.weight a.weight with
      | .eq => List.compareLex compare b.indexPath.indices a.indexPath.indices
      | ord => ord) = Ordering.swap (match compare a.weight b.weight with
      | .eq => List.compareLex compare a.indexPath.indices b.indexPath.indices
      | ord => ord)
    rw [Std.OrientedOrd.eq_swap (a := a.weight) (b := b.weight)]
    cases compare b.weight a.weight with
    | eq => exact Ordered.transCmp_indices.eq_swap
    | _ => rfl
  isLE_trans {a b c} hab hbc := by
    rw [compare_isLE_iff] at hab hbc ⊢
    rcases hab with hab | ⟨hab, hpath⟩ <;> rcases hbc with hbc | ⟨hbc, hpath'⟩
    · exact Or.inl (by omega)
    · exact Or.inl (by omega)
    · exact Or.inl (by omega)
    · exact Or.inr ⟨by omega, le_trans hpath' hpath⟩

end Weighted

end JwalkMeta
