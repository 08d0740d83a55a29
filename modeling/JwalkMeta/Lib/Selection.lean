import Mathlib.Data.List.Nodup

/-!
# Two selections from one list

Two parties pass over the same list, and each picks the elements that satisfy its own predicate.
When the picks are matched up by position, they have to be the same picks. They are if and only if
the predicates agree on the list, as soon as one of them implies the other or the elements of the
list can be told apart.

## Main results

* `Selection.filterMap_ite`: picking by a partial function.
* `Selection.sublist_filterMap`: picking less by a partial function.
* `Selection.map_filter_eq_iff_of_imp`, `Selection.map_filter_eq_iff_of_nodup`: when the picks are
  the same.
-/

namespace Selection

variable {α β : Type} {p q : α → Bool} {f : α → β} {l : List α}

/-- Picking by a partial function that is defined where the predicate holds. -/
theorem filterMap_ite {g : α → Option β} (h : ∀ a ∈ l, g a = if p a then some (f a) else none) :
    l.filterMap g = (l.filter p).map f := by
  induction l with
  | nil => rfl
  | cons a l ih =>
    have ih := ih fun b hb => h b (List.mem_cons_of_mem a hb)
    have ha := h a List.mem_cons_self
    by_cases hp : p a = true
    · simp [ha, hp, ih]
    · simp [ha, hp, ih]

/-- Picking less by partial functions that agree where both are defined. -/
theorem sublist_filterMap {g h : α → Option β} (hgh : ∀ a ∈ l, ∀ b ∈ g a, h a = some b) :
    (l.filterMap g).Sublist (l.filterMap h) := by
  induction l with
  | nil => exact List.Sublist.refl _
  | cons a l ih =>
    have ih := ih fun b hb => hgh b (List.mem_cons_of_mem a hb)
    cases hg : g a with
    | none =>
      rw [List.filterMap_cons_none hg]
      refine ih.trans ?_
      rw [List.filterMap_cons]
      cases h a with
      | none => exact List.Sublist.refl _
      | some b => exact List.sublist_cons_self _ _
    | some b =>
      rw [List.filterMap_cons_some hg, List.filterMap_cons_some (hgh a List.mem_cons_self b hg)]
      exact ih.cons_cons b

/-- The predicates agree if they pick the same elements. -/
theorem eq_of_filter_eq (h : l.filter p = l.filter q) {a : α} (ha : a ∈ l) : p a = q a := by
  have hp : a ∈ l.filter p ↔ p a = true := by simp [ha]
  have hq : a ∈ l.filter q ↔ q a = true := by simp [ha]
  rw [Bool.eq_iff_iff, ← hp, ← hq, h]

/-- One predicate implies the other: the picks are the same if and only if nothing more is picked
by the second. -/
theorem map_filter_eq_iff_of_imp (himp : ∀ a ∈ l, p a = true → q a = true) :
    (l.filter p).map f = (l.filter q).map f ↔ ∀ a ∈ l, q a = true → p a = true := by
  constructor
  · intro h
    have hsub : (l.filter p).Sublist (l.filter q) := by
      have hfilter : l.filter p = (l.filter q).filter p := by
        rw [List.filter_filter]
        refine List.filter_congr fun a ha => ?_
        by_cases hp : p a = true
        · simp [hp, himp a ha hp]
        · simp [hp]
      rw [hfilter]
      exact List.filter_sublist
    have hlength : (l.filter p).length = (l.filter q).length := by
      simpa using congrArg List.length h
    intro a ha hq
    rw [eq_of_filter_eq (hsub.eq_of_length hlength) ha]
    exact hq
  · intro h
    rw [List.filter_congr fun a ha => Bool.eq_iff_iff.mpr ⟨himp a ha, h a ha⟩]

/-- The elements can be told apart: the picks are the same if and only if the predicates agree. -/
theorem map_filter_eq_iff_of_nodup (hnodup : (l.map f).Nodup) :
    (l.filter p).map f = (l.filter q).map f ↔ ∀ a ∈ l, p a = q a := by
  have hmem (r : α → Bool) {a : α} (ha : a ∈ l) : f a ∈ (l.filter r).map f ↔ r a = true := by
    rw [List.mem_map]
    constructor
    · rintro ⟨b, hb, hab⟩
      obtain ⟨hbl, hrb⟩ := List.mem_filter.mp hb
      rwa [← List.inj_on_of_nodup_map hnodup hbl ha hab]
    · exact fun hr => ⟨a, List.mem_filter.mpr ⟨ha, hr⟩, rfl⟩
  constructor
  · intro h a ha
    rw [Bool.eq_iff_iff, ← hmem p ha, ← hmem q ha, h]
  · exact fun h => by rw [List.filter_congr h]

end Selection
