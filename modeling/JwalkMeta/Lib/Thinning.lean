import Mathlib.Data.List.Perm.Basic

/-!
# Thinning a list

Some elements of a list are left out, each for a reason, and the others are kept, each for a reason;
an element with both reasons may go either way. A stable sort keeps to it: since it does not
exchange elements that it cannot tell apart, what is sorted after thinning is a thinning of what is
sorted before.

## Main definitions

* `Thins`: a list without some of its elements.
* `Thins.Picks`: the same for one element.

## Main results

* `Thins.filterMap`: picking less by a partial function.
* `Thins.mergeSort`: thinning before and after a stable sort.
-/

variable {α β : Type} {keep drop : α → Prop} {a : α} {l l₁ l₂ m m₁ m₂ : List α}

/-- A list without some of its elements. What is kept satisfies `keep`, what is left out satisfies
`drop`. -/
inductive Thins (keep drop : α → Prop) : List α → List α → Prop
  | nil : Thins keep drop [] []
  | keep {a : α} {l m : List α} (ha : keep a) (h : Thins keep drop l m) :
    Thins keep drop (a :: l) (a :: m)
  | drop {a : α} {l m : List α} (ha : drop a) (h : Thins keep drop l m) :
    Thins keep drop (a :: l) m

namespace Thins

theorem sublist (h : Thins keep drop l m) : m.Sublist l := by
  induction h with
  | nil => exact List.Sublist.slnil
  | keep _ _ ih => exact ih.cons_cons _
  | drop _ _ ih => exact ih.cons _

theorem forall_keep (h : Thins keep drop l m) : ∀ a ∈ m, keep a := by
  induction h with
  | nil => exact fun _ ha => absurd ha List.not_mem_nil
  | keep ha _ ih => exact List.forall_mem_cons.mpr ⟨ha, ih⟩
  | drop _ _ ih => exact ih

theorem append (h₁ : Thins keep drop l₁ m₁) (h₂ : Thins keep drop l₂ m₂) :
    Thins keep drop (l₁ ++ l₂) (m₁ ++ m₂) := by
  induction h₁ with
  | nil => exact h₂
  | keep ha _ ih => exact .keep ha ih
  | drop ha _ ih => exact .drop ha ih

/-- The two parts of a list are thinned one by one. -/
theorem exists_of_append (h : Thins keep drop (l₁ ++ l₂) m) :
    ∃ m₁ m₂, m = m₁ ++ m₂ ∧ Thins keep drop l₁ m₁ ∧ Thins keep drop l₂ m₂ := by
  induction l₁ generalizing m with
  | nil => exact ⟨[], m, rfl, .nil, h⟩
  | cons a l₁ ih =>
    cases h with
    | keep ha h =>
      obtain ⟨m₁, m₂, rfl, h₁, h₂⟩ := ih h
      exact ⟨a :: m₁, m₂, rfl, .keep ha h₁, h₂⟩
    | drop ha h =>
      obtain ⟨m₁, m₂, rfl, h₁, h₂⟩ := ih h
      exact ⟨m₁, m₂, rfl, .drop ha h₁, h₂⟩

/-- A list has one split where a predicate changes from false to true. -/
theorem eq_of_append_eq {p : α → Bool} (h : l₁ ++ l₂ = m₁ ++ m₂) (hl₁ : ∀ a ∈ l₁, p a = false)
    (hl₂ : ∀ a ∈ l₂, p a = true) (hm₁ : ∀ a ∈ m₁, p a = false) (hm₂ : ∀ a ∈ m₂, p a = true) :
    l₁ = m₁ ∧ l₂ = m₂ := by
  have hfilter {k₁ k₂ : List α} (h₁ : ∀ a ∈ k₁, p a = false) (h₂ : ∀ a ∈ k₂, p a = true) :
      (k₁ ++ k₂).filter p = k₂ := by
    rw [List.filter_append, List.filter_eq_nil_iff.mpr fun a ha => by simp [h₁ a ha],
      List.filter_eq_self.mpr h₂, List.nil_append]
  have hsecond : l₂ = m₂ := by
    rw [← hfilter hl₁ hl₂, h, hfilter hm₁ hm₂]
  subst hsecond
  exact ⟨List.append_cancel_right h, rfl⟩

/-- **Thinning before a stable sort** is thinning after it. -/
protected theorem mergeSort {le : α → α → Bool} (htrans : ∀ a b c, le a b → le b c → le a c)
    (htotal : ∀ a b, le a b || le b a) (h : Thins keep drop l m) :
    Thins keep drop (l.mergeSort le) (m.mergeSort le) := by
  -- what comes after an element in a sorted list is not smaller
  have hafter {a : α} {l l₁ l₂ : List α} (hsort : (a :: l).mergeSort le = l₁ ++ a :: l₂) :
      ∀ b ∈ l₂, le a b = true := by
    have hsorted := List.pairwise_mergeSort htrans htotal (a :: l)
    rw [hsort] at hsorted
    exact (List.pairwise_cons.mp (List.pairwise_append.mp hsorted).2.1).1
  induction h with
  | nil =>
    rw [List.mergeSort_nil]
    exact .nil
  | @keep a l m ha _ ih =>
    obtain ⟨l₁, l₂, hl, hrest, hbefore⟩ := List.mergeSort_cons htrans htotal a l
    obtain ⟨m₁, m₂, hm, hrest', hbefore'⟩ := List.mergeSort_cons htrans htotal a m
    rw [hrest, hrest'] at ih
    obtain ⟨k₁, k₂, hk, h₁, h₂⟩ := ih.exists_of_append
    -- the element stands between those that it is not below and those that it is
    obtain ⟨rfl, rfl⟩ : k₁ = m₁ ∧ k₂ = m₂ := by
      refine eq_of_append_eq (p := le a) hk.symm (fun b hb => ?_)
        (fun b hb => hafter hl b (h₂.sublist.subset hb)) (fun b hb => ?_) (hafter hm)
      · simpa using hbefore b (h₁.sublist.subset hb)
      · simpa using hbefore' b hb
    rw [hl, hm]
    exact h₁.append (.keep ha h₂)
  | @drop a l m ha _ ih =>
    obtain ⟨l₁, l₂, hl, hrest, -⟩ := List.mergeSort_cons htrans htotal a l
    rw [hrest] at ih
    obtain ⟨m₁, m₂, hm, h₁, h₂⟩ := ih.exists_of_append
    rw [hl, hm]
    exact h₁.append (.drop ha h₂)

/-- One element, if there is one, is kept or left out. -/
def Picks (keep drop : α → Prop) (before after : Option α) : Prop :=
  after = before ∧ (∀ a ∈ before, keep a) ∨ after = none ∧ ∀ a ∈ before, drop a

/-- **Picking less by a partial function.** -/
protected theorem filterMap {f g : β → Option α} {records : List β}
    (h : ∀ record ∈ records, Picks keep drop (f record) (g record)) :
    Thins keep drop (records.filterMap f) (records.filterMap g) := by
  induction records with
  | nil => exact .nil
  | cons record records ih =>
    have ih := ih fun r hr => h r (List.mem_cons_of_mem record hr)
    rw [List.filterMap_cons, List.filterMap_cons]
    rcases h record List.mem_cons_self with ⟨hsame, hkeep⟩ | ⟨hnone, hdrop⟩
    · rw [hsame]
      cases hf : f record with
      | none => exact ih
      | some a => exact .keep (hkeep a hf) ih
    · rw [hnone]
      cases hf : f record with
      | none => exact ih
      | some a => exact .drop (hdrop a hf) ih

end Thins
