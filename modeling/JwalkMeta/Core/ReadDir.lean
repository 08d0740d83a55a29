import JwalkMeta.Core.DirEntry
import JwalkMeta.Core.IndexPath

/-!
# Results of directory reads

The result of a successful directory read holds the entries and the number of child reads that
were scheduled while the directory was still being enumerated.

Source: `src/core/read_dir.rs`.

## Main definitions

* `ReadDir`, `ReadDir.readChildrenSpecs`: the child reads that the entries ask for.
* `ReadDir.weightedChildrenSpecs`: the same as items of the work queue.

## Main results

* `ReadDir.weightedChildrenSpecs_eq`: without streaming, the `i`-th child read goes to the `i`-th
  child of the index path.
-/

namespace JwalkMeta

/-- The greatest value of `usize`. -/
def usizeMax : ℕ := 2 ^ 64 - 1

/-- `usize::saturating_add`. -/
def saturatingAdd (a b : ℕ) : ℕ := min (a + b) usizeMax

/-- `ReadDir`. -/
structure ReadDir (B E : Type) where
  readDirState : B
  resultsList : List (Except Error (DirEntry E))
  /-- How many child reads were scheduled during the enumeration. -/
  streamedChildCount : ℕ

namespace ReadDir

variable {B E : Type}

/-- `ReadDir::new`. -/
def new (readDirState : B) (resultsList : List (Except Error (DirEntry E))) : ReadDir B E :=
  ⟨readDirState, resultsList, 0⟩

/-- The child read that one result of the list asks for. -/
def childSpec (readDirState : B) : Except Error (DirEntry E) → Option (ReadDirSpec B)
  | .ok entry => entry.readChildrenSpec readDirState
  | .error _ => none

/-- `read_children_specs`: the child reads that the entries ask for, in their order. -/
def readChildrenSpecs (r : ReadDir B E) : List (ReadDirSpec B) :=
  r.resultsList.filterMap (childSpec r.readDirState)

/-- The loop of `weighted_children_specs` over the results, with its counter of child reads. -/
def weightedFrom (readDirState : B) (indexPath : IndexPath) (weight skip : ℕ) :
    ℕ → List (Except Error (DirEntry E)) → List (Weighted (ReadDirSpec B))
  | _, [] => []
  | subdirCounter, entryResult :: rest =>
    match childSpec readDirState entryResult with
    | none => weightedFrom readDirState indexPath weight skip subdirCounter rest
    | some spec =>
      let specs := weightedFrom readDirState indexPath weight skip (subdirCounter + 1) rest
      if skip ≤ subdirCounter then ⟨spec, indexPath.adding subdirCounter, weight⟩ :: specs
      else specs

/-- `weighted_children_specs`: the child reads with their index paths, without those that have
been scheduled during the enumeration. -/
def weightedChildrenSpecs (r : ReadDir B E) (indexPath : IndexPath) (parentWeight : ℕ) :
    List (Weighted (ReadDirSpec B)) :=
  weightedFrom r.readDirState indexPath (saturatingAdd parentWeight r.resultsList.length)
    r.streamedChildCount 0 r.resultsList

/-- The loop without anything to skip. -/
theorem weightedFrom_zero (readDirState : B) (indexPath : IndexPath) (weight counter : ℕ)
    (results : List (Except Error (DirEntry E))) :
    weightedFrom readDirState indexPath weight 0 counter results =
      (results.filterMap (childSpec readDirState)).mapIdx fun i spec =>
        ⟨spec, indexPath.adding (counter + i), weight⟩ := by
  induction results generalizing counter with
  | nil => rfl
  | cons entryResult rest ih =>
    cases h : childSpec readDirState entryResult with
    | none => simp [weightedFrom, h, ih]
    | some spec =>
      simp only [weightedFrom, h, ih, Nat.zero_le, ↓reduceIte, List.filterMap_cons_some h,
        List.mapIdx_cons, Nat.add_zero, Nat.add_assoc, Nat.add_comm 1]

/-- Without streaming, the `i`-th child read goes to the `i`-th child of the index path. -/
theorem weightedChildrenSpecs_eq (r : ReadDir B E) (h : r.streamedChildCount = 0)
    (indexPath : IndexPath) (parentWeight : ℕ) :
    r.weightedChildrenSpecs indexPath parentWeight =
      r.readChildrenSpecs.mapIdx fun i spec =>
        ⟨spec, indexPath.adding i, saturatingAdd parentWeight r.resultsList.length⟩ := by
  simp only [weightedChildrenSpecs, h, weightedFrom_zero, Nat.zero_add]
  rfl

end ReadDir

end JwalkMeta
