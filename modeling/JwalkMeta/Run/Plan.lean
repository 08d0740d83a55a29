import JwalkMeta.Queue.Cursor
import JwalkMeta.Run.System

/-!
# What a worker is going to do

As long as the walk is not stopped and no channel is closed, every request of a worker is answered
in the same way (`unstopped`). The requests that a worker is still going to make are then known in
advance, and with them the items it is going to push and the result it is going to send.

A program is *planned* for an item when it sends one result, at the index path of the item, and
pushes exactly the child reads that the result announces. The program of a worker is planned when
the core callback reports as streamed what it has scheduled.

## Main definitions

* `unstopped`: the answers in a walk that is not stopped.
* `pushes`, `results`: the items that requests push and the results that they send.
* `Planned`: the programs that push what their result announces.
* `Streams`: the core callbacks that schedule the children in order and report how many.

## Main results

* `planned_multiThreadedWalkDir`: the program of a worker is planned.
-/

namespace JwalkMeta

open Interaction Frontier

variable {S R : Type}

/-- The address of an item of the work queue. -/
def Weighted.address (w : Weighted S) : List ℕ := w.indexPath.indices

/-! ### Answers and plans -/

/-- The answers in a walk that is not stopped. -/
def unstopped : WorkerOp S R → Bool
  | .loadStop => false
  | _ => true

/-- The answers to a core callback in a walk that is not stopped. -/
def StreamOp.unstopped : StreamOp S → Bool
  | isStopped => false
  | schedule _ => true

/-- The items that requests push. -/
def pushes (ops : List (WorkerOp S R)) : List (Weighted S) :=
  ops.filterMap fun
    | .sendSpec weighted => some weighted
    | _ => none

/-- The results that requests send. -/
def results (ops : List (WorkerOp S R)) : List (Ordered R) :=
  ops.filterMap fun
    | .sendResult ordered => some ordered
    | _ => none

/-- The child reads that a core callback schedules. -/
def schedules (ops : List (StreamOp S)) : List (Weighted S) :=
  ops.filterMap fun
    | .schedule weighted => some weighted
    | .isStopped => none

@[simp] theorem pushes_append (l m : List (WorkerOp S R)) :
    pushes (l ++ m) = pushes l ++ pushes m := List.filterMap_append

@[simp] theorem results_append (l m : List (WorkerOp S R)) :
    results (l ++ m) = results l ++ results m := List.filterMap_append

/-- The requests of a program for an item: one result at the index path of the item, and pushes of
exactly the child reads that it announces. -/
structure Planned (weighted : Weighted S) (ops : List (WorkerOp S R)) (ordered : Ordered R) :
    Prop where
  results_eq : results ops = [ordered]
  indexPath_eq : ordered.indexPath = weighted.indexPath
  pushes_eq : (pushes ops).map Weighted.indexPath =
    (List.range ordered.childCount).map weighted.indexPath.adding

theorem Planned.map_address {weighted : Weighted S} {ops : List (WorkerOp S R)}
    {ordered : Ordered R} (h : Planned weighted ops ordered) :
    (pushes ops).map Weighted.address = children weighted.address ordered.childCount := by
  have hmap := congrArg (List.map IndexPath.indices) h.pushes_eq
  rw [List.map_map, List.map_map] at hmap
  exact hmap

/-! ### The program of a worker -/

/-- A push in a walk that is not stopped. -/
theorem asked_push (weighted : Weighted S) :
    asked unstopped (push weighted : WorkerProgram S R Bool) =
      [.fetchAdd, .sendSpec weighted] := rfl

theorem value_push (weighted : Weighted S) :
    value unstopped (push weighted : WorkerProgram S R Bool) = true := rfl

theorem value_handle (op : StreamOp S) :
    value unstopped (op.handle : WorkerProgram S R Bool) = op.unstopped := by
  cases op <;> rfl

/-- The pushes of an interpreted core callback are the child reads it schedules. -/
theorem pushes_handle (ops : List (StreamOp S)) :
    pushes (ops.flatMap fun op => asked unstopped (op.handle : WorkerProgram S R Bool)) =
      schedules ops := by
  induction ops with
  | nil => rfl
  | cons op ops ih =>
    rw [List.flatMap_cons, pushes_append, ih]
    cases op <;> rfl

theorem results_handle (ops : List (StreamOp S)) :
    results (ops.flatMap fun op => asked unstopped (op.handle : WorkerProgram S R Bool)) = [] := by
  induction ops with
  | nil => rfl
  | cons op ops ih =>
    rw [List.flatMap_cons, results_append, ih]
    cases op <;> rfl

theorem pushes_scheduleAll (specs : List (Weighted S)) :
    pushes (asked unstopped (scheduleAll specs : WorkerProgram S R Unit)) = specs := by
  induction specs with
  | nil => rfl
  | cons each rest ih =>
    simp only [scheduleAll, asked_bind, asked_push, value_push, ↓reduceIte, pushes_append, ih]
    rfl

theorem results_scheduleAll (specs : List (Weighted S)) :
    results (asked unstopped (scheduleAll specs : WorkerProgram S R Unit)) = [] := by
  induction specs with
  | nil => rfl
  | cons each rest ih =>
    simp only [scheduleAll, asked_bind, asked_push, value_push, ↓reduceIte, results_append, ih]
    rfl

variable {B E : Type}

/-- What a core callback returns in a walk that is not stopped. -/
def ReadDirCallback.result (callback : ReadDirCallback B E) (weighted : Weighted (ReadDirSpec B)) :
    ReadDirResult B E :=
  value StreamOp.unstopped
    (callback weighted.value (some ⟨weighted.indexPath, weighted.weight⟩))

/-- The child reads that a core callback schedules in a walk that is not stopped. -/
def ReadDirCallback.streamed (callback : ReadDirCallback B E)
    (weighted : Weighted (ReadDirSpec B)) : List (Weighted (ReadDirSpec B)) :=
  schedules (asked StreamOp.unstopped
    (callback weighted.value (some ⟨weighted.indexPath, weighted.weight⟩)))

/-- The result that the worker sends for an item. -/
def ReadDirCallback.ordered (callback : ReadDirCallback B E)
    (weighted : Weighted (ReadDirSpec B)) : Ordered (ReadDirResult B E) :=
  ⟨callback.result weighted, weighted.indexPath,
    childCount (callback.result weighted) weighted.indexPath weighted.weight⟩

/-- The child reads that are counted into the announced number: the streamed ones, or the regular
ones if none was streamed. -/
def ReadDirCallback.counted (callback : ReadDirCallback B E)
    (weighted : Weighted (ReadDirSpec B)) : List (Weighted (ReadDirSpec B)) :=
  callback.streamed weighted ++
    (regularSpecs (callback.result weighted) weighted.indexPath weighted.weight).getD []

/-- The requests of a worker in a walk that is not stopped. -/
theorem asked_multiThreadedWalkDir (callback : ReadDirCallback B E)
    (weighted : Weighted (ReadDirSpec B)) :
    asked unstopped (multiThreadedWalkDir callback weighted) =
      .loadStop :: (asked StreamOp.unstopped (callback weighted.value
          (some ⟨weighted.indexPath, weighted.weight⟩))).flatMap
          (fun op => asked unstopped (op.handle)) ++
        (.sendResult (callback.ordered weighted) ::
          (asked unstopped (scheduleAll ((regularSpecs (callback.result weighted)
            weighted.indexPath weighted.weight).getD [])) ++ [.completeItem])) := by
  have hvalue : value unstopped ((callback weighted.value
      (some ⟨weighted.indexPath, weighted.weight⟩)).interp
        (StreamOp.handle (R := ReadDirResult B E))) = callback.result weighted :=
    value_interp value_handle _
  simp only [multiThreadedWalkDir, request_bind, asked_ask, asked_bind, unstopped,
    Bool.false_eq_true, ↓reduceIte, hvalue, asked_interp value_handle, List.cons_append]
  rfl

theorem pushes_multiThreadedWalkDir (callback : ReadDirCallback B E)
    (weighted : Weighted (ReadDirSpec B)) :
    pushes (asked unstopped (multiThreadedWalkDir callback weighted)) =
      callback.counted weighted := by
  rw [asked_multiThreadedWalkDir, List.cons_append]
  change pushes (_ ++ _) = _
  rw [pushes_append, pushes_handle]
  change _ ++ pushes (_ ++ _) = _
  rw [pushes_append, pushes_scheduleAll]
  change _ ++ (_ ++ []) = _
  rw [List.append_nil]
  rfl

theorem results_multiThreadedWalkDir (callback : ReadDirCallback B E)
    (weighted : Weighted (ReadDirSpec B)) :
    results (asked unstopped (multiThreadedWalkDir callback weighted)) =
      [callback.ordered weighted] := by
  rw [asked_multiThreadedWalkDir, List.cons_append]
  change results (_ ++ _) = _
  rw [results_append, results_handle, List.nil_append]
  change _ :: results (_ ++ _) = _
  rw [results_append, results_scheduleAll]
  rfl

/-- A core callback that schedules the children of a directory one after the other and reports how
many it has scheduled, with a failed read reporting none. -/
def Streams (callback : ReadDirCallback B E) : Prop :=
  ∀ weighted, (callback.streamed weighted).map Weighted.indexPath =
    (List.range (streamedCount (callback.result weighted))).map weighted.indexPath.adding

/-- The counted child reads stand at the announced children. -/
theorem Streams.map_counted {callback : ReadDirCallback B E} (h : Streams callback)
    (weighted : Weighted (ReadDirSpec B)) :
    (callback.counted weighted).map Weighted.indexPath =
      (List.range (callback.ordered weighted).childCount).map weighted.indexPath.adding := by
  have hs := h weighted
  simp only [ReadDirCallback.counted, ReadDirCallback.ordered, childCount, List.map_append, hs]
  cases hr : callback.result weighted with
  | error err => simp [regularSpecs]
  | ok readDir =>
    by_cases hzero : readDir.streamedChildCount = 0
    · -- nothing was streamed: the regular child reads are numbered from zero
      simp only [streamedCount, hzero, regularSpecs, ↓reduceIte, Option.getD_some,
        Option.map_some, List.range_zero, List.map_nil, List.nil_append, Nat.zero_add,
        ReadDir.weightedChildrenSpecs_eq _ hzero, List.length_mapIdx]
      refine List.ext_getElem (by simp) fun i h₁ h₂ => by simp
    · simp [streamedCount, hzero, regularSpecs]

/-- **The program of a worker is planned.** -/
theorem planned_multiThreadedWalkDir {callback : ReadDirCallback B E} (h : Streams callback)
    (weighted : Weighted (ReadDirSpec B)) :
    Planned weighted (asked unstopped (multiThreadedWalkDir callback weighted))
      (callback.ordered weighted) where
  results_eq := results_multiThreadedWalkDir callback weighted
  indexPath_eq := rfl
  pushes_eq := by
    rw [pushes_multiThreadedWalkDir]
    exact h.map_counted weighted

end JwalkMeta
