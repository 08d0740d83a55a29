import JwalkMeta.Core.ReadDir
import JwalkMeta.Lib.Interaction

/-!
# Processing one item of the work queue

A worker that has taken an item runs `multi_threaded_walk_dir`: it reads the directory, sends the
result and schedules the child reads. Everything it does to shared memory is a request
(`WorkerOp`), so that a run can interleave the requests of all workers; the program itself is a
value of `WorkerProgram`.

The core callback that reads the directory sees the shared memory only through its streaming
context, so its requests (`StreamOp`) are whether the walk is stopped and to schedule a child read.

The serial walk, `ReadDirIter::Walk`, calls the same callback without a context.

Source: `src/core/read_dir_iter.rs`, `src/core/priority_queue.rs`, `src/core/run_context.rs`.

## Main definitions

* `StreamOp`, `StreamingContext`, `ReadDirCallback`: the core callback and what it may ask for.
* `WorkerOp`, `WorkerProgram`, `push`, `multiThreadedWalkDir`: the worker.
* `SerialIter`, `SerialIter.next`: the serial walk over directory reads.
-/

namespace JwalkMeta

open Interaction

/-! ### Requests and programs -/

/-- What the core callback asks of its streaming context. -/
inductive StreamOp (S : Type)
  | isStopped
  | schedule (weighted : Weighted S)

/-- `StreamingContext`: where the directory read stands in the tree, and its weight. -/
structure StreamingContext where
  indexPath : IndexPath
  parentWeight : ℕ

/-- A single access of a worker to shared memory. The answer is a `Bool`: the stop flag for
`loadStop`, whether the channel took the item for the two sends, and of no meaning for the
others. -/
inductive WorkerOp (S R : Type)
  /-- Load the stop flag. -/
  | loadStop
  /-- `pending_count.fetch_add(1)`. -/
  | fetchAdd
  /-- Send an item to the channel of the work queue. -/
  | sendSpec (weighted : Weighted S)
  /-- `pending_count.fetch_sub(1)` after a send that failed. -/
  | fetchSub
  /-- Send a result to the channel of the ordered queue. -/
  | sendResult (ordered : Ordered R)
  /-- `complete_item`: `pending_count.fetch_sub(1)` after the processing of an item. -/
  | completeItem

/-- A program of a worker. -/
abbrev WorkerProgram (S R α : Type) : Type := Interaction (WorkerOp S R) Bool α

section Programs

variable {S R : Type}

/-- `PriorityQueue::push`: count the item, then send it, and take the count back if the channel
is closed. The value is whether the item was sent. -/
def push (weighted : Weighted S) : WorkerProgram S R Bool := do
  let _ ← request .fetchAdd
  if ← request (.sendSpec weighted) then
    return true
  else
    let _ ← request .fetchSub
    return false

/-- The two methods of `StreamingContext`. -/
def StreamOp.handle : StreamOp S → WorkerProgram S R Bool
  | isStopped => request .loadStop
  | schedule weighted => push weighted

/-- The loop of `multi_threaded_walk_dir` over the child reads, left when the queue is closed. -/
def scheduleAll : List (Weighted S) → WorkerProgram S R Unit
  | [] => return ()
  | each :: rest => do
    if ← push each then scheduleAll rest
    else return ()

end Programs

variable {B E : Type}

/-- The result of the core callback. -/
abbrev ReadDirResult (B E : Type) : Type := Except Error (ReadDir B E)

/-- `ReadDirCallback`: the core callback. -/
abbrev ReadDirCallback (B E : Type) : Type :=
  ReadDirSpec B → Option StreamingContext →
    Interaction (StreamOp (ReadDirSpec B)) Bool (ReadDirResult B E)

/-- The child reads that are scheduled after the result has been sent: none if the read failed or
some were scheduled during the enumeration. -/
def regularSpecs (result : ReadDirResult B E) (indexPath : IndexPath) (parentWeight : ℕ) :
    Option (List (Weighted (ReadDirSpec B))) :=
  match result with
  | .ok readDir =>
    if readDir.streamedChildCount = 0 then
      some (readDir.weightedChildrenSpecs indexPath parentWeight)
    else none
  | .error _ => none

/-- How many child reads were scheduled during the enumeration. -/
def streamedCount (result : ReadDirResult B E) : ℕ :=
  match result with
  | .ok readDir => readDir.streamedChildCount
  | .error _ => 0

/-- The number of child reads that the result announces. -/
def childCount (result : ReadDirResult B E) (indexPath : IndexPath) (parentWeight : ℕ) : ℕ :=
  streamedCount result + ((regularSpecs result indexPath parentWeight).map List.length).getD 0

/-- `multi_threaded_walk_dir`: read a directory, send the result, schedule the child reads that
have not been scheduled yet, and report the item as processed. -/
def multiThreadedWalkDir (callback : ReadDirCallback B E) (weighted : Weighted (ReadDirSpec B)) :
    WorkerProgram (ReadDirSpec B) (ReadDirResult B E) Unit := do
  if ← request .loadStop then
    let _ ← request .completeItem
  else
    let context : StreamingContext := ⟨weighted.indexPath, weighted.weight⟩
    let result ← (callback weighted.value (some context)).interp StreamOp.handle
    let sendOk ← request (.sendResult ⟨result, weighted.indexPath,
      childCount result weighted.indexPath weighted.weight⟩)
    if sendOk then
      scheduleAll ((regularSpecs result weighted.indexPath weighted.weight).getD [])
    let _ ← request .completeItem

/-- `ROOT_WEIGHT`. -/
def rootWeight : ℕ := usizeMax / 2

/-- The items that `ReadDirIter::try_new` puts into the work queue: every root at the same index
path. -/
def rootItems (specs : List (ReadDirSpec B)) : List (Weighted (ReadDirSpec B)) :=
  specs.map fun spec => ⟨spec, ⟨[0]⟩, rootWeight⟩

/-! ### The serial walk -/

/-- `ReadDirIter::Walk`: the stack of reads to be made, its top first. -/
structure SerialIter (B : Type) where
  readDirSpecStack : List (ReadDirSpec B)

/-- `SerialIter` for the specs that `try_new` is given: the last one is on top. -/
def SerialIter.new (specs : List (ReadDirSpec B)) : SerialIter B := ⟨specs.reverse⟩

/-- The result of a read without a streaming context: there is nothing it could ask for, so the
rule for answers does not matter. -/
def ReadDirCallback.read (callback : ReadDirCallback B E) (spec : ReadDirSpec B) :
    ReadDirResult B E :=
  (callback spec none).value fun _ => false

/-- The child reads of a result. -/
def childSpecs (result : ReadDirResult B E) : List (ReadDirSpec B) :=
  match result with
  | .ok readDir => readDir.readChildrenSpecs
  | .error _ => []

/-- `ReadDirIter::next` of the serial walk: read the directory on top of the stack and put its
child reads in its place, the first one on top. -/
def SerialIter.next (callback : ReadDirCallback B E) (iter : SerialIter B) :
    Option (ReadDirResult B E) × SerialIter B :=
  match iter.readDirSpecStack with
  | [] => (none, iter)
  | spec :: stack =>
    let result := callback.read spec
    (some result, ⟨childSpecs result ++ stack⟩)

end JwalkMeta
