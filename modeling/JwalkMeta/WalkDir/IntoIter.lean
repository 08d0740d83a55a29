import JwalkMeta.Core.DirEntryIter
import JwalkMeta.Run.System
import JwalkMeta.WalkDir.Callback

/-!
# Starting a walk

`WalkDirGeneric::into_iter` makes the root entry and hands it, with the core callback, to the
iterator over entries, which runs over the serial or over the parallel walk. A parallel walk
(`ParWalk`) interleaves the turns of the iterator with the steps of the run; the consumer of the
ordered queue only runs while the iterator waits for a read.

Source: `src/lib.rs`, `src/core/dir_entry_iter.rs`, `src/core/read_dir_iter.rs`.

## Main definitions

* `rootEntryResults`, `rootSpecs`: the root entries and the reads they ask for.
* `serialWalk`: the start of the serial walk.
* `ParWalk`, `ParWalk.step`: the parallel walk with its iterator.
-/

namespace JwalkMeta

variable {B E : Type} {N : ℕ}

/-- The state and the entries of the root, after the client's callback. -/
def rootEntryResults [Inhabited E] (os : OperatingSystem) (opts : WalkDirOptions B E) (root : Path)
    (rootReadDirState : B) : B × List (Except Error (DirEntry E)) :=
  let calls := os.systemCalls
  let followLinkAncestors :=
    if opts.followLinks then (AncestorIdentity.fromPath calls root).map fun id => [id] else none
  let rootEntry : Except Error (DirEntry E) :=
    DirEntry.fromPath calls 0 root opts.readMetadata opts.readMetadataExt false
      followLinkAncestors
  let rootParentPath : Path := (rootEntry.toOption.map DirEntry.parentPath).getD ⟨[]⟩
  let results := [processDirEntryResult calls opts.followLinks rootEntry]
  match opts.processReadDir with
  | some processReadDir => processReadDir none rootParentPath rootReadDirState results
  | none => (rootReadDirState, results)

/-- The reads that root entries ask for. -/
def rootSpecs (root : B × List (Except Error (DirEntry E))) : List (ReadDirSpec B) :=
  root.2.filterMap (ReadDir.childSpec root.1)

/-- The start of a serial walk over root entries. -/
def serialWalk (root : B × List (Except Error (DirEntry E))) (minDepth : ℕ) : SerialWalk B E :=
  ⟨SerialIter.new (rootSpecs root), IterState.new root.2 minDepth⟩

/-- A parallel walk: the run, and the iterator over entries. -/
structure ParWalk (B E : Type) (N : ℕ) where
  run : RunState (ReadDirSpec B) (ReadDirResult B E) N
  iter : IterState E

/-- Which part of a parallel walk takes a step. -/
inductive WalkAction (N : ℕ)
  /-- The iterator takes a turn. -/
  | turn
  /-- The run takes a step. -/
  | run (a : Action N)

namespace ParWalk

/-- The start of a parallel walk over root entries. -/
def init (N : ℕ) (root : B × List (Except Error (DirEntry E))) (minDepth : ℕ)
    (maxReceiveBufferSize : ℕ) : ParWalk B E N :=
  ⟨.init N (rootItems (rootSpecs root)) maxReceiveBufferSize, IterState.new root.2 minDepth⟩

/-- What `OrderedQueueIter::next` has returned in a step, if it has returned. -/
def returned {T : Type} (before after : Consumer T) : Option (Option (Ordered T)) :=
  (after.nexts.drop before.nexts.length).head?

/-- One step of a parallel walk. -/
def step (cfg : Config (ReadDirSpec B) (ReadDirResult B E)) (w : ParWalk B E N) :
    WalkAction N → Option (ParWalk B E N)
  | .turn =>
    if w.iter.finished || w.iter.awaiting.isSome then none
    else some { w with iter := w.iter.turn }
  | .run (.consumer expired) =>
    match w.iter.awaiting, w.run.stepConsumer expired with
    | some dirEntry, some run =>
      match returned w.run.consumer run.consumer with
      | some result => some ⟨run, w.iter.resume dirEntry (result.map Ordered.value)⟩
      | none => some { w with run := run }
    | _, _ => none
  | .run a =>
    match w.run.step cfg a with
    | some run => some { w with run := run }
    | none => none

/-- The states that a parallel walk can reach. -/
def Reaches (cfg : Config (ReadDirSpec B) (ReadDirResult B E)) :
    ParWalk B E N → ParWalk B E N → Prop :=
  Relation.ReflTransGen fun w w' => ∃ a, w.step cfg a = some w'

/-- Carry out a list of actions, leaving out those that are not enabled. -/
def runActions (cfg : Config (ReadDirSpec B) (ReadDirResult B E)) (w : ParWalk B E N) :
    List (WalkAction N) → ParWalk B E N
  | [] => w
  | a :: actions => ((w.step cfg a).getD w).runActions cfg actions

/-- A list of actions is an interleaving. -/
theorem reaches_runActions (cfg : Config (ReadDirSpec B) (ReadDirResult B E)) (w : ParWalk B E N)
    (actions : List (WalkAction N)) : Reaches cfg w (w.runActions cfg actions) := by
  induction actions generalizing w with
  | nil => exact Relation.ReflTransGen.refl
  | cons a actions ih =>
    cases hs : w.step cfg a with
    | none => simpa [runActions, hs] using ih w
    | some w₁ =>
      rw [runActions, hs]
      exact Relation.ReflTransGen.head ⟨a, hs⟩ (ih w₁)

end ParWalk

end JwalkMeta
