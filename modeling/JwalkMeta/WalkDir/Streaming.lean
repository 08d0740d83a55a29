import JwalkMeta.Run.Plan
import JwalkMeta.WalkDir.Callback

/-!
# What a directory read schedules while it enumerates

In a walk that is not stopped, a streaming read schedules its visible subdirectories one after the
other, and reports how many. Hence the worker's program is planned for the core callback on every
platform, whatever the answers of the operating system are.

## Main definitions

* `subdirs`: the records that a streaming read schedules.

## Main results

* `schedules_readDirWith`, `streamedCount_readDirOutcome`: what a read schedules and reports.
* `streams_walkCallback`: the core callback reports as streamed what it has scheduled.
-/

namespace JwalkMeta

open Interaction

variable {B E α : Type}

@[simp] theorem schedules_append {S : Type} (l m : List (StreamOp S)) :
    schedules (l ++ m) = schedules l ++ schedules m := List.filterMap_append

@[simp] theorem schedules_nil {S : Type} : schedules ([] : List (StreamOp S)) = [] := rfl

@[simp] theorem streamedCount_ok (readDir : ReadDir B E) :
    streamedCount (.ok readDir) = readDir.streamedChildCount := rfl

@[simp] theorem streamedCount_error (err : Error) :
    streamedCount (.error err : ReadDirResult B E) = 0 := rfl

/-- The records that a streaming read schedules. -/
def subdirs (isSubdir skip : α → Bool) (records : List α) : List α :=
  records.filter fun info => isSubdir info && !skip info

theorem subdirs_cons (isSubdir skip : α → Bool) (info : α) (rest : List α) :
    subdirs isSubdir skip (info :: rest) =
      if isSubdir info && !skip info then info :: subdirs isSubdir skip rest
      else subdirs isSubdir skip rest :=
  List.filter_cons

/-- One call of the closure. -/
theorem schedules_onSubdir (skip : α → Bool) (name : α → OsString) (req : ReadRequest B)
    (ctx : StreamingContext) (n : ℕ) (info : α) :
    schedules (asked StreamOp.unstopped (onSubdir skip name req ctx n info)) =
      if skip info then [] else [subdirItem name req ctx n info] := by
  simp only [onSubdir, request_bind, asked_ask, StreamOp.unstopped, Bool.false_eq_true, ↓reduceIte]
  split_ifs <;> rfl

theorem value_onSubdir (skip : α → Bool) (name : α → OsString) (req : ReadRequest B)
    (ctx : StreamingContext) (n : ℕ) (info : α) :
    value StreamOp.unstopped (onSubdir skip name req ctx n info) =
      if skip info then n else n + 1 := by
  simp only [onSubdir, request_bind, value_ask, StreamOp.unstopped, Bool.false_eq_true, ↓reduceIte]
  split_ifs <;> rfl

/-- The streaming enumeration schedules the subdirectories in the order of the records. -/
theorem schedules_enumerateStreaming (isSubdir skip : α → Bool) (name : α → OsString)
    (req : ReadRequest B) (ctx : StreamingContext) (n : ℕ) (records : List α) :
    schedules (asked StreamOp.unstopped
        (enumerateStreaming isSubdir (onSubdir skip name req ctx) n records)) =
      (subdirs isSubdir skip records).mapIdx fun i info =>
        subdirItem name req ctx (n + i) info := by
  induction records generalizing n with
  | nil => rfl
  | cons info rest ih =>
    by_cases hsub : isSubdir info = true
    · simp only [enumerateStreaming, hsub, ↓reduceIte, asked_bind, schedules_append,
        schedules_onSubdir, value_onSubdir, ih, subdirs_cons]
      by_cases hskip : skip info = true
      · simp [hskip]
      · simp [hskip, Nat.add_assoc, Nat.add_comm 1]
    · simp [enumerateStreaming, hsub, ih, subdirs_cons]

theorem value_enumerateStreaming (isSubdir skip : α → Bool) (name : α → OsString)
    (req : ReadRequest B) (ctx : StreamingContext) (n : ℕ) (records : List α) :
    value StreamOp.unstopped (enumerateStreaming isSubdir (onSubdir skip name req ctx) n records) =
      n + (subdirs isSubdir skip records).length := by
  induction records generalizing n with
  | nil => rfl
  | cons info rest ih =>
    by_cases hsub : isSubdir info = true
    · simp only [enumerateStreaming, hsub, ↓reduceIte, value_bind, value_onSubdir, ih,
        subdirs_cons]
      by_cases hskip : skip info = true
      · simp [hskip]
      · simp [hskip, Nat.add_assoc, Nat.add_comm 1]
    · simp [enumerateStreaming, hsub, ih, subdirs_cons]

/-- The records that a read schedules while it enumerates. -/
def streamedRecords (opts : WalkDirOptions B E) (req : ReadRequest B) (isSubdir skip : α → Bool)
    (records : List α) : List α :=
  if (opts.streaming req).isSome then subdirs isSubdir skip records else []

section ReadDirWith

variable (opts : WalkDirOptions B E) (req : ReadRequest B) (enumeration : Enumeration α)
  (isSubdir skip : α → Bool) (name : α → OsString)
  (makeResults : List α → List (Except Error (DirEntry E)))

/-- What a read schedules, in a walk that is not stopped. -/
theorem schedules_readDirWith {ctx : StreamingContext} (hctx : req.streamingCtx = some ctx) :
    schedules (asked StreamOp.unstopped
        (readDirWith opts req enumeration isSubdir skip name makeResults)) =
      (streamedRecords opts req isSubdir skip enumeration.records).mapIdx fun i info =>
        subdirItem name req ctx i info := by
  rw [readDirWith, asked_bind, schedules_append, streamSubdirs, streamedRecords]
  cases hstream : opts.streaming req with
  | none => rfl
  | some ctx' =>
    obtain rfl : ctx' = ctx := by
      simp only [WalkDirOptions.streaming] at hstream
      split_ifs at hstream
      exact Option.some.inj (hstream.symm.trans hctx)
    simp [schedules_enumerateStreaming]

/-- A read that does not stream asks for nothing. -/
theorem readDirWith_of_streaming (hstream : opts.streaming req = none) :
    readDirWith opts req enumeration isSubdir skip name makeResults =
      .done (readDirOutcome opts req enumeration makeResults 0) := by
  simp [readDirWith, streamSubdirs, hstream]

/-- A read without a context asks for nothing. -/
theorem readDirWith_of_context (hctx : req.streamingCtx = none) :
    readDirWith opts req enumeration isSubdir skip name makeResults =
      .done (readDirOutcome opts req enumeration makeResults 0) :=
  readDirWith_of_streaming _ _ _ _ _ _ _ (by simp [WalkDirOptions.streaming, hctx])

/-- The result of a read, in a walk that is not stopped. -/
theorem value_readDirWith :
    value StreamOp.unstopped (readDirWith opts req enumeration isSubdir skip name makeResults) =
      readDirOutcome opts req enumeration makeResults
        (streamedRecords opts req isSubdir skip enumeration.records).length := by
  rw [readDirWith, value_bind, streamSubdirs, streamedRecords]
  cases hstream : opts.streaming req with
  | none => rfl
  | some ctx => simp [value_enumerateStreaming]

end ReadDirWith

@[simp] theorem finishReadDir_streamedChildCount (opts : WalkDirOptions B E) (req : ReadRequest B)
    (n : ℕ) (results : List (Except Error (DirEntry E))) :
    (finishReadDir opts req n results).streamedChildCount = n := by
  cases h : opts.processReadDir <;> simp [finishReadDir, h]

/-- A read reports the children that were scheduled, or it fails and none was. -/
theorem streamedCount_readDirOutcome (opts : WalkDirOptions B E) (req : ReadRequest B)
    (enumeration : Enumeration α) (makeResults : List α → List (Except Error (DirEntry E)))
    (n : ℕ) : streamedCount (readDirOutcome opts req enumeration makeResults n) = n := by
  rw [readDirOutcome]
  cases enumeration.error with
  | none => simp
  | some err =>
    by_cases hn : 0 < n
    · simp [hn]
    · simp only [hn, ↓reduceIte, streamedCount_error]
      omega

/-- A program that schedules the children of an index path one after the other, and reports how
many. -/
def StreamsAt (indexPath : IndexPath)
    (p : Interaction (StreamOp (ReadDirSpec B)) Bool (ReadDirResult B E)) : Prop :=
  (schedules (asked StreamOp.unstopped p)).map Weighted.indexPath =
    (List.range (streamedCount (value StreamOp.unstopped p))).map indexPath.adding

/-- A read with a context. -/
theorem streamsAt_readDirWith (opts : WalkDirOptions B E) (req : ReadRequest B)
    (enumeration : Enumeration α) (isSubdir skip : α → Bool) (name : α → OsString)
    (makeResults : List α → List (Except Error (DirEntry E))) {ctx : StreamingContext}
    (hctx : req.streamingCtx = some ctx) :
    StreamsAt ctx.indexPath (readDirWith opts req enumeration isSubdir skip name makeResults) := by
  rw [StreamsAt, schedules_readDirWith _ _ _ _ _ _ _ hctx, value_readDirWith,
    streamedCount_readDirOutcome]
  refine List.ext_getElem (by simp) fun i h₁ h₂ => ?_
  simp [subdirItem]

/-- A program that asks for nothing and reports nothing as streamed. -/
theorem streamsAt_of_asked {indexPath : IndexPath}
    {p : Interaction (StreamOp (ReadDirSpec B)) Bool (ReadDirResult B E)}
    (hasked : asked StreamOp.unstopped p = [])
    (hcount : streamedCount (value StreamOp.unstopped p) = 0) : StreamsAt indexPath p := by
  rw [StreamsAt, hasked, hcount]
  rfl

/-- A read without a context. -/
theorem silent_readDirOn [Inhabited E] (os : OperatingSystem) (opts : WalkDirOptions B E)
    (attempt : ℕ) (req : ReadRequest B) (hctx : req.streamingCtx = none) :
    asked StreamOp.unstopped (readDirOn (E := E) os opts attempt req) = [] ∧
      streamedCount (value StreamOp.unstopped (readDirOn os opts attempt req)) = 0 := by
  cases os with
  | linux calls =>
    rw [readDirOn, readDirLinuxViaGetdents, readDirWith_of_context _ _ _ _ _ _ _ hctx]
    exact ⟨rfl, streamedCount_readDirOutcome _ _ _ _ 0⟩
  | windows calls =>
    rw [readDirOn, readDirWindows, readDirWith_of_context _ _ _ _ _ _ _ hctx]
    exact ⟨rfl, streamedCount_readDirOutcome _ _ _ _ 0⟩
  | unix calls =>
    simp only [readDirOn, readDirUnixFsLegacy]
    cases calls.readDir req.path attempt <;> simp

/-- A read on any platform. -/
theorem streamsAt_readDirOn [Inhabited E] (os : OperatingSystem) (opts : WalkDirOptions B E)
    (attempt : ℕ) (req : ReadRequest B) (ctx : StreamingContext)
    (hctx : req.streamingCtx = some ctx) :
    StreamsAt ctx.indexPath (readDirOn (E := E) os opts attempt req) := by
  cases os with
  | linux calls => exact streamsAt_readDirWith _ _ _ _ _ _ _ hctx
  | windows calls => exact streamsAt_readDirWith _ _ _ _ _ _ _ hctx
  | unix calls =>
    refine streamsAt_of_asked ?_ ?_ <;> simp only [readDirOn, readDirUnixFsLegacy] <;>
      cases calls.readDir req.path attempt <;> simp

/-- Retries without a context. -/
theorem silent_retryTransientIo (platform : Platform)
    (op : ℕ → Option StreamingContext →
      Interaction (StreamOp (ReadDirSpec B)) Bool (ReadDirResult B E))
    (hop : ∀ attempt, asked StreamOp.unstopped (op attempt none) = [] ∧
      streamedCount (value StreamOp.unstopped (op attempt none)) = 0) (retries attempt : ℕ) :
    asked StreamOp.unstopped (retryTransientIo platform op retries attempt none) = [] ∧
      streamedCount
        (value StreamOp.unstopped (retryTransientIo platform op retries attempt none)) = 0 := by
  induction retries generalizing attempt with
  | zero => exact hop attempt
  | succ retries ih =>
    obtain ⟨hasked, hcount⟩ := hop attempt
    rw [retryTransientIo, asked_bind, value_bind, hasked, List.nil_append]
    cases hv : value StreamOp.unstopped (op attempt none) with
    | ok result =>
      rw [hv] at hcount
      exact ⟨rfl, hcount⟩
    | error err =>
      by_cases htransient : isTransientError platform err = true
      · simp only [htransient, ↓reduceIte]
        exact ih (attempt + 1)
      · simp [htransient]

/-- Retries: a failed first attempt has scheduled nothing, and the others cannot. -/
theorem streamsAt_retryTransientIo (platform : Platform) {indexPath : IndexPath}
    (op : ℕ → Option StreamingContext →
      Interaction (StreamOp (ReadDirSpec B)) Bool (ReadDirResult B E)) {ctx : StreamingContext}
    (hfirst : StreamsAt indexPath (op 0 (some ctx)))
    (hop : ∀ attempt, asked StreamOp.unstopped (op attempt none) = [] ∧
      streamedCount (value StreamOp.unstopped (op attempt none)) = 0) (retries : ℕ) :
    StreamsAt indexPath (retryTransientIo platform op retries 0 (some ctx)) := by
  cases retries with
  | zero => exact hfirst
  | succ retries =>
    rw [StreamsAt, retryTransientIo, asked_bind, value_bind, schedules_append, List.map_append,
      hfirst]
    cases hv : value StreamOp.unstopped (op 0 (some ctx)) with
    | ok result => simp
    | error err =>
      by_cases htransient : isTransientError platform err = true
      · obtain ⟨hasked, hcount⟩ := silent_retryTransientIo platform op hop retries 1
        simp [htransient, hasked, hcount]
      · simp [htransient]

/-- The core callback with answers of the operating system that may depend on the read. -/
def walkCallback [Inhabited E] (os : IndexPath → OperatingSystem) (opts : WalkDirOptions B E) :
    ReadDirCallback B E := fun spec streamingCtx =>
  coreReadDirCallback (os ((streamingCtx.map StreamingContext.indexPath).getD ⟨[]⟩)) opts spec
    streamingCtx

/-- **The core callback reports as streamed what it has scheduled**, on every platform and for all
answers of the operating system. -/
theorem streams_walkCallback [Inhabited E] (os : IndexPath → OperatingSystem)
    (opts : WalkDirOptions B E) : Streams (walkCallback (E := E) os opts) := by
  intro weighted
  change StreamsAt weighted.indexPath (coreReadDirCallback (os weighted.indexPath) opts
    weighted.value (some ⟨weighted.indexPath, weighted.weight⟩))
  unfold coreReadDirCallback
  dsimp only
  split_ifs with hdepth
  · exact streamsAt_of_asked rfl rfl
  · refine streamsAt_retryTransientIo _ _ ?_ (fun attempt => ?_) _
    · exact streamsAt_readDirOn _ _ _ _ ⟨weighted.indexPath, weighted.weight⟩ rfl
    · exact silent_readDirOn _ _ attempt _ rfl

end JwalkMeta
