import JwalkMeta.WalkDir.Alignment

/-!
# Listings and attempts

An attempt to read a directory ends with the listing of its entries or with an error; what follows,
sorting and the client's callback, is the same on all platforms. A streaming attempt may have
scheduled some subdirectories by then, depending on the answers that it got; this file says what can
have happened under answers of any kind, and which calls of the client's callback an attempt makes.

## Main definitions

* `rawListing`: the listing of a directory in one attempt, before sorting and the client's callback.
* `ProcessCall`, `readCalls`: the calls of the client's callback.
* `subdirsOn`: the subdirectories that a streaming attempt may schedule.
* `scheduled`: the items that have been scheduled in a course.

## Main results

* `finishReadDir_of_call`: the call decides about the result.
* `runs_readDirOn`: what an attempt schedules and returns, under any answers.
-/

namespace JwalkMeta

open Interaction

variable {B E α : Type}

/-! ### Listings and calls of the client's callback -/

/-- The listing of a directory in one attempt, before sorting and the client's callback. -/
def rawListing [Inhabited E] (os : OperatingSystem) (opts : WalkDirOptions B E) (attempt : ℕ)
    (req : ReadRequest B) : Except IoError (List (Except Error (DirEntry E))) :=
  match os with
  | .linux calls =>
    match (linuxRecords calls req.path attempt).error with
    | some err => .error err
    | none => .ok ((batchStatx calls opts req.path
        (linuxRecords calls req.path attempt).records).filterMap (linuxResult calls opts req))
  | .windows calls =>
    match (windowsRecords calls req.path attempt).error with
    | some err => .error err
    | none => .ok ((linkedRecords calls opts req.path
        (windowsRecords calls req.path attempt).records).filterMap (windowsResult calls opts req))
  | .unix calls =>
    match calls.readDir req.path attempt with
    | .error err => .error err
    | .ok entries => .ok (entries.filterMap (unixResult calls opts req))

/-- The arguments of a call of the client's callback. -/
structure ProcessCall (B E : Type) where
  depth : Option ℕ
  path : Path
  readDirState : B
  results : List (Except Error (DirEntry E))

/-- What a call of the client's callback returns, as the result of a read that has scheduled `n`
subdirectories. -/
def ProcessCall.result (process : ProcessReadDirFunction B E) (call : ProcessCall B E) (n : ℕ) :
    ReadDir B E :=
  let (readDirState, results) := process call.depth call.path call.readDirState call.results
  ⟨readDirState, results, n⟩

/-- The calls of the client's callback on a listing: one, if there is a callback. -/
def processCalls (opts : WalkDirOptions B E) (req : ReadRequest B)
    (results : List (Except Error (DirEntry E))) : List (ProcessCall B E) :=
  match opts.processReadDir with
  | some _ => [⟨some req.readDirDepth, req.path, req.clientReadState,
      if opts.sort then sortDirEntriesByName results else results⟩]
  | none => []

/-- The calls of the client's callback in one attempt: none if the listing fails. -/
def readCalls [Inhabited E] (os : OperatingSystem) (opts : WalkDirOptions B E) (attempt : ℕ)
    (req : ReadRequest B) : List (ProcessCall B E) :=
  match rawListing os opts attempt req with
  | .error _ => []
  | .ok results => processCalls opts req results

/-- The call of the client's callback decides about the result. -/
theorem finishReadDir_of_call {opts : WalkDirOptions B E} {process : ProcessReadDirFunction B E}
    (hprocess : opts.processReadDir = some process) (req : ReadRequest B) (n : ℕ)
    (results : List (Except Error (DirEntry E))) :
    ∃ call, processCalls opts req results = [call] ∧
      finishReadDir opts req n results = call.result process n := by
  simp only [processCalls, finishReadDir, hprocess]
  exact ⟨_, rfl, rfl⟩

theorem length_processCalls_le (opts : WalkDirOptions B E) (req : ReadRequest B)
    (results : List (Except Error (DirEntry E))) : (processCalls opts req results).length ≤ 1 := by
  unfold processCalls
  split
  · exact Nat.le_refl 1
  · exact Nat.zero_le 1

/-- Every call gets the state of the read. -/
theorem readDirState_of_mem {opts : WalkDirOptions B E} {req : ReadRequest B}
    {results : List (Except Error (DirEntry E))} {call : ProcessCall B E}
    (h : call ∈ processCalls opts req results) : call.readDirState = req.clientReadState := by
  unfold processCalls at h
  split at h
  · rw [List.mem_singleton.mp h]
  · simp at h

/-- The result of an attempt that has scheduled `n` subdirectories. -/
def attemptOutcome (opts : WalkDirOptions B E) (req : ReadRequest B)
    (listing : Except IoError (List (Except Error (DirEntry E)))) (n : ℕ) : ReadDirResult B E :=
  match listing with
  | .error err =>
    if 0 < n then .ok ⟨req.clientReadState, [.error (Error.fromPath 0 req.path err)], n⟩
    else .error (Error.fromPath 0 req.path err)
  | .ok results => .ok (finishReadDir opts req n results)

theorem streamedCount_attemptOutcome (opts : WalkDirOptions B E) (req : ReadRequest B)
    (listing : Except IoError (List (Except Error (DirEntry E)))) (n : ℕ) :
    streamedCount (attemptOutcome opts req listing n) = n := by
  cases listing with
  | ok results => simp [attemptOutcome]
  | error err =>
    by_cases hn : 0 < n
    · simp [attemptOutcome, hn]
    · simp only [attemptOutcome, hn, ↓reduceIte, streamedCount_error]
      omega

theorem readDirOutcome_eq (opts : WalkDirOptions B E) (req : ReadRequest B)
    (enumeration : Enumeration α) (makeResults : List α → List (Except Error (DirEntry E)))
    (n : ℕ) : readDirOutcome opts req enumeration makeResults n =
      attemptOutcome opts req (match enumeration.error with
        | some err => .error err
        | none => .ok (makeResults enumeration.records)) n := by
  unfold readDirOutcome
  cases enumeration.error <;> rfl

/-- The result of an attempt without a context. -/
theorem readDirOn_of_context [Inhabited E] (os : OperatingSystem) (opts : WalkDirOptions B E)
    (attempt : ℕ) (req : ReadRequest B) (hctx : req.streamingCtx = none) :
    readDirOn os opts attempt req =
      .done (attemptOutcome (E := E) opts req (rawListing os opts attempt req) 0) := by
  cases os with
  | linux calls =>
    rw [readDirOn_linux, readDirWith_of_context _ _ _ _ _ _ _ hctx, readDirOutcome_eq]
    rfl
  | windows calls =>
    rw [readDirOn_windows, readDirWith_of_context _ _ _ _ _ _ _ hctx, readDirOutcome_eq]
    rfl
  | unix calls =>
    simp only [readDirOn, readDirUnixFsLegacy, rawListing]
    cases calls.readDir req.path attempt <;> rfl

/-! ### What a streaming attempt can schedule -/

/-- The items that have been scheduled in a course of a core callback. -/
def scheduled {S : Type} (tr : List (StreamOp S × Bool)) : List (Weighted S) :=
  tr.filterMap fun
    | (.schedule weighted, true) => some weighted
    | _ => none

@[simp] theorem scheduled_append {S : Type} (tr tr' : List (StreamOp S × Bool)) :
    scheduled (tr ++ tr') = scheduled tr ++ scheduled tr' := List.filterMap_append

/-- The subdirectories that a streaming attempt may schedule. -/
def subdirsOn (os : OperatingSystem) (opts : WalkDirOptions B E) (attempt : ℕ)
    (req : ReadRequest B) : List (ReadDirSpec B) :=
  match os with
  | .linux calls =>
    (subdirs (fun info => info.dType == DT_DIR) (skipLinux opts)
      (linuxRecords calls req.path attempt).records).map fun info => subdirSpec req info.name
  | .windows calls =>
    (subdirs (fun info => hasDirectoryBit info.fileAttributes) (skipWindows opts)
      (windowsRecords calls req.path attempt).records).map fun info => subdirSpec req info.fileName
  | .unix _ => []

/-- The items for the child reads of a directory, numbered one after the other. -/
def numbered (indexPath : IndexPath) (weight : ℕ) (specs : List (ReadDirSpec B)) :
    List (Weighted (ReadDirSpec B)) :=
  specs.mapIdx fun i spec => ⟨spec, indexPath.adding i, weight⟩

@[simp] theorem numbered_nil (indexPath : IndexPath) (weight : ℕ) :
    numbered (B := B) indexPath weight [] = [] := rfl

@[simp] theorem map_value_numbered (indexPath : IndexPath) (weight : ℕ)
    (specs : List (ReadDirSpec B)) :
    (numbered indexPath weight specs).map Weighted.value = specs :=
  List.ext_getElem (by simp [numbered]) fun i h₁ h₂ => by simp [numbered]

/-- The first ones of numbered items are the numbered first ones. -/
theorem exists_of_prefix_numbered {indexPath : IndexPath} {weight : ℕ}
    {specs : List (ReadDirSpec B)} {items : List (Weighted (ReadDirSpec B))}
    (h : items <+: numbered indexPath weight specs) :
    ∃ firsts, firsts <+: specs ∧ items = numbered indexPath weight firsts := by
  refine ⟨specs.take items.length, List.take_prefix _ _, ?_⟩
  refine (List.prefix_iff_eq_take.mp h).trans (List.ext_getElem? fun i => ?_)
  rw [numbered, numbered, List.getElem?_take, List.getElem?_mapIdx, List.getElem?_mapIdx,
    List.getElem?_take]
  split_ifs <;> rfl

section Streaming

variable {isSubdir skip : α → Bool} {name : α → OsString} {req : ReadRequest B}
  {ctx : StreamingContext} {tr : List (StreamOp (ReadDirSpec B) × Bool)}

/-- A call of the `on_subdir` closure schedules the record or leaves the count as it is. -/
theorem runs_onSubdir {n m : ℕ} {info : α} (h : Runs (onSubdir skip name req ctx n info) tr m) :
    scheduled tr = [] ∧ m = n ∨
      skip info = false ∧ scheduled tr = [subdirItem name req ctx n info] ∧ m = n + 1 := by
  simp only [onSubdir, request_bind, runs_ask] at h
  obtain ⟨stopped, tr, rfl, h⟩ := h
  cases stopped with
  | true =>
    obtain ⟨rfl, rfl⟩ := runs_done.mp h
    exact Or.inl ⟨rfl, rfl⟩
  | false =>
    simp only [Bool.false_eq_true, ↓reduceIte] at h
    split_ifs at h with hskip
    · obtain ⟨rfl, rfl⟩ := runs_done.mp h
      exact Or.inl ⟨rfl, rfl⟩
    · obtain ⟨sent, tr, rfl, hsent⟩ := runs_ask.mp h
      cases sent with
      | true =>
        obtain ⟨rfl, rfl⟩ := runs_done.mp hsent
        exact Or.inr ⟨by simpa using hskip, rfl, rfl⟩
      | false =>
        obtain ⟨rfl, rfl⟩ := runs_done.mp hsent
        exact Or.inl ⟨rfl, rfl⟩

/-- A streaming enumeration schedules some of its subdirectories, in their order. -/
theorem runs_enumerateStreaming {n m : ℕ} {records : List α}
    (h : Runs (enumerateStreaming isSubdir (onSubdir skip name req ctx) n records) tr m) :
    ∃ picks : List α, picks.Sublist (subdirs isSubdir skip records) ∧ m = n + picks.length ∧
      scheduled tr = picks.mapIdx fun i info => subdirItem name req ctx (n + i) info := by
  induction records generalizing n tr with
  | nil =>
    obtain ⟨rfl, rfl⟩ := runs_done.mp h
    exact ⟨[], List.Sublist.refl _, rfl, rfl⟩
  | cons info rest ih =>
    rw [subdirs_cons]
    by_cases hsubdir : isSubdir info = true
    · simp only [enumerateStreaming, hsubdir, ↓reduceIte] at h
      obtain ⟨k, tr₁, tr₂, hfirst, hrest, rfl⟩ := runs_bind.mp h
      obtain ⟨picks, hsub, rfl, hpicks⟩ := ih hrest
      rw [scheduled_append, hpicks]
      rcases runs_onSubdir hfirst with ⟨htr₁, rfl⟩ | ⟨hskip, htr₁, rfl⟩
      · refine ⟨picks, ?_, rfl, by simp [htr₁]⟩
        split_ifs
        · exact hsub.cons _
        · exact hsub
      · refine ⟨info :: picks, ?_, by simp only [List.length_cons]; omega, ?_⟩
        · simpa [hsubdir, hskip] using hsub
        · simp [htr₁, Nat.add_assoc, Nat.add_comm 1]
    · simp only [enumerateStreaming, hsubdir, Bool.false_eq_true, ↓reduceIte, pure_eq,
        done_bind] at h
      obtain ⟨picks, hsub, rfl, hpicks⟩ := ih h
      exact ⟨picks, by simpa [hsubdir] using hsub, rfl, hpicks⟩

/-- What the frame of the two reads that can stream schedules and returns. -/
theorem runs_readDirWith {opts : WalkDirOptions B E} {enumeration : Enumeration α}
    {makeResults : List α → List (Except Error (DirEntry E))} {outcome : ReadDirResult B E}
    (hctx : req.streamingCtx = some ctx)
    (h : Runs (readDirWith opts req enumeration isSubdir skip name makeResults) tr outcome) :
    ∃ specs, specs.Sublist ((subdirs isSubdir skip enumeration.records).map fun info =>
        subdirSpec req (name info)) ∧
      scheduled tr = numbered ctx.indexPath (saturatingAdd ctx.parentWeight 1) specs ∧
      outcome = readDirOutcome opts req enumeration makeResults specs.length := by
  obtain ⟨n, tr₁, tr₂, hstream, hrest, rfl⟩ := runs_bind.mp h
  obtain ⟨rfl, rfl⟩ := runs_done.mp hrest
  unfold streamSubdirs at hstream
  cases hs : opts.streaming req with
  | none =>
    rw [hs] at hstream
    obtain ⟨rfl, rfl⟩ := runs_done.mp hstream
    exact ⟨[], List.nil_sublist _, rfl, rfl⟩
  | some ctx' =>
    obtain rfl : ctx' = ctx := by
      simp only [WalkDirOptions.streaming] at hs
      split_ifs at hs
      exact Option.some.inj (hs.symm.trans hctx)
    rw [hs] at hstream
    obtain ⟨picks, hsub, rfl, hpicks⟩ := runs_enumerateStreaming hstream
    refine ⟨picks.map fun info => subdirSpec req (name info), hsub.map _, ?_, by simp⟩
    rw [List.append_nil, hpicks, numbered]
    exact List.ext_getElem (by simp) fun i h₁ h₂ => by simp [subdirItem, subdirSpec]

/-- **What an attempt schedules and returns**, under any answers: some of its subdirectories, one
after the other, and their number with the result. -/
theorem runs_readDirOn [Inhabited E] {os : OperatingSystem} {opts : WalkDirOptions B E}
    {attempt : ℕ} {outcome : ReadDirResult B E} (hctx : req.streamingCtx = some ctx)
    (h : Runs (readDirOn os opts attempt req) tr outcome) :
    ∃ specs, specs.Sublist (subdirsOn os opts attempt req) ∧
      scheduled tr = numbered ctx.indexPath (saturatingAdd ctx.parentWeight 1) specs ∧
      outcome = attemptOutcome opts req (rawListing os opts attempt req) specs.length := by
  cases os with
  | linux calls =>
    obtain ⟨specs, hsub, htr, rfl⟩ := runs_readDirWith hctx h
    exact ⟨specs, hsub, htr, readDirOutcome_eq _ _ _ _ _⟩
  | windows calls =>
    obtain ⟨specs, hsub, htr, rfl⟩ := runs_readDirWith hctx h
    exact ⟨specs, hsub, htr, readDirOutcome_eq _ _ _ _ _⟩
  | unix calls =>
    refine ⟨[], List.nil_sublist _, ?_⟩
    simp only [readDirOn, readDirUnixFsLegacy, rawListing] at h ⊢
    cases hlisting : calls.readDir req.path attempt <;> rw [hlisting] at h <;>
      obtain ⟨rfl, rfl⟩ := runs_done.mp h <;> exact ⟨rfl, rfl⟩

end Streaming

end JwalkMeta
