import JwalkMeta.WalkDir.Ahead
import JwalkMeta.WalkDir.Limits

/-!
# Pruning a walk

The usual client's callback decides about each result by itself: it drops the result, or keeps an
entry as a leaf, so that its directory is not read. Such a callback prunes the forest of the
walk: what is left of it is what a line from the root leads to without a dropped entry or a leaf
before its end. Nothing else changes, and no directory at or below such an entry is read, whatever
the callback does with the state that is handed down.

## Main definitions

* `Verdict`, `Pruning`: what a client's callback decides about each result.
* `Pruning.process`: the callback.

## Main results

* `Unfolds.prune`, `DepthFirst.prune`: the pruned walk.
* `pruned_walk`: the items of a pruned walk.
* `pruned_reads`: the reads of a pruned walk, in every interleaving.
-/

namespace JwalkMeta

open Interaction SerialWalk

variable {B E : Type} {N : ℕ}

/-- What a client's callback decides about an entry. -/
inductive Verdict (E : Type)
  /-- The entry is dropped. -/
  | drop
  /-- The entry is kept with this state, but its directory is not read. -/
  | leaf (clientState : E)
  /-- The entry is kept with this state. -/
  | keep (clientState : E)

/-- What is left of an entry. -/
def Verdict.apply (dirEntry : DirEntry E) : Verdict E → Option (DirEntry E)
  | drop => none
  | .leaf clientState => some { dirEntry with clientState, readChildrenPath := none }
  | keep clientState => some { dirEntry with clientState }

/-- What a client's callback decides about each result. -/
structure Pruning (E : Type) where
  verdict : DirEntry E → Verdict E
  keepsError : Error → Bool

namespace Pruning

/-- What is left of a result. -/
def result (pruning : Pruning E) : Except Error (DirEntry E) → Option (Except Error (DirEntry E))
  | .error err => if pruning.keepsError err then some (.error err) else none
  | .ok dirEntry => ((pruning.verdict dirEntry).apply dirEntry).map .ok

/-- The client's callback; `next` is the state that it leaves on a directory. -/
def process (pruning : Pruning E) (next : Option ℕ → Path → B → B) : ProcessReadDirFunction B E :=
  fun depth path state results => (next depth path state, results.filterMap pruning.result)

/-- What is left of a visit, and whether the directory of the entry is still read. -/
def visit (pruning : Pruning E) (visit : Visit E) : Option (Visit E × Bool) :=
  match visit.result with
  | .error err => if pruning.keepsError err then some (visit, true) else none
  | .ok dirEntry =>
    match pruning.verdict dirEntry with
    | .drop => none
    | .leaf clientState =>
      some (⟨.ok { dirEntry with clientState, readChildrenPath := none }, none⟩, false)
    | .keep clientState => some (⟨.ok { dirEntry with clientState }, visit.readError⟩, true)

variable {pruning : Pruning E} {dirEntry : DirEntry E} {clientState : E}

theorem result_of_drop (h : pruning.verdict dirEntry = .drop) :
    pruning.result (.ok dirEntry) = none := by
  rw [result, h]
  rfl

theorem result_of_leaf (h : pruning.verdict dirEntry = .leaf clientState) :
    pruning.result (.ok dirEntry) =
      some (.ok { dirEntry with clientState, readChildrenPath := none }) := by
  rw [result, h]
  rfl

theorem result_of_keep (h : pruning.verdict dirEntry = .keep clientState) :
    pruning.result (.ok dirEntry) = some (.ok { dirEntry with clientState }) := by
  rw [result, h]
  rfl

theorem visit_of_drop (h : pruning.verdict dirEntry = .drop) (readError : Option Error) :
    pruning.visit ⟨.ok dirEntry, readError⟩ = none := by
  simp only [visit, h]

theorem visit_of_leaf (h : pruning.verdict dirEntry = .leaf clientState)
    (readError : Option Error) : pruning.visit ⟨.ok dirEntry, readError⟩ =
      some (⟨.ok { dirEntry with clientState, readChildrenPath := none }, none⟩, false) := by
  simp only [visit, h]

theorem visit_of_keep (h : pruning.verdict dirEntry = .keep clientState)
    (readError : Option Error) : pruning.visit ⟨.ok dirEntry, readError⟩ =
      some (⟨.ok { dirEntry with clientState }, readError⟩, true) := by
  simp only [visit, h]

end Pruning

/-! ### The pruned walk -/

/-- The reads of the same directory, with any states of the client. -/
structure ReadDirSpec.Alike (spec spec' : ReadDirSpec B) : Prop where
  depth : spec.depth = spec'.depth
  path : spec.path = spec'.path
  ancestors : spec.followLinkAncestors = spec'.followLinkAncestors

/-- Every read gives what is left of the results of another one. -/
def Prunes (pruning : Pruning E) (read read' : ReadDirSpec B → ReadDirResult B E) : Prop :=
  ∀ spec spec', spec.Alike spec' →
    (∀ err, read spec = .error err → read' spec' = .error err) ∧
    ∀ readDir, read spec = .ok readDir → ∃ readDir', read' spec' = .ok readDir' ∧
      readDir'.resultsList = readDir.resultsList.filterMap pruning.result

section Pruned

variable {pruning : Pruning E} {read read' : ReadDirSpec B → ReadDirResult B E} {state : B}
  {results : List (Except Error (DirEntry E))} {forest : Forest (Visit E)}

/-- The same entry in the hands of another state of the client. -/
theorem alike_readChildrenSpec {dirEntry : DirEntry E} {spec : ReadDirSpec B}
    (h : dirEntry.readChildrenSpec state = some spec) (clientState : E) (state' : B) :
    ∃ spec', { dirEntry with clientState }.readChildrenSpec state' = some spec' ∧
      spec.Alike spec' := by
  obtain ⟨path, hpath, rfl⟩ := Option.map_eq_some_iff.mp h
  exact ⟨_, Option.map_eq_some_iff.mpr ⟨path, hpath, rfl⟩, rfl, rfl, rfl⟩

theorem readChildrenSpec_of_none {dirEntry : DirEntry E}
    (h : dirEntry.readChildrenSpec state = none) (clientState : E) (state' : B) :
    { dirEntry with clientState }.readChildrenSpec state' = none := by
  simpa [DirEntry.readChildrenSpec] using h

/-- An entry that is dropped or a leaf, whatever is below it. -/
theorem unfolds_of_closed {dirEntry : DirEntry E}
    (hclosed : ∀ clientState, pruning.verdict dirEntry ≠ .keep clientState)
    {rest : List (Except Error (DirEntry E))}
    (hrest : Unfolds read' state (rest.filterMap pruning.result) (forest.trim pruning.visit))
    (readError : Option Error) (below : Forest (Visit E)) :
    Unfolds read' state ((.ok dirEntry :: rest).filterMap pruning.result)
      ((Forest.node ⟨.ok dirEntry, readError⟩ below forest).trim pruning.visit) := by
  cases hverdict : pruning.verdict dirEntry with
  | drop =>
    rw [List.filterMap_cons_none (Pruning.result_of_drop hverdict),
      Forest.trim_of_drop (Pruning.visit_of_drop hverdict readError)]
    exact hrest
  | leaf clientState =>
    rw [List.filterMap_cons_some (Pruning.result_of_leaf hverdict),
      Forest.trim_of_cut (Pruning.visit_of_leaf hverdict readError)]
    exact .entry rfl hrest
  | keep clientState => exact absurd hverdict (hclosed clientState)

/-- **The forest of a pruned walk** is pruned. -/
theorem Unfolds.prune (h : Unfolds read state results forest) (hprunes : Prunes pruning read read')
    (state' : B) :
    Unfolds read' state' (results.filterMap pruning.result) (forest.trim pruning.visit) := by
  induction h generalizing state' with
  | nil => exact .nil
  | @error state err rest forest hrest ih =>
    cases hkeeps : pruning.keepsError err with
    | false =>
      rw [List.filterMap_cons_none (by simp [Pruning.result, hkeeps]),
        Forest.trim_of_drop (by simp [Pruning.visit, hkeeps])]
      exact ih state'
    | true =>
      rw [List.filterMap_cons_some (by simp [Pruning.result, hkeeps]; rfl),
        Forest.trim_of_open (by simp [Pruning.visit, hkeeps]; rfl)]
      exact .error (ih state')
  | @entry state dirEntry rest forest hspec hrest ih =>
    by_cases hkeep : ∃ clientState, pruning.verdict dirEntry = .keep clientState
    · obtain ⟨clientState, hverdict⟩ := hkeep
      rw [List.filterMap_cons_some (Pruning.result_of_keep hverdict),
        Forest.trim_of_open (Pruning.visit_of_keep hverdict none)]
      exact .entry (readChildrenSpec_of_none hspec clientState state') (ih state')
    · exact unfolds_of_closed (not_exists.mp hkeep) (ih state') none .nil
  | @failed state dirEntry spec err rest forest hspec hread hrest ih =>
    by_cases hkeep : ∃ clientState, pruning.verdict dirEntry = .keep clientState
    · obtain ⟨clientState, hverdict⟩ := hkeep
      obtain ⟨spec', hspec', halike⟩ := alike_readChildrenSpec hspec clientState state'
      rw [List.filterMap_cons_some (Pruning.result_of_keep hverdict),
        Forest.trim_of_open (Pruning.visit_of_keep hverdict (some err))]
      exact .failed hspec' ((hprunes spec spec' halike).1 err hread) (ih state')
    · exact unfolds_of_closed (not_exists.mp hkeep) (ih state') (some err) .nil
  | @listed state dirEntry spec readDir rest below forest hspec hread hdir hrest ihdir ihrest =>
    by_cases hkeep : ∃ clientState, pruning.verdict dirEntry = .keep clientState
    · obtain ⟨clientState, hverdict⟩ := hkeep
      obtain ⟨spec', hspec', halike⟩ := alike_readChildrenSpec hspec clientState state'
      obtain ⟨readDir', hread', hresults⟩ := (hprunes spec spec' halike).2 readDir hread
      rw [List.filterMap_cons_some (Pruning.result_of_keep hverdict),
        Forest.trim_of_open (Pruning.visit_of_keep hverdict none)]
      exact .listed hspec' hread' (hresults ▸ ihdir readDir'.readDirState) (ihrest state')
    · exact unfolds_of_closed (not_exists.mp hkeep) (ihrest state') none below

/-- The walk over the results behind an entry that is dropped or a leaf. -/
theorem depthFirst_of_closed {minDepth : ℕ} {dirEntry : DirEntry E}
    (hclosed : ∀ clientState, pruning.verdict dirEntry ≠ .keep clientState)
    {rest items : List (Except Error (DirEntry E))} {reads : List (ReadDirSpec B)}
    (hrest : DepthFirst read' minDepth state (rest.filterMap pruning.result) items reads) :
    ∃ items', DepthFirst read' minDepth state
      ((.ok dirEntry :: rest).filterMap pruning.result) items' reads := by
  cases hverdict : pruning.verdict dirEntry with
  | drop =>
    rw [List.filterMap_cons_none (Pruning.result_of_drop hverdict)]
    exact ⟨items, hrest⟩
  | leaf clientState =>
    rw [List.filterMap_cons_some (Pruning.result_of_leaf hverdict)]
    exact ⟨_, .entry rfl hrest⟩
  | keep clientState => exact absurd hverdict (hclosed clientState)

/-- **A pruned walk reads some of the directories**, in the same order. -/
theorem DepthFirst.prune {minDepth : ℕ} {items : List (Except Error (DirEntry E))}
    {reads : List (ReadDirSpec B)} (h : DepthFirst read minDepth state results items reads)
    (hprunes : Prunes pruning read read') (state' : B) :
    ∃ items' reads', DepthFirst read' minDepth state' (results.filterMap pruning.result) items'
        reads' ∧
      (reads'.map ReadDirSpec.path).Sublist (reads.map ReadDirSpec.path) := by
  induction h generalizing state' with
  | nil => exact ⟨[], [], .nil, List.Sublist.slnil⟩
  | @error state err rest items reads hrest ih =>
    obtain ⟨items', reads', hrest', hreads⟩ := ih state'
    cases hkeeps : pruning.keepsError err with
    | false =>
      rw [List.filterMap_cons_none (by simp [Pruning.result, hkeeps])]
      exact ⟨items', reads', hrest', hreads⟩
    | true =>
      rw [List.filterMap_cons_some (by simp [Pruning.result, hkeeps]; rfl)]
      exact ⟨_, reads', .error hrest', hreads⟩
  | @entry state dirEntry rest items reads hspec hrest ih =>
    obtain ⟨items', reads', hrest', hreads⟩ := ih state'
    by_cases hkeep : ∃ clientState, pruning.verdict dirEntry = .keep clientState
    · obtain ⟨clientState, hverdict⟩ := hkeep
      rw [List.filterMap_cons_some (Pruning.result_of_keep hverdict)]
      exact ⟨_, reads', .entry (readChildrenSpec_of_none hspec clientState state') hrest', hreads⟩
    · obtain ⟨items'', hitems⟩ := depthFirst_of_closed (not_exists.mp hkeep) hrest'
      exact ⟨items'', reads', hitems, hreads⟩
  | @failed state dirEntry spec err rest items reads hspec hread hrest ih =>
    obtain ⟨items', reads', hrest', hreads⟩ := ih state'
    by_cases hkeep : ∃ clientState, pruning.verdict dirEntry = .keep clientState
    · obtain ⟨clientState, hverdict⟩ := hkeep
      obtain ⟨spec', hspec', halike⟩ := alike_readChildrenSpec hspec clientState state'
      rw [List.filterMap_cons_some (Pruning.result_of_keep hverdict)]
      refine ⟨_, spec' :: reads', .failed hspec' ((hprunes spec spec' halike).1 err hread) hrest',
        ?_⟩
      rw [List.map_cons, List.map_cons, halike.path]
      exact hreads.cons_cons _
    · obtain ⟨items'', hitems⟩ := depthFirst_of_closed (not_exists.mp hkeep) hrest'
      exact ⟨items'', reads', hitems, hreads.cons _⟩
  | @listed state dirEntry spec readDir rest itemsRest itemsDir readsRest readsDir hspec hread hdir
      hrest ihdir ihrest =>
    obtain ⟨items', reads', hrest', hreads⟩ := ihrest state'
    by_cases hkeep : ∃ clientState, pruning.verdict dirEntry = .keep clientState
    · obtain ⟨clientState, hverdict⟩ := hkeep
      obtain ⟨spec', hspec', halike⟩ := alike_readChildrenSpec hspec clientState state'
      obtain ⟨readDir', hread', hresults⟩ := (hprunes spec spec' halike).2 readDir hread
      obtain ⟨below, readsBelow, hbelow, hreadsBelow⟩ := ihdir readDir'.readDirState
      rw [List.filterMap_cons_some (Pruning.result_of_keep hverdict)]
      refine ⟨_, spec' :: (readsBelow ++ reads'), .listed hspec' hread' (hresults ▸ hbelow) hrest',
        ?_⟩
      rw [List.map_cons, List.map_cons, List.map_append, List.map_append, halike.path]
      exact (hreadsBelow.append hreads).cons_cons _
    · obtain ⟨items'', hitems⟩ := depthFirst_of_closed (not_exists.mp hkeep) hrest'
      refine ⟨items'', reads', hitems, List.Sublist.cons _ ?_⟩
      rw [List.map_append]
      exact hreads.trans (List.sublist_append_right _ _)

end Pruned

/-! ### Walks with a callback that prunes -/

section Walks

variable [Inhabited E] {os : OperatingSystem} {opts : WalkDirOptions B E} {root : Path} {state : B}

/-- The options with a client's callback that prunes. -/
def WalkDirOptions.pruned (opts : WalkDirOptions B E) (pruning : Pruning E)
    (next : Option ℕ → Path → B → B) : WalkDirOptions B E :=
  { opts with processReadDir := some (pruning.process next) }

/-- A listing does not depend on the client. -/
theorem rawListing_alike (pruning : Pruning E) (next : Option ℕ → Path → B → B)
    {spec spec' : ReadDirSpec B} (h : spec.Alike spec') (attempt : ℕ) :
    rawListing os (opts.pruned pruning next) attempt
        (readRequest os.systemCalls (opts.pruned pruning next) spec' none) =
      rawListing os opts attempt (readRequest os.systemCalls opts spec none) := by
  obtain ⟨depth, path, state, ancestors⟩ := spec
  obtain ⟨depth', path', state', ancestors'⟩ := spec'
  obtain ⟨rfl, rfl, rfl⟩ := h
  cases os <;> rfl

/-- A callback that prunes leaves of every read what it leaves of the results. -/
theorem prunes_pruned (hprocess : opts.processReadDir = none) (pruning : Pruning E)
    (next : Option ℕ → Path → B → B) :
    Prunes pruning (coreReadDirCallback os opts).read
      (coreReadDirCallback os (opts.pruned pruning next)).read := by
  intro spec spec' halike
  have hlisting : lastListing os (opts.pruned pruning next)
      (readRequest os.systemCalls (opts.pruned pruning next) spec' none) opts.maxRetries 0 =
        lastListing os opts (readRequest os.systemCalls opts spec none) opts.maxRetries 0 :=
    lastListing_congr (rawListing_alike pruning next halike) _ _
  have hmax : (opts.pruned pruning next).maxDepth = opts.maxDepth := rfl
  have hretries : (opts.pruned pruning next).maxRetries = opts.maxRetries := rfl
  rw [read_eq, read_eq, hmax, hretries, hlisting, ← halike.depth]
  split_ifs with hdepth
  · refine ⟨fun err h => (by cases h), fun readDir h => ?_⟩
    obtain rfl := Except.ok.inj h
    exact ⟨_, rfl, rfl⟩
  · cases lastListing os opts (readRequest os.systemCalls opts spec none) opts.maxRetries 0 with
    | error err =>
      refine ⟨fun err' h => ?_, fun readDir h => (by cases h)⟩
      rw [← h]
      simp [attemptOutcome, readRequest, halike.path]
    | ok results =>
      refine ⟨fun err h => (by cases h), fun readDir h => ?_⟩
      obtain rfl := Except.ok.inj h
      refine ⟨_, rfl, ?_⟩
      simp only [finishReadDir, hprocess, WalkDirOptions.pruned, Pruning.process]
      rfl

/-- What a callback that prunes leaves of the root. -/
theorem rootEntryResults_pruned (hprocess : opts.processReadDir = none) (pruning : Pruning E)
    (next : Option ℕ → Path → B → B) :
    (rootEntryResults os (opts.pruned pruning next) root state).2 =
      (rootEntryResults os opts root state).2.filterMap pruning.result := by
  simp only [rootEntryResults, hprocess]
  rfl

theorem length_rootSpecs_pruned (os : OperatingSystem) (hprocess : opts.processReadDir = none)
    (pruning : Pruning E) (next : Option ℕ → Path → B → B) (root : Path) (state : B) :
    (rootSpecs (rootEntryResults os (opts.pruned pruning next) root state)).length ≤ 1 := by
  obtain ⟨result, hresult⟩ := rootEntryResults_of_none (E := E) os hprocess root state
  rw [rootSpecs, rootEntryResults_pruned hprocess, hresult]
  refine (List.length_filterMap_le _ _).trans ?_
  exact List.length_filterMap_le _ _

/-- **A pruned walk is the walk without what is pruned.** Let the walk without a callback come to
its end. Then so does the serial walk with a callback that prunes, and it yields what is left of the
lines of its forest: nothing of a line that has a dropped entry, or a leaf before its end. A
parallel walk with this callback yields the same if it comes to its end. -/
theorem pruned_walk (os : OperatingSystem) (opts : WalkDirOptions B E)
    (hprocess : opts.processReadDir = none) (pruning : Pruning E) (next : Option ℕ → Path → B → B)
    (root : Path) (state : B) (minDepth : ℕ) (items : List (Except Error (DirEntry E)))
    (hall : Completes os opts root state minDepth items) :
    ∃ forest : Forest (Visit E),
      Unfolds (coreReadDirCallback os opts).read (rootEntryResults os opts root state).1
        (rootEntryResults os opts root state).2 forest ∧
      items = (forest.lines.filterMap List.getLast?).filterMap (Visit.emit minDepth) ∧
      CompletesOnly os (opts.pruned pruning next) root state minDepth
        (((forest.lines.filterMap (Forest.follow pruning.visit)).filterMap
          List.getLast?).filterMap (Visit.emit minDepth)) := by
  obtain ⟨forest, hforest, rfl⟩ := hall.unfolds (length_rootSpecs_le hprocess)
  have hroots := length_rootSpecs_pruned os hprocess pruning next root state
  have hpruned := hforest.prune (prunes_pruned hprocess pruning next)
    (rootEntryResults os (opts.pruned pruning next) root state).1
  rw [← rootEntryResults_pruned hprocess pruning next] at hpruned
  refine ⟨forest, hforest, by rw [Forest.labels_eq], ?_⟩
  rw [← Forest.lines_trim, ← Forest.labels_eq]
  exact completesOnly_of_unfolds hroots hpruned minDepth

/-- A callback that keeps `a` as a leaf, and drops `f`. -/
def leafAndDrop : Pruning Unit where
  verdict dirEntry :=
    if dirEntry.fileName = [97] then .leaf ()
    else if dirEntry.fileName = [102] then .drop
    else .keep ()
  keepsError _ := true

/-- The statement above for a walk of `r` with the file `f` and the subdirectories `a` and `b`: of
five entries, `f` and the file in `a` are left out. -/
theorem pruned_walk_plain :
    ∃ forest : Forest (Visit Unit),
      ((forest.lines.filterMap List.getLast?).filterMap (Visit.emit 0)).length = 5 ∧
      (((forest.lines.filterMap (Forest.follow leafAndDrop.visit)).filterMap
        List.getLast?).filterMap (Visit.emit 0)).length = 3 := by
  obtain ⟨items, hitems⟩ : ∃ items, ((serialWalk (rootEntryResults (.linux ParWalk.plainLinux)
      (WalkDirOptions.new : WalkDirOptions Unit Unit) ⟨[.normal [114]]⟩ ()) 0).steps
      (coreReadDirCallback (.linux ParWalk.plainLinux) .new) 12).iter.items = items := ⟨_, rfl⟩
  have hall : Completes (.linux ParWalk.plainLinux) (WalkDirOptions.new : WalkDirOptions Unit Unit)
      ⟨[.normal [114]]⟩ () 0 items := .serial ⟨12, by decide +kernel, hitems⟩
  obtain ⟨forest, -, hforest, honly⟩ := pruned_walk (.linux ParWalk.plainLinux) .new rfl leafAndDrop
    (fun _ _ state => state) ⟨[.normal [114]]⟩ () 0 items hall
  have hpruned := honly.only _ (.serial ⟨12, by decide +kernel, rfl⟩)
  refine ⟨forest, ?_, ?_⟩
  · rw [← hforest, ← hitems]
    decide +kernel
  · rw [← hpruned]
    decide +kernel

/-- **A pruned walk reads no more than the walk without a callback**, in any order of steps: in
every reachable state of a parallel walk with a callback that prunes, the directories whose reads
have been put into the work queue are some of those that the serial walk reads without a callback.
-/
theorem pruned_reads (os : OperatingSystem) (opts : WalkDirOptions B E)
    (hprocess : opts.processReadDir = none) (pruning : Pruning E) (next : Option ℕ → Path → B → B)
    (root : Path) (state : B) (minDepth n : ℕ)
    (hserial : ((serialWalk (rootEntryResults os opts root state) minDepth).steps
      (coreReadDirCallback os opts) n).iter.finished = true)
    (capacity : ℕ) (hcapacity : 0 < capacity) (maxReceiveBufferSize : ℕ) (hN : 0 < N)
    (w : ParWalk B E N)
    (hreach : ParWalk.Reaches
      (.walk (coreReadDirCallback os (opts.pruned pruning next)) capacity hcapacity false)
      (.init N (rootEntryResults os (opts.pruned pruning next) root state) minDepth
        maxReceiveBufferSize) w)
    (hstop : w.run.stop = false) :
    (w.run.scheduled.map fun item => item.value.path).Subperm
      (((serialWalk (rootEntryResults os opts root state) minDepth).reads
        (coreReadDirCallback os opts) n).map ReadDirSpec.path) := by
  have hroots := length_rootSpecs_pruned os hprocess pruning next root state
  have hroots' : (rootSpecs (rootEntryResults os opts root state)).length ≤ 1 :=
    length_rootSpecs_le hprocess
  have hwalk := (serialWalk_iff_depthFirst (reverse_rootSpecs hroots') minDepth _ _).mp
    ⟨n, hserial, rfl, rfl⟩
  obtain ⟨items', reads', hpruned, hreads⟩ := hwalk.prune (prunes_pruned hprocess pruning next)
    (rootEntryResults os (opts.pruned pruning next) root state).1
  rw [← rootEntryResults_pruned hprocess pruning next] at hpruned
  obtain ⟨m, hm, -, rfl⟩ := hpruned.finished (reverse_rootSpecs hroots)
  -- the callback keeps the reads from being streamed
  have hunstreamed : Unstreamed (coreReadDirCallback os (opts.pruned pruning next)) :=
    unstreamed_coreReadDirCallback (Or.inr rfl) os
  obtain ⟨scheduled, hperm, hsublist⟩ :=
    hunstreamed.traceable.subperm_scheduled hN hroots hm hreach hstop
  have hpaths : (w.run.scheduled.map fun item => item.value.path).Perm
      (scheduled.map ReadDirSpec.path) := by
    have hmap := (hperm.map ReadDirSpec.path).symm
    rwa [List.map_map] at hmap
  exact hpaths.subperm.trans ((hsublist.map _).trans hreads).subperm

end Walks

/-- The start of the pruned walk by two workers. -/
def prunedStart : ParWalk Unit Unit 2 :=
  .init 2 (rootEntryResults (.linux ParWalk.plainLinux)
    ((WalkDirOptions.new : WalkDirOptions Unit Unit).pruned leafAndDrop fun _ _ state => state)
    ⟨[.normal [114]]⟩ ()) 0 4

/-- The pruned walk over channels for two items. -/
def prunedWalk : Config (ReadDirSpec Unit) (ReadDirResult Unit Unit) :=
  .walk (coreReadDirCallback (.linux ParWalk.plainLinux)
    ((WalkDirOptions.new : WalkDirOptions Unit Unit).pruned leafAndDrop fun _ _ state => state)) 2
    Nat.two_pos false

/-- The statement above for this walk after 30 rounds: of three directories, `a` is not read. -/
theorem pruned_reads_plain :
    (prunedStart.runActions prunedWalk (plainTurns 30)).run.scheduled.length = 2 ∧
      ((prunedStart.runActions prunedWalk (plainTurns 30)).run.scheduled.map fun item =>
        item.value.path).Subperm
      (((serialWalk (rootEntryResults (.linux ParWalk.plainLinux)
        (WalkDirOptions.new : WalkDirOptions Unit Unit) ⟨[.normal [114]]⟩ ()) 0).reads
          (coreReadDirCallback (.linux ParWalk.plainLinux) .new) 12).map ReadDirSpec.path) :=
  ⟨by decide +kernel, pruned_reads (.linux ParWalk.plainLinux) .new rfl leafAndDrop
    (fun _ _ state => state) ⟨[.normal [114]]⟩ () 0 12 (by decide +kernel) 2 Nat.two_pos 4
    Nat.two_pos _ (ParWalk.reaches_runActions prunedWalk prunedStart _) (by decide +kernel)⟩

end JwalkMeta
