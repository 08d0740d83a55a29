import JwalkMeta.Run.Ancestry
import JwalkMeta.WalkDir.IntoIter
import JwalkMeta.WalkDir.Retries

/-!
# The serial walk is a depth-first search

The serial walk keeps two stacks, the reads to be made and the listings that it is inside of, which
are not linked: whenever the iterator comes to an entry that asks for a read, it takes the read on
top of the other stack. The recursive definition of the walk (`DepthFirst`) has no stacks: an entry
that asks for a read is followed by the entries of its own directory.

The stacks stay in step because both are filled from the same listings: the reads on the stack are
those that the rest of the listings will ask for, in this order.

## Main definitions

* `listDirectory`: the listing of a directory, with the calls of the client's callback.
* `DepthFirst`: the recursive definition of a walk.
* `SerialWalk.reads`: the reads that a serial walk makes.
* `SerialWalk.YieldsReading`: the serial walk comes to its end with these reads and these items.

## Main results

* `read_coreReadDirCallback`: a read of the serial walk is the listing of the directory.
* `DepthFirst.steps`, `SerialWalk.depthFirst_of_finished`: the two stacks follow the recursion.
* `serial_depthFirst`: the serial walk yields what the recursive definition says.
-/

namespace JwalkMeta

open Interaction

variable {B E : Type}

/-! ### The recursive definition -/

/-- The answers about the entries of a directory do not change from one attempt to the next. -/
def OperatingSystem.Fixed : OperatingSystem → Prop
  | .linux calls => ∀ path attempt, calls.enumerate path attempt = calls.enumerate path 0
  | .windows calls => ∀ path attempt, calls.enumerate path attempt = calls.enumerate path 0
  | .unix calls => ∀ path attempt, calls.readDir path attempt = calls.readDir path 0

/-- The listing of a directory, with the calls of the client's callback: empty from the maximal
depth on, else sorted if it is to be sorted, and then passed through the callback. The greatest
`usize`, which is the default of the maximal depth, stands for no limit. -/
def listDirectory [Inhabited E] (os : OperatingSystem) (opts : WalkDirOptions B E)
    (spec : ReadDirSpec B) : ReadDirResult B E × List (ProcessCall B E) :=
  if opts.maxDepth ≤ spec.depth ∧ opts.maxDepth < usizeMax then
    (.ok (.new spec.clientReadState []), [])
  else
    match rawListing os opts 0 (readRequest os.systemCalls opts spec none) with
    | .error err => (.error (Error.fromPath 0 spec.path err), [])
    | .ok results =>
      let results := if opts.sort then sortDirEntriesByName results else results
      match opts.processReadDir with
      | none => (.ok (.new spec.clientReadState results), [])
      | some processReadDir =>
        let (state, results') :=
          processReadDir (some spec.depth) spec.path spec.clientReadState results
        (.ok (.new state results'), [⟨some spec.depth, spec.path, spec.clientReadState, results⟩])

/-- An entry is emitted if it is deep enough. -/
def emitted (minDepth : ℕ) (dirEntry : DirEntry E) : List (Except Error (DirEntry E)) :=
  if minDepth ≤ dirEntry.depth then [.ok dirEntry] else []

/-- **The recursive definition of a walk** over the results of a listing and the state that the
client's callback has left on its directory: the items, and the reads that are made. -/
inductive DepthFirst (read : ReadDirSpec B → ReadDirResult B E) (minDepth : ℕ) :
    B → List (Except Error (DirEntry E)) → List (Except Error (DirEntry E)) →
      List (ReadDirSpec B) → Prop
  | nil {state : B} : DepthFirst read minDepth state [] [] []
  /-- An error is emitted as it is. -/
  | error {state : B} {err : Error} {rest items : List (Except Error (DirEntry E))}
      {reads : List (ReadDirSpec B)} (hrest : DepthFirst read minDepth state rest items reads) :
    DepthFirst read minDepth state (.error err :: rest) (.error err :: items) reads
  /-- An entry that asks for no read. -/
  | entry {state : B} {dirEntry : DirEntry E} {rest items : List (Except Error (DirEntry E))}
      {reads : List (ReadDirSpec B)} (hspec : dirEntry.readChildrenSpec state = none)
      (hrest : DepthFirst read minDepth state rest items reads) :
    DepthFirst read minDepth state (.ok dirEntry :: rest) (emitted minDepth dirEntry ++ items) reads
  /-- An entry whose directory cannot be read. -/
  | failed {state : B} {dirEntry : DirEntry E} {spec : ReadDirSpec B} {err : Error}
      {rest items : List (Except Error (DirEntry E))} {reads : List (ReadDirSpec B)}
      (hspec : dirEntry.readChildrenSpec state = some spec) (hread : read spec = .error err)
      (hrest : DepthFirst read minDepth state rest items reads) :
    DepthFirst read minDepth state (.ok dirEntry :: rest)
      (emitted minDepth { dirEntry with readChildrenError := some err } ++ items) (spec :: reads)
  /-- An entry that is followed by the items of its own directory. -/
  | listed {state : B} {dirEntry : DirEntry E} {spec : ReadDirSpec B} {readDir : ReadDir B E}
      {rest items items' : List (Except Error (DirEntry E))} {reads reads' : List (ReadDirSpec B)}
      (hspec : dirEntry.readChildrenSpec state = some spec) (hread : read spec = .ok readDir)
      (hdir : DepthFirst read minDepth readDir.readDirState readDir.resultsList items' reads')
      (hrest : DepthFirst read minDepth state rest items reads) :
    DepthFirst read minDepth state (.ok dirEntry :: rest)
      (emitted minDepth dirEntry ++ (items' ++ items)) (spec :: (reads' ++ reads))

/-- Returning an entry adds it to the items if it is deep enough. -/
theorem IterState.apply_emit (st : IterState E) (iter : DirEntryIter E) (dirEntry : DirEntry E) :
    st.apply (iter.emit dirEntry) =
      ⟨iter, none, st.finished, st.items ++ emitted iter.minDepth dirEntry⟩ := by
  unfold DirEntryIter.emit emitted
  split_ifs
  · rfl
  · simp [IterState.apply]

/-! ### The reads of the serial walk -/

namespace SerialWalk

/-- The read that is made in the next turn. -/
def nextRead (w : SerialWalk B E) : Option (ReadDirSpec B) :=
  if w.iter.awaiting.isSome then w.serial.readDirSpecStack.head? else none

/-- The reads that are made in a number of turns. -/
def reads (callback : ReadDirCallback B E) : ℕ → SerialWalk B E → List (ReadDirSpec B)
  | 0, _ => []
  | n + 1, w => w.reads callback n ++ (w.steps callback n).nextRead.toList

/-- The items that a serial walk yields until `next` returns `None`, and the reads that it makes. -/
def YieldsReading (callback : ReadDirCallback B E) (w : SerialWalk B E)
    (items : List (Except Error (DirEntry E))) (reads : List (ReadDirSpec B)) : Prop :=
  ∃ n, (w.steps callback n).iter.finished = true ∧ (w.steps callback n).iter.items = items ∧
    w.reads callback n = reads

variable {callback : ReadDirCallback B E} {w : SerialWalk B E}

theorem steps_add (m n : ℕ) : w.steps callback (m + n) = (w.steps callback m).steps callback n := by
  induction n with
  | zero => rfl
  | succ n ih => rw [← Nat.add_assoc, steps, steps, ih]

theorem reads_add (m n : ℕ) : w.reads callback (m + n) =
    w.reads callback m ++ (w.steps callback m).reads callback n := by
  induction n with
  | zero => rw [Nat.add_zero, reads, List.append_nil]
  | succ n ih => rw [← Nat.add_assoc, reads, reads, ih, steps_add, List.append_assoc]

/-- A serial walk that waits for no read. -/
def between (minDepth : ℕ) (specs : List (ReadDirSpec B))
    (stack : List (List (Except Error (DirEntry E)))) (items : List (Except Error (DirEntry E))) :
    SerialWalk B E :=
  ⟨⟨specs⟩, ⟨⟨minDepth, true, stack⟩, none, false, items⟩⟩

variable {minDepth : ℕ} {specs : List (ReadDirSpec B)} {err : Error} {dirEntry : DirEntry E}
  {rest items : List (Except Error (DirEntry E))} {stack : List (List (Except Error (DirEntry E)))}
  {state : B} {spec : ReadDirSpec B}

theorem steps_pop : (between minDepth specs ([] :: stack) items).steps callback 1 =
    between minDepth specs stack items := rfl

theorem steps_error :
    (between minDepth specs ((.error err :: rest) :: stack) items).steps callback 1 =
      between minDepth specs (rest :: stack) (items ++ [.error err]) := rfl

theorem steps_entry (hspec : dirEntry.readChildrenSpec state = none) :
    (between minDepth specs ((.ok dirEntry :: rest) :: stack) items).steps callback 1 =
      between minDepth specs (rest :: stack) (items ++ emitted minDepth dirEntry) := by
  have hpath : dirEntry.readChildrenPath = none := by
    simpa [DirEntry.readChildrenSpec] using hspec
  simp [steps, step, between, IterState.turn, DirEntryIter.turn, hpath, IterState.apply_emit]

theorem isSome_readChildrenPath (hspec : dirEntry.readChildrenSpec state = some spec) :
    dirEntry.readChildrenPath.isSome = true := by
  cases hnone : dirEntry.readChildrenPath with
  | none => simp [DirEntry.readChildrenSpec, hnone] at hspec
  | some path => rfl

/-- The turn that comes to an entry that asks for a read. -/
theorem step_awaits (hpath : dirEntry.readChildrenPath.isSome = true) :
    (between minDepth specs ((.ok dirEntry :: rest) :: stack) items).step callback =
      ⟨⟨specs⟩, ⟨⟨minDepth, true, rest :: stack⟩, some dirEntry, false, items⟩⟩ := by
  simp [step, between, IterState.turn, DirEntryIter.turn, hpath, IterState.apply]

/-- The two turns for an entry that asks for a read: the one on top of the stack is made, whether it
is its own or not. -/
theorem steps_read (hpath : dirEntry.readChildrenPath.isSome = true) :
    (between minDepth (spec :: specs) ((.ok dirEntry :: rest) :: stack) items).steps callback 2 =
        ⟨⟨childSpecs (callback.read spec) ++ specs⟩, IterState.resume
          ⟨⟨minDepth, true, rest :: stack⟩, some dirEntry, false, items⟩ dirEntry
          (some (callback.read spec))⟩ ∧
      (between minDepth (spec :: specs) ((.ok dirEntry :: rest) :: stack) items).reads callback 2 =
        [spec] := by
  constructor
  · rw [steps, steps, steps, step_awaits hpath]
    rfl
  · rw [reads, reads, reads, steps, steps, steps, step_awaits hpath]
    rfl

theorem steps_failed (hpath : dirEntry.readChildrenPath.isSome = true)
    (hread : callback.read spec = .error err) :
    (between minDepth (spec :: specs) ((.ok dirEntry :: rest) :: stack) items).steps callback 2 =
      between minDepth specs (rest :: stack)
        (items ++ emitted minDepth { dirEntry with readChildrenError := some err }) := by
  rw [(steps_read hpath).1, hread]
  simp [IterState.resume, DirEntryIter.resume, IterState.apply_emit, between, childSpecs]

theorem steps_listed {readDir : ReadDir B E} (hpath : dirEntry.readChildrenPath.isSome = true)
    (hread : callback.read spec = .ok readDir) :
    (between minDepth (spec :: specs) ((.ok dirEntry :: rest) :: stack) items).steps callback 2 =
      between minDepth (readDir.readChildrenSpecs ++ specs) (readDir.resultsList :: rest :: stack)
        (items ++ emitted minDepth dirEntry) := by
  rw [(steps_read hpath).1, hread]
  simp [IterState.resume, DirEntryIter.resume, IterState.apply_emit, between, childSpecs]

end SerialWalk

/-! ### The two stacks follow the recursion -/

open SerialWalk

theorem filterMap_childSpec_of_none {state : B} {dirEntry : DirEntry E}
    (h : dirEntry.readChildrenSpec state = none) (rest : List (Except Error (DirEntry E))) :
    (.ok dirEntry :: rest).filterMap (ReadDir.childSpec state) =
      rest.filterMap (ReadDir.childSpec state) :=
  List.filterMap_cons_none h

theorem filterMap_childSpec_of_some {state : B} {dirEntry : DirEntry E} {spec : ReadDirSpec B}
    (h : dirEntry.readChildrenSpec state = some spec)
    (rest : List (Except Error (DirEntry E))) :
    (.ok dirEntry :: rest).filterMap (ReadDir.childSpec state) =
      spec :: rest.filterMap (ReadDir.childSpec state) :=
  List.filterMap_cons_some h

/-- **A derivation is a course of the walk.** The reads that the listing asks for are taken from the
stack, whatever lies below them, and the listing is used up. -/
theorem DepthFirst.steps {callback : ReadDirCallback B E} {minDepth : ℕ} {state : B}
    {results items : List (Except Error (DirEntry E))} {reads : List (ReadDirSpec B)}
    (h : DepthFirst callback.read minDepth state results items reads)
    (specs : List (ReadDirSpec B)) (stack : List (List (Except Error (DirEntry E))))
    (before : List (Except Error (DirEntry E))) :
    ∃ n, (between minDepth (results.filterMap (ReadDir.childSpec state) ++ specs)
        (results :: stack) before).steps callback n =
          between minDepth specs ([] :: stack) (before ++ items) ∧
      (between minDepth (results.filterMap (ReadDir.childSpec state) ++ specs)
        (results :: stack) before).reads callback n = reads := by
  induction h generalizing specs stack before with
  | nil => exact ⟨0, by simp [SerialWalk.steps], rfl⟩
  | @error state err rest items reads hrest ih =>
    obtain ⟨n, hsteps, hreads⟩ := ih specs stack (before ++ [.error err])
    refine ⟨1 + n, ?_, ?_⟩
    · rw [steps_add, List.filterMap_cons_none rfl, steps_error, hsteps]
      simp
    · rw [reads_add, List.filterMap_cons_none rfl, steps_error, hreads]
      rfl
  | @entry state dirEntry rest items reads hspec hrest ih =>
    obtain ⟨n, hsteps, hreads⟩ := ih specs stack (before ++ emitted minDepth dirEntry)
    refine ⟨1 + n, ?_, ?_⟩
    · rw [steps_add, filterMap_childSpec_of_none hspec, steps_entry hspec, hsteps]
      simp
    · rw [reads_add, filterMap_childSpec_of_none hspec, steps_entry hspec, hreads]
      rfl
  | @failed state dirEntry spec err rest items reads hspec hread hrest ih =>
    have hpath := isSome_readChildrenPath hspec
    obtain ⟨n, hsteps, hreads⟩ := ih specs stack
      (before ++ emitted minDepth { dirEntry with readChildrenError := some err })
    refine ⟨2 + n, ?_, ?_⟩
    · rw [steps_add, filterMap_childSpec_of_some hspec, List.cons_append, steps_failed hpath hread,
        hsteps]
      simp
    · rw [reads_add, filterMap_childSpec_of_some hspec, List.cons_append, steps_failed hpath hread,
        hreads, (steps_read hpath).2]
      rfl
  | @listed state dirEntry spec readDir rest items items' reads reads' hspec hread hdir hrest ihdir
      ihrest =>
    have hpath := isSome_readChildrenPath hspec
    -- first the listing of the directory, which is taken off the stack at its end, then the rest
    obtain ⟨n, hsteps, hreads⟩ := ihdir (rest.filterMap (ReadDir.childSpec state) ++ specs)
      (rest :: stack) (before ++ emitted minDepth dirEntry)
    obtain ⟨m, hsteps', hreads'⟩ := ihrest specs stack
      (before ++ emitted minDepth dirEntry ++ items')
    refine ⟨2 + (n + (1 + m)), ?_, ?_⟩
    · rw [steps_add, filterMap_childSpec_of_some hspec, List.cons_append, steps_listed hpath hread,
        steps_add, ReadDir.readChildrenSpecs, hsteps, steps_add, steps_pop, hsteps']
      simp
    · rw [reads_add, filterMap_childSpec_of_some hspec, List.cons_append, steps_listed hpath hread,
        reads_add, ReadDir.readChildrenSpecs, hsteps, hreads, reads_add, steps_pop, hreads',
        (steps_read hpath).2]
      rfl

namespace SerialWalk

variable {callback : ReadDirCallback B E} {w : SerialWalk B E}

/-- What is left of a walk that comes to its end, at a point where it has not. -/
theorem exists_rest (hsettled : w.Settled) {n k : ℕ}
    (hfinished : (w.steps callback n).iter.finished = true)
    (hk : (w.steps callback k).iter.finished = false) :
    ∃ m, n = k + m ∧ ((w.steps callback k).steps callback m).iter.finished = true := by
  have hle : k ≤ n := by
    by_contra hlt
    obtain ⟨j, rfl⟩ := Nat.exists_eq_add_of_le (Nat.le_of_not_le hlt)
    rw [hsettled.steps_of_finished hfinished, hfinished] at hk
    simp at hk
  obtain ⟨m, rfl⟩ := Nat.exists_eq_add_of_le hle
  exact ⟨m, rfl, by rwa [← steps_add]⟩

theorem settled_between (minDepth : ℕ) (specs : List (ReadDirSpec B))
    (stack : List (List (Except Error (DirEntry E)))) (items : List (Except Error (DirEntry E))) :
    (between minDepth specs stack items).Settled := fun hfinished => by
  simp [between] at hfinished

/-- **A course of the walk that comes to its end has a derivation.** The induction is on the number
of turns. -/
theorem depthFirst_of_finished {minDepth : ℕ} (n : ℕ) (state : B)
    (results : List (Except Error (DirEntry E))) (specs : List (ReadDirSpec B))
    (stack : List (List (Except Error (DirEntry E)))) (before : List (Except Error (DirEntry E)))
    (h : ((between minDepth (results.filterMap (ReadDir.childSpec state) ++ specs)
      (results :: stack) before).steps callback n).iter.finished = true) :
    ∃ items reads, DepthFirst callback.read minDepth state results items reads := by
  induction n using Nat.strong_induction_on generalizing state results specs stack before with
  | _ n ih =>
    cases results with
    | nil => exact ⟨[], [], .nil⟩
    | cons result rest =>
      have hsettled := settled_between minDepth
        ((result :: rest).filterMap (ReadDir.childSpec state) ++ specs) ((result :: rest) :: stack)
        before
      cases result with
      | error err =>
        rw [List.filterMap_cons_none rfl] at h hsettled
        obtain ⟨m, rfl, hm⟩ := exists_rest hsettled h (k := 1) (by rw [steps_error]; rfl)
        rw [steps_error] at hm
        obtain ⟨items, reads, hrest⟩ := ih m (by omega) _ _ _ _ _ hm
        exact ⟨_, _, .error hrest⟩
      | ok dirEntry =>
        cases hspec : dirEntry.readChildrenSpec state with
        | none =>
          rw [filterMap_childSpec_of_none hspec] at h hsettled
          obtain ⟨m, rfl, hm⟩ := exists_rest hsettled h (k := 1) (by rw [steps_entry hspec]; rfl)
          rw [steps_entry hspec] at hm
          obtain ⟨items, reads, hrest⟩ := ih m (by omega) _ _ _ _ _ hm
          exact ⟨_, _, .entry hspec hrest⟩
        | some spec =>
          have hpath := isSome_readChildrenPath hspec
          rw [filterMap_childSpec_of_some hspec, List.cons_append] at h hsettled
          cases hread : callback.read spec with
          | error err =>
            obtain ⟨m, rfl, hm⟩ := exists_rest hsettled h (k := 2)
              (by rw [steps_failed hpath hread]; rfl)
            rw [steps_failed hpath hread] at hm
            obtain ⟨items, reads, hrest⟩ := ih m (by omega) _ _ _ _ _ hm
            exact ⟨_, _, .failed hspec hread hrest⟩
          | ok readDir =>
            obtain ⟨m, rfl, hm⟩ := exists_rest hsettled h (k := 2)
              (by rw [steps_listed hpath hread]; rfl)
            rw [steps_listed hpath hread] at hm
            obtain ⟨items', reads', hdir⟩ := ih m (by omega) readDir.readDirState
              readDir.resultsList _ _ _ hm
            -- the rest of the listing comes after that of the directory
            obtain ⟨k, hk, -⟩ := hdir.steps (rest.filterMap (ReadDir.childSpec state) ++ specs)
              (rest :: stack) (before ++ emitted minDepth dirEntry)
            rw [← ReadDir.readChildrenSpecs] at hk
            have hpop := congrArg (fun w => w.steps callback 1) hk
            rw [← steps_add, steps_pop] at hpop
            obtain ⟨j, rfl, hj⟩ := exists_rest (settled_between _ _ _ _) hm (k := k + 1)
              (by rw [hpop]; rfl)
            rw [hpop] at hj
            obtain ⟨items, reads, hrest⟩ := ih j (by omega) _ _ _ _ _ hj
            exact ⟨_, _, .listed hspec hread hdir hrest⟩

end SerialWalk

/-! ### The reads of a walk with options -/

section Options

variable [Inhabited E] {os : OperatingSystem} {opts : WalkDirOptions B E}

theorem rawListing_of_fixed (hfixed : os.Fixed) (attempt : ℕ) (req : ReadRequest B) :
    rawListing os opts attempt req = rawListing os opts 0 req := by
  cases os with
  | linux calls => simp only [rawListing, linuxRecords, hfixed req.path attempt]
  | windows calls => simp only [rawListing, windowsRecords, hfixed req.path attempt]
  | unix calls => simp only [rawListing, hfixed req.path attempt]

/-- The calls of the client's callback in a read of the serial walk. -/
def readProcessCalls (os : OperatingSystem) (opts : WalkDirOptions B E) (spec : ReadDirSpec B) :
    List (ProcessCall B E) :=
  ((coreReadDirLogged os opts spec none).value fun _ => false).1.flatMap Attempt.calls

/-- One attempt of the serial walk. -/
theorem attemptOn_of_fixed (hfixed : os.Fixed) (opts : WalkDirOptions B E) (number : ℕ)
    {req : ReadRequest B} (hctx : req.streamingCtx = none) :
    ∃ attempt, attemptOn os opts number req = .done attempt ∧
      attempt.outcome = attemptOutcome opts req (rawListing os opts 0 req) 0 ∧
      attempt.calls = readCalls os opts 0 req := by
  refine ⟨⟨number, none, readCalls os opts number req, subdirsOn os opts number req,
    attemptOutcome opts req (rawListing os opts 0 req) 0⟩, ?_, rfl, ?_⟩
  · rw [attemptOn, readDirOn_of_context _ _ _ _ hctx, rawListing_of_fixed hfixed, hctx]
    rfl
  · simp only [readCalls, rawListing_of_fixed hfixed number]

/-- Attempts with the same outcome: all but the last one have failed without a call. -/
theorem value_retryLogged_of_fixed (hfixed : os.Fixed) (opts : WalkDirOptions B E)
    (platform : Platform) (spec : ReadDirSpec B) {req : ReadRequest B}
    (hreq : readRequest os.systemCalls opts spec none = req) (retries number : ℕ) :
    ∃ log, (retryLogged platform (fun number ctx => attemptOn os opts number
        (readRequest os.systemCalls opts spec ctx)) retries number none).value (fun _ => false) =
        (log, attemptOutcome opts req (rawListing os opts 0 req) 0) ∧
      log.flatMap Attempt.calls = readCalls os opts 0 req := by
  have hctx : req.streamingCtx = none := by rw [← hreq]; rfl
  induction retries generalizing number with
  | zero =>
    obtain ⟨attempt, hattempt, houtcome, hcalls⟩ := attemptOn_of_fixed hfixed opts number hctx
    refine ⟨[attempt], ?_, by simp [hcalls]⟩
    rw [retryLogged, hreq, hattempt, ← houtcome]
    rfl
  | succ retries ih =>
    obtain ⟨attempt, hattempt, houtcome, hcalls⟩ := attemptOn_of_fixed hfixed opts number hctx
    rw [retryLogged, hreq, hattempt, done_bind]
    cases hresult : attempt.outcome with
    | ok readDir =>
      refine ⟨[attempt], ?_, by simp [hcalls]⟩
      rw [← houtcome, hresult]
      rfl
    | error err =>
      by_cases htransient : isTransientError platform err = true
      · -- the next attempts fail in the same way
        obtain ⟨log, hvalue, hlog⟩ := ih (number + 1)
        have hnone : attempt.calls = [] := by
          rw [hcalls, readCalls]
          cases hlisting : rawListing os opts 0 req with
          | error err => rfl
          | ok results =>
            rw [houtcome, hlisting] at hresult
            simp [attemptOutcome] at hresult
        refine ⟨attempt :: log, ?_, by simpa [hnone] using hlog⟩
        simp only [htransient, ↓reduceIte, value_bind, hvalue]
        rfl
      · refine ⟨[attempt], ?_, by simp [hcalls]⟩
        rw [← houtcome, hresult]
        simp [htransient]

/-- **A read of the serial walk is the listing of the directory**, with its calls of the client's
callback. -/
theorem read_coreReadDirCallback (hfixed : os.Fixed) (opts : WalkDirOptions B E)
    (spec : ReadDirSpec B) :
    ((coreReadDirCallback os opts).read spec, readProcessCalls os opts spec) =
      listDirectory os opts spec := by
  have hread : (coreReadDirCallback os opts).read spec =
      ((coreReadDirLogged os opts spec none).value fun _ => false).2 := by
    rw [ReadDirCallback.read, ← coreReadDirLogged_erase, map_eq_pure_bind, value_bind]
    rfl
  have hdepth : opts.maxDepth < saturatingAdd spec.depth 1 ↔
      opts.maxDepth ≤ spec.depth ∧ opts.maxDepth < usizeMax := by
    simp only [saturatingAdd]
    omega
  rw [hread, readProcessCalls, coreReadDirLogged, listDirectory]
  by_cases hcut : opts.maxDepth ≤ spec.depth ∧ opts.maxDepth < usizeMax
  · rw [if_pos (hdepth.mpr hcut), if_pos hcut]
    rfl
  · rw [if_neg (mt hdepth.mp hcut), if_neg hcut]
    obtain ⟨log, hvalue, hlog⟩ := value_retryLogged_of_fixed hfixed opts os.platform spec rfl
      opts.maxRetries 0
    rw [hvalue, hlog, readCalls]
    cases rawListing os opts 0 (readRequest os.systemCalls opts spec none) with
    | error err => rfl
    | ok results =>
      cases hprocess : opts.processReadDir <;>
        simp [attemptOutcome, finishReadDir, processCalls, hprocess, readRequest, ReadDir.new]

end Options

/-! ### The serial walk -/

section Serial

variable {callback : ReadDirCallback B E} {root : B × List (Except Error (DirEntry E))}

/-- At most one read is made in the order of the entries. -/
theorem reverse_rootSpecs (hroots : (rootSpecs root).length ≤ 1) :
    (rootSpecs root).reverse = rootSpecs root := by
  match hspecs : rootSpecs root, hroots with
  | [], _ => rfl
  | [spec], _ => rfl

/-- The start of a serial walk whose reads at the root are made in the order of the entries. -/
theorem serialWalk_eq (hroots : (rootSpecs root).reverse = rootSpecs root) (minDepth : ℕ) :
    serialWalk root minDepth =
      between minDepth (root.2.filterMap (ReadDir.childSpec root.1) ++ []) [root.2] [] := by
  rw [serialWalk, SerialIter.new, hroots, List.append_nil]
  rfl

/-- A derivation is a walk that comes to its end. -/
theorem DepthFirst.finished (hroots : (rootSpecs root).reverse = rootSpecs root) {minDepth : ℕ}
    {items : List (Except Error (DirEntry E))} {reads : List (ReadDirSpec B)}
    (h : DepthFirst callback.read minDepth root.1 root.2 items reads) :
    ∃ n, ((serialWalk root minDepth).steps callback n).iter.finished = true ∧
      ((serialWalk root minDepth).steps callback n).iter.items = items ∧
      (serialWalk root minDepth).reads callback n = reads := by
  obtain ⟨n, hsteps, hreads⟩ := h.steps [] [] []
  rw [← serialWalk_eq hroots minDepth] at hsteps hreads
  refine ⟨n + 2, ?_, ?_, ?_⟩
  · rw [steps_add, hsteps]
    rfl
  · rw [steps_add, hsteps]
    rfl
  · rw [reads_add, hsteps, hreads]
    exact List.append_nil reads

/-- After the end no read is made. -/
theorem reads_of_finished {w : SerialWalk B E} (hsettled : w.Settled) {n : ℕ}
    (hfinished : (w.steps callback n).iter.finished = true) (k : ℕ) :
    w.reads callback (n + k) = w.reads callback n := by
  induction k with
  | zero => rfl
  | succ k ih =>
    have hnone : (w.steps callback (n + k)).nextRead = none := by
      rw [hsettled.steps_of_finished hfinished]
      simp [nextRead, hsettled.steps n hfinished]
    rw [← Nat.add_assoc, SerialWalk.reads, ih, hnone]
    exact List.append_nil _

/-- **The serial walk follows the recursion**, for any core callback. -/
theorem serialWalk_iff_depthFirst (hroots : (rootSpecs root).reverse = rootSpecs root)
    (minDepth : ℕ)
    (items : List (Except Error (DirEntry E))) (reads : List (ReadDirSpec B)) :
    (∃ n, ((serialWalk root minDepth).steps callback n).iter.finished = true ∧
        ((serialWalk root minDepth).steps callback n).iter.items = items ∧
        (serialWalk root minDepth).reads callback n = reads) ↔
      DepthFirst callback.read minDepth root.1 root.2 items reads := by
  refine ⟨?_, fun h => h.finished hroots⟩
  rintro ⟨n, hn, rfl, rfl⟩
  have hfinished := hn
  rw [serialWalk_eq hroots minDepth] at hfinished
  obtain ⟨items, reads, h⟩ := depthFirst_of_finished n root.1 root.2 [] [] [] hfinished
  obtain ⟨m, hm, hitems, hreads⟩ := h.finished hroots
  have hsettled : (serialWalk root minDepth).Settled := by
    rw [serialWalk_eq hroots minDepth]
    exact settled_between _ _ _ _
  -- both courses have come to the same end
  have hsame : ((serialWalk root minDepth).steps callback n).iter.items = items ∧
      (serialWalk root minDepth).reads callback n = reads := by
    rcases Nat.le_total n m with hle | hle
    · obtain ⟨k, rfl⟩ := Nat.exists_eq_add_of_le hle
      rw [hsettled.steps_of_finished hn] at hitems
      rw [reads_of_finished hsettled hn] at hreads
      exact ⟨hitems, hreads⟩
    · obtain ⟨k, rfl⟩ := Nat.exists_eq_add_of_le hle
      rw [hsettled.steps_of_finished hm, reads_of_finished hsettled hm]
      exact ⟨hitems, hreads⟩
  rwa [hsame.1, hsame.2]

/-- A listing with finitely many reads below it has a derivation. -/
theorem exists_depthFirst (minDepth : ℕ) (state : B) (results : List (Except Error (DirEntry E)))
    {height : ℕ} (hfinite : ∀ spec ∈ results.filterMap (ReadDir.childSpec state),
      Lineage.Shallow callback.children height spec) :
    ∃ items reads, DepthFirst callback.read minDepth state results items reads := by
  have hshallow : (between minDepth (results.filterMap (ReadDir.childSpec state) ++ [])
      [results] []).StackShallow callback height := fun spec hspec =>
    hfinite spec (by simpa [between] using hspec)
  obtain ⟨n, hn⟩ := hshallow.exists_finished
  exact depthFirst_of_finished n state results [] [] [] hn

end Serial

/-- **The serial walk is a depth-first search.** If the answers about a directory do not change from
one attempt to the next, and the client's callback leaves at most one entry to read at the root, the
serial walk yields exactly the items of the recursive definition, and its calls of the client's
callback are those of the listed directories, one after the other, each with the state that the
callback has left on the parent directory. A walk without an infinite line of directories comes to
its end. -/
theorem serial_depthFirst [Inhabited E] (os : OperatingSystem) (hfixed : os.Fixed)
    (opts : WalkDirOptions B E) (root : Path) (rootReadDirState : B)
    (hroots : (rootSpecs (rootEntryResults os opts root rootReadDirState)).length ≤ 1)
    (minDepth : ℕ) :
    (∀ items calls,
      (∃ n, ((serialWalk (rootEntryResults os opts root rootReadDirState) minDepth).steps
            (coreReadDirCallback os opts) n).iter.finished = true ∧
          ((serialWalk (rootEntryResults os opts root rootReadDirState) minDepth).steps
            (coreReadDirCallback os opts) n).iter.items = items ∧
          ((serialWalk (rootEntryResults os opts root rootReadDirState) minDepth).reads
            (coreReadDirCallback os opts) n).flatMap (readProcessCalls os opts) = calls) ↔
        ∃ reads, DepthFirst (fun spec => (listDirectory os opts spec).1) minDepth
            (rootEntryResults os opts root rootReadDirState).1
            (rootEntryResults os opts root rootReadDirState).2 items reads ∧
          calls = reads.flatMap fun spec => (listDirectory os opts spec).2) ∧
    ∀ height, (∀ spec ∈ rootSpecs (rootEntryResults os opts root rootReadDirState),
        Lineage.Shallow (coreReadDirCallback os opts).children height spec) →
      ∃ items reads, DepthFirst (fun spec => (listDirectory os opts spec).1) minDepth
        (rootEntryResults os opts root rootReadDirState).1
        (rootEntryResults os opts root rootReadDirState).2 items reads := by
  have hread : (fun spec => (listDirectory os opts spec).1) =
      (coreReadDirCallback os opts).read := by
    funext spec
    exact congrArg Prod.fst (read_coreReadDirCallback hfixed opts spec).symm
  have hcalls : (fun spec => (listDirectory os opts spec).2) = readProcessCalls os opts := by
    funext spec
    exact congrArg Prod.snd (read_coreReadDirCallback hfixed opts spec).symm
  rw [hread, hcalls]
  refine ⟨fun items calls => ⟨?_, ?_⟩, fun height hfinite => ?_⟩
  · rintro ⟨n, hn, hitems, rfl⟩
    exact ⟨_, (serialWalk_iff_depthFirst (reverse_rootSpecs hroots) minDepth items _).mp
      ⟨n, hn, hitems, rfl⟩, rfl⟩
  · rintro ⟨reads, hdepthFirst, rfl⟩
    obtain ⟨n, hn, hitems, hreads⟩ := hdepthFirst.finished (reverse_rootSpecs hroots)
    exact ⟨n, hn, hitems, by rw [hreads]⟩
  · exact exists_depthFirst minDepth _ _ hfinite

/-- A Linux where the directory `r` has the subdirectory `a` and the files `b` and `c`, and `a` has
a file. -/
def treeLinux : LinuxCalls :=
  { LinuxCalls.listing fun path =>
      if path = ⟨[.normal [114]]⟩ then ⟨[(8, [98]), (DT_DIR, [97]), (8, [99])], none⟩
      else ⟨[(8, [100])], none⟩ with
    symlinkMetadata := fun _ => .ok (.ofMode S_IFDIR 1 1) }

/-- Options with a callback that counts its calls on a line of directories, reverses the entries and
drops the last of them. -/
def countingOptions : WalkDirOptions ℕ Unit :=
  { (WalkDirOptions.new : WalkDirOptions ℕ Unit) with
    processReadDir := some fun depth _ state results =>
      if depth.isSome then (state + 1, results.reverse.dropLast) else (state, results) }

/-- The statement above for a walk of `r` with this callback: it yields `r`, `c` and `a`, and the
callback is called on `r` with the state of the root and on `a` with the state that it has left
on `r`. -/
theorem serial_depthFirst_counting :
    ∃ items reads, DepthFirst
        (fun spec => (listDirectory (.linux treeLinux) countingOptions spec).1) 0
        (rootEntryResults (.linux treeLinux) countingOptions ⟨[.normal [114]]⟩ 5).1
        (rootEntryResults (.linux treeLinux) countingOptions ⟨[.normal [114]]⟩ 5).2 items reads ∧
      items.length = 3 ∧
      (reads.flatMap fun spec => (listDirectory (.linux treeLinux) countingOptions spec).2).map
        ProcessCall.readDirState = [5, 6] := by
  obtain ⟨items, hitems⟩ : ∃ items, ((serialWalk (rootEntryResults (.linux treeLinux)
      countingOptions ⟨[.normal [114]]⟩ 5) 0).steps (coreReadDirCallback (.linux treeLinux)
      countingOptions) 10).iter.items = items := ⟨_, rfl⟩
  obtain ⟨calls, hcalls⟩ : ∃ calls, ((serialWalk (rootEntryResults (.linux treeLinux)
      countingOptions ⟨[.normal [114]]⟩ 5) 0).reads (coreReadDirCallback (.linux treeLinux)
      countingOptions) 10).flatMap (readProcessCalls (.linux treeLinux) countingOptions) = calls :=
    ⟨_, rfl⟩
  have hfinished : ((serialWalk (rootEntryResults (.linux treeLinux)
      countingOptions ⟨[.normal [114]]⟩ 5) 0).steps (coreReadDirCallback (.linux treeLinux)
      countingOptions) 10).iter.finished = true := by
    decide +kernel
  have hlength : items.length = 3 := by
    rw [← hitems]
    decide +kernel
  have hstates : calls.map ProcessCall.readDirState = [5, 6] := by
    rw [← hcalls]
    decide +kernel
  obtain ⟨reads, hdepthFirst, rfl⟩ := ((serial_depthFirst (.linux treeLinux) (fun _ _ => rfl)
    countingOptions ⟨[.normal [114]]⟩ 5 (by decide +kernel) 0).1 items calls).mp
      ⟨10, hfinished, hitems, hcalls⟩
  exact ⟨items, reads, hdepthFirst, hlength, hstates⟩

/-- Options with a callback that sets the depth of the root to the greatest `usize`. -/
def deepOptions : WalkDirOptions Unit Unit :=
  { (WalkDirOptions.new : WalkDirOptions Unit Unit) with
    processReadDir := some fun depth _ state results =>
      if depth.isSome then (state, results)
      else (state, results.map (Except.map fun e => { e with depth := usizeMax })) }

/-- A walk whose root has this depth, which is the maximal depth too: if nothing were read from the
maximal depth on, it would yield the root only, but it yields the entries of the root as well. -/
theorem not_serial_depthFirst_unlimited :
    ∃ items reads, DepthFirst (fun spec =>
          if deepOptions.maxDepth ≤ spec.depth then .ok (.new spec.clientReadState [])
          else (listDirectory (.linux treeLinux) deepOptions spec).1) 0
        (rootEntryResults (.linux treeLinux) deepOptions ⟨[.normal [114]]⟩ ()).1
        (rootEntryResults (.linux treeLinux) deepOptions ⟨[.normal [114]]⟩ ()).2 items reads ∧
      ¬ (serialWalk (rootEntryResults (.linux treeLinux) deepOptions ⟨[.normal [114]]⟩ ()) 0).Yields
        (coreReadDirCallback (.linux treeLinux) deepOptions) items := by
  obtain ⟨e, spec, hroot, hspec, hdepth⟩ : ∃ e spec,
      (rootEntryResults (.linux treeLinux) deepOptions ⟨[.normal [114]]⟩ ()).2 = [.ok e] ∧
      e.readChildrenSpec () = some spec ∧ deepOptions.maxDepth ≤ spec.depth :=
    ⟨_, _, rfl, rfl, by decide +kernel⟩
  refine ⟨emitted 0 e ++ ([] ++ []), spec :: ([] ++ []), ?_, fun hyields => ?_⟩
  · rw [hroot]
    have hread : (if deepOptions.maxDepth ≤ spec.depth then
        (.ok (.new spec.clientReadState []) : ReadDirResult Unit Unit)
        else (listDirectory (.linux treeLinux) deepOptions spec).1) =
        .ok (.new spec.clientReadState []) := if_pos hdepth
    exact .listed hspec hread .nil .nil
  · have hrun : ((serialWalk (rootEntryResults (.linux treeLinux) deepOptions
        ⟨[.normal [114]]⟩ ()) 0).steps (coreReadDirCallback (.linux treeLinux) deepOptions)
        12).iter.finished = true ∧ ((serialWalk (rootEntryResults (.linux treeLinux) deepOptions
        ⟨[.normal [114]]⟩ ()) 0).steps (coreReadDirCallback (.linux treeLinux) deepOptions)
        12).iter.items.length = 5 := by
      decide +kernel
    have hsettled : (serialWalk (rootEntryResults (.linux treeLinux) deepOptions
        ⟨[.normal [114]]⟩ ()) 0).Settled := fun hf => by
      simp [serialWalk, IterState.new] at hf
    have hitems := (hsettled.yields_iff ⟨12, hrun.1, rfl⟩ _).mp hyields
    have hlength := congrArg List.length hitems
    rw [hrun.2] at hlength
    simp [emitted] at hlength

end JwalkMeta
