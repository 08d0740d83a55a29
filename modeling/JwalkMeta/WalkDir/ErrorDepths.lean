import JwalkMeta.Run.Delivery
import JwalkMeta.WalkDir.Origins
import JwalkMeta.WalkDir.RootPath

/-!
# The depths of errors

An error that names a path is to be reported at the depth of this path in the walk. The root, the
entries of a directory and the links that cannot be followed keep to this, but the error of a
directory read is always reported at depth 0: a directory that cannot be opened has it as the error
of its children, and a listing that ends with an error after subdirectories have been scheduled
yields it as an item. So the depths of all errors are right in every walk in which no read below the
root fails.

Source: `src/lib.rs`, `src/core/dir_entry.rs`, `src/core/error.rs`.

## Main definitions

* `LiesAt`: how deep in a walk a path lies.
* `Error.RightDepth`: an error is reported at the depth of its path.
* `KeepsDepths`: what a client's callback may do.
* `Unfailing`: a read of the root, or one that does not fail.
* `RightDepths`: the depths of all errors of all walks are right as far as reads do not fail.

## Main results

* `liesAt_of_lineage`: every read of a walk is made for the depth of its path.
* `carries_of_mayReturn`: a read that does not fail brings errors with right depths only.
* `rightDepths`: which walks report all errors at the right depth.
-/

namespace JwalkMeta

open Interaction

variable {B E : Type}

/-! ### Depths of paths -/

/-- A path lies at a depth of a walk: it is the path of the root, or that of the root entry, with
one name for each level below. -/
def LiesAt (root path : Path) (depth : ℕ) : Prop :=
  ∃ base, (base = root ∨ base = root.rejoined) ∧ ∃ names : List OsString,
    (∀ name ∈ names, ValidName name) ∧
    path.components = base.components ++ names.map .normal ∧ depth = min names.length usizeMax

section Paths

variable {root path : Path} {n m : ℕ} {name : OsString}

theorem liesAt_root (root : Path) : LiesAt root root 0 :=
  ⟨root, Or.inl rfl, [], by simp, by simp, by simp⟩

theorem liesAt_rejoined (root : Path) : LiesAt root root.rejoined 0 :=
  ⟨root.rejoined, Or.inr rfl, [], by simp, by simp, by simp⟩

/-- One level further down. -/
theorem LiesAt.join (h : LiesAt root path n) (hname : ValidName name) :
    LiesAt root (path.join name) (saturatingAdd n 1) := by
  obtain ⟨base, hbase, names, hnames, hpath, rfl⟩ := h
  refine ⟨base, hbase, names ++ [name], ?_, ?_, ?_⟩
  · simpa [or_imp, forall_and] using ⟨hnames, hname⟩
  · rw [hname.components_join, hpath]
    simp
  · simp only [saturatingAdd, List.length_append, List.length_singleton]
    omega

/-- A path lies at one depth. -/
theorem LiesAt.unique (hroot : root.rejoined = root) (h : LiesAt root path n)
    (h' : LiesAt root path m) : n = m := by
  obtain ⟨base, hbase, names, -, hpath, rfl⟩ := h
  obtain ⟨base', hbase', names', -, hpath', rfl⟩ := h'
  rw [hroot, or_self] at hbase hbase'
  subst hbase hbase'
  have hlength := congrArg List.length (hpath.symm.trans hpath')
  simp only [List.length_append, List.length_map, Nat.add_left_cancel_iff] at hlength
  rw [hlength]

/-- An error is reported at the depth in the walk of the path that it names, if it names one. -/
def Error.RightDepth (root : Path) (err : Error) : Prop :=
  ∀ path ∈ err.path, LiesAt root path err.depth

theorem rightDepth_busy (root : Path) : Error.busy.RightDepth root := by
  intro path hpath
  cases hpath

theorem rightDepth_fromPath {ioErr : IoError} (h : LiesAt root path n) :
    (Error.fromPath n path ioErr).RightDepth root := fun _ hpath =>
  Option.some.inj hpath ▸ h

/-- The error of a read has the right depth at the root only. -/
theorem rightDepth_fromPath_iff (hroot : root.rejoined = root) {ioErr : IoError}
    (h : LiesAt root path n) : (Error.fromPath 0 path ioErr).RightDepth root ↔ n = 0 :=
  ⟨fun hright => h.unique hroot (hright path rfl), fun hn => rightDepth_fromPath (hn ▸ h)⟩

end Paths

/-- The error that an item surfaces: it is one, or its directory could not be read. -/
def surfacedError : Except Error (DirEntry E) → Option Error
  | .error err => some err
  | .ok dirEntry => dirEntry.readChildrenError

/-- The errors that the items of a walk surface. -/
def surfacedErrors (items : List (Except Error (DirEntry E))) : List Error :=
  items.filterMap surfacedError

/-! ### The client's callback -/

/-- A client's callback may drop and reorder results, keep directories from being read, and change
what belongs to the client. -/
def KeepsDepths (process : ProcessReadDirFunction B E) : Prop :=
  ∀ depth path state results,
    (∀ err, .error err ∈ (process depth path state results).2 → .error err ∈ results) ∧
    ∀ e', .ok e' ∈ (process depth path state results).2 → ∃ e, .ok e ∈ results ∧
      e'.depth = e.depth ∧ (∀ err ∈ e'.readChildrenError, err ∈ e.readChildrenError) ∧
      ∀ path ∈ e'.readChildrenPath, path ∈ e.readChildrenPath

section Callback

variable {opts : WalkDirOptions B E} {depth : Option ℕ} {results : List (Except Error (DirEntry E))}

variable (hprocess : ∀ process ∈ opts.processReadDir, KeepsDepths process)

include hprocess

/-- The entries that it leaves. -/
theorem entry_of_leaves {e' : DirEntry E} (h : opts.Leaves depth results (.ok e')) :
    ∃ e, .ok e ∈ results ∧ e'.depth = e.depth ∧
      (∀ err ∈ e'.readChildrenError, err ∈ e.readChildrenError) ∧
      ∀ path ∈ e'.readChildrenPath, path ∈ e.readChildrenPath := by
  unfold WalkDirOptions.Leaves at h
  cases hcallback : opts.processReadDir with
  | none =>
    rw [hcallback] at h
    exact ⟨e', h, rfl, fun _ => id, fun _ => id⟩
  | some process =>
    rw [hcallback] at h
    obtain ⟨path, state, results', hperm, hmem⟩ := h
    obtain ⟨e, he, hkept⟩ := (hprocess process hcallback depth path state results').2 e' hmem
    exact ⟨e, hperm.mem_iff.mp he, hkept⟩

/-- The errors that it leaves. -/
theorem carries_of_leaves {P : Error → Prop} (hresults : ∀ result ∈ results, Carries P result)
    {result : Except Error (DirEntry E)} (h : opts.Leaves depth results result) :
    Carries P result := by
  cases result with
  | ok e' =>
    obtain ⟨e, he, -, hkept, -⟩ := entry_of_leaves hprocess h
    exact fun err herr => hresults _ he err (hkept err herr)
  | error err =>
    refine hresults (.error err) ?_
    unfold WalkDirOptions.Leaves at h
    cases hcallback : opts.processReadDir with
    | none => rwa [hcallback] at h
    | some process =>
      rw [hcallback] at h
      obtain ⟨path, state, results', hperm, hmem⟩ := h
      exact hperm.mem_iff.mp ((hprocess process hcallback depth path state results').1 err hmem)

end Callback

/-! ### The root and the reads -/

section Walk

variable [Inhabited E] {os : OperatingSystem} {opts : WalkDirOptions B E} {root : Path} {state : B}
  {spec child : ReadDirSpec B}

/-- What becomes of the root entry: its errors are at depth 0, and so are its children read. -/
theorem of_processDirEntryResult_root
    (result : Except Error (DirEntry E)) (hresult : result =
      processDirEntryResult os.systemCalls opts.followLinks (rootEntry os.systemCalls opts root)) :
    Carries (fun err => err.RightDepth root) result ∧
      ∀ e, result = .ok e → e.depth = 0 ∧ ∀ path ∈ e.readChildrenPath, LiesAt root path 0 := by
  cases hroot : rootEntry (E := E) os.systemCalls opts root with
  | error err =>
    obtain ⟨ioErr, rfl⟩ := DirEntry.of_fromPath_error hroot
    rw [hroot] at hresult
    subst hresult
    exact ⟨rightDepth_fromPath (liesAt_root root), fun e he => by cases he⟩
  | ok entry =>
    rw [hroot] at hresult
    obtain ⟨hdepth, -, hnone, -⟩ := DirEntry.of_fromPath hroot
    obtain ⟨hpath, hread⟩ := DirEntry.path_fromPath hroot
    cases hprocessed : processDirEntryResult os.systemCalls opts.followLinks (.ok entry) with
    | error err =>
      rw [hprocessed] at hresult
      subst hresult
      obtain ⟨hdepth', hpath'⟩ := of_processDirEntryResult_error hprocessed
      refine ⟨fun path hmem => ?_, fun e he => by cases he⟩
      rw [hdepth', hdepth, hpath' path hmem, hpath]
      exact liesAt_rejoined root
    | ok e' =>
      rw [hprocessed] at hresult
      subst hresult
      obtain ⟨hdepth', -, herrors, hpaths⟩ := of_processDirEntryResult_ok hprocessed
      refine ⟨fun err herr => ?_, fun e he => ?_⟩
      · have herr' := herrors err herr
        rw [hnone] at herr'
        cases herr'
      · obtain rfl := Except.ok.inj he
        refine ⟨hdepth'.trans hdepth, fun path hmem => ?_⟩
        rcases hpaths path hmem with rfl | hmem
        · rw [hpath]
          exact liesAt_rejoined root
        · rw [hread path hmem]
          exact liesAt_root root

variable (hnames : ∀ path attempt, ∀ name ∈ os.names path attempt, ValidName name)
  (hprocess : ∀ process ∈ opts.processReadDir, KeepsDepths process)

include hnames in
omit [Inhabited E] in
/-- An entry of a read of a directory lies one level below it. -/
theorem Entered.liesAt {e : DirEntry E} {attempt : ℕ} {req : ReadRequest B}
    (hlies : LiesAt root req.path req.readDirDepth)
    (hdepth : req.readDirContentsDepth = saturatingAdd req.readDirDepth 1)
    (h : Entered os attempt req e) : LiesAt root e.path e.depth := by
  rw [h.path_eq, h.depth_eq, hdepth]
  exact hlies.join (hnames _ _ _ h.fileName_mem)

include hnames in
/-- The errors of a listing have right depths. -/
theorem carries_of_mem_rawListing {attempt : ℕ} {req : ReadRequest B}
    (hlies : LiesAt root req.path req.readDirDepth)
    (hdepth : req.readDirContentsDepth = saturatingAdd req.readDirDepth 1)
    {results : List (Except Error (DirEntry E))}
    (h : rawListing os opts attempt req = .ok results) :
    ∀ result ∈ results, Carries (fun err => err.RightDepth root) result := by
  intro result hmem
  rcases entered_of_mem_rawListing h hmem with ⟨e, hentered, rfl⟩ | ⟨path, ioErr, rfl, hpath⟩
  · cases hprocessed : processDirEntryResult os.systemCalls opts.followLinks (.ok e) with
    | error err =>
      obtain ⟨hdepth', hpath'⟩ := of_processDirEntryResult_error hprocessed
      intro path hmem
      rw [hdepth', hpath' path hmem]
      exact hentered.liesAt hnames hlies hdepth
    | ok e' =>
      intro err herr
      have herr' := (of_processDirEntryResult_ok hprocessed).2.2.1 err herr
      rw [hentered.readChildrenError_eq] at herr'
      cases herr'
  · intro p hp
    obtain ⟨name, hname, rfl⟩ := hpath p hp
    change LiesAt root _ req.readDirContentsDepth
    rw [hdepth]
    exact hlies.join (hnames _ _ _ hname)

include hprocess in
/-- The root entries bring errors with right depths. -/
theorem carries_rootEntryResults (root : Path) (state : B) :
    ∀ result ∈ (rootEntryResults os opts root state).2,
      Carries (fun err => err.RightDepth root) result := by
  intro result hmem
  refine carries_of_leaves hprocess ?_ (leaves_of_mem_rootEntryResults hmem)
  intro result hresult
  exact (of_processDirEntryResult_root result (List.mem_singleton.mp hresult)).1

include hprocess in
/-- The reads at the root are made for depth 0. -/
theorem liesAt_of_rootSpecs (h : spec ∈ rootSpecs (rootEntryResults os opts root state)) :
    LiesAt root spec.path spec.depth := by
  obtain ⟨e', hmem, hspec⟩ := exists_entry_of_mem_rootSpecs h
  obtain ⟨path, hpath, rfl⟩ := Option.map_eq_some_iff.mp hspec
  obtain ⟨e, he, hdepth, -, hkept⟩ :=
    entry_of_leaves hprocess (leaves_of_mem_rootEntryResults hmem)
  obtain ⟨hzero, hlies⟩ :=
    (of_processDirEntryResult_root (.ok e) (List.mem_singleton.mp he)).2 e rfl
  change LiesAt root path e'.depth
  rw [hdepth, hzero]
  exact hlies path (hkept path hpath)

include hnames hprocess in
/-- A read hands down that it is made for the depth of its path. -/
theorem liesAt_of_spawns (hlies : LiesAt root spec.path spec.depth)
    (h : (coreReadDirCallback (E := E) os opts).Spawns spec child) :
    LiesAt root child.path child.depth := by
  rcases spawns_cases h with ⟨attempt, name, hname, rfl⟩ | ⟨ctx, result, hreturn, hchild⟩
  · exact hlies.join (hnames _ _ _ hname)
  · obtain ⟨readDir, e', rfl, hmem, hspec⟩ := exists_entry_of_mem_childSpecs hchild
    obtain ⟨path, hpath, rfl⟩ := Option.map_eq_some_iff.mp hspec
    obtain ⟨attempt, results, hlisting, hleaves⟩ := leaves_of_mayReturn hreturn hmem
    obtain ⟨e, he, hdepth, -, hkept⟩ := entry_of_leaves hprocess hleaves
    rcases entered_of_mem_rawListing hlisting he with ⟨entry, hentered, hresult⟩ | ⟨_, _, herr, -⟩
    · obtain ⟨hdepth', -, -, hpaths⟩ := of_processDirEntryResult_ok hresult.symm
      have hpath' : path = entry.path :=
        (hpaths path (hkept path hpath)).elim id (hentered.readChildrenPath path)
      change LiesAt root path e'.depth
      rw [hdepth, hdepth', hpath']
      exact hentered.liesAt hnames hlies rfl
    · cases herr

include hnames hprocess in
/-- **Every read of a walk is made for the depth of its path.** -/
theorem liesAt_of_lineage {chain : List (ReadDirSpec B)}
    (h : Lineage (rootSpecs (rootEntryResults os opts root state))
      (coreReadDirCallback (E := E) os opts).Spawns (spec :: chain)) :
    LiesAt root spec.path spec.depth :=
  h.forall_mem (p := fun spec => LiesAt root spec.path spec.depth)
    (fun _ => liesAt_of_rootSpecs hprocess)
    (fun _ _ hlies => liesAt_of_spawns hnames hprocess hlies) spec List.mem_cons_self

/-! ### Reads that do not fail -/

/-- Some attempt lists the directory, and the attempts before it fail with transient errors. -/
def OperatingSystem.Lists (os : OperatingSystem) (maxRetries : ℕ) (path : Path) : Prop :=
  ∃ k ≤ maxRetries, os.listingError path k = none ∧
    ∀ j < k, ∃ err, os.listingError path j = some err ∧ isTransientIoError os.platform err = true

/-- **The condition on a read.** It is the read of the root, or one that opens nothing because of
its depth, or it does not fail: the directory is listed, and a first attempt that streams does not
come to an error after it has scheduled a subdirectory. -/
def Unfailing (os : OperatingSystem) (opts : WalkDirOptions B E) (spec : ReadDirSpec B)
    (ctx : Option StreamingContext) : Prop :=
  spec.depth = 0 ∨ opts.maxDepth < saturatingAdd spec.depth 1 ∨
    os.Lists opts.maxRetries spec.path ∧
      (ctx ≠ none → Scheduling os opts spec.path 0 → os.listingError spec.path 0 = none)

variable {ctx : Option StreamingContext} {result : ReadDirResult B E}

omit [Inhabited E] in
/-- A last attempt does not fail if some attempt lists the directory. -/
theorem OperatingSystem.Lists.listingError_eq {attempt : ℕ} {path : Path} {ioErr : IoError}
    (h : os.Lists opts.maxRetries path)
    (hbefore : ∀ j < attempt, ∃ err, os.listingError path j = some err ∧
      isTransientIoError os.platform err = true)
    (herror : os.listingError path attempt = some ioErr) :
    attempt ≠ opts.maxRetries ∧ isTransientIoError os.platform ioErr = true := by
  obtain ⟨k, hk, hlists, htransient⟩ := h
  rcases Nat.lt_trichotomy attempt k with hlt | rfl | hgt
  · obtain ⟨err, herr, htrans⟩ := htransient attempt hlt
    obtain rfl := Option.some.inj (herror.symm.trans herr)
    exact ⟨by omega, htrans⟩
  · rw [hlists] at herror
    cases herror
  · obtain ⟨err, herr, -⟩ := hbefore k hgt
    rw [hlists] at herr
    cases herr

include hnames hprocess in
/-- **A read that does not fail brings errors with right depths only.** -/
theorem carries_of_mayReturn (hlies : LiesAt root spec.path spec.depth)
    (hread : Unfailing os opts spec ctx)
    (h : MayReturn (coreReadDirCallback os opts spec ctx) result) :
    ReadDirResult.Carries (fun err => err.RightDepth root) result := by
  rcases mayReturn_coreReadDirCallback h with ⟨-, rfl⟩ | ⟨attempt, n, hlast⟩
  · intro result hmem
    exact absurd hmem List.not_mem_nil
  cases hlisting : rawListing (E := E) os opts attempt (readRequest os.systemCalls opts spec none)
    with
  | ok results =>
    rw [hlast.result_eq, hlisting]
    intro result hmem
    exact carries_of_leaves hprocess (carries_of_mem_rawListing hnames hlies rfl hlisting)
      (leaves_of_mem_finishReadDir hmem)
  | error ioErr =>
    have herror : os.listingError spec.path attempt = some ioErr :=
      rawListing_eq_error_iff.mp hlisting
    have hright : (Error.fromPath 0 spec.path ioErr).RightDepth root := by
      rcases hread with hzero | hmax | ⟨hlists, hmidway⟩
      · exact rightDepth_fromPath (hzero ▸ hlies)
      · exact absurd hlast.opens (Nat.not_le.mpr hmax)
      · exfalso
        obtain ⟨hne, htransient⟩ :=
          hlists.listingError_eq hlast.before herror
        by_cases hn : n = 0
        · -- then the read would have been retried
          have hresult : result = .error (Error.fromPath 0 spec.path ioErr) := by
            rw [hlast.result_eq, hlisting, hn]
            rfl
          rcases hlast.error _ hresult with hmax | hnot
          · exact hne hmax
          · exact absurd htransient (by simpa [isTransientError, Error.fromPath] using hnot)
        · obtain ⟨rfl, hctx, hscheduling⟩ := hlast.scheduling hn
          rw [hmidway hctx hscheduling] at herror
          cases herror
    rw [hlast.result_eq, hlisting, attemptOutcome]
    split_ifs
    · intro result hmem
      rw [List.mem_singleton.mp hmem]
      exact hright
    · exact hright

include hnames hprocess in
/-- For a read of the serial walk the condition is exact. -/
theorem carries_read_iff (hroot : root.rejoined = root)
    (hlies : LiesAt root spec.path spec.depth) :
    ReadDirResult.Carries (fun err => err.RightDepth root)
      ((coreReadDirCallback (E := E) os opts).read spec) ↔ Unfailing os opts spec none := by
  have hreturn : MayReturn (coreReadDirCallback (E := E) os opts spec none)
      ((coreReadDirCallback os opts).read spec) := mayReturn_value _ _
  refine ⟨fun hcarries => ?_, fun hread =>
    carries_of_mayReturn hnames hprocess hlies hread hreturn⟩
  rcases mayReturn_coreReadDirCallback hreturn with ⟨hmax, -⟩ | ⟨attempt, n, hlast⟩
  · exact Or.inr (Or.inl hmax)
  cases hlisting : rawListing (E := E) os opts attempt (readRequest os.systemCalls opts spec none)
    with
  | ok results =>
    have hnone : os.listingError spec.path attempt = none := by
      cases herror : os.listingError spec.path attempt with
      | none => rfl
      | some ioErr =>
        rw [rawListing_eq_error_iff.mpr herror] at hlisting
        cases hlisting
    exact Or.inr (Or.inr ⟨⟨attempt, hlast.le_maxRetries, hnone, hlast.before⟩,
      fun hctx => absurd rfl hctx⟩)
  | error ioErr =>
    -- nothing has been scheduled, and the error is right at the root only
    have hn : n = 0 := by
      by_contra hn
      exact (hlast.scheduling hn).2.1 rfl
    rw [hlast.result_eq, hlisting, hn] at hcarries
    exact Or.inl ((rightDepth_fromPath_iff hroot hlies).mp hcarries)

/-! ### The errors of a walk -/

omit [Inhabited E] in
theorem of_surfacedErrors {P : Error → Prop} {st : IterState E} (h : st.Carries P) {err : Error}
    (herr : err ∈ surfacedErrors st.items) : P err := by
  obtain ⟨item, hitem, hsurfaced⟩ := List.mem_filterMap.mp herr
  have hcarries := h.items item hitem
  cases item with
  | error err' =>
    obtain rfl := Option.some.inj hsurfaced
    exact hcarries
  | ok e => exact hcarries err hsurfaced

/-- **The depths of errors.** In every run of a walk in which no read below the root fails, all
errors are reported at the depths of their paths. -/
structure RightDepths (os : OperatingSystem) (opts : WalkDirOptions B E) (root : Path) (state : B) :
    Prop where
  serial : ∀ minDepth n,
    (∀ spec ∈ (serialWalk (rootEntryResults os opts root state) minDepth).reads
      (coreReadDirCallback (E := E) os opts) n, Unfailing os opts spec none) →
    ∀ err ∈ surfacedErrors ((serialWalk (rootEntryResults os opts root state) minDepth).steps
      (coreReadDirCallback os opts) n).iter.items, err.RightDepth root
  parallel : ∀ N capacity hcapacity sendsMayFail maxReceiveBufferSize minDepth,
    ∀ w : ParWalk B E N,
    ParWalk.Reaches (.walk (coreReadDirCallback os opts) capacity hcapacity sendsMayFail)
      (.init N (rootEntryResults os opts root state) minDepth maxReceiveBufferSize) w →
    (∀ item ∈ w.run.taken, Unfailing os opts item.value (some ⟨item.indexPath, item.weight⟩)) →
    ∀ err ∈ surfacedErrors w.iter.items, err.RightDepth root

/-- **Which walks report all errors at the right depth.** -/
theorem rightDepths (os : OperatingSystem) (opts : WalkDirOptions B E)
    (hnames : ∀ path attempt, ∀ name ∈ os.names path attempt, ValidName name)
    (hprocess : ∀ process ∈ opts.processReadDir, KeepsDepths process) (root : Path) (state : B) :
    RightDepths os opts root state where
  serial minDepth n hreads err herr := by
    refine of_surfacedErrors (SerialWalk.carries_steps (rightDepth_busy root)
      (IterState.carries_new (carries_rootEntryResults hprocess root state))
      fun spec hspec => ?_) herr
    obtain ⟨chain, hchain⟩ :=
      (SerialWalk.stackDescends_serialWalk _ minDepth).of_mem_reads hspec
    exact carries_of_mayReturn hnames hprocess (liesAt_of_lineage hnames hprocess hchain)
      (hreads spec hspec) (mayReturn_value _ _)
  parallel N capacity hcapacity sendsMayFail maxReceiveBufferSize minDepth w h hreads err herr := by
    refine of_surfacedErrors (ParWalk.carries_of_reaches (rightDepth_busy root)
      (carries_rootEntryResults hprocess root state) h fun item hitem result hresult => ?_) herr
    obtain ⟨chain, hchain⟩ := RunState.descends_of_taken h.run hitem
    exact carries_of_mayReturn hnames hprocess (liesAt_of_lineage hnames hprocess hchain)
      (hreads item hitem) hresult

end Walk

/-- A tree of Linux: a directory `a` in the root `r`, and in `a` a link `b` that leads nowhere. -/
def brokenLinux : LinuxCalls :=
  { LinuxCalls.listing fun path =>
      if path = ⟨[.normal [114]]⟩ then ⟨[(DT_DIR, [97])], none⟩
      else if path = ⟨[.normal [114], .normal [97]]⟩ then ⟨[(DT_LNK, [98])], none⟩
      else ⟨[], some (.os 20)⟩ with
    symlinkMetadata := fun _ => .ok (.ofMode S_IFDIR 1 1) }

/-- A walk that follows links, with a callback that turns listings around. -/
def followReversed : WalkDirOptions Unit Unit :=
  { (WalkDirOptions.new : WalkDirOptions Unit Unit) with
    followLinks := true
    processReadDir := some fun _ _ state results => (state, results.reverse) }

/-- No read of this walk of `r` fails, and the error of the link is reported at the depth of the
link. -/
theorem rightDepths_brokenLink :
    let w := serialWalk
      (rootEntryResults (.linux brokenLinux) followReversed ⟨[.normal [114]]⟩ ()) 0
    let callback := coreReadDirCallback (.linux brokenLinux) followReversed
    (∀ spec ∈ w.reads callback 8, Unfailing (.linux brokenLinux) followReversed spec none) ∧
    surfacedErrors (w.steps callback 8).iter.items =
      [Error.fromPath 2 ⟨[.normal [114], .normal [97], .normal [98]]⟩ (.os 2)] ∧
    ∀ err ∈ surfacedErrors (w.steps callback 8).iter.items, err.RightDepth ⟨[.normal [114]]⟩ := by
  intro w callback
  have hright : RightDepths (.linux brokenLinux) followReversed ⟨[.normal [114]]⟩ () := by
    refine rightDepths _ _ (fun path attempt name hname => ?_) (fun process hprocess => ?_) _ _
    · have hnames : (OperatingSystem.linux brokenLinux).names path attempt =
          if path = ⟨[.normal [114]]⟩ then [[97]]
          else if path = ⟨[.normal [114], .normal [97]]⟩ then [[98]] else [] := by
        simp only [OperatingSystem.names, linuxRecords, brokenLinux, LinuxCalls.listing]
        split_ifs <;> rfl
      rw [hnames] at hname
      split_ifs at hname
      · obtain rfl := List.mem_singleton.mp hname
        decide
      · obtain rfl := List.mem_singleton.mp hname
        decide
      · exact absurd hname List.not_mem_nil
    · obtain rfl := Option.some.inj hprocess
      exact fun depth path state results => ⟨fun err herr => List.mem_reverse.mp herr,
        fun e' hmem => ⟨e', List.mem_reverse.mp hmem, rfl, fun _ => id, fun _ => id⟩⟩
  have hlists : ∀ spec ∈ w.reads callback 8,
      (OperatingSystem.linux brokenLinux).listingError spec.path 0 = none := by decide +kernel
  have hreads : ∀ spec ∈ w.reads callback 8,
      Unfailing (.linux brokenLinux) followReversed spec none := fun spec hspec =>
    Or.inr (Or.inr ⟨⟨0, Nat.zero_le _, hlists spec hspec,
      fun j hj => absurd hj (Nat.not_lt_zero j)⟩, fun hctx => absurd rfl hctx⟩)
  have hserial (n : ℕ) (hn : ∀ spec ∈ w.reads callback n,
      Unfailing (.linux brokenLinux) followReversed spec none) :
      ∀ err ∈ surfacedErrors (w.steps callback n).iter.items,
        err.RightDepth ⟨[.normal [114]]⟩ := hright.serial 0 n hn
  exact ⟨hreads, by decide +kernel, hserial 8 hreads⟩

/-- A tree of Linux: a directory `a` in the root `r`, which may not be opened. -/
def deniedLinux : LinuxCalls :=
  { LinuxCalls.listing fun path =>
      if path = ⟨[.normal [114]]⟩ then ⟨[(DT_DIR, [97])], none⟩ else ⟨[], some (.os 13)⟩ with
    symlinkMetadata := fun _ => .ok (.ofMode S_IFDIR 1 1) }

/-- The error of the directory `a` is reported at the depth of the root. -/
theorem not_rightDepth_denied :
    ∃ n, ∃ err ∈ surfacedErrors ((serialWalk (rootEntryResults (.linux deniedLinux)
        (WalkDirOptions.new : WalkDirOptions Unit Unit) ⟨[.normal [114]]⟩ ()) 0).steps
        (coreReadDirCallback (.linux deniedLinux) WalkDirOptions.new) n).iter.items,
      err.path = some ⟨[.normal [114], .normal [97]]⟩ ∧
      LiesAt ⟨[.normal [114]]⟩ ⟨[.normal [114], .normal [97]]⟩ 1 ∧ err.depth = 0 ∧
      ¬ err.RightDepth ⟨[.normal [114]]⟩ := by
  have hlies : LiesAt ⟨[.normal [114]]⟩ ⟨[.normal [114], .normal [97]]⟩ 1 :=
    ⟨_, Or.inl rfl, [[97]], by decide, rfl, rfl⟩
  refine ⟨4, Error.fromPath 0 ⟨[.normal [114], .normal [97]]⟩ (.os 13), ?_, rfl, hlies, rfl, ?_⟩
  · have herrors : surfacedErrors ((serialWalk (rootEntryResults (.linux deniedLinux)
        (WalkDirOptions.new : WalkDirOptions Unit Unit) ⟨[.normal [114]]⟩ ()) 0).steps
        (coreReadDirCallback (.linux deniedLinux) WalkDirOptions.new) 4).iter.items =
          [Error.fromPath 0 ⟨[.normal [114], .normal [97]]⟩ (.os 13)] := by
      decide +kernel
    rw [herrors]
    exact List.mem_singleton_self _
  · rw [rightDepth_fromPath_iff (by decide) hlies]
    exact Nat.one_ne_zero

end JwalkMeta
