import JwalkMeta.Lib.Thinning
import JwalkMeta.WalkDir.Ahead
import JwalkMeta.WalkDir.Order
import JwalkMeta.WalkDir.StdListing

/-!
# Walks that skip hidden entries

With the option `skip_hidden` every listing leaves out its hidden entries; an error that has come
before the name is looked at stays. So the entries of the walk are those of the walk without the
option that have no hidden entry on the way from the root to them, in the same order, and no item is
new. What is hidden is decided by names, and on Windows by the attributes of the listing as well.

Source: `src/lib.rs`.

## Main definitions

* `OperatingSystem.Hides`: what is hidden on a platform.
* `Path.visibleBelow`: there is nothing hidden on the way to a path.

## Main results

* `thinned_read`: what the option leaves of a read.
* `skip_hidden`: the walk with the option.
* `hidden_unread`: the reads of a parallel walk with the option, in any order of steps.
-/

namespace JwalkMeta

open Interaction SerialWalk

variable {B E : Type} {N : ℕ} {hidden : Path → Bool}

/-! ### Hidden entries -/

/-- The options with `skip_hidden`. -/
def WalkDirOptions.hiding (opts : WalkDirOptions B E) : WalkDirOptions B E :=
  { opts with skipHidden := true }

/-- **What is hidden on a platform**: the paths whose entries are hidden, wherever they are
listed. -/
def OperatingSystem.Hides (hidden : Path → Bool) : OperatingSystem → Prop
  | .linux calls => ∀ path attempt, ∀ info ∈ (linuxRecords calls path attempt).records,
      hidden (path.join info.name) = isHidden info.name
  | .windows calls => ∀ path attempt, ∀ info ∈ (windowsRecords calls path attempt).records,
      hidden (path.join info.fileName) = isHiddenWin32 info.fileName info.fileAttributes
  | .unix calls => ∀ path attempt entries, calls.readDir path attempt = .ok entries →
      ∀ entry, .ok entry ∈ entries →
        hidden (path.join entry.fileName) = isHidden entry.fileName

/-- Apart from Windows, an entry is hidden if its name starts with a dot. -/
theorem hides_dotNames {os : OperatingSystem} (hos : os.platform = .unix)
    (hnames : ∀ path attempt, ∀ name ∈ os.names path attempt, ValidName name) :
    os.Hides fun path => path.fileName.any isHidden := by
  have hjoin {name : OsString} (hname : ValidName name) (path : Path) :
      ((path.join name).fileName.any isHidden) = isHidden name := by
    rw [hname.fileName_join]
    rfl
  cases os with
  | linux calls =>
    exact fun path attempt info hinfo =>
      hjoin (hnames path attempt info.name (List.mem_map_of_mem hinfo)) path
  | windows calls => cases hos
  | unix calls =>
    intro path attempt entries hread entry hentry
    refine hjoin (hnames path attempt entry.fileName ?_) path
    simp only [OperatingSystem.names, hread]
    exact List.mem_filterMap.mpr ⟨_, hentry, rfl⟩

/-- A result that is hidden, or not, if it is an entry. -/
def Shows (hidden : Path → Bool) (value : Bool) (result : Except Error (DirEntry E)) : Prop :=
  ∀ e, result = .ok e → hidden e.path = value

theorem shows_error (value : Bool) (err : Error) :
    Shows (E := E) hidden value (.error err) := fun _ h => by cases h

/-- The results of a listing without hidden ones. -/
abbrev Thinned (hidden : Path → Bool) :
    List (Except Error (DirEntry E)) → List (Except Error (DirEntry E)) → Prop :=
  Thins (Shows hidden false) (Shows hidden true)

/-! ### Listings without hidden entries -/

/-- An error that comes before the name is looked at stays. -/
theorem picks_error (err : Error) :
    Thins.Picks (Shows (E := E) hidden false) (Shows hidden true) (some (.error err))
      (some (.error err)) :=
  Or.inl ⟨rfl, fun _ ha => Option.some.inj ha ▸ shows_error false err⟩

section Listings

variable [Inhabited E] {os : OperatingSystem} {opts : WalkDirOptions B E} {attempt : ℕ}
  {req : ReadRequest B}

/-- What becomes of a hidden entry is hidden, and what becomes of another one is not. -/
theorem shows_processDirEntryResult
    (hnames : ∀ name ∈ os.names req.path attempt, ValidName name) {e : DirEntry E}
    (hentered : Entered os attempt req e) {skip : Bool}
    (hhides : hidden (req.path.join e.fileName) = skip) (calls : SystemCalls) (followLinks : Bool) :
    Shows hidden skip (processDirEntryResult calls followLinks (.ok e)) := by
  intro e' he'
  obtain ⟨hfileName, hparent⟩ := names_processDirEntryResult (hnames _ hentered.fileName_mem) he'
  rw [DirEntry.path, hfileName, hparent, hentered.parentPath_eq, hhides]

variable (hskip : opts.skipHidden = false)

include hskip

omit [Inhabited E] in
/-- What the option makes of a result: it is left out if it is hidden. -/
theorem picks_hiding {skip : Bool} {result : Except Error (DirEntry E)}
    (hshows : Shows hidden skip result) :
    Thins.Picks (Shows hidden false) (Shows hidden true)
      (if opts.skipHidden && skip then none else some result)
      (if opts.hiding.skipHidden && skip then none else some result) := by
  rw [hskip, WalkDirOptions.hiding]
  cases skip with
  | false =>
    refine Or.inl ⟨rfl, fun a ha => ?_⟩
    obtain rfl := Option.some.inj ha
    exact hshows
  | true =>
    refine Or.inr ⟨rfl, fun a ha => ?_⟩
    obtain rfl := Option.some.inj ha
    exact hshows

/-- The results for one entry of `read_dir_unix_fs_legacy`. -/
theorem picks_unixResult {calls : UnixCalls} {entries : List (Except IoError FsDirEntry)}
    (hread : calls.readDir req.path attempt = .ok entries)
    (hnames : ∀ name ∈ (OperatingSystem.unix calls).names req.path attempt, ValidName name)
    (hhides : (OperatingSystem.unix calls).Hides hidden) {entry : Except IoError FsDirEntry}
    (hentry : entry ∈ entries) :
    Thins.Picks (Shows (E := E) hidden false) (Shows hidden true) (unixResult calls opts req entry)
      (unixResult calls opts.hiding req entry) := by
  cases entry with
  | error ioErr => exact picks_error _
  | ok found =>
    have hmem : found.fileName ∈ (OperatingSystem.unix calls).names req.path attempt := by
      simp only [OperatingSystem.names, hread]
      exact List.mem_filterMap.mpr ⟨_, hentry, rfl⟩
    have hmetadata : opts.hiding.readMetadata = opts.readMetadata := rfl
    have hmetadataExt : opts.hiding.readMetadataExt = opts.readMetadataExt := rfl
    simp only [unixResult, hmetadata, hmetadataExt]
    cases legacyMetadata calls req.readDirContentsDepth req.path found opts.readMetadata
        opts.readMetadataExt with
    | error err => exact picks_error err
    | ok metadata =>
      simp only [DirEntry.fromEntry]
      cases found.fileType with
      | error ioErr => exact picks_error _
      | ok fileType =>
        exact picks_hiding hskip (shows_processDirEntryResult hnames (entered_fromRaw hmem)
          (hhides req.path attempt entries hread found hentry) _ _)

/-- **What the option leaves of a listing.** -/
theorem thinned_rawListing (hnames : ∀ name ∈ os.names req.path attempt, ValidName name)
    (hhides : os.Hides hidden) :
    (∃ err, rawListing (E := E) os opts attempt req = .error err ∧
        rawListing (E := E) os opts.hiding attempt req = .error err) ∨
      ∃ results results', rawListing os opts attempt req = .ok results ∧
        rawListing os opts.hiding attempt req = .ok results' ∧ Thinned hidden results results' := by
  cases os with
  | linux calls =>
    simp only [rawListing]
    cases (linuxRecords calls req.path attempt).error with
    | some err => exact Or.inl ⟨err, rfl, rfl⟩
    | none =>
      refine Or.inr ⟨_, _, rfl, rfl, Thins.filterMap fun info hinfo => ?_⟩
      obtain ⟨statx, hbatch, -⟩ :=
        batchStatx_eq calls opts req.path (linuxRecords calls req.path attempt).records
      rw [hbatch] at hinfo
      obtain ⟨record, hrecord, rfl⟩ := List.mem_map.mp hinfo
      have hmem : record.name ∈ (OperatingSystem.linux calls).names req.path attempt :=
        List.mem_map_of_mem hrecord
      have hentered : Entered (.linux calls) attempt req (makeDirEntryLinux (E := E) calls
          { record with statx := statx record } req.readDirContentsDepth req.path opts.readMetadata
          opts.readMetadataExt req.followLinkAncestors) := entered_makeDirEntryLinux hmem
      refine picks_hiding hskip (shows_processDirEntryResult hnames hentered ?_ _ _)
      rw [fileName_makeDirEntryLinux]
      exact hhides req.path attempt record hrecord
  | windows calls =>
    simp only [rawListing]
    cases (windowsRecords calls req.path attempt).error with
    | some err => exact Or.inl ⟨err, rfl, rfl⟩
    | none =>
      refine Or.inr ⟨_, _, rfl, rfl, Thins.filterMap fun info hinfo => ?_⟩
      obtain ⟨fill, hfill, hsame⟩ :=
        linkedRecords_eq calls opts req.path (windowsRecords calls req.path attempt).records
      rw [hfill] at hinfo
      obtain ⟨record, hrecord, rfl⟩ := List.mem_map.mp hinfo
      have hmem : (fill record).fileName ∈
          (OperatingSystem.windows calls).names req.path attempt := by
        rw [(hsame record).1]
        exact List.mem_map_of_mem hrecord
      refine picks_hiding hskip (shows_processDirEntryResult hnames (entered_fromRaw hmem) ?_ _ _)
      have hrecordHides := hhides req.path attempt record hrecord
      rwa [← (hsame record).1, ← (hsame record).2] at hrecordHides
  | unix calls =>
    simp only [rawListing]
    cases hread : calls.readDir req.path attempt with
    | error err => exact Or.inl ⟨err, rfl, rfl⟩
    | ok entries =>
      exact Or.inr ⟨_, _, rfl, rfl,
        Thins.filterMap fun _ hentry => picks_unixResult hskip hread hnames hhides hentry⟩

/-- What the option leaves of the listing that the retries of a read come to: an attempt fails with
the option if and only if it fails without it. -/
theorem thinned_lastListing (hnames : ∀ attempt, ∀ name ∈ os.names req.path attempt, ValidName name)
    (hhides : os.Hides hidden) (retries attempt : ℕ) :
    (∃ err, lastListing (E := E) os opts req retries attempt = .error err ∧
        lastListing (E := E) os opts.hiding req retries attempt = .error err) ∨
      ∃ results results', lastListing os opts req retries attempt = .ok results ∧
        lastListing os opts.hiding req retries attempt = .ok results' ∧
        Thinned hidden results results' := by
  induction retries generalizing attempt with
  | zero => exact thinned_rawListing hskip (hnames attempt) hhides
  | succ retries ih =>
    rw [lastListing, lastListing]
    rcases thinned_rawListing (E := E) hskip (hnames attempt) hhides with
      ⟨err, h, h'⟩ | ⟨results, results', h, h', hthinned⟩
    · rw [h, h']
      simp only
      split_ifs
      · exact ih (attempt + 1)
      · exact Or.inl ⟨err, rfl, rfl⟩
    · rw [h, h']
      exact Or.inr ⟨results, results', rfl, rfl, hthinned⟩

end Listings

/-! ### Reads without hidden entries -/

/-- What the option leaves of the results of a read, with the same state for the children. -/
def ThinsReads (hidden : Path → Bool) (read read' : ReadDirSpec B → ReadDirResult B E) : Prop :=
  ∀ spec, (∃ err, read spec = .error err ∧ read' spec = .error err) ∨
    ∃ readDir readDir', read spec = .ok readDir ∧ read' spec = .ok readDir' ∧
      readDir'.readDirState = readDir.readDirState ∧
      Thinned hidden readDir.resultsList readDir'.resultsList

/-- Sorting keeps to it. -/
theorem Thinned.sort {results results' : List (Except Error (DirEntry E))}
    (h : Thinned hidden results results') :
    Thinned hidden (sortDirEntriesByName results) (sortDirEntriesByName results') := by
  obtain ⟨le, hsort, htrans, htotal, -⟩ := exists_sort_order (E := E)
  rw [hsort, hsort]
  exact h.mergeSort htrans htotal

section Reads

variable [Inhabited E] {os : OperatingSystem} {opts : WalkDirOptions B E}
  (hprocess : opts.processReadDir = none)
  (hnames : ∀ path attempt, ∀ name ∈ os.names path attempt, ValidName name)

include hprocess hnames

/-- **What the option leaves of a read.** -/
theorem thinned_read (hskip : opts.skipHidden = false) (hhides : os.Hides hidden) :
    ThinsReads hidden (coreReadDirCallback (E := E) os opts).read
      (coreReadDirCallback os opts.hiding).read := by
  intro spec
  have hmax : opts.hiding.maxDepth = opts.maxDepth := rfl
  have hretries : opts.hiding.maxRetries = opts.maxRetries := rfl
  have hreq : readRequest os.systemCalls opts.hiding spec none =
      readRequest os.systemCalls opts spec none := rfl
  rw [read_eq, read_eq, hmax, hretries, hreq]
  split_ifs with hdepth
  · exact Or.inr ⟨_, _, rfl, rfl, rfl, .nil⟩
  · rcases thinned_lastListing (E := E) hskip (hnames _) hhides opts.maxRetries 0 with
      ⟨err, h, h'⟩ | ⟨results, results', h, h', hthinned⟩
    · rw [h, h']
      exact Or.inl ⟨_, rfl, rfl⟩
    · rw [h, h']
      refine Or.inr ⟨_, _, rfl, rfl, ?_⟩
      have hsort : opts.hiding.sort = opts.sort := rfl
      have hprocess' : opts.hiding.processReadDir = none := hprocess
      simp only [finishReadDir, hprocess, hprocess', hsort, true_and]
      split_ifs
      · exact hthinned.sort
      · exact hthinned

/-- The entries of a read stand in the directory. -/
theorem standing_read {spec : ReadDirSpec B} {readDir : ReadDir B E}
    (h : (coreReadDirCallback os opts).read spec = .ok readDir) :
    Listed (fun _ _ => True) spec.path readDir.resultsList := by
  rcases listing_of_read h with hempty | ⟨attempt, results, hlisting, rfl⟩
  · rw [hempty]
    exact ⟨fun e he => absurd he List.not_mem_nil, fun e he => absurd he List.not_mem_nil,
      List.Pairwise.nil⟩
  · have hstanding := standing_rawListing (hnames _ attempt) hlisting
    have hperm := finishReadDir_perm hprocess (readRequest os.systemCalls opts spec none) 0 results
    exact ⟨fun e he => hstanding.path_eq e (hperm.mem_iff.mp he),
      fun e he => hstanding.readChildrenPath e (hperm.mem_iff.mp he),
      List.pairwise_of_forall fun _ _ _ _ _ _ => trivial⟩

end Reads

/-! ### Forests without hidden entries -/

/-- Whether nothing is hidden on the way from a place on. -/
def visibleFrom (hidden : Path → Bool) : List Component → List Component → Bool
  | _, [] => true
  | place, c :: rest => !hidden ⟨place ++ [c]⟩ && visibleFrom hidden (place ++ [c]) rest

/-- **Whether nothing is hidden on the way** from a directory to a path. The directory itself does
not matter, the path does. -/
def Path.visibleBelow (hidden : Path → Bool) (dir path : Path) : Bool :=
  visibleFrom hidden dir.components (path.components.drop dir.components.length)

theorem Path.visibleBelow_self (dir : Path) : dir.visibleBelow hidden dir = true := by
  simp [visibleBelow, visibleFrom]

/-- The way to what is at or below an entry of a directory leads through the entry. -/
theorem Path.visibleBelow_of_append {dir entry path : Path} {c : Component}
    {names : List Component} (hentry : entry.components = dir.components ++ [c])
    (hpath : path.components = entry.components ++ names) :
    dir.visibleBelow hidden path = (!hidden entry && entry.visibleBelow hidden path) := by
  have hdrop : path.components.drop dir.components.length = c :: names := by
    rw [hpath, hentry, List.append_assoc, List.drop_left]
    rfl
  have hdrop' : path.components.drop entry.components.length = names := by
    rw [hpath, List.drop_left]
  rw [visibleBelow, visibleBelow, hdrop, hdrop', visibleFrom, ← hentry]

/-- An entry of a walk with nothing hidden on the way to it. -/
def Visit.visible (hidden : Path → Bool) (dir : Path) (visit : Visit E) : Bool :=
  visit.path.any (dir.visibleBelow hidden)

section Forest

variable {read read' : ReadDirSpec B → ReadDirResult B E} {state : B} {dir : Path}
  {results results' : List (Except Error (DirEntry E))} {forest : Forest (Visit E)}

/-- What is visible of an entry and of what is below it. -/
theorem filter_visible_node {e : DirEntry E} {c : Component}
    (hentry : e.path.components = dir.components ++ [c]) (readError : Option Error)
    {below : Forest (Visit E)}
    (hbelow : ∀ p ∈ below.labels.filterMap Visit.path, ∃ names,
      p.components = e.path.components ++ names) (rest : Forest (Visit E)) :
    (Forest.node ⟨.ok e, readError⟩ below rest).labels.filter (Visit.visible hidden dir) =
      (if hidden e.path then []
        else ⟨.ok e, readError⟩ :: below.labels.filter (Visit.visible hidden e.path)) ++
        rest.labels.filter (Visit.visible hidden dir) := by
  have hself : Visit.visible hidden dir (⟨.ok e, readError⟩ : Visit E) = !hidden e.path := by
    have h : dir.visibleBelow hidden e.path =
        (!hidden e.path && e.path.visibleBelow hidden e.path) :=
      Path.visibleBelow_of_append hentry (List.append_nil _).symm
    rwa [Path.visibleBelow_self, Bool.and_true] at h
  have hothers (visit : Visit E) (hvisit : visit ∈ below.labels) :
      visit.visible hidden dir = (!hidden e.path && visit.visible hidden e.path) := by
    cases hpath : visit.path with
    | none => simp [Visit.visible, hpath]
    | some p =>
      obtain ⟨names, hnames⟩ := hbelow p (List.mem_filterMap.mpr ⟨visit, hvisit, hpath⟩)
      simp only [Visit.visible, hpath, Option.any_some]
      exact Path.visibleBelow_of_append hentry hnames
  rw [Forest.labels_node, List.filter_cons, List.filter_append, hself, List.filter_congr hothers]
  cases hidden e.path <;> simp

/-- **The forest of a walk that leaves out hidden entries**: none of its results is new, and its
entries are those with nothing hidden on the way. -/
theorem Unfolds.thin (h : Unfolds read state results forest) (hreads : ThinsReads hidden read read')
    (hstanding : ∀ spec readDir, read spec = .ok readDir →
      Listed (fun _ _ => True) spec.path readDir.resultsList)
    (hlisted : Listed (fun _ _ => True) dir results) (hthinned : Thinned hidden results results') :
    ∃ forest', Unfolds read' state results' forest' ∧ forest'.labels.Sublist forest.labels ∧
      (forest'.labels.filter fun visit => visit.path.isSome) =
        forest.labels.filter (Visit.visible hidden dir) := by
  -- the place of an entry
  have hplace {dir : Path} {e : DirEntry E} {rest : List (Except Error (DirEntry E))}
      (hlisted : Listed (fun _ _ => True) dir (.ok e :: rest)) :
      e.path.components = dir.components ++ [.normal e.fileName] := by
    obtain ⟨hname, hpath⟩ := hlisted.path_eq e List.mem_cons_self
    rw [hpath]
    exact hname.components_join dir
  induction h generalizing dir results' with
  | nil =>
    cases hthinned
    exact ⟨.nil, .nil, List.Sublist.slnil, rfl⟩
  | @error state err rest forest hrest ih =>
    cases hthinned with
    | keep ha hthinned =>
      obtain ⟨forest', hforest', hsublist, hfilter⟩ := ih hlisted.tail hthinned
      exact ⟨_, .error hforest', hsublist.cons_cons _, hfilter⟩
    | drop ha hthinned =>
      obtain ⟨forest', hforest', hsublist, hfilter⟩ := ih hlisted.tail hthinned
      exact ⟨forest', hforest', hsublist.cons _, hfilter⟩
  | @entry state e rest forest hspec hrest ih =>
    rw [filter_visible_node (hplace hlisted) none (by simp)]
    cases hthinned with
    | keep ha hthinned =>
      obtain ⟨forest', hforest', hsublist, hfilter⟩ := ih hlisted.tail hthinned
      refine ⟨_, .entry hspec hforest', hsublist.cons_cons _, ?_⟩
      rw [ha e rfl, ← hfilter]
      rfl
    | drop ha hthinned =>
      obtain ⟨forest', hforest', hsublist, hfilter⟩ := ih hlisted.tail hthinned
      refine ⟨forest', hforest', hsublist.cons _, ?_⟩
      rw [ha e rfl, ← hfilter]
      rfl
  | @failed state e spec err rest forest hspec hread hrest ih =>
    rw [filter_visible_node (hplace hlisted) (some err) (by simp)]
    cases hthinned with
    | keep ha hthinned =>
      obtain ⟨forest', hforest', hsublist, hfilter⟩ := ih hlisted.tail hthinned
      obtain ⟨err', herr, herr'⟩ | ⟨readDir, readDir', hok, -⟩ := hreads spec
      · obtain rfl := Except.error.inj (herr.symm.trans hread)
        refine ⟨_, .failed hspec herr' hforest', hsublist.cons_cons _, ?_⟩
        rw [ha e rfl, ← hfilter]
        rfl
      · rw [hread] at hok
        cases hok
    | drop ha hthinned =>
      obtain ⟨forest', hforest', hsublist, hfilter⟩ := ih hlisted.tail hthinned
      refine ⟨forest', hforest', hsublist.cons _, ?_⟩
      rw [ha e rfl, ← hfilter]
      rfl
  | @listed state e spec readDir rest below forest hspec hread hdir hrest ihdir ihrest =>
    -- the directory is read where its entry stands
    obtain ⟨readPath, hreadPath, rfl⟩ := Option.map_eq_some_iff.mp hspec
    obtain rfl : readPath = e.path := hlisted.readChildrenPath e List.mem_cons_self _ hreadPath
    have hbelow : Listed (fun _ _ => True) e.path readDir.resultsList := hstanding _ _ hread
    have hextends : ∀ p ∈ below.labels.filterMap Visit.path, ∃ names,
        p.components = e.path.components ++ names := fun p hp => by
      obtain ⟨c, names, hcomponents⟩ :=
        exists_append_of_mem_paths (hdir.located hstanding hbelow).2.1 hp
      exact ⟨c :: names, hcomponents⟩
    rw [filter_visible_node (hplace hlisted) none hextends]
    cases hthinned with
    | keep ha hthinned =>
      obtain ⟨forest', hforest', hsublist, hfilter⟩ := ihrest hlisted.tail hthinned
      obtain ⟨err', herr, -⟩ | ⟨readDir', readDir'', hok, hok', hstate, hbelow'⟩ := hreads
        ⟨e.depth, e.path, state, e.followLinkAncestors⟩
      · rw [hread] at herr
        cases herr
      · obtain rfl := Except.ok.inj (hok.symm.trans hread)
        obtain ⟨below', hunfolds, hsublist', hfilter'⟩ := ihdir hbelow hbelow'
        refine ⟨_, .listed hspec hok' (hstate ▸ hunfolds) hforest', ?_, ?_⟩
        · exact (hsublist'.append hsublist).cons_cons _
        · rw [ha e rfl, ← hfilter, ← hfilter', Forest.labels_node, List.filter_cons,
            List.filter_append]
          rfl
    | drop ha hthinned =>
      obtain ⟨forest', hforest', hsublist, hfilter⟩ := ihrest hlisted.tail hthinned
      refine ⟨forest', hforest', ?_, ?_⟩
      · exact (hsublist.trans (List.sublist_append_right _ _)).cons _
      · rw [ha e rfl, ← hfilter]
        rfl

/-- The forest of a walk from its root, which is there in any case. -/
theorem Unfolds.thin_root {result : Except Error (DirEntry E)} {root : Path}
    (h : Unfolds read state [result] forest) (hreads : ThinsReads hidden read read')
    (hstanding : ∀ spec readDir, read spec = .ok readDir →
      Listed (fun _ _ => True) spec.path readDir.resultsList)
    (hroot : ∀ e, result = .ok e → e.path = root ∧ ∀ path ∈ e.readChildrenPath, path = root) :
    ∃ forest', Unfolds read' state [result] forest' ∧ forest'.labels.Sublist forest.labels ∧
      (forest'.labels.filter fun visit => visit.path.isSome) =
        forest.labels.filter (Visit.visible hidden root) := by
  -- the root itself
  have hfilter {e : DirEntry E} (he : e.path = root) (readError : Option Error)
      {labels labels' : List (Visit E)}
      (h : (labels'.filter fun visit => visit.path.isSome) =
        labels.filter (Visit.visible hidden root)) :
      ((⟨.ok e, readError⟩ :: labels').filter fun visit : Visit E => visit.path.isSome) =
        (⟨.ok e, readError⟩ :: labels).filter (Visit.visible hidden root) := by
    have hvisible : Visit.visible hidden root (⟨.ok e, readError⟩ : Visit E) = true := by
      rw [← he]
      exact Path.visibleBelow_self e.path
    rw [List.filter_cons_of_pos rfl, List.filter_cons_of_pos hvisible, h]
  cases h with
  | error hrest =>
    cases hrest
    exact ⟨_, .error .nil, List.Sublist.refl _, rfl⟩
  | entry hspec hrest =>
    cases hrest
    exact ⟨_, .entry hspec .nil, List.Sublist.refl _, hfilter (hroot _ rfl).1 none rfl⟩
  | @failed _ e spec err _ _ hspec hread hrest =>
    cases hrest
    obtain ⟨err', herr, herr'⟩ | ⟨readDir, readDir', hok, -⟩ := hreads spec
    · obtain rfl := Except.error.inj (herr.symm.trans hread)
      exact ⟨_, .failed hspec herr' .nil, List.Sublist.refl _,
        hfilter (hroot _ rfl).1 (some err') rfl⟩
    · rw [hread] at hok
      cases hok
  | @listed _ e spec readDir _ below _ hspec hread hdir hrest =>
    cases hrest
    obtain ⟨hpath, hself⟩ := hroot e rfl
    obtain ⟨readPath, hreadPath, rfl⟩ := Option.map_eq_some_iff.mp hspec
    obtain rfl := hself readPath hreadPath
    obtain ⟨err', herr, -⟩ | ⟨readDir', readDir'', hok, hok', hstate, hbelow⟩ := hreads
      ⟨e.depth, readPath, state, e.followLinkAncestors⟩
    · rw [hread] at herr
      cases herr
    · obtain rfl := Except.ok.inj (hok.symm.trans hread)
      obtain ⟨below', hunfolds, hsublist, hbelow'⟩ :=
        hdir.thin hreads hstanding (hstanding _ _ hread) hbelow
      refine ⟨_, .listed hspec hok' (hstate ▸ hunfolds) .nil, ?_, ?_⟩
      · exact (hsublist.append (List.Sublist.refl _)).cons_cons _
      · refine hfilter hpath none ?_
        rw [Forest.labels_nil, List.append_nil, List.append_nil, hbelow']

/-- The entries of a walk are filtered by their paths. -/
theorem filter_entries (minDepth : ℕ) (p : Path → Bool) (labels : List (Visit E)) :
    (((labels.filterMap (Visit.emit minDepth)).filterMap Except.toOption).filter fun e =>
        p e.path) =
      (labels.filter fun visit => visit.path.any p).filterMap fun visit =>
        (visit.emit minDepth).bind Except.toOption := by
  rw [List.filterMap_filterMap, List.filter_filterMap, List.filterMap_filter]
  refine List.filterMap_congr fun visit _ => ?_
  cases hemit : visit.emit minDepth with
  | none => simp
  | some item =>
    have hpath := entryPath_of_emit hemit
    cases item with
    | error err => simp [Except.toOption]
    | ok e =>
      have hsome : visit.path = some e.path := hpath.symm
      rw [hsome]
      cases hp : p e.path <;> simp [Except.toOption, hp]

end Forest

/-- **A walk that skips hidden entries** is the walk without the option, but for what is hidden. Let
the walk without the option come to its end, from a root whose path is put together again. Then so
does the serial walk with it, and a parallel walk with it yields the same items if it comes to its
end: no item is new, and the entries among the items are those with nothing hidden on the way from
the root to them, in the same order. -/
theorem skip_hidden [Inhabited E] (os : OperatingSystem) (opts : WalkDirOptions B E)
    (hskip : opts.skipHidden = false) (hprocess : opts.processReadDir = none)
    (hnames : ∀ path attempt, ∀ name ∈ os.names path attempt, ValidName name)
    (hidden : Path → Bool) (hhides : os.Hides hidden) (root : Path) (hroot : root.rejoined = root)
    (state : B) (minDepth : ℕ) (items : List (Except Error (DirEntry E)))
    (hall : Completes os opts root state minDepth items) :
    ∃ items', CompletesOnly os opts.hiding root state minDepth items' ∧ items'.Sublist items ∧
      items'.filterMap Except.toOption =
        (items.filterMap Except.toOption).filter fun e => root.visibleBelow hidden e.path := by
  obtain ⟨forest, hforest, rfl⟩ := hall.unfolds (length_rootSpecs_le hprocess)
  have hresults := rootResults_of_none (E := E) os hprocess root state
  have hsame : rootEntryResults (E := E) os opts.hiding root state =
      rootEntryResults os opts root state := rfl
  rw [hresults] at hforest
  obtain ⟨forest', hforest', hsublist, hfilter⟩ := hforest.thin_root
    (thinned_read hprocess hnames hskip hhides) (fun _ _ => standing_read hprocess hnames)
    fun e he => path_of_root hroot he
  rw [← hresults, ← hsame] at hforest'
  have hprocess' : opts.hiding.processReadDir = none := hprocess
  refine ⟨_, completesOnly_of_unfolds (length_rootSpecs_le hprocess') hforest' minDepth,
    hsublist.filterMap _, ?_⟩
  have hall := filter_entries minDepth (fun _ => true) forest'.labels
  rw [List.filter_true] at hall
  rw [hall, filter_entries]
  simp only [Option.any_true, hfilter]
  rfl

/-- A Linux where the directory `r` has the hidden subdirectory `.a`, a file and the subdirectory
`b`, and each of the two has a file. -/
def hiddenLinux : LinuxCalls :=
  { LinuxCalls.listing fun path =>
      if path = ⟨[.normal [114]]⟩ then ⟨[(DT_DIR, [46, 97]), (8, [102]), (DT_DIR, [98])], none⟩
      else ⟨[(8, [103])], none⟩ with
    symlinkMetadata := fun _ => .ok (.ofMode S_IFDIR 1 1) }

theorem hiddenLinux_names (path : Path) (attempt : ℕ) :
    ∀ name ∈ (OperatingSystem.linux hiddenLinux).names path attempt, ValidName name := by
  simp only [OperatingSystem.names, linuxRecords, hiddenLinux, LinuxCalls.listing]
  split_ifs <;> decide

/-- The statement above for a walk of `r`: of six entries, four are left. -/
theorem skip_hidden_dot :
    ∃ items items' : List (Except Error (DirEntry Unit)), items.length = 6 ∧ items'.length = 4 ∧
      items'.Sublist items ∧ items'.filterMap Except.toOption =
        (items.filterMap Except.toOption).filter fun e =>
          (⟨[.normal [114]]⟩ : Path).visibleBelow (fun path => path.fileName.any isHidden)
            e.path := by
  have hall : Completes (.linux hiddenLinux) (WalkDirOptions.new : WalkDirOptions Unit Unit)
      ⟨[.normal [114]]⟩ () 0 ((serialWalk (rootEntryResults (.linux hiddenLinux)
        (WalkDirOptions.new : WalkDirOptions Unit Unit) ⟨[.normal [114]]⟩ ()) 0).steps
        (coreReadDirCallback (.linux hiddenLinux) .new) 14).iter.items :=
    .serial ⟨14, by decide +kernel, rfl⟩
  obtain ⟨items', honly, hsublist, hentries⟩ := skip_hidden (.linux hiddenLinux) .new rfl rfl
    hiddenLinux_names _ (hides_dotNames rfl hiddenLinux_names) ⟨[.normal [114]]⟩
    (by decide +kernel) () 0 _ hall
  have hhiding := honly.only _ (.serial ⟨10, by decide +kernel, rfl⟩)
  refine ⟨_, items', by decide +kernel, ?_, hsublist, hentries⟩
  rw [← hhiding]
  decide +kernel

/-! ### Reads in any order of steps -/

/-- A path with nothing hidden on the way from the root to it. -/
def Unhidden (hidden : Path → Bool) (root path : Path) : Prop :=
  ∃ names, path.components = root.components ++ names ∧
    visibleFrom hidden root.components names = true

theorem Unhidden.visibleBelow {root path : Path} (h : Unhidden hidden root path) :
    root.visibleBelow hidden path = true := by
  obtain ⟨names, hpath, hvisible⟩ := h
  rw [Path.visibleBelow, hpath, List.drop_left, hvisible]

theorem visibleFrom_concat (place names : List Component) (c : Component) :
    visibleFrom hidden place (names ++ [c]) =
      (visibleFrom hidden place names && !hidden ⟨place ++ names ++ [c]⟩) := by
  induction names generalizing place with
  | nil => simp [visibleFrom]
  | cons c' names ih =>
    rw [List.cons_append, visibleFrom, ih, visibleFrom, Bool.and_assoc, List.append_assoc place,
      List.singleton_append]

theorem Unhidden.join {root path : Path} (h : Unhidden hidden root path) {name : OsString}
    (hname : ValidName name) (hshown : hidden (path.join name) = false) :
    Unhidden hidden root (path.join name) := by
  obtain ⟨names, hpath, hvisible⟩ := h
  have hcomponents : (path.join name).components =
      root.components ++ (names ++ [.normal name]) := by
    rw [hname.components_join, hpath, List.append_assoc]
  refine ⟨_, hcomponents, ?_⟩
  rw [visibleFrom_concat, hvisible, List.append_assoc, ← hcomponents, hshown]
  rfl

section Spawns

variable [Inhabited E] {os : OperatingSystem} {opts : WalkDirOptions B E}
  (hskip : opts.skipHidden = true) (hhides : os.Hides hidden)

include hskip hhides

/-- A subdirectory that is scheduled while its directory is enumerated is not hidden. -/
theorem hidden_of_mayAsk {attempt : ℕ} {req : ReadRequest B} {weighted : Weighted (ReadDirSpec B)}
    (h : MayAsk (readDirOn (E := E) os opts attempt req) (.schedule weighted)) :
    ∃ name ∈ os.names req.path attempt, weighted.value.path = req.path.join name ∧
      hidden (req.path.join name) = false := by
  cases os with
  | linux calls =>
    obtain ⟨info, hinfo, hvalue⟩ := mayAsk_readDirWith h
    obtain ⟨hmem, hsubdir⟩ := List.mem_filter.mp hinfo
    refine ⟨_, List.mem_map_of_mem hmem, congrArg ReadDirSpec.path hvalue, ?_⟩
    rw [hhides req.path attempt info hmem]
    simp only [skipLinux, hskip, Bool.true_and, Bool.and_eq_true, Bool.not_eq_true',
      Bool.or_eq_false_iff] at hsubdir
    exact hsubdir.2.2
  | windows calls =>
    obtain ⟨info, hinfo, hvalue⟩ := mayAsk_readDirWith h
    obtain ⟨hmem, hsubdir⟩ := List.mem_filter.mp hinfo
    refine ⟨_, List.mem_map_of_mem hmem, congrArg ReadDirSpec.path hvalue, ?_⟩
    rw [hhides req.path attempt info hmem]
    simp only [skipWindows, hskip, Bool.true_and, Bool.and_eq_true, Bool.not_eq_true',
      Bool.or_eq_false_iff] at hsubdir
    exact hsubdir.2.1
  | unix calls =>
    simp only [readDirOn, readDirUnixFsLegacy] at h
    cases hlisting : calls.readDir req.path attempt <;> rw [hlisting] at h <;>
      exact absurd h mayAsk_done

/-- An entry of a listing is not hidden. -/
theorem hidden_of_mem_rawListing {attempt : ℕ} {req : ReadRequest B}
    (hnames : ∀ name ∈ os.names req.path attempt, ValidName name)
    {results : List (Except Error (DirEntry E))}
    (h : rawListing os opts attempt req = .ok results) {e : DirEntry E} (he : .ok e ∈ results) :
    hidden e.path = false := by
  -- the walk without the option
  obtain ⟨plain, hplain, rfl⟩ : ∃ plain : WalkDirOptions B E, plain.skipHidden = false ∧
      opts = plain.hiding :=
    ⟨{ opts with skipHidden := false }, rfl, by rw [WalkDirOptions.hiding, ← hskip]⟩
  rcases thinned_rawListing (E := E) hplain hnames hhides with
    ⟨err, -, herr⟩ | ⟨_, results', -, hok, hthinned⟩
  · rw [herr] at h
    cases h
  · obtain rfl := Except.ok.inj (hok.symm.trans h)
    exact hthinned.forall_keep _ he e rfl

variable (hprocess : ∀ process ∈ opts.processReadDir, KeepsDepths process)
  (hnames : ∀ path attempt, ∀ name ∈ os.names path attempt, ValidName name) {root : Path}

include hprocess hnames

/-- **Reads hand down that nothing is hidden on the way.** -/
theorem unhidden_of_spawns {spec child : ReadDirSpec B} (h : Unhidden hidden root spec.path)
    (hspawns : (coreReadDirCallback (E := E) os opts).Spawns spec child) :
    Unhidden hidden root child.path := by
  obtain ⟨ctx, ⟨weighted, hask, rfl⟩ | ⟨result, hreturn, hchild⟩⟩ := hspawns
  · -- a subdirectory that is scheduled while the directory is enumerated
    unfold coreReadDirCallback at hask
    dsimp only at hask
    split_ifs at hask
    · exact absurd hask mayAsk_done
    · obtain ⟨attempt, ctx', hask⟩ := mayAsk_retryTransientIo hask
      obtain ⟨name, hname, hpath, hshown⟩ := hidden_of_mayAsk hskip hhides hask
      rw [hpath]
      exact h.join (hnames _ _ _ hname) hshown
  · -- a directory that an entry of the result asks for
    obtain ⟨readDir, e', rfl, hmem, hspec⟩ := exists_entry_of_mem_childSpecs hchild
    obtain ⟨path, hpath, rfl⟩ := Option.map_eq_some_iff.mp hspec
    obtain ⟨attempt, results, hlisting, hleaves⟩ := leaves_of_mayReturn hreturn hmem
    obtain ⟨e, he, -, -, hkept⟩ := entry_of_leaves hprocess hleaves
    have hstanding := standing_rawListing (hnames _ attempt) hlisting
    obtain ⟨hname, hjoin⟩ := hstanding.path_eq e he
    have hshown := hidden_of_mem_rawListing hskip hhides (hnames _ attempt) hlisting he
    change Unhidden hidden root path
    rw [hstanding.readChildrenPath e he path (hkept path hpath), hjoin]
    exact h.join hname (hjoin ▸ hshown)

end Spawns

/-- A walk starts at its root. -/
theorem unhidden_of_rootSpecs [Inhabited E] {os : OperatingSystem} {opts : WalkDirOptions B E}
    (hprocess : ∀ process ∈ opts.processReadDir, KeepsDepths process) {root : Path}
    (hroot : root.rejoined = root) {state : B} {spec : ReadDirSpec B}
    (h : spec ∈ rootSpecs (rootEntryResults os opts root state)) :
    Unhidden hidden root spec.path := by
  obtain ⟨e', hmem, hspec⟩ := exists_entry_of_mem_rootSpecs h
  obtain ⟨path, hpath, rfl⟩ := Option.map_eq_some_iff.mp hspec
  obtain ⟨e, he, -, -, hkept⟩ := entry_of_leaves hprocess (leaves_of_mem_rootEntryResults hmem)
  obtain rfl : path = root :=
    (path_of_root hroot (List.mem_singleton.mp he).symm).2 path (hkept path hpath)
  exact ⟨[], (List.append_nil _).symm, rfl⟩

/-- **Nothing is read in a hidden directory.** In every reachable state of a parallel walk that
skips hidden entries, from a root whose path is put together again and which may be hidden itself,
whatever the operating system answers with valid names, whether the walk sorts or streams, whether
links are followed, and also after a stop: the directories whose reads have been put into the work
queue have nothing hidden on the way from the root to them. -/
theorem hidden_unread [Inhabited E] (os : OperatingSystem) (opts : WalkDirOptions B E)
    (hskip : opts.skipHidden = true)
    (hprocess : ∀ process ∈ opts.processReadDir, KeepsDepths process)
    (hnames : ∀ path attempt, ∀ name ∈ os.names path attempt, ValidName name)
    (hidden : Path → Bool) (hhides : os.Hides hidden) (root : Path) (hroot : root.rejoined = root)
    (state : B) (minDepth capacity : ℕ) (hcapacity : 0 < capacity) (sendsMayFail : Bool)
    (maxReceiveBufferSize : ℕ) (w : ParWalk B E N)
    (hreach : ParWalk.Reaches (.walk (coreReadDirCallback os opts) capacity hcapacity sendsMayFail)
      (.init N (rootEntryResults os opts root state) minDepth maxReceiveBufferSize) w) :
    ∀ item ∈ w.run.scheduled, root.visibleBelow hidden item.value.path = true := by
  intro item hitem
  have hrun := hreach.run
  have hdescended := RunState.descended_of_reaches RunState.descends_of_mayAsk
    RunState.descends_rootItems hrun
  have haccounted := RunState.accounted_of_reaches (disciplined_multiThreadedWalkDir _) hrun
  obtain ⟨ancestors, hlineage⟩ : RunState.Descends (rootSpecs (rootEntryResults os opts root state))
      (coreReadDirCallback os opts) item :=
    (List.mem_append.mp (haccounted.scheduled_perm.mem_iff.mp hitem)).elim
      (hdescended.taken item) (hdescended.queued item)
  exact (hlineage.forall_mem (p := fun spec => Unhidden hidden root spec.path)
    (fun _ => unhidden_of_rootSpecs hprocess hroot)
    (fun _ _ => unhidden_of_spawns hskip hhides hprocess hnames) _ List.mem_cons_self).visibleBelow

/-- The options of a walk that streams and skips hidden entries. -/
def hidingOptions : WalkDirOptions Unit Unit := { WalkDirOptions.new with skipHidden := true }

/-- The walk of `r` by two workers, after 20 rounds. -/
def hidingWalk : ParWalk Unit Unit 2 :=
  ParWalk.runActions (.walk (coreReadDirCallback (.linux hiddenLinux) hidingOptions) 2 Nat.two_pos
      false)
    (.init 2 (rootEntryResults (.linux hiddenLinux) hidingOptions ⟨[.normal [114]]⟩ ()) 0 4)
    (plainTurns 20)

/-- The statement above for this walk: `r` and `b` have been scheduled. -/
theorem hidden_unread_two_workers :
    hidingWalk.run.scheduled.length = 2 ∧ ∀ item ∈ hidingWalk.run.scheduled,
      (⟨[.normal [114]]⟩ : Path).visibleBelow (fun path => path.fileName.any isHidden)
        item.value.path = true :=
  ⟨by decide +kernel, hidden_unread (.linux hiddenLinux) hidingOptions rfl (fun _ h => by cases h)
    hiddenLinux_names _ (hides_dotNames rfl hiddenLinux_names) ⟨[.normal [114]]⟩
    (by decide +kernel) () 0 2 Nat.two_pos false 4 _ (ParWalk.reaches_runActions _ _ _)⟩

end JwalkMeta
