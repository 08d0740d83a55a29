import JwalkMeta.WalkDir.EntryMetadata
import JwalkMeta.WalkDir.Limits

/-!
# The options for metadata

The options `read_metadata`, `read_metadata_ext` and `read_hardlink_info` add calls on the entries
of a directory, a batch of calls on Linux, and numbers of links on Windows. What a walk yields is
otherwise the same: the same entries in the same order, with the same types and the same errors, and
the same directories are read. A type that the enumeration does not know is found by the same
calls whether metadata is wanted or not.

There is one exception: where neither the metadata nor the type of an entry of `std::fs::read_dir`
can be read, the error depends on the options.

Source: `src/lib.rs`, `src/core/dir_entry.rs`.

## Main definitions

* `DirEntry.bare`, `bareResult`: an entry without its metadata.
* `WalkDirOptions.bare`: the options without those for metadata.
* `OperatingSystem.ReadsTypes`: the type of every listed entry can be read.
* `IgnoresMetadata`: a client's callback that does not look at metadata.

## Main results

* `bareListing_rawListing`: a listing without its metadata.
* `DepthFirst.bare`: the walk without its metadata.
* `metadata_options`: the options for metadata change nothing else.
-/

namespace JwalkMeta

open Interaction SerialWalk

variable {B E : Type}

/-! ### Entries without metadata -/

/-- An entry without its metadata. -/
def DirEntry.bare (e : DirEntry E) : DirEntry E :=
  { e with readMetadata := false, metadata := none, readMetadataExt := false, metadataExt := none }

/-- A result without its metadata. -/
def bareResult : Except Error (DirEntry E) → Except Error (DirEntry E) := Except.map DirEntry.bare

@[simp] theorem bareResult_ok (e : DirEntry E) : bareResult (.ok e) = .ok e.bare := rfl

@[simp] theorem bareResult_error (err : Error) :
    bareResult (.error err : Except Error (DirEntry E)) = .error err := rfl

/-- Results that agree under a map are the same error, or values that agree. -/
theorem except_cases_of_map_eq {ε α β : Type} {f : α → β} {result result' : Except ε α}
    (h : result.map f = result'.map f) :
    (∃ err, result = .error err ∧ result' = .error err) ∨
      ∃ a a', result = .ok a ∧ result' = .ok a' ∧ f a = f a' := by
  cases result with
  | error err =>
    cases result' with
    | error err' =>
      obtain rfl := Except.error.inj h
      exact Or.inl ⟨err, rfl, rfl⟩
    | ok a' => cases h
  | ok a =>
    cases result' with
    | error err' => cases h
    | ok a' => exact Or.inr ⟨a, a', rfl, rfl, Except.ok.inj h⟩

section Entries

variable [Inhabited E]

theorem bareResult_fromPath (os : SystemCalls) (depth : ℕ) (path : Path)
    (readMetadata readMetadataExt followLink : Bool)
    (followLinkAncestors : Option (List AncestorIdentity)) :
    bareResult (DirEntry.fromPath (E := E) os depth path readMetadata readMetadataExt followLink
        followLinkAncestors) =
      bareResult (DirEntry.fromPath os depth path false false followLink followLinkAncestors) := by
  unfold DirEntry.fromPath
  cases (if followLink = true then os.metadata path else os.symlinkMetadata path) with
  | error err => rfl
  | ok metadata => rfl

/-- A link is followed in the same way without its metadata. -/
theorem bareResult_followSymlink (os : SystemCalls) (e : DirEntry E) :
    bareResult (e.followSymlink os) = bareResult (e.bare.followSymlink os) := by
  have hbare : e.bare.followSymlink os = (DirEntry.fromPath os e.depth e.path false false true
      e.followLinkAncestors).bind fun target =>
        if target.fileType.isDir then (e.linkError os).elim (.ok target) .error
        else .ok target := DirEntry.followSymlink_eq os e.bare
  have htarget := bareResult_fromPath (E := E) os e.depth e.path e.readMetadata e.readMetadataExt
    true e.followLinkAncestors
  rw [hbare, DirEntry.followSymlink_eq]
  rcases except_cases_of_map_eq htarget with ⟨err, hread, hread'⟩ |
    ⟨target, target', hread, hread', hsame⟩
  · rw [hread, hread']
  · have htype : target'.fileType = target.fileType := (congrArg DirEntry.fileType hsame.symm :)
    rw [hread, hread']
    simp only [Except.bind, htype]
    split_ifs with hdir
    · cases e.linkError os with
      | none => exact congrArg Except.ok hsame
      | some err => rfl
    · exact congrArg Except.ok hsame

/-- **What becomes of an entry** does not depend on its metadata. -/
theorem bareResult_processDirEntryResult (os : SystemCalls) (followLinks : Bool)
    (e : DirEntry E) :
    bareResult (processDirEntryResult os followLinks (.ok e)) =
      bareResult (processDirEntryResult os followLinks (.ok e.bare)) := by
  by_cases hlink : (followLinks && e.fileType.isSymlink) = true
  · rw [processDirEntryResult_of_link os hlink,
      processDirEntryResult_of_link (e := e.bare) os hlink]
    exact bareResult_followSymlink os e
  · rw [Bool.not_eq_true] at hlink
    rw [processDirEntryResult_of_unfollowed os hlink,
      processDirEntryResult_of_unfollowed (e := e.bare) os hlink]
    by_cases hroot : (!followLinks && e.depth == 0 && e.fileType.isSymlink) = true
    · have hpath : e.bare.path = e.path := rfl
      rw [if_pos hroot, if_pos (by exact hroot), hpath]
      cases os.metadata e.path with
      | error err => rfl
      | ok metadata =>
        by_cases hdir : metadata.fileType.isDir = true
        · simp only [hdir, ↓reduceIte]
          rfl
        · simp only [hdir]
          rfl
    · rw [if_neg hroot, if_neg (by exact hroot)]
      rfl

end Entries

/-! ### Entries of a directory -/

/-- The options without those for metadata. -/
def WalkDirOptions.bare (opts : WalkDirOptions B E) : WalkDirOptions B E :=
  { opts with readMetadata := false, readMetadataExt := false, readHardlinkInfo := false }

/-- An entry whose type can be read, by one of the two calls on it. -/
def FsDirEntry.Readable (entry : FsDirEntry) : Prop :=
  (∃ metadata, entry.metadata = .ok metadata) ∨ ∃ fileType, entry.fileType = .ok fileType

/-- The systems where the type of every listed entry can be read. -/
def OperatingSystem.ReadsTypes : OperatingSystem → Prop
  | .unix calls => ∀ path attempt entries, calls.readDir path attempt = .ok entries →
      ∀ entry, .ok entry ∈ entries → entry.Readable
  | _ => True

section Listings

variable [Inhabited E]

/-- An entry of Linux has the same type with and without metadata: for a type byte that is unknown
the calls are made in any case. -/
theorem bare_makeDirEntryLinux (os : LinuxCalls) (info : LinuxDirEntryOwned) (depth : ℕ)
    (parentPath : Path) (readMetadata readMetadataExt : Bool)
    (ancestors : Option (List AncestorIdentity)) :
    (makeDirEntryLinux (E := E) os info depth parentPath readMetadata readMetadataExt
        ancestors).bare =
      (makeDirEntryLinux os info depth parentPath false false ancestors).bare := by
  by_cases hunknown : info.dType = DT_UNKNOWN
  · simp only [makeDirEntryLinux, hunknown, BEq.rfl, Bool.or_true]
    cases statOf os info parentPath true <;> rfl
  · obtain ⟨metadata, metadataExt, h⟩ := exists_fromRaw_of_known (E := E) os info hunknown depth
      parentPath readMetadata readMetadataExt ancestors
    obtain ⟨metadata', metadataExt', h'⟩ := exists_fromRaw_of_known (E := E) os info hunknown depth
      parentPath false false ancestors
    rw [h, h']
    rfl

/-- What the batch has fetched is metadata only, if the type is known. -/
theorem bare_makeDirEntryLinux_of_known (os : LinuxCalls) {info : LinuxDirEntryOwned}
    (hknown : info.dType ≠ DT_UNKNOWN) (statx : Option Statx) (depth : ℕ) (parentPath : Path)
    (readMetadata readMetadataExt : Bool) (ancestors : Option (List AncestorIdentity)) :
    (makeDirEntryLinux (E := E) os { info with statx } depth parentPath readMetadata readMetadataExt
        ancestors).bare =
      (makeDirEntryLinux os info depth parentPath readMetadata readMetadataExt ancestors).bare := by
  obtain ⟨metadata, metadataExt, h⟩ := exists_fromRaw_of_known (E := E) os { info with statx }
    hknown depth parentPath readMetadata readMetadataExt ancestors
  obtain ⟨metadata', metadataExt', h'⟩ := exists_fromRaw_of_known (E := E) os info hknown depth
    parentPath readMetadata readMetadataExt ancestors
  rw [h, h']
  rfl

/-- Entries that agree become results that agree. -/
theorem bareResult_processDirEntryResult_congr (os : SystemCalls) (followLinks : Bool)
    {e e' : DirEntry E} (h : e.bare = e'.bare) :
    bareResult (processDirEntryResult os followLinks (.ok e)) =
      bareResult (processDirEntryResult os followLinks (.ok e')) := by
  rw [bareResult_processDirEntryResult, h, ← bareResult_processDirEntryResult]

theorem bare_linuxResult (os : LinuxCalls) (opts : WalkDirOptions B E) (req : ReadRequest B)
    (info : LinuxDirEntryOwned) :
    (linuxResult os opts req info).map bareResult =
      (linuxResult os opts.bare req info).map bareResult := by
  rw [linuxResult, linuxResult]
  by_cases hhidden : (opts.skipHidden && isHidden info.name) = true
  · rw [if_pos hhidden, if_pos (by exact hhidden)]
  · rw [if_neg hhidden, if_neg (by exact hhidden)]
    exact congrArg some (bareResult_processDirEntryResult_congr _ _
        (bare_makeDirEntryLinux os info _ _ _ _ _))

theorem bare_linuxResult_of_known (os : LinuxCalls) (opts : WalkDirOptions B E)
    (req : ReadRequest B) {info : LinuxDirEntryOwned} (hknown : info.dType ≠ DT_UNKNOWN)
    (statx : Option Statx) :
    (linuxResult os opts req { info with statx }).map bareResult =
      (linuxResult os opts req info).map bareResult := by
  simp only [linuxResult]
  split_ifs with hhidden
  · rfl
  · exact congrArg some (bareResult_processDirEntryResult_congr _ _
      (bare_makeDirEntryLinux_of_known os hknown _ _ _ _ _ _))

/-- With a type that is unknown the batch is made in any case. Else it gives metadata only. -/
theorem bareListing_linux (os : LinuxCalls) (opts : WalkDirOptions B E) (req : ReadRequest B)
    (entries : List LinuxDirEntryOwned) :
    ((batchStatx os opts req.path entries).filterMap (linuxResult os opts req)).map bareResult =
      ((batchStatx os opts.bare req.path entries).filterMap (linuxResult os opts.bare req)).map
        bareResult := by
  simp only [List.map_filterMap, bare_linuxResult os opts req]
  by_cases hunknown : (entries.any fun info => info.dType == DT_UNKNOWN) = true
  · have hbatch : batchStatx os opts req.path entries =
        batchStatx os opts.bare req.path entries := by
      simp only [batchStatx, hunknown, Bool.or_true]
    rw [hbatch]
  · have hknown : ∀ info ∈ entries, info.dType ≠ DT_UNKNOWN := fun info hinfo heq =>
      hunknown (List.any_eq_true.mpr ⟨info, hinfo, by simp [heq]⟩)
    have hbatch (opts' : WalkDirOptions B E) :
        (batchStatx os opts' req.path entries).filterMap
            (fun info => (linuxResult os opts.bare req info).map bareResult) =
          entries.filterMap fun info => (linuxResult os opts.bare req info).map bareResult := by
      obtain ⟨statx, hstatx, -⟩ := batchStatx_eq os opts' req.path entries
      rw [hstatx, List.filterMap_map]
      exact List.filterMap_congr fun info hinfo =>
        bare_linuxResult_of_known os opts.bare req (hknown info hinfo) (statx info)
    rw [hbatch, hbatch]

/-- An entry of Windows is made of its name and its attributes, but for its metadata. -/
theorem bare_windowsResult (os : WindowsCalls) (opts : WalkDirOptions B E) (req : ReadRequest B)
    {info info' : DirEntryInfo} (hname : info'.fileName = info.fileName)
    (hattributes : info'.fileAttributes = info.fileAttributes) :
    (windowsResult os opts req info').map bareResult =
      (windowsResult os opts.bare req info).map bareResult := by
  have hentry : (makeDirEntry (E := E) info' req.readDirContentsDepth req.path opts.readMetadata
      opts.readMetadataExt req.followLinkAncestors).bare =
        (makeDirEntry info req.readDirContentsDepth req.path false false
          req.followLinkAncestors).bare := by
    simp only [makeDirEntry, hname, hattributes]
    rfl
  rw [windowsResult, windowsResult, hname, hattributes]
  by_cases hhidden : (opts.skipHidden && isHiddenWin32 info.fileName info.fileAttributes) = true
  · rw [if_pos hhidden, if_pos (by exact hhidden)]
  · rw [if_neg hhidden, if_neg (by exact hhidden)]
    exact congrArg some (bareResult_processDirEntryResult_congr _ _ hentry)

theorem bareListing_windows (os : WindowsCalls) (opts : WalkDirOptions B E) (req : ReadRequest B)
    (entries : List DirEntryInfo) :
    ((linkedRecords os opts req.path entries).filterMap (windowsResult os opts req)).map
        bareResult =
      ((linkedRecords os opts.bare req.path entries).filterMap (windowsResult os opts.bare req)).map
        bareResult := by
  obtain ⟨fill, hfill, hsame⟩ := linkedRecords_eq os opts req.path entries
  have hbare : linkedRecords os opts.bare req.path entries = entries := rfl
  rw [hfill, hbare, List.map_filterMap, List.map_filterMap, List.filterMap_map]
  exact List.filterMap_congr fun info _ =>
    bare_windowsResult os opts req (hsame info).1 (hsame info).2

omit [Inhabited E] in
/-- Where the type of an entry can be read, its metadata is no error. -/
theorem exists_legacyMetadata (os : UnixCalls) (depth : ℕ) (parentPath : Path) {entry : FsDirEntry}
    (hentry : entry.Readable) (readMetadata readMetadataExt : Bool) :
    ∃ found, legacyMetadata os depth parentPath entry readMetadata readMetadataExt = .ok found := by
  cases readMetadata with
  | true =>
    simp only [legacyMetadata, ↓reduceIte]
    cases hmetadata : entry.metadata with
    | ok metadata => exact ⟨_, rfl⟩
    | error err =>
      obtain ⟨metadata, hok⟩ | ⟨fileType, hok⟩ := hentry
      · rw [hmetadata] at hok
        cases hok
      · exact ⟨_, by rw [hok]⟩
  | false =>
    cases readMetadataExt with
    | true =>
      simp only [legacyMetadata, Bool.false_eq_true, ↓reduceIte]
      cases os.symlinkMetadata (parentPath.join entry.fileName) <;> exact ⟨_, rfl⟩
    | false => exact ⟨_, rfl⟩

/-- The result for an entry, by its metadata and its type. -/
theorem unixResult_of_ok {os : UnixCalls} {opts : WalkDirOptions B E} {req : ReadRequest B}
    {entry : FsDirEntry} {found : Option MetaData × Option MetaDataExt} {fileType : FileType}
    (hfound : legacyMetadata os req.readDirContentsDepth req.path entry opts.readMetadata
      opts.readMetadataExt = .ok found) (hfileType : entry.fileType = .ok fileType) :
    unixResult (E := E) os opts req (.ok entry) =
      if opts.skipHidden && isHidden entry.fileName then none
      else some (processDirEntryResult os.toSystemCalls opts.followLinks
        (.ok (.fromRaw req.readDirContentsDepth req.path found.1 found.2 entry.fileName fileType
          req.followLinkAncestors))) := by
  simp only [unixResult, hfound, DirEntry.fromEntry, hfileType]
  rfl

/-- An entry whose type can be read keeps its type, or the error of the call for it. -/
theorem bare_unixResult (os : UnixCalls) (opts : WalkDirOptions B E) (req : ReadRequest B)
    {entry : Except IoError FsDirEntry} (hentry : ∀ e, entry = .ok e → e.Readable) :
    (unixResult os opts req entry).map bareResult =
      (unixResult os opts.bare req entry).map bareResult := by
  cases entry with
  | error err => rfl
  | ok entry =>
    obtain ⟨found, hfound⟩ := exists_legacyMetadata os req.readDirContentsDepth req.path
      (hentry entry rfl) opts.readMetadata opts.readMetadataExt
    have hnone : legacyMetadata os req.readDirContentsDepth req.path entry opts.bare.readMetadata
        opts.bare.readMetadataExt = .ok (none, none) := rfl
    cases hfileType : entry.fileType with
    | error err =>
      simp only [unixResult, hfound, hnone, DirEntry.fromEntry, hfileType]
    | ok fileType =>
      rw [unixResult_of_ok hfound hfileType, unixResult_of_ok hnone hfileType]
      by_cases hhidden : (opts.skipHidden && isHidden entry.fileName) = true
      · rw [if_pos hhidden, if_pos (by exact hhidden)]
      · rw [if_neg hhidden, if_neg (by exact hhidden)]
        exact congrArg some (bareResult_processDirEntryResult_congr _ _ rfl)

/-- A listing, or the error of the attempt, without metadata. -/
def bareListing (listing : Except IoError (List (Except Error (DirEntry E)))) :
    Except IoError (List (Except Error (DirEntry E))) :=
  listing.map (List.map bareResult)

/-- **A listing without its metadata** does not depend on the options for metadata. -/
theorem bareListing_rawListing {os : OperatingSystem} (htypes : os.ReadsTypes)
    (opts : WalkDirOptions B E) (attempt : ℕ) (req : ReadRequest B) :
    bareListing (rawListing os opts attempt req) =
      bareListing (rawListing os opts.bare attempt req) := by
  cases os with
  | linux calls =>
    simp only [rawListing]
    cases (linuxRecords calls req.path attempt).error with
    | some err => rfl
    | none => exact congrArg Except.ok (bareListing_linux calls opts req _)
  | windows calls =>
    simp only [rawListing]
    cases (windowsRecords calls req.path attempt).error with
    | some err => rfl
    | none => exact congrArg Except.ok (bareListing_windows calls opts req _)
  | unix calls =>
    simp only [rawListing]
    cases hread : calls.readDir req.path attempt with
    | error err => rfl
    | ok entries =>
      refine congrArg Except.ok ?_
      rw [List.map_filterMap, List.map_filterMap]
      refine List.filterMap_congr fun entry hentry => bare_unixResult calls opts req ?_
      rintro e rfl
      exact htypes req.path attempt entries hread e hentry

end Listings

/-! ### Reads -/

/-- A listed directory without the metadata of its entries. -/
def ReadDir.bare (readDir : ReadDir B E) : ReadDir B E :=
  { readDir with resultsList := readDir.resultsList.map bareResult }

/-- What a read gives, without metadata. -/
def bareRead (result : ReadDirResult B E) : ReadDirResult B E := result.map ReadDir.bare

/-- A client's callback that does not look at metadata. -/
def IgnoresMetadata (process : ProcessReadDirFunction B E) : Prop :=
  ∀ depth path state results results', results.map bareResult = results'.map bareResult →
    (process depth path state results).1 = (process depth path state results').1 ∧
      (process depth path state results).2.map bareResult =
        (process depth path state results').2.map bareResult

/-- Sorting goes by names. -/
theorem map_bareResult_sort (results : List (Except Error (DirEntry E))) :
    (sortDirEntriesByName results).map bareResult =
      sortDirEntriesByName (results.map bareResult) := by
  refine List.map_mergeSort fun a _ b _ => ?_
  cases a <;> cases b <;> rfl

section Reads

variable {os : OperatingSystem} {opts : WalkDirOptions B E}

theorem bare_finishReadDir (hprocess : ∀ process ∈ opts.processReadDir, IgnoresMetadata process)
    (req : ReadRequest B) (n : ℕ) {results results' : List (Except Error (DirEntry E))}
    (h : results.map bareResult = results'.map bareResult) :
    (finishReadDir opts req n results).bare = (finishReadDir opts.bare req n results').bare := by
  have hsorted : (if opts.sort then sortDirEntriesByName results else results).map bareResult =
      (if opts.sort then sortDirEntriesByName results' else results').map bareResult := by
    split_ifs
    · rw [map_bareResult_sort, map_bareResult_sort, h]
    · exact h
  cases hcallback : opts.processReadDir with
  | none =>
    have hbare : opts.bare.processReadDir = none := hcallback
    simp only [finishReadDir, hcallback, hbare, ReadDir.bare]
    exact congrArg (fun results => ReadDir.mk req.clientReadState results n) hsorted
  | some process =>
    have hbare : opts.bare.processReadDir = some process := hcallback
    obtain ⟨hstate, hresults⟩ := hprocess process hcallback (some req.readDirDepth) req.path
      req.clientReadState _ _ hsorted
    simp only [finishReadDir, hcallback, hbare, ReadDir.bare]
    exact congrArg₂ (fun state results => ReadDir.mk state results n) hstate hresults

theorem bareRead_attemptOutcome
    (hprocess : ∀ process ∈ opts.processReadDir, IgnoresMetadata process) (req : ReadRequest B)
    (n : ℕ) {listing listing' : Except IoError (List (Except Error (DirEntry E)))}
    (h : bareListing listing = bareListing listing') :
    bareRead (attemptOutcome opts req listing n) =
      bareRead (attemptOutcome opts.bare req listing' n) := by
  rcases except_cases_of_map_eq h with ⟨err, rfl, rfl⟩ | ⟨results, results', rfl, rfl, hsame⟩
  · rfl
  · exact congrArg Except.ok (bare_finishReadDir hprocess req n hsame)

variable [Inhabited E]

/-- The attempts of a read fail in the same way. -/
theorem bareListing_lastListing (htypes : os.ReadsTypes) (opts : WalkDirOptions B E)
    (req : ReadRequest B) (retries attempt : ℕ) :
    bareListing (lastListing os opts req retries attempt) =
      bareListing (lastListing os opts.bare req retries attempt) := by
  induction retries generalizing attempt with
  | zero => exact bareListing_rawListing htypes opts attempt req
  | succ retries ih =>
    have hlisting := bareListing_rawListing (E := E) htypes opts attempt req
    rw [lastListing, lastListing]
    rcases except_cases_of_map_eq hlisting with ⟨err, h, h'⟩ | ⟨results, results', h, h', -⟩
    · rw [h, h']
      simp only
      split_ifs
      · exact ih (attempt + 1)
      · rfl
    · rw [h, h'] at hlisting ⊢
      exact hlisting

/-- **A read without metadata** does not depend on the options for metadata. -/
theorem bareRead_read (htypes : os.ReadsTypes)
    (hprocess : ∀ process ∈ opts.processReadDir, IgnoresMetadata process) (spec : ReadDirSpec B) :
    bareRead ((coreReadDirCallback os opts).read spec) =
      bareRead ((coreReadDirCallback os opts.bare).read spec) := by
  have hlisting := bareListing_lastListing (E := E) htypes opts
    (readRequest os.systemCalls opts spec none) opts.maxRetries 0
  rw [read_eq, read_eq]
  by_cases hdepth : opts.maxDepth < saturatingAdd spec.depth 1
  · rw [if_pos hdepth, if_pos (by exact hdepth)]
  · rw [if_neg hdepth, if_neg (by exact hdepth)]
    exact bareRead_attemptOutcome hprocess _ 0 hlisting

/-- The call of the client's callback on the root. -/
theorem rootEntryResults_of_some (os : OperatingSystem) (opts : WalkDirOptions B E)
    {process : ProcessReadDirFunction B E} (hprocess : opts.processReadDir = some process)
    (root : Path) (state : B) :
    rootEntryResults os opts root state =
      process none
        (((rootEntry (E := E) os.systemCalls opts root).toOption.map DirEntry.parentPath).getD ⟨[]⟩)
        state
        [processDirEntryResult os.systemCalls opts.followLinks
          (rootEntry os.systemCalls opts root)] := by
  simp only [rootEntryResults, hprocess]
  rfl

/-- **The root without its metadata** does not depend on the options for metadata either. -/
theorem bare_rootEntryResults (os : OperatingSystem)
    (hprocess : ∀ process ∈ opts.processReadDir, IgnoresMetadata process) (root : Path)
    (state : B) :
    (rootEntryResults os opts root state).1 = (rootEntryResults os opts.bare root state).1 ∧
      (rootEntryResults os opts root state).2.map bareResult =
        (rootEntryResults os opts.bare root state).2.map bareResult := by
  have hentry : bareResult (rootEntry (E := E) os.systemCalls opts root) =
      bareResult (rootEntry os.systemCalls opts.bare root) := bareResult_fromPath _ _ _ _ _ _ _
  have hresult : bareResult (processDirEntryResult os.systemCalls opts.followLinks
      (rootEntry (E := E) os.systemCalls opts root)) =
        bareResult (processDirEntryResult os.systemCalls opts.followLinks
          (rootEntry os.systemCalls opts.bare root)) := by
    rcases except_cases_of_map_eq hentry with ⟨err, h, h'⟩ | ⟨e, e', h, h', hsame⟩
    · rw [h, h']
    · rw [h, h']
      exact bareResult_processDirEntryResult_congr _ _ hsame
  have hparent : ((rootEntry (E := E) os.systemCalls opts root).toOption.map DirEntry.parentPath) =
      (rootEntry (E := E) os.systemCalls opts.bare root).toOption.map DirEntry.parentPath := by
    rcases except_cases_of_map_eq hentry with ⟨err, h, h'⟩ | ⟨e, e', h, h', hsame⟩
    · rw [h, h']
    · rw [h, h']
      exact congrArg some (congrArg DirEntry.parentPath hsame :)
  cases hcallback : opts.processReadDir with
  | none =>
    have hbare : opts.bare.processReadDir = none := hcallback
    simp only [rootEntryResults, hcallback, hbare, List.map_cons, List.map_nil, true_and]
    exact congrArg (fun result => [result]) hresult
  | some process =>
    rw [rootEntryResults_of_some os opts hcallback,
      rootEntryResults_of_some os opts.bare hcallback, ← hparent]
    exact hprocess process hcallback none _ state _ _ (congrArg (fun result => [result]) hresult)

end Reads

/-! ### Walks -/

section Walks

variable {read read' : ReadDirSpec B → ReadDirResult B E} {state : B} {minDepth : ℕ}

/-- Listings that agree start with the same error. -/
theorem exists_cons_of_error {err : Error} {rest results : List (Except Error (DirEntry E))}
    (h : (.error err :: rest : List (Except Error (DirEntry E))).map bareResult =
      results.map bareResult) :
    ∃ rest', results = .error err :: rest' ∧ rest.map bareResult = rest'.map bareResult := by
  obtain ⟨result, rest', rfl, hresult, hrest⟩ := List.map_eq_cons_iff.mp h.symm
  obtain ⟨err', rfl, hsame⟩ | ⟨e, e', -, hsame, -⟩ := except_cases_of_map_eq hresult
  · obtain rfl := Except.error.inj hsame
    exact ⟨rest', rfl, hrest.symm⟩
  · cases hsame

/-- Listings that agree start with entries that agree. -/
theorem exists_cons_of_entry {e : DirEntry E} {rest results : List (Except Error (DirEntry E))}
    (h : (.ok e :: rest).map bareResult = results.map bareResult) :
    ∃ e' rest', results = .ok e' :: rest' ∧ e.bare = e'.bare ∧
      rest.map bareResult = rest'.map bareResult := by
  obtain ⟨result, rest', rfl, hresult, hrest⟩ := List.map_eq_cons_iff.mp h.symm
  obtain ⟨err, -, hsame⟩ | ⟨e', e'', rfl, hsame, hbare⟩ := except_cases_of_map_eq hresult
  · cases hsame
  · obtain rfl := Except.ok.inj hsame
    exact ⟨e', rest', rfl, hbare.symm, hrest.symm⟩

/-- Entries that agree ask for the same read. -/
theorem readChildrenSpec_of_bare {e e' : DirEntry E} (h : e.bare = e'.bare) (state : B) :
    e'.readChildrenSpec state = e.readChildrenSpec state :=
  (congrArg (DirEntry.readChildrenSpec · state) h.symm :)

theorem map_bareResult_emitted {e e' : DirEntry E} (h : e.bare = e'.bare) (minDepth : ℕ) :
    (emitted minDepth e).map bareResult = (emitted minDepth e').map bareResult := by
  have hdepth : e.depth = e'.depth := (congrArg DirEntry.depth h :)
  simp only [emitted, hdepth]
  split_ifs
  · exact congrArg (fun e => [Except.ok e]) h
  · rfl

/-- **The walk without metadata**: a walk whose reads agree makes the same reads, and its items
agree. -/
theorem DepthFirst.bare {results items : List (Except Error (DirEntry E))}
    {reads : List (ReadDirSpec B)} (h : DepthFirst read minDepth state results items reads)
    (hread : ∀ spec, bareRead (read spec) = bareRead (read' spec))
    {results' : List (Except Error (DirEntry E))}
    (hresults : results.map bareResult = results'.map bareResult) :
    ∃ items', DepthFirst read' minDepth state results' items' reads ∧
      items.map bareResult = items'.map bareResult := by
  induction h generalizing results' with
  | nil =>
    obtain rfl : results' = [] := by simpa using hresults
    exact ⟨[], .nil, rfl⟩
  | error hrest ih =>
    obtain ⟨rest', rfl, hrest'⟩ := exists_cons_of_error hresults
    obtain ⟨items', hitems', hsame⟩ := ih hrest'
    exact ⟨_, .error hitems', congrArg (List.cons _) hsame⟩
  | entry hspec hrest ih =>
    obtain ⟨e', rest', rfl, hentry, hrest'⟩ := exists_cons_of_entry hresults
    obtain ⟨items', hitems', hsame⟩ := ih hrest'
    refine ⟨_, .entry ((readChildrenSpec_of_bare hentry _).trans hspec) hitems', ?_⟩
    rw [List.map_append, List.map_append, map_bareResult_emitted hentry, hsame]
  | @failed state dirEntry spec err rest items reads hspec hfails hrest ih =>
    obtain ⟨e', rest', rfl, hentry, hrest'⟩ := exists_cons_of_entry hresults
    obtain ⟨items', hitems', hsame⟩ := ih hrest'
    obtain ⟨err', herr, hfails'⟩ | ⟨readDir, -, hlists, -⟩ := except_cases_of_map_eq (hread spec)
    · obtain rfl : err' = err := Except.error.inj (herr.symm.trans hfails)
      refine ⟨_, .failed ((readChildrenSpec_of_bare hentry _).trans hspec) hfails' hitems', ?_⟩
      have hfailed : { dirEntry with readChildrenError := some err' }.bare =
          { e' with readChildrenError := some err' }.bare :=
        congrArg (fun e : DirEntry E => { e with readChildrenError := some err' }) hentry
      rw [List.map_append, List.map_append, map_bareResult_emitted hfailed, hsame]
    · cases hfails.symm.trans hlists
  | listed hspec hlists hdir hrest ihdir ihrest =>
    obtain ⟨e', rest', rfl, hentry, hrest'⟩ := exists_cons_of_entry hresults
    obtain ⟨items', hitems', hsame⟩ := ihrest hrest'
    obtain ⟨err, herr, -⟩ | ⟨readDir, readDir', hok, hlists', hreadDir⟩ :=
      except_cases_of_map_eq (hread _)
    · cases hlists.symm.trans herr
    · obtain rfl := Except.ok.inj (hlists.symm.trans hok)
      have hstate := (congrArg ReadDir.readDirState hreadDir.symm :)
      have hentries := (congrArg ReadDir.resultsList hreadDir :)
      obtain ⟨below, hbelow, hsameBelow⟩ := ihdir hentries
      refine ⟨_, .listed ((readChildrenSpec_of_bare hentry _).trans hspec) hlists'
        (hstate ▸ hbelow) hitems', ?_⟩
      simp only [List.map_append, map_bareResult_emitted hentry, hsame, hsameBelow]

/-- Entries that agree ask for the same reads. -/
theorem rootSpecs_of_bare {root root' : B × List (Except Error (DirEntry E))}
    (hstate : root.1 = root'.1) (hresults : root.2.map bareResult = root'.2.map bareResult) :
    rootSpecs root = rootSpecs root' := by
  have hspec (state : B) (result : Except Error (DirEntry E)) :
      ReadDir.childSpec state (bareResult result) = ReadDir.childSpec state result := by
    cases result <;> rfl
  have hbare (root : B × List (Except Error (DirEntry E))) :
      rootSpecs root = (root.2.map bareResult).filterMap (ReadDir.childSpec root.1) := by
    rw [List.filterMap_map]
    exact List.filterMap_congr fun result _ => (hspec root.1 result).symm
  rw [hbare, hbare, hstate, hresults]

/-- **The options for metadata change nothing else.** Let a walk come to its end where the type of
every listed entry can be read, with a client's callback that does not look at metadata and at most
one entry of the root that asks for a read. With other options for metadata the serial walk comes to
its end as well: it makes the same reads in the same order, and without their metadata its items are
the same. A parallel walk yields the same items if it comes to its end. -/
theorem metadata_options [Inhabited E] (os : OperatingSystem) (htypes : os.ReadsTypes)
    (opts opts' : WalkDirOptions B E) (hopts : opts.bare = opts'.bare)
    (hprocess : ∀ process ∈ opts.processReadDir, IgnoresMetadata process) (root : Path) (state : B)
    (hroots : (rootSpecs (rootEntryResults os opts root state)).length ≤ 1) (minDepth : ℕ)
    (items : List (Except Error (DirEntry E)))
    (hitems : Completes os opts root state minDepth items) :
    ∃ items' reads, items.map bareResult = items'.map bareResult ∧
      CompletesOnly os opts' root state minDepth items' ∧
      (serialWalk (rootEntryResults os opts root state) minDepth).YieldsReading
        (coreReadDirCallback os opts) items reads ∧
      (serialWalk (rootEntryResults os opts' root state) minDepth).YieldsReading
        (coreReadDirCallback os opts') items' reads := by
  have hprocess' : ∀ process ∈ opts'.processReadDir, IgnoresMetadata process := by
    have hsame : opts'.processReadDir = opts.processReadDir :=
      (congrArg WalkDirOptions.processReadDir hopts.symm :)
    rwa [hsame]
  -- reads and roots agree by way of the options without metadata
  have hread (spec : ReadDirSpec B) : bareRead ((coreReadDirCallback os opts).read spec) =
      bareRead ((coreReadDirCallback (E := E) os opts').read spec) := by
    rw [bareRead_read htypes hprocess, hopts, ← bareRead_read htypes hprocess']
  obtain ⟨hstate, hresults⟩ := bare_rootEntryResults os hprocess root state
  obtain ⟨hstate', hresults'⟩ := bare_rootEntryResults os hprocess' root state
  rw [hopts, ← hstate'] at hstate
  rw [hopts, ← hresults'] at hresults
  have hroots' : (rootSpecs (rootEntryResults os opts' root state)).length ≤ 1 := by
    rwa [← rootSpecs_of_bare hstate hresults]
  obtain ⟨reads, hwalk⟩ := depthFirst_iff_unfolds.mpr (hitems.unfolds hroots)
  obtain ⟨items', hwalk', hsame⟩ := hwalk.bare hread hresults
  rw [hstate] at hwalk'
  obtain ⟨forest, hforest, rfl⟩ := depthFirst_iff_unfolds.mp ⟨reads, hwalk'⟩
  exact ⟨_, reads, hsame, completesOnly_of_unfolds hroots' hforest minDepth,
    hwalk.finished (reverse_rootSpecs hroots), hwalk'.finished (reverse_rootSpecs hroots')⟩

/-- A Linux with a directory `a` and a file `b` in `r`, where the type byte of `a` is unknown. -/
def typelessLinux : LinuxCalls :=
  { LinuxCalls.listing fun path =>
      if path = ⟨[.normal [114]]⟩ then ⟨[(DT_UNKNOWN, [97]), (8, [98])], none⟩ else ⟨[], none⟩ with
    symlinkMetadata := fun _ => .ok (.ofMode S_IFDIR 1 1)
    statx := fun _ name =>
      .ok { fileStatx with stxMode := if name = [97] then 0x4000 else 0x8000 } }

/-- The options with all metadata. -/
def allMetadata : WalkDirOptions Unit Unit :=
  { (WalkDirOptions.new : WalkDirOptions Unit Unit) with
    readMetadata := true, readMetadataExt := true, readHardlinkInfo := true }

/-- The statement above for this walk of `r`, without metadata and with it: the same three entries,
of which none or all have metadata. -/
theorem metadata_options_typeless :
    ∃ items items' : List (Except Error (DirEntry Unit)),
      Completes (.linux typelessLinux) .new ⟨[.normal [114]]⟩ () 0 items ∧
      Completes (.linux typelessLinux) allMetadata ⟨[.normal [114]]⟩ () 0 items' ∧
      items.map bareResult = items'.map bareResult ∧
      (items.filterMap Except.toOption).map (fun e => e.metadata.isSome) = [false, false, false] ∧
      (items'.filterMap Except.toOption).map (fun e => e.metadata.isSome) = [true, true, true] := by
  have hall : Completes (.linux typelessLinux) (WalkDirOptions.new : WalkDirOptions Unit Unit)
      ⟨[.normal [114]]⟩ () 0 _ := .serial ⟨12, by decide +kernel, rfl⟩
  have hmetadata : Completes (.linux typelessLinux) allMetadata
      ⟨[.normal [114]]⟩ () 0 _ := .serial ⟨12, by decide +kernel, rfl⟩
  obtain ⟨items', reads, hsame, honly, -, -⟩ := metadata_options (.linux typelessLinux) trivial .new
    allMetadata rfl (by rintro process ⟨⟩) ⟨[.normal [114]]⟩ () (by decide +kernel) 0 _ hall
  obtain rfl := honly.only _ hmetadata
  exact ⟨_, _, hall, hmetadata, hsame, by decide +kernel, by decide +kernel⟩

end Walks

end JwalkMeta
