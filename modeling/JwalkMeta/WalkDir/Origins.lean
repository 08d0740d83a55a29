import JwalkMeta.WalkDir.IntoIter
import JwalkMeta.WalkDir.Listing
import JwalkMeta.WalkDir.Reads

/-!
# Where the results of a read come from

An attempt makes one entry for each record that is not skipped, and follows it if it is a link and
links are followed. What it holds of the directory besides is the error that ends the listing. Under
any answers to its requests, the result of a read is that of its last attempt.

## Main definitions

* `OperatingSystem.names`, `OperatingSystem.listingError`: what an attempt lists, and how it fails.
* `Entered`: the entries of an attempt, before links are followed.
* `LastAttempt`: the attempt whose outcome is the result of a read.
* `WalkDirOptions.Leaves`: what sorting and the client's callback leave of a list of results.

## Main results

* `entered_of_mem_rawListing`: where the results of a listing come from.
* `mayReturn_coreReadDirCallback`: where the result of a read comes from.
* `leaves_of_mayReturn`: where the results come from that a read holds.
* `spawns_cases`: where the reads come from that a read leads to.
-/

namespace JwalkMeta

open Interaction

variable {B E α : Type}

/-! ### Following a link -/

/-- The path that an error is about. -/
def Error.path (err : Error) : Option Path :=
  match err.inner with
  | .io path _ => path
  | .loop _ child => some child
  | .threadpoolBusy => none

section Links

variable [Inhabited E] {os : SystemCalls} {followLinks : Bool} {e e' : DirEntry E} {err : Error}

omit [Inhabited E] in
/-- What keeps a link from being followed is reported for its path, at its depth. -/
theorem DirEntry.of_linkError (h : e.linkError os = some err) :
    err.depth = e.depth ∧ ∀ path ∈ err.path, path = e.path := by
  unfold linkError at h
  cases hlink : os.readLink e.path with
  | error ioErr =>
    rw [hlink] at h
    obtain rfl := Option.some.inj h
    exact ⟨rfl, fun path hpath => by simp [Error.path, Error.fromIo] at hpath⟩
  | ok link =>
    simp only [hlink] at h
    split at h
    · cases h
    · obtain ⟨ancestor, -, rfl⟩ := Option.map_eq_some_iff.mp h
      exact ⟨rfl, fun path hpath => (Option.some.inj hpath).symm⟩

/-- An entry made from its path keeps the depth and the ancestors that it is given. -/
theorem DirEntry.of_fromPath {depth : ℕ} {path : Path}
    {readMetadata readMetadataExt followLink : Bool} {ancestors : Option (List AncestorIdentity)}
    (h : fromPath os depth path readMetadata readMetadataExt followLink ancestors = .ok e) :
    e.depth = depth ∧ e.followLinkAncestors = ancestors ∧ e.readChildrenError = none ∧
      ∀ readPath ∈ e.readChildrenPath, readPath = path := by
  rw [fromPath] at h
  cases hmetadata : (if followLink then os.metadata path else os.symlinkMetadata path) with
  | error ioErr => simp [hmetadata] at h
  | ok metadata =>
    rw [hmetadata] at h
    obtain rfl := Except.ok.inj h
    refine ⟨rfl, rfl, rfl, fun readPath hread => ?_⟩
    simp only [Option.mem_def, Option.ite_none_right_eq_some, Option.some.injEq] at hread
    exact hread.2.symm

/-- Why an entry cannot be made from its path. -/
theorem DirEntry.of_fromPath_error {depth : ℕ} {path : Path}
    {readMetadata readMetadataExt followLink : Bool} {ancestors : Option (List AncestorIdentity)}
    (h : fromPath (E := E) os depth path readMetadata readMetadataExt followLink ancestors =
      .error err) : ∃ ioErr, err = Error.fromPath depth path ioErr := by
  rw [fromPath] at h
  cases hmetadata : (if followLink then os.metadata path else os.symlinkMetadata path) with
  | error ioErr =>
    rw [hmetadata] at h
    exact ⟨ioErr, (Except.error.inj h).symm⟩
  | ok metadata => simp [hmetadata] at h

/-- A followed link is made from its path. -/
theorem DirEntry.fromPath_of_followSymlink (h : e.followSymlink os = .ok e') :
    fromPath os e.depth e.path e.readMetadata e.readMetadataExt true e.followLinkAncestors =
      .ok e' := by
  rw [followSymlink_eq] at h
  cases hpath : fromPath (E := E) os e.depth e.path e.readMetadata e.readMetadataExt true
      e.followLinkAncestors with
  | error err => simp [hpath, Except.bind] at h
  | ok target =>
    simp only [hpath, Except.bind] at h
    split_ifs at h
    · cases hlink : e.linkError os with
      | none => rwa [hlink] at h
      | some err => simp [hlink] at h
    · exact h

/-- Why a link is not followed. -/
theorem DirEntry.of_followSymlink_error (h : e.followSymlink os = .error err) :
    (∃ ioErr, err = Error.fromPath e.depth e.path ioErr) ∨
      e.linkError os = some err ∧ ∃ metadata, os.metadata e.path = .ok metadata ∧
        metadata.fileType.isDir = true := by
  rw [followSymlink_eq] at h
  cases hpath : fromPath (E := E) os e.depth e.path e.readMetadata e.readMetadataExt true
      e.followLinkAncestors with
  | error err' =>
    obtain rfl : err' = err := by simpa [hpath, Except.bind] using h
    exact Or.inl (of_fromPath_error hpath)
  | ok target =>
    simp only [hpath, Except.bind] at h
    split_ifs at h with hdir
    cases hlink : e.linkError os with
    | none => simp [hlink] at h
    | some err' =>
      obtain rfl : err' = err := by simpa [hlink] using h
      refine Or.inr ⟨rfl, ?_⟩
      rw [fromPath] at hpath
      cases hmetadata : os.metadata e.path with
      | error ioErr => simp [hmetadata] at hpath
      | ok metadata =>
        simp only [↓reduceIte, hmetadata] at hpath
        obtain rfl := Except.ok.inj hpath
        exact ⟨metadata, rfl, hdir⟩

/-- The error about an entry is reported for its path, at its depth. -/
theorem of_processDirEntryResult_error
    (h : processDirEntryResult os followLinks (.ok e) = .error err) :
    err.depth = e.depth ∧ ∀ path ∈ err.path, path = e.path := by
  by_cases hlink : (followLinks && e.fileType.isSymlink) = true
  · rw [processDirEntryResult_of_link os hlink] at h
    rcases DirEntry.of_followSymlink_error h with ⟨ioErr, rfl⟩ | ⟨hlink, -⟩
    · exact ⟨rfl, fun path hpath => (Option.some.inj hpath).symm⟩
    · exact DirEntry.of_linkError hlink
  · simp only [processDirEntryResult, hlink, Bool.false_eq_true, ↓reduceIte, Bind.bind,
      Except.bind, pure, Except.pure] at h
    split_ifs at h with hroot
    have hdepth : e.depth = 0 := by simp_all
    cases hmetadata : os.metadata e.path with
    | error ioErr =>
      simp only [hmetadata] at h
      obtain rfl := Except.error.inj h
      exact ⟨hdepth.symm, fun path hpath => (Option.some.inj hpath).symm⟩
    | ok metadata =>
      simp only [hmetadata] at h
      split_ifs at h

/-- What becomes of an entry: its depth and its ancestors are kept, and its children are read from
its own path or from where they were to be read before. -/
theorem of_processDirEntryResult_ok (h : processDirEntryResult os followLinks (.ok e) = .ok e') :
    e'.depth = e.depth ∧ e'.followLinkAncestors = e.followLinkAncestors ∧
      (∀ err ∈ e'.readChildrenError, err ∈ e.readChildrenError) ∧
      ∀ path ∈ e'.readChildrenPath, path = e.path ∨ path ∈ e.readChildrenPath := by
  by_cases hlink : (followLinks && e.fileType.isSymlink) = true
  · rw [processDirEntryResult_of_link os hlink] at h
    obtain ⟨hdepth, hancestors, herror, hpath⟩ :=
      DirEntry.of_fromPath (DirEntry.fromPath_of_followSymlink h)
    exact ⟨hdepth, hancestors, by simp [herror], fun path hmem => Or.inl (hpath path hmem)⟩
  · simp only [processDirEntryResult, hlink, Bool.false_eq_true, ↓reduceIte, Bind.bind,
      Except.bind, pure, Except.pure] at h
    split_ifs at h with hroot
    · cases hmetadata : os.metadata e.path with
      | error ioErr =>
        simp only [hmetadata] at h
        cases h
      | ok metadata =>
        simp only [hmetadata] at h
        split_ifs at h
        · obtain rfl := Except.ok.inj h
          exact ⟨rfl, rfl, fun _ => id, fun path hmem => Or.inl (Option.some.inj hmem).symm⟩
        · obtain rfl := Except.ok.inj h
          exact ⟨rfl, rfl, fun _ => id, fun path => Or.inr⟩
    · obtain rfl := Except.ok.inj h
      exact ⟨rfl, rfl, fun _ => id, fun path => Or.inr⟩

end Links

/-! ### What an attempt lists -/

/-- The names that an attempt lists. -/
def OperatingSystem.names (os : OperatingSystem) (path : Path) (attempt : ℕ) : List OsString :=
  match os with
  | .linux calls => (linuxRecords calls path attempt).records.map LinuxDirEntryOwned.name
  | .windows calls => (windowsRecords calls path attempt).records.map DirEntryInfo.fileName
  | .unix calls =>
    match calls.readDir path attempt with
    | .error _ => []
    | .ok entries => entries.filterMap fun entry => entry.toOption.map FsDirEntry.fileName

/-- The error that ends the listing of an attempt. -/
def OperatingSystem.listingError (os : OperatingSystem) (path : Path) (attempt : ℕ) :
    Option IoError :=
  match os with
  | .linux calls => (linuxRecords calls path attempt).error
  | .windows calls => (windowsRecords calls path attempt).error
  | .unix calls =>
    match calls.readDir path attempt with
    | .error err => some err
    | .ok _ => none

/-- The entries that an attempt makes, before links are followed. -/
structure Entered (os : OperatingSystem) (attempt : ℕ) (req : ReadRequest B) (e : DirEntry E) :
    Prop where
  depth_eq : e.depth = req.readDirContentsDepth
  parentPath_eq : e.parentPath = req.path
  fileName_mem : e.fileName ∈ os.names req.path attempt
  ancestors_eq : e.followLinkAncestors = req.followLinkAncestors
  readChildrenError_eq : e.readChildrenError = none
  readChildrenPath : ∀ path ∈ e.readChildrenPath, path = e.path

variable {os : OperatingSystem} {opts : WalkDirOptions B E} {attempt : ℕ} {req : ReadRequest B}

theorem Entered.path_eq {e : DirEntry E} (h : Entered os attempt req e) :
    e.path = req.path.join e.fileName := by
  rw [DirEntry.path, h.parentPath_eq]

section Listings

variable [Inhabited E]

theorem entered_fromRaw {metadata : Option MetaData} {metadataExt : Option MetaDataExt}
    {fileName : OsString} {fileType : FileType} (h : fileName ∈ os.names req.path attempt) :
    Entered os attempt req (.fromRaw (E := E) req.readDirContentsDepth req.path metadata
      metadataExt fileName fileType req.followLinkAncestors) := by
  refine ⟨rfl, rfl, h, rfl, rfl, fun path hpath => ?_⟩
  simp only [DirEntry.fromRaw, Option.mem_def, Option.ite_none_right_eq_some,
    Option.some.injEq] at hpath
  exact hpath.2.symm

theorem entered_makeDirEntryLinux {calls : LinuxCalls} {info : LinuxDirEntryOwned}
    (h : info.name ∈ (OperatingSystem.linux calls).names req.path attempt) :
    Entered (.linux calls) attempt req (makeDirEntryLinux (E := E) calls info
      req.readDirContentsDepth req.path opts.readMetadata opts.readMetadataExt
      req.followLinkAncestors) := by
  unfold makeDirEntryLinux
  dsimp only
  split
  · exact entered_fromRaw h
  · exact entered_fromRaw h

/-- An error about a single entry, apart from following it. -/
theorem path_legacyMetadata {calls : UnixCalls} {depth : ℕ} {parentPath : Path}
    {entry : FsDirEntry} {readMetadata readMetadataExt : Bool} {err : Error}
    (h : legacyMetadata calls depth parentPath entry readMetadata readMetadataExt = .error err) :
    err = Error.fromPath depth (parentPath.join entry.fileName) (.simple .other) := by
  by_cases hread : readMetadata = true
  · rw [legacyMetadata, if_pos hread] at h
    cases hmeta : entry.metadata with
    | ok metadata =>
      rw [hmeta] at h
      cases h
    | error ioErr =>
      rw [hmeta] at h
      cases htype : entry.fileType with
      | ok fileType =>
        rw [htype] at h
        cases h
      | error ioErr =>
        rw [htype] at h
        exact (Except.error.inj h).symm
  · rw [legacyMetadata, if_neg hread] at h
    split_ifs at h
    cases hmeta : calls.symlinkMetadata (parentPath.join entry.fileName) <;>
      · rw [hmeta] at h
        cases h

theorem rawListing_eq_error_iff {err : IoError} :
    rawListing (E := E) os opts attempt req = .error err ↔
      os.listingError req.path attempt = some err := by
  cases os with
  | linux calls =>
    cases herror : (linuxRecords calls req.path attempt).error <;>
      simp [rawListing, OperatingSystem.listingError, herror]
  | windows calls =>
    cases herror : (windowsRecords calls req.path attempt).error <;>
      simp [rawListing, OperatingSystem.listingError, herror]
  | unix calls =>
    cases hread : calls.readDir req.path attempt <;>
      simp [rawListing, OperatingSystem.listingError, hread]

/-- A result of a listing of Linux, where the record may carry the answer of a batch. -/
theorem entered_of_linuxResult {calls : LinuxCalls} {record : LinuxDirEntryOwned}
    {statx : LinuxDirEntryOwned → Option Statx} {result : Except Error (DirEntry E)}
    (hrecord : record ∈ (linuxRecords calls req.path attempt).records)
    (h : linuxResult calls opts req { record with statx := statx record } = some result) :
    ∃ e, Entered (.linux calls) attempt req e ∧
      result = processDirEntryResult calls.toSystemCalls opts.followLinks (.ok e) := by
  unfold linuxResult at h
  split_ifs at h
  refine ⟨_, entered_makeDirEntryLinux ?_, (Option.some.inj h).symm⟩
  exact List.mem_map.mpr ⟨record, hrecord, rfl⟩

/-- A result of a listing of Windows. -/
theorem entered_of_windowsResult {calls : WindowsCalls} {info : DirEntryInfo}
    {result : Except Error (DirEntry E)}
    (hname : info.fileName ∈ (OperatingSystem.windows calls).names req.path attempt)
    (h : windowsResult calls opts req info = some result) :
    ∃ e, Entered (.windows calls) attempt req e ∧
      result = processDirEntryResult calls.toSystemCalls opts.followLinks (.ok e) := by
  unfold windowsResult at h
  split_ifs at h
  exact ⟨_, entered_fromRaw hname, (Option.some.inj h).symm⟩

/-- A result of a listing elsewhere, which can also be the error of an entry. -/
theorem entered_of_unixResult {calls : UnixCalls} {entries : List (Except IoError FsDirEntry)}
    {entry : Except IoError FsDirEntry} {result : Except Error (DirEntry E)}
    (hread : calls.readDir req.path attempt = .ok entries) (hentry : entry ∈ entries)
    (h : unixResult calls opts req entry = some result) :
    (∃ e, Entered (.unix calls) attempt req e ∧
        result = processDirEntryResult calls.toSystemCalls opts.followLinks (.ok e)) ∨
      ∃ path ioErr, result = .error ⟨req.readDirContentsDepth, .io path ioErr⟩ ∧
        ∀ p ∈ path, ∃ name ∈ (OperatingSystem.unix calls).names req.path attempt,
          p = req.path.join name := by
  cases entry with
  | error ioErr => exact Or.inr ⟨none, ioErr, (Option.some.inj h).symm, by simp⟩
  | ok entry =>
    have hname : entry.fileName ∈ (OperatingSystem.unix calls).names req.path attempt := by
      simp only [OperatingSystem.names, hread]
      exact List.mem_filterMap.mpr ⟨_, hentry, rfl⟩
    simp only [unixResult] at h
    cases hmeta : legacyMetadata calls req.readDirContentsDepth req.path entry opts.readMetadata
        opts.readMetadataExt with
    | error err =>
      rw [hmeta] at h
      obtain rfl := path_legacyMetadata hmeta
      exact Or.inr ⟨_, _, (Option.some.inj h).symm,
        fun path hpath => ⟨_, hname, (Option.some.inj hpath).symm⟩⟩
    | ok pair =>
      obtain ⟨metadata, metadataExt⟩ := pair
      simp only [hmeta, DirEntry.fromEntry] at h
      cases hfileType : entry.fileType with
      | error ioErr =>
        rw [hfileType] at h
        exact Or.inr ⟨none, ioErr, (Option.some.inj h).symm, by simp⟩
      | ok fileType =>
        simp only [hfileType] at h
        split_ifs at h
        exact Or.inl ⟨_, entered_fromRaw hname, (Option.some.inj h).symm⟩

/-- **Where the results of a listing come from.** Each is what becomes of an entry that the attempt
has made, or an I/O error that is reported at the depth of the entries, for the path of one of them
if for any. -/
theorem entered_of_mem_rawListing {results : List (Except Error (DirEntry E))}
    {result : Except Error (DirEntry E)} (h : rawListing os opts attempt req = .ok results)
    (hmem : result ∈ results) :
    (∃ e, Entered os attempt req e ∧
        result = processDirEntryResult os.systemCalls opts.followLinks (.ok e)) ∨
      ∃ path ioErr, result = .error ⟨req.readDirContentsDepth, .io path ioErr⟩ ∧
        ∀ p ∈ path, ∃ name ∈ os.names req.path attempt, p = req.path.join name := by
  cases os with
  | linux calls =>
    simp only [rawListing] at h
    cases herror : (linuxRecords calls req.path attempt).error with
    | some ioErr => simp [herror] at h
    | none =>
      rw [herror] at h
      obtain rfl := Except.ok.inj h
      obtain ⟨info, hinfo, hresult⟩ := List.mem_filterMap.mp hmem
      obtain ⟨statx, hbatch, -⟩ :=
        batchStatx_eq calls opts req.path (linuxRecords calls req.path attempt).records
      rw [hbatch] at hinfo
      obtain ⟨record, hrecord, rfl⟩ := List.mem_map.mp hinfo
      exact Or.inl (entered_of_linuxResult hrecord hresult)
  | windows calls =>
    simp only [rawListing] at h
    cases herror : (windowsRecords calls req.path attempt).error with
    | some ioErr => simp [herror] at h
    | none =>
      rw [herror] at h
      obtain rfl := Except.ok.inj h
      obtain ⟨info, hinfo, hresult⟩ := List.mem_filterMap.mp hmem
      obtain ⟨fill, hfill, hsame⟩ :=
        linkedRecords_eq calls opts req.path (windowsRecords calls req.path attempt).records
      rw [hfill] at hinfo
      obtain ⟨record, hrecord, rfl⟩ := List.mem_map.mp hinfo
      refine Or.inl (entered_of_windowsResult ?_ hresult)
      rw [(hsame record).1]
      exact List.mem_map_of_mem hrecord
  | unix calls =>
    simp only [rawListing] at h
    cases hread : calls.readDir req.path attempt with
    | error ioErr => simp [hread] at h
    | ok entries =>
      rw [hread] at h
      obtain rfl := Except.ok.inj h
      obtain ⟨entry, hentry, hresult⟩ := List.mem_filterMap.mp hmem
      exact entered_of_unixResult hread hentry hresult

end Listings

/-! ### The last attempt -/

/-- An enumeration that schedules something has come to a subdirectory that is not skipped. -/
theorem exists_subdir_of_enumerateStreaming {isSubdir skip : α → Bool} {name : α → OsString}
    {ctx : StreamingContext} {n m : ℕ} {records : List α}
    (h : MayReturn (enumerateStreaming isSubdir (onSubdir skip name req ctx) n records) m)
    (hne : m ≠ n) : subdirs isSubdir skip records ≠ [] := by
  induction records generalizing n with
  | nil => exact absurd (mayReturn_done.mp h) hne
  | cons info rest ih =>
    rw [subdirs_cons]
    rw [enumerateStreaming] at h
    by_cases hsubdir : isSubdir info = true
    · rw [if_pos hsubdir, mayReturn_bind] at h
      obtain ⟨k, hk, hrest⟩ := h
      by_cases hskip : skip info = true
      · -- the count stays as it is
        obtain rfl : k = n := by
          simp only [onSubdir, request_bind, mayReturn_ask, hskip, ↓reduceIte] at hk
          obtain ⟨stopped, hk⟩ := hk
          cases stopped <;> exact mayReturn_done.mp hk
        simpa [hsubdir, hskip] using ih hrest hne
      · simp [hsubdir, hskip]
    · rw [if_neg hsubdir] at h
      simpa [hsubdir] using ih h hne

/-- Whether the reads of a walk can stream. -/
def WalkDirOptions.Streams (opts : WalkDirOptions B E) : Prop :=
  opts.sort = false ∧ opts.processReadDir = none

theorem exists_subdir_of_streamSubdirs {isSubdir skip : α → Bool} {name : α → OsString} {n : ℕ}
    {records : List α} (h : MayReturn (streamSubdirs opts req isSubdir skip name records) n)
    (hne : n ≠ 0) :
    req.streamingCtx ≠ none ∧ opts.Streams ∧ subdirs isSubdir skip records ≠ [] := by
  unfold streamSubdirs at h
  cases hstreaming : opts.streaming req with
  | none =>
    rw [hstreaming] at h
    exact absurd (mayReturn_done.mp h) hne
  | some ctx =>
    rw [hstreaming] at h
    simp only [WalkDirOptions.streaming, Bool.and_eq_true, Bool.not_eq_true',
      Option.isNone_iff_eq_none, Option.ite_none_right_eq_some] at hstreaming
    obtain ⟨hstreams, hctx⟩ := hstreaming
    exact ⟨by simp [hctx], hstreams, exists_subdir_of_enumerateStreaming h hne⟩

section Attempts

variable [Inhabited E] {result : ReadDirResult B E}

/-- Something has been scheduled during an attempt. -/
def Scheduling (os : OperatingSystem) (opts : WalkDirOptions B E) (path : Path)
    (attempt : ℕ) : Prop :=
  opts.Streams ∧ match os with
  | .linux calls => subdirs (fun info => info.dType == DT_DIR) (skipLinux opts)
      (linuxRecords calls path attempt).records ≠ []
  | .windows calls => subdirs (fun info => hasDirectoryBit info.fileAttributes) (skipWindows opts)
      (windowsRecords calls path attempt).records ≠ []
  | .unix _ => False

/-- **The result of an attempt**, under any answers. -/
theorem mayReturn_readDirOn (h : MayReturn (readDirOn os opts attempt req) result) :
    ∃ n, result = attemptOutcome opts req (rawListing os opts attempt req) n ∧
      (n ≠ 0 → req.streamingCtx ≠ none ∧ Scheduling os opts req.path attempt) := by
  cases os with
  | linux calls =>
    obtain ⟨n, hn, hresult⟩ := mayReturn_bind.mp h
    refine ⟨n, (mayReturn_done.mp hresult).trans (readDirOutcome_eq _ _ _ _ _), fun hne => ?_⟩
    exact exists_subdir_of_streamSubdirs hn hne
  | windows calls =>
    obtain ⟨n, hn, hresult⟩ := mayReturn_bind.mp h
    refine ⟨n, (mayReturn_done.mp hresult).trans (readDirOutcome_eq _ _ _ _ _), fun hne => ?_⟩
    exact exists_subdir_of_streamSubdirs hn hne
  | unix calls =>
    refine ⟨0, ?_, fun hne => absurd rfl hne⟩
    simp only [readDirOn, readDirUnixFsLegacy, rawListing] at h ⊢
    cases hlisting : calls.readDir req.path attempt <;> rw [hlisting] at h <;>
      exact mayReturn_done.mp h

end Attempts

/-- **Retries.** The attempts before the last one have failed with transient errors, and so has the
last one only if no more retries are left. -/
theorem mayReturn_retryTransientIo {platform : Platform}
    {op : ℕ → Option StreamingContext →
      Interaction (StreamOp (ReadDirSpec B)) Bool (ReadDirResult B E)} {retries number : ℕ}
    {ctx : Option StreamingContext} {result : ReadDirResult B E}
    (h : MayReturn (retryTransientIo platform op retries number ctx) result) :
    ∃ k ≤ retries,
      (∀ j < k, ∃ err ctx', MayReturn (op (number + j) ctx') (.error err) ∧
        isTransientError platform err = true) ∧
      (∃ ctx', (k = 0 ∧ ctx' = ctx ∨ ctx' = none) ∧ MayReturn (op (number + k) ctx') result) ∧
      ∀ err, result = .error err → k = retries ∨ isTransientError platform err = false := by
  induction retries generalizing number ctx with
  | zero => exact ⟨0, le_rfl, by simp, ⟨ctx, by simp, h⟩, fun _ _ => Or.inl rfl⟩
  | succ retries ih =>
    obtain ⟨first, hfirst, hrest⟩ := mayReturn_bind.mp h
    cases first with
    | ok readDir =>
      obtain rfl := mayReturn_done.mp hrest
      exact ⟨0, Nat.zero_le _, by simp, ⟨ctx, by simp, hfirst⟩, fun _ h => by cases h⟩
    | error err =>
      by_cases htransient : isTransientError platform err = true
      · -- the next attempts are made without a context
        simp only [htransient, ↓reduceIte] at hrest
        obtain ⟨k, hk, hbefore, ⟨ctx', hctx', hlast⟩, herror⟩ := ih hrest
        have hnone : ctx' = none := hctx'.elim And.right id
        refine ⟨k + 1, Nat.succ_le_succ hk, fun j hj => ?_, ⟨ctx', Or.inr hnone, ?_⟩,
          fun err' herr => (herror err' herr).imp_left (congrArg (· + 1))⟩
        · cases j with
          | zero => exact ⟨err, ctx, hfirst, htransient⟩
          | succ j =>
            obtain ⟨err', ctx'', hfailed⟩ := hbefore j (Nat.lt_of_succ_lt_succ hj)
            rw [Nat.add_assoc, Nat.add_comm 1] at hfailed
            exact ⟨err', ctx'', hfailed⟩
        · rw [Nat.add_assoc, Nat.add_comm 1] at hlast
          exact hlast
      · simp only [htransient, Bool.false_eq_true, ↓reduceIte] at hrest
        obtain rfl := mayReturn_done.mp hrest
        refine ⟨0, Nat.zero_le _, by simp, ⟨ctx, by simp, hfirst⟩, fun err' herr => Or.inr ?_⟩
        obtain rfl := Except.error.inj herr
        simpa using htransient

/-- What is asked during retries is asked in some attempt. -/
theorem mayAsk_retryTransientIo {platform : Platform}
    {op : ℕ → Option StreamingContext →
      Interaction (StreamOp (ReadDirSpec B)) Bool (ReadDirResult B E)} {retries number : ℕ}
    {ctx : Option StreamingContext} {q : StreamOp (ReadDirSpec B)}
    (h : MayAsk (retryTransientIo platform op retries number ctx) q) :
    ∃ attempt ctx', MayAsk (op attempt ctx') q := by
  induction retries generalizing number ctx with
  | zero => exact ⟨number, ctx, h⟩
  | succ retries ih =>
    obtain h | ⟨first, -, h⟩ := mayAsk_bind.mp h
    · exact ⟨number, ctx, h⟩
    · cases first with
      | ok readDir => exact absurd h mayAsk_done
      | error err =>
        by_cases htransient : isTransientError platform err = true
        · simp only [htransient, ↓reduceIte] at h
          exact ih h
        · simp only [htransient, Bool.false_eq_true, ↓reduceIte] at h
          exact absurd h mayAsk_done

/-! ### The core callback -/

section Callback

variable [Inhabited E] {spec child : ReadDirSpec B} {ctx : Option StreamingContext}
  {result : ReadDirResult B E}

/-- An attempt that fails has failed to list the directory. -/
theorem listingError_of_attemptOutcome {n : ℕ} {err : Error}
    (h : attemptOutcome (E := E) opts req (rawListing os opts attempt req) n = .error err) :
    ∃ ioErr, os.listingError req.path attempt = some ioErr ∧
      err = Error.fromPath 0 req.path ioErr := by
  cases hlisting : rawListing (E := E) os opts attempt req with
  | ok results =>
    rw [hlisting] at h
    cases h
  | error ioErr =>
    rw [hlisting, attemptOutcome] at h
    split_ifs at h
    exact ⟨ioErr, rawListing_eq_error_iff.mp hlisting, (Except.error.inj h).symm⟩

/-- The result of a read is the outcome of its last attempt. -/
structure LastAttempt (os : OperatingSystem) (opts : WalkDirOptions B E) (spec : ReadDirSpec B)
    (ctx : Option StreamingContext) (attempt n : ℕ) (result : ReadDirResult B E) : Prop where
  opens : saturatingAdd spec.depth 1 ≤ opts.maxDepth
  result_eq : result = attemptOutcome opts (readRequest os.systemCalls opts spec none)
    (rawListing os opts attempt (readRequest os.systemCalls opts spec none)) n
  le_maxRetries : attempt ≤ opts.maxRetries
  /-- The attempts before it have failed with transient errors. -/
  before : ∀ j < attempt, ∃ err, os.listingError spec.path j = some err ∧
    isTransientIoError os.platform err = true
  /-- Only a first attempt schedules, and only in a context. -/
  scheduling : n ≠ 0 → attempt = 0 ∧ ctx ≠ none ∧ Scheduling os opts spec.path 0
  /-- A transient error is the result only if no more retries are left. -/
  error : ∀ err, result = .error err →
    attempt = opts.maxRetries ∨ isTransientError os.platform err = false

/-- **Where the result of a read comes from.** -/
theorem mayReturn_coreReadDirCallback
    (h : MayReturn (coreReadDirCallback os opts spec ctx) result) :
    opts.maxDepth < saturatingAdd spec.depth 1 ∧ result = .ok (.new spec.clientReadState []) ∨
      ∃ attempt n, LastAttempt os opts spec ctx attempt n result := by
  unfold coreReadDirCallback at h
  dsimp only at h
  split_ifs at h with hdepth
  · exact Or.inl ⟨hdepth, mayReturn_done.mp h⟩
  · obtain ⟨k, hk, hbefore, ⟨ctx', hctx', hlast⟩, herror⟩ := mayReturn_retryTransientIo h
    -- neither the listing nor the outcome depends on the context
    have hlisting (j : ℕ) (ctx' : Option StreamingContext) :
        rawListing os opts j (readRequest os.systemCalls opts spec ctx') =
          rawListing (E := E) os opts j (readRequest os.systemCalls opts spec none) := by
      cases os <;> rfl
    have houtcome (j n : ℕ) (ctx' : Option StreamingContext) :
        attemptOutcome opts (readRequest os.systemCalls opts spec ctx')
            (rawListing os opts j (readRequest os.systemCalls opts spec ctx')) n =
          attemptOutcome (E := E) opts (readRequest os.systemCalls opts spec none)
            (rawListing os opts j (readRequest os.systemCalls opts spec none)) n := by
      rw [hlisting]
      rfl
    rw [Nat.zero_add] at hlast
    obtain ⟨n, hresult, hscheduling⟩ := mayReturn_readDirOn hlast
    refine Or.inr ⟨k, n, Nat.not_lt.mp hdepth, hresult.trans (houtcome k n ctx'), hk,
      fun j hj => ?_, fun hne => ?_, herror⟩
    · obtain ⟨err, ctx'', hfailed, htransient⟩ := hbefore j hj
      rw [Nat.zero_add] at hfailed
      obtain ⟨m, houtcome', -⟩ := mayReturn_readDirOn hfailed
      obtain ⟨ioErr, hlistingError, rfl⟩ := listingError_of_attemptOutcome houtcome'.symm
      exact ⟨ioErr, hlistingError, htransient⟩
    · obtain ⟨hsome, hschedule⟩ := hscheduling hne
      rcases hctx' with ⟨rfl, rfl⟩ | rfl
      · exact ⟨rfl, hsome, hschedule⟩
      · exact absurd rfl hsome

/-! ### What the client's callback leaves -/

/-- What sorting and the client's callback, if there is one, leave of a list of results. The depth
is missing for the results at the root. -/
def WalkDirOptions.Leaves (opts : WalkDirOptions B E) (depth : Option ℕ)
    (results : List (Except Error (DirEntry E))) (result : Except Error (DirEntry E)) : Prop :=
  match opts.processReadDir with
  | none => result ∈ results
  | some process => ∃ path state results', results'.Perm results ∧
      result ∈ (process depth path state results').2

omit [Inhabited E] in
theorem leaves_of_mem_finishReadDir {n : ℕ} {results : List (Except Error (DirEntry E))}
    {result : Except Error (DirEntry E)}
    (h : result ∈ (finishReadDir opts req n results).resultsList) :
    opts.Leaves (some req.readDirDepth) results result := by
  have hperm : (if opts.sort then sortDirEntriesByName results else results).Perm results := by
    split_ifs
    · exact List.mergeSort_perm _ _
    · exact List.Perm.refl _
  unfold WalkDirOptions.Leaves
  cases hprocess : opts.processReadDir with
  | none => exact (finishReadDir_perm hprocess req n results).mem_iff.mp h
  | some process =>
    simp only [finishReadDir, hprocess] at h
    exact ⟨_, _, _, hperm, h⟩

/-- **Where the entries of a result come from**: a listing that has succeeded. -/
theorem leaves_of_mayReturn {readDir : ReadDir B E} {e : DirEntry E}
    (h : MayReturn (coreReadDirCallback os opts spec ctx) (.ok readDir))
    (hmem : .ok e ∈ readDir.resultsList) :
    ∃ attempt results, rawListing os opts attempt (readRequest os.systemCalls opts spec none) =
      .ok results ∧ opts.Leaves (some spec.depth) results (.ok e) := by
  rcases mayReturn_coreReadDirCallback h with ⟨-, hnew⟩ | ⟨attempt, n, hlast⟩
  · obtain rfl := Except.ok.inj hnew
    exact absurd hmem List.not_mem_nil
  · have hresult := hlast.result_eq
    cases hlisting : rawListing (E := E) os opts attempt
        (readRequest os.systemCalls opts spec none) with
    | error ioErr =>
      rw [hlisting, attemptOutcome] at hresult
      split_ifs at hresult
      obtain rfl := Except.ok.inj hresult
      simp at hmem
    | ok results =>
      rw [hlisting] at hresult
      obtain rfl := Except.ok.inj hresult
      exact ⟨attempt, results, hlisting, leaves_of_mem_finishReadDir hmem⟩

omit [Inhabited E] in
/-- An entry of a result asks for the reads that the result asks for. -/
theorem exists_entry_of_mem_childSpecs {result : ReadDirResult B E}
    (h : child ∈ childSpecs result) :
    ∃ readDir e, result = .ok readDir ∧ .ok e ∈ readDir.resultsList ∧
      e.readChildrenSpec readDir.readDirState = some child := by
  cases result with
  | error err => exact absurd h List.not_mem_nil
  | ok readDir =>
    obtain ⟨entryResult, hmem, hspec⟩ := List.mem_filterMap.mp h
    cases entryResult with
    | error err => cases hspec
    | ok e => exact ⟨readDir, e, rfl, hmem, hspec⟩

/-- The entry of the root, before a link is followed. -/
def rootEntry (os : SystemCalls) (opts : WalkDirOptions B E) (root : Path) :
    Except Error (DirEntry E) :=
  DirEntry.fromPath os 0 root opts.readMetadata opts.readMetadataExt false
    (if opts.followLinks then (AncestorIdentity.fromPath os root).map fun id => [id] else none)

/-- **Where the root entries come from.** -/
theorem leaves_of_mem_rootEntryResults {root : Path} {state : B}
    {result : Except Error (DirEntry E)}
    (h : result ∈ (rootEntryResults os opts root state).2) :
    opts.Leaves none [processDirEntryResult os.systemCalls opts.followLinks
      (rootEntry os.systemCalls opts root)] result := by
  unfold WalkDirOptions.Leaves
  cases hprocess : opts.processReadDir with
  | none => simpa [rootEntryResults, hprocess, rootEntry] using h
  | some process =>
    simp only [rootEntryResults, hprocess] at h
    exact ⟨_, _, _, List.Perm.refl _, h⟩

omit [Inhabited E] in
/-- An entry of the root asks for the reads that a walk starts with. -/
theorem exists_entry_of_mem_rootSpecs {root : B × List (Except Error (DirEntry E))}
    (h : spec ∈ rootSpecs root) :
    ∃ e, .ok e ∈ root.2 ∧ e.readChildrenSpec root.1 = some spec := by
  obtain ⟨entryResult, hmem, hspec⟩ := List.mem_filterMap.mp h
  cases entryResult with
  | error err => cases hspec
  | ok e => exact ⟨e, hmem, hspec⟩

/-! ### Where reads come from -/

/-- The name of a read that is scheduled during an attempt has been listed. -/
theorem mayAsk_readDirOn {weighted : Weighted (ReadDirSpec B)}
    (h : MayAsk (readDirOn (E := E) os opts attempt req) (.schedule weighted)) :
    ∃ name ∈ os.names req.path attempt, weighted.value = subdirSpec req name := by
  cases os with
  | linux calls =>
    obtain ⟨info, hinfo, hvalue⟩ := mayAsk_readDirWith h
    exact ⟨_, List.mem_map_of_mem (List.mem_of_mem_filter hinfo), hvalue⟩
  | windows calls =>
    obtain ⟨info, hinfo, hvalue⟩ := mayAsk_readDirWith h
    exact ⟨_, List.mem_map_of_mem (List.mem_of_mem_filter hinfo), hvalue⟩
  | unix calls =>
    simp only [readDirOn, readDirUnixFsLegacy] at h
    cases hlisting : calls.readDir req.path attempt <;> rw [hlisting] at h <;>
      exact absurd h mayAsk_done

/-- **Where the reads come from that a read leads to.** One that is scheduled during an attempt is
the read of a name that has been listed; all others are asked for by an entry of a result. -/
theorem spawns_cases (h : (coreReadDirCallback (E := E) os opts).Spawns spec child) :
    (∃ attempt, ∃ name ∈ os.names spec.path attempt,
        child = subdirSpec (readRequest os.systemCalls opts spec none) name) ∨
      ∃ ctx result, MayReturn (coreReadDirCallback (E := E) os opts spec ctx) result ∧
        child ∈ childSpecs result := by
  obtain ⟨ctx, ⟨weighted, hask, rfl⟩ | ⟨result, hreturn, hchild⟩⟩ := h
  · unfold coreReadDirCallback at hask
    dsimp only at hask
    split_ifs at hask
    · exact absurd hask mayAsk_done
    · obtain ⟨attempt, ctx', hask⟩ := mayAsk_retryTransientIo hask
      obtain ⟨name, hname, hvalue⟩ := mayAsk_readDirOn hask
      exact Or.inl ⟨attempt, name, hname, hvalue⟩
  · exact Or.inr ⟨ctx, result, hreturn, hchild⟩

end Callback

end JwalkMeta
