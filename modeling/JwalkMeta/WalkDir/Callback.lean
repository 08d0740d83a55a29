import JwalkMeta.Core.ReadDirIter
import JwalkMeta.WalkDir.Entry

/-!
# The core callback of a walk

The function that `WalkDirGeneric::into_iter` hands to the walk: it reads one directory on the
platform at hand. While a directory is enumerated its subdirectories can be scheduled at once
(*streaming*), if the walk is parallel, does not sort and has no `process_read_dir` callback.

The three platforms share their frame (`readDirWith`); each has its own test for subdirectories
and its own way to make entries.

Source: `src/lib.rs`.

## Main definitions

* `WalkDirOptions`, `OperatingSystem`: what a walk depends on.
* `readDirLinuxViaGetdents`, `readDirWindows`, `readDirUnixFsLegacy`: the reads.
* `retryTransientIo`, `coreReadDirCallback`: the core callback.
* `readRequest`: the request that the core callback makes for a read.
-/

namespace JwalkMeta

open Interaction

variable {B E : Type}

/-! ### Options and platforms -/

/-- `ProcessReadDirFunction`: it may change the state for the children and the list of results.
The depth is missing for the call on the root. -/
abbrev ProcessReadDirFunction (B E : Type) : Type :=
  Option ℕ → Path → B → List (Except Error (DirEntry E)) → B × List (Except Error (DirEntry E))

/-- `WalkDirOptions`, as far as the core callback depends on them. -/
structure WalkDirOptions (B E : Type) where
  sort : Bool
  maxDepth : ℕ
  skipHidden : Bool
  followLinks : Bool
  readMetadata : Bool
  readMetadataExt : Bool
  readHardlinkInfo : Bool
  processReadDir : Option (ProcessReadDirFunction B E)
  maxRetries : ℕ

/-- The options of `WalkDirGeneric::new`. -/
def WalkDirOptions.new : WalkDirOptions B E where
  sort := false
  maxDepth := usizeMax
  skipHidden := false
  followLinks := false
  readMetadata := false
  readMetadataExt := false
  readHardlinkInfo := false
  processReadDir := none
  maxRetries := 3

/-- The platform of a walk, with its answers. -/
inductive OperatingSystem
  | linux (calls : LinuxCalls)
  | windows (calls : WindowsCalls)
  | unix (calls : UnixCalls)

namespace OperatingSystem

/-- The answers to calls on a path. -/
def systemCalls : OperatingSystem → SystemCalls
  | linux calls => calls.toSystemCalls
  | windows calls => calls.toSystemCalls
  | unix calls => calls.toSystemCalls

/-- The family of the platform. -/
def platform : OperatingSystem → Platform
  | linux _ | unix _ => .unix
  | windows _ => .windows

end OperatingSystem

/-- `sort_dir_entries_by_name`: the order of names, errors last. The source's sort is not stable:
it does not fix the order of several errors, which compare equal. Here they keep their order. Names
of one directory do not repeat. -/
def sortDirEntriesByName (entries : List (Except Error (DirEntry E))) :
    List (Except Error (DirEntry E)) :=
  entries.mergeSort fun a b =>
    match a, b with
    | .ok a, .ok b => (List.compareLex compare a.fileName b.fileName).isLE
    | .ok _, .error _ => true
    | .error _, .ok _ => false
    | .error _, .error _ => true

/-! ### One directory read -/

/-- A read of a directory: the spec of the read with its extended ancestors, the depth of its
entries, and the context for streaming. -/
structure ReadRequest (B : Type) where
  path : Path
  readDirDepth : ℕ
  readDirContentsDepth : ℕ
  followLinkAncestors : Option (List AncestorIdentity)
  clientReadState : B
  streamingCtx : Option StreamingContext

/-- `use_streaming`: the context of a read that streams. -/
def WalkDirOptions.streaming (opts : WalkDirOptions B E) (req : ReadRequest B) :
    Option StreamingContext :=
  if !opts.sort && opts.processReadDir.isNone then req.streamingCtx else none

/-- The item for the read of a subdirectory that is scheduled as child number `index`. -/
def subdirItem {α : Type} (name : α → OsString) (req : ReadRequest B) (ctx : StreamingContext)
    (index : ℕ) (info : α) : Weighted (ReadDirSpec B) where
  value :=
    { depth := req.readDirContentsDepth
      path := req.path.join (name info)
      clientReadState := req.clientReadState
      followLinkAncestors := req.followLinkAncestors }
  indexPath := ctx.indexPath.adding index
  weight := saturatingAdd ctx.parentWeight 1

/-- The `on_subdir` closure: schedule the read of a subdirectory as the next child. The value is
the count of scheduled children. -/
def onSubdir {α : Type} (skip : α → Bool) (name : α → OsString) (req : ReadRequest B)
    (ctx : StreamingContext) (streamedCount : ℕ) (info : α) :
    Interaction (StreamOp (ReadDirSpec B)) Bool ℕ := do
  if ← request .isStopped then
    return streamedCount
  else if skip info then
    return streamedCount
  else if ← request (.schedule (subdirItem name req ctx streamedCount info)) then
    return streamedCount + 1
  else
    return streamedCount

/-- The streaming enumeration: `on_subdir` is called on every subdirectory. -/
def enumerateStreaming {α : Type} (isSubdir : α → Bool)
    (onSubdir : ℕ → α → Interaction (StreamOp (ReadDirSpec B)) Bool ℕ) :
    ℕ → List α → Interaction (StreamOp (ReadDirSpec B)) Bool ℕ
  | streamedCount, [] => return streamedCount
  | streamedCount, info :: rest => do
    let streamedCount ← if isSubdir info then onSubdir streamedCount info else pure streamedCount
    enumerateStreaming isSubdir onSubdir streamedCount rest

/-- What follows an enumeration that has succeeded: sorting, the client's callback, the result. -/
def finishReadDir (opts : WalkDirOptions B E) (req : ReadRequest B) (streamedChildCount : ℕ)
    (results : List (Except Error (DirEntry E))) : ReadDir B E :=
  let results := if opts.sort then sortDirEntriesByName results else results
  match opts.processReadDir with
  | some processReadDir =>
    let (state, results) :=
      processReadDir (some req.readDirDepth) req.path req.clientReadState results
    ⟨state, results, streamedChildCount⟩
  | none => ⟨req.clientReadState, results, streamedChildCount⟩

/-- Without a client's callback the results are at most reordered. -/
theorem finishReadDir_perm {opts : WalkDirOptions B E} (hprocess : opts.processReadDir = none)
    (req : ReadRequest B) (n : ℕ) (results : List (Except Error (DirEntry E))) :
    (finishReadDir opts req n results).resultsList.Perm results := by
  simp only [finishReadDir, hprocess]
  split_ifs
  · exact List.mergeSort_perm _ _
  · exact List.Perm.refl _

/-- The enumeration, with the subdirectories scheduled if the read streams. The value is the count
of scheduled children. -/
def streamSubdirs {α : Type} (opts : WalkDirOptions B E) (req : ReadRequest B)
    (isSubdir skip : α → Bool) (name : α → OsString) (records : List α) :
    Interaction (StreamOp (ReadDirSpec B)) Bool ℕ :=
  match opts.streaming req with
  | some ctx => enumerateStreaming isSubdir (onSubdir skip name req ctx) 0 records
  | none => pure 0

/-- The result of a read. After an enumeration that fails, what has been scheduled is reported in
a result that holds the error only. -/
def readDirOutcome {α : Type} (opts : WalkDirOptions B E) (req : ReadRequest B)
    (enumeration : Enumeration α) (makeResults : List α → List (Except Error (DirEntry E)))
    (streamedChildCount : ℕ) : ReadDirResult B E :=
  match enumeration.error with
  | some err =>
    if 0 < streamedChildCount then
      .ok ⟨req.clientReadState, [.error (Error.fromPath 0 req.path err)], streamedChildCount⟩
    else .error (Error.fromPath 0 req.path err)
  | none => .ok (finishReadDir opts req streamedChildCount (makeResults enumeration.records))

/-- The frame of the two reads that can stream. -/
def readDirWith {α : Type} (opts : WalkDirOptions B E) (req : ReadRequest B)
    (enumeration : Enumeration α) (isSubdir skip : α → Bool) (name : α → OsString)
    (makeResults : List α → List (Except Error (DirEntry E))) :
    Interaction (StreamOp (ReadDirSpec B)) Bool (ReadDirResult B E) := do
  let streamedChildCount ← streamSubdirs opts req isSubdir skip name enumeration.records
  return readDirOutcome opts req enumeration makeResults streamedChildCount

/-- `enumerate_dir_unix` and `enumerate_dir_unix_streaming`: the records without `.` and `..`. -/
def linuxRecords (os : LinuxCalls) (path : Path) (attempt : ℕ) :
    Enumeration LinuxDirEntryOwned :=
  let enumeration := os.enumerate path attempt
  ⟨(enumeration.records.filter fun record => !isDot record.2).map fun record =>
    ⟨record.1, record.2, none⟩, enumeration.error⟩

/-- `MIN_BATCH_FOR_IO_URING`. -/
def minBatchForIoUring : ℕ := 8

/-- The batch through `io_uring`, for metadata or unknown types in directories that are large
enough. -/
def batchStatx (os : LinuxCalls) (opts : WalkDirOptions B E) (path : Path)
    (entries : List LinuxDirEntryOwned) : List LinuxDirEntryOwned :=
  let needMetaOrType := opts.readMetadata || opts.readMetadataExt ||
    entries.any fun info => info.dType == DT_UNKNOWN
  match os.prefetch path with
  | some fetched =>
    if needMetaOrType && decide (minBatchForIoUring ≤ entries.length) then
      entries.map fun info => { info with statx := fetched info.name }
    else entries
  | none => entries

/-- Whether the `on_subdir` closure of Linux leaves an entry out. -/
def skipLinux (opts : WalkDirOptions B E) (info : LinuxDirEntryOwned) : Bool :=
  info.dType != DT_DIR || opts.skipHidden && isHidden info.name

/-- The result for one entry of an enumeration of Linux, if it is not skipped. -/
def linuxResult [Inhabited E] (os : LinuxCalls) (opts : WalkDirOptions B E) (req : ReadRequest B)
    (info : LinuxDirEntryOwned) : Option (Except Error (DirEntry E)) :=
  if opts.skipHidden && isHidden info.name then none
  else some (processDirEntryResult os.toSystemCalls opts.followLinks
    (.ok (makeDirEntryLinux os info req.readDirContentsDepth req.path opts.readMetadata
      opts.readMetadataExt req.followLinkAncestors)))

/-- `read_dir_linux_via_getdents`. -/
def readDirLinuxViaGetdents [Inhabited E] (os : LinuxCalls) (opts : WalkDirOptions B E)
    (attempt : ℕ) (req : ReadRequest B) :
    Interaction (StreamOp (ReadDirSpec B)) Bool (ReadDirResult B E) :=
  readDirWith opts req (linuxRecords os req.path attempt) (fun info => info.dType == DT_DIR)
    (skipLinux opts) LinuxDirEntryOwned.name
    fun entries => (batchStatx os opts req.path entries).filterMap (linuxResult os opts req)

/-- Whether the `on_subdir` closure of Windows leaves an entry out. -/
def skipWindows (opts : WalkDirOptions B E) (info : DirEntryInfo) : Bool :=
  opts.skipHidden && isHiddenWin32 info.fileName info.fileAttributes ||
    !hasDirectoryBit info.fileAttributes

/-- The result for one entry of an enumeration of Windows, if it is not skipped. -/
def windowsResult [Inhabited E] (os : WindowsCalls) (opts : WalkDirOptions B E)
    (req : ReadRequest B) (info : DirEntryInfo) : Option (Except Error (DirEntry E)) :=
  if opts.skipHidden && isHiddenWin32 info.fileName info.fileAttributes then none
  else some (processDirEntryResult os.toSystemCalls opts.followLinks
    (.ok (makeDirEntry info req.readDirContentsDepth req.path opts.readMetadata
      opts.readMetadataExt req.followLinkAncestors)))

/-- `enumerate_dir` and `enumerate_dir_streaming` of Windows: the records without `.` and `..`. -/
def windowsRecords (os : WindowsCalls) (path : Path) (attempt : ℕ) : Enumeration DirEntryInfo :=
  let enumeration := os.enumerate path attempt
  ⟨enumeration.records.filter fun info => !isDot info.fileName, enumeration.error⟩

/-- `read_dir_windows`. -/
def readDirWindows [Inhabited E] (os : WindowsCalls) (opts : WalkDirOptions B E) (attempt : ℕ)
    (req : ReadRequest B) : Interaction (StreamOp (ReadDirSpec B)) Bool (ReadDirResult B E) :=
  readDirWith opts req (windowsRecords os req.path attempt)
    (fun info => hasDirectoryBit info.fileAttributes) (skipWindows opts) DirEntryInfo.fileName
    fun entries =>
      (if opts.readMetadataExt && opts.readHardlinkInfo then fillLinkInfo os req.path entries
        else entries).filterMap (windowsResult os opts req)

/-- The result for one entry of `read_dir_unix_fs_legacy`, if it is not skipped. -/
def unixResult [Inhabited E] (os : UnixCalls) (opts : WalkDirOptions B E) (req : ReadRequest B) :
    Except IoError FsDirEntry → Option (Except Error (DirEntry E))
  | .error err => some (.error (Error.fromIo req.readDirContentsDepth err))
  | .ok entry =>
    match legacyMetadata os req.readDirContentsDepth req.path entry opts.readMetadata
      opts.readMetadataExt with
    | .error err => some (.error err)
    | .ok (metadata, metadataExt) =>
      match DirEntry.fromEntry req.readDirContentsDepth req.path metadata metadataExt entry
        req.followLinkAncestors with
      | .error err => some (.error err)
      | .ok dirEntry =>
        if opts.skipHidden && isHidden dirEntry.fileName then none
        else some (processDirEntryResult os.toSystemCalls opts.followLinks (.ok dirEntry))

/-- `read_dir_unix_fs_legacy`, which does not stream. -/
def readDirUnixFsLegacy [Inhabited E] (os : UnixCalls) (opts : WalkDirOptions B E) (attempt : ℕ)
    (req : ReadRequest B) : Interaction (StreamOp (ReadDirSpec B)) Bool (ReadDirResult B E) :=
  match os.readDir req.path attempt with
  | .error err => return .error (Error.fromPath 0 req.path err)
  | .ok entries =>
    return .ok (finishReadDir opts req 0 (entries.filterMap (unixResult os opts req)))

/-- The read of a directory on the platform at hand. -/
def readDirOn [Inhabited E] (os : OperatingSystem) (opts : WalkDirOptions B E) (attempt : ℕ)
    (req : ReadRequest B) : Interaction (StreamOp (ReadDirSpec B)) Bool (ReadDirResult B E) :=
  match os with
  | .linux calls => readDirLinuxViaGetdents calls opts attempt req
  | .windows calls => readDirWindows calls opts attempt req
  | .unix calls => readDirUnixFsLegacy calls opts attempt req

/-! ### The core callback -/

/-- `retry_transient_io` from an attempt on: a transient error leads to another attempt while some
are left. Only the first attempt gets the streaming context. -/
def retryTransientIo (platform : Platform)
    (op : ℕ → Option StreamingContext →
      Interaction (StreamOp (ReadDirSpec B)) Bool (ReadDirResult B E)) :
    ℕ → ℕ → Option StreamingContext →
      Interaction (StreamOp (ReadDirSpec B)) Bool (ReadDirResult B E)
  | 0, attempt, streamingCtx => op attempt streamingCtx
  | retries + 1, attempt, streamingCtx => do
    match ← op attempt streamingCtx with
    | .ok result => return .ok result
    | .error err =>
      if isTransientError platform err then
        retryTransientIo platform op retries (attempt + 1) none
      else return .error err

/-- The ancestors for the entries of a directory: those of the directory, and the directory
itself. -/
def extendAncestors (os : SystemCalls) (followLinks : Bool) (path : Path)
    (followLinkAncestors : Option (List AncestorIdentity)) : Option (List AncestorIdentity) :=
  if followLinks then
    some (followLinkAncestors.getD [] ++ (AncestorIdentity.fromPath os path).toList)
  else followLinkAncestors

/-- The core callback of a walk: below the maximal depth nothing is read. -/
def coreReadDirCallback [Inhabited E] (os : OperatingSystem) (opts : WalkDirOptions B E) :
    ReadDirCallback B E := fun spec streamingCtx =>
  let readDirContentsDepth := saturatingAdd spec.depth 1
  if opts.maxDepth < readDirContentsDepth then
    return .ok (.new spec.clientReadState [])
  else
    let followLinkAncestors :=
      extendAncestors os.systemCalls opts.followLinks spec.path spec.followLinkAncestors
    retryTransientIo os.platform
      (fun attempt streamingCtx => readDirOn os opts attempt
        ⟨spec.path, spec.depth, readDirContentsDepth, followLinkAncestors, spec.clientReadState,
          streamingCtx⟩)
      opts.maxRetries 0 streamingCtx

/-- The request that the core callback makes for a read. -/
def readRequest (os : SystemCalls) (opts : WalkDirOptions B E) (spec : ReadDirSpec B)
    (streamingCtx : Option StreamingContext) : ReadRequest B where
  path := spec.path
  readDirDepth := spec.depth
  readDirContentsDepth := saturatingAdd spec.depth 1
  followLinkAncestors := extendAncestors os opts.followLinks spec.path spec.followLinkAncestors
  clientReadState := spec.clientReadState
  streamingCtx := streamingCtx

end JwalkMeta
