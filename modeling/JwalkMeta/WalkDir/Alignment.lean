import JwalkMeta.Lib.Selection
import JwalkMeta.WalkDir.Streaming

/-!
# Whether the child reads are those of the entries

The iterator over entries takes one directory read from the queue for each entry that asks for one,
in the order of the entries. So the child reads that a worker counts for a directory have to be, one
for one, those that the entries of its result ask for.

A streaming read decides on its child reads while it enumerates, from the type byte or the attribute
word of each record. The entries are made afterwards, and links are followed then. The two decisions
can differ; this file says exactly when.

## Main definitions

* `ReadDirCallback.AlignedAt`: the counted child reads are those that the entries ask for.
* `leadsToDirectory`: whether a followed link becomes an entry that asks for a read.

## Main results

* `alignedAt_linux_iff`, `alignedAt_windows_iff`: when a streaming read is aligned.
* `childCount_failed_midway`: a read that fails midway never is.
-/

namespace JwalkMeta

variable {B E : Type}

/-- The child reads that a worker counts for an item are, one for one and in the same order, those
that the entries of its result ask for. -/
def ReadDirCallback.AlignedAt (callback : ReadDirCallback B E)
    (weighted : Weighted (ReadDirSpec B)) : Prop :=
  (callback.counted weighted).map Weighted.value = childSpecs (callback.result weighted)

/-- A read that schedules what it reports is aligned if nothing was streamed, or what was streamed
is what the entries ask for. -/
theorem alignedAt_iff_of_result {callback : ReadDirCallback B E}
    {weighted : Weighted (ReadDirSpec B)} {readDir : ReadDir B E}
    (hresult : callback.result weighted = .ok readDir)
    (hcount : (callback.streamed weighted).length = readDir.streamedChildCount) :
    callback.AlignedAt weighted ↔ callback.streamed weighted = [] ∨
      (callback.streamed weighted).map Weighted.value = readDir.readChildrenSpecs := by
  by_cases hzero : readDir.streamedChildCount = 0
  · -- the regular child reads are made from the entries
    have hnil : callback.streamed weighted = [] := List.length_eq_zero_iff.mp (hcount.trans hzero)
    have haligned : callback.AlignedAt weighted := by
      simp only [ReadDirCallback.AlignedAt, ReadDirCallback.counted, hnil, hresult, regularSpecs,
        hzero, ↓reduceIte, Option.getD_some, ReadDir.weightedChildrenSpecs_eq _ hzero,
        List.nil_append, childSpecs]
      exact List.ext_getElem (by simp) fun i h₁ h₂ => by simp
    exact ⟨fun _ => Or.inl hnil, fun _ => haligned⟩
  · have hne : callback.streamed weighted ≠ [] := by
      intro hnil
      rw [hnil] at hcount
      exact hzero hcount.symm
    simp [ReadDirCallback.AlignedAt, ReadDirCallback.counted, hresult, regularSpecs, hzero,
      childSpecs, hne]

/-- An attempt that succeeds is the last one. -/
theorem retryTransientIo_of_ok (platform : Platform)
    (op : ℕ → Option StreamingContext →
      Interaction (StreamOp (ReadDirSpec B)) Bool (ReadDirResult B E))
    (retries : ℕ) (ctx : Option StreamingContext) {ρ : StreamOp (ReadDirSpec B) → Bool}
    {readDir : ReadDir B E} (h : (op 0 ctx).value ρ = .ok readDir) :
    (retryTransientIo platform op retries 0 ctx).value ρ = .ok readDir ∧
      (retryTransientIo platform op retries 0 ctx).asked ρ = (op 0 ctx).asked ρ := by
  cases retries with
  | zero => exact ⟨h, rfl⟩
  | succ retries => simp [retryTransientIo, h]

/-! ### The read that an entry asks for -/

/-- Whether following a link gives an entry that asks for a read: its target is a directory, the
link can be read, and the target is not found among the ancestors. -/
def leadsToDirectory (os : SystemCalls) (ancestors : Option (List AncestorIdentity))
    (parentPath : Path) (fileName : OsString) : Bool :=
  match os.metadata (parentPath.join fileName), os.readLink (parentPath.join fileName) with
  | .ok metadata, .ok target =>
    let resolvedTarget := if target.isAbsolute then target else parentPath.joinPath target
    let canonicalTarget := ((os.canonicalize resolvedTarget).toOption).getD resolvedTarget
    metadata.fileType.isDir &&
      match os.metadata canonicalTarget with
      | .ok targetMeta => (DirEntry.findLoop ancestors (getMetadataExt targetMeta)).isNone
      | .error _ => true
  | _, _ => false

/-- The read of a subdirectory of a directory. -/
def subdirSpec (req : ReadRequest B) (fileName : OsString) : ReadDirSpec B where
  depth := req.readDirContentsDepth
  path := req.path.join fileName
  clientReadState := req.clientReadState
  followLinkAncestors := req.followLinkAncestors

variable [Inhabited E]

omit [Inhabited E] in
theorem leadsToDirectory_of_error {os : SystemCalls} {e : DirEntry E} {err : IoError}
    (h : os.metadata e.path = .error err) :
    leadsToDirectory os e.followLinkAncestors e.parentPath e.fileName = false := by
  rw [leadsToDirectory, show e.parentPath.join e.fileName = e.path from rfl, h]

omit [Inhabited E] in
/-- A link leads to a directory if its target is one and nothing keeps it from being followed. -/
theorem leadsToDirectory_of_ok {os : SystemCalls} {e : DirEntry E} {metadata : Metadata}
    (h : os.metadata e.path = .ok metadata) :
    leadsToDirectory os e.followLinkAncestors e.parentPath e.fileName =
      (metadata.fileType.isDir && (DirEntry.linkError os e).isNone) := by
  rw [leadsToDirectory, show e.parentPath.join e.fileName = e.path from rfl, h,
    DirEntry.linkError]
  cases os.readLink e.path with
  | error err => simp
  | ok target =>
    simp only
    generalize ((os.canonicalize _).toOption).getD _ = canonicalTarget
    cases os.metadata canonicalTarget <;> simp

/-- The read that a followed link asks for. -/
theorem childSpec_followSymlink (os : SystemCalls) (e : DirEntry E) (state : B) :
    ReadDir.childSpec state (e.followSymlink os) =
      if leadsToDirectory os e.followLinkAncestors e.parentPath e.fileName then
        some ⟨e.depth, e.path, state, e.followLinkAncestors⟩
      else none := by
  rw [DirEntry.followSymlink_eq, DirEntry.fromPath]
  simp only [↓reduceIte]
  cases hmeta : os.metadata e.path with
  | error err => simp [leadsToDirectory_of_error hmeta, Except.bind, ReadDir.childSpec]
  | ok metadata =>
    rw [leadsToDirectory_of_ok hmeta]
    by_cases hdir : metadata.fileType.isDir = true
    · cases DirEntry.linkError os e <;>
        simp [hdir, Except.bind, ReadDir.childSpec, DirEntry.readChildrenSpec]
    · simp [hdir, Except.bind, ReadDir.childSpec, DirEntry.readChildrenSpec]

/-- The read that an entry below the root asks for, once links are followed. -/
theorem childSpec_processDirEntryResult (os : SystemCalls) (followLinks : Bool)
    (req : ReadRequest B) (hdepth : req.readDirContentsDepth ≠ 0) (metadata : Option MetaData)
    (metadataExt : Option MetaDataExt) (fileName : OsString) (fileType : FileType) :
    ReadDir.childSpec req.clientReadState (processDirEntryResult (E := E) os followLinks
        (.ok (.fromRaw req.readDirContentsDepth req.path metadata metadataExt fileName fileType
          req.followLinkAncestors))) =
      if fileType.isDir || followLinks && fileType.isSymlink &&
          leadsToDirectory os req.followLinkAncestors req.path fileName then
        some (subdirSpec req fileName)
      else none := by
  set e : DirEntry E := .fromRaw req.readDirContentsDepth req.path metadata metadataExt fileName
    fileType req.followLinkAncestors with he
  by_cases hlink : (followLinks && fileType.isSymlink) = true
  · have hdir : fileType.isDir = false := by
      by_contra hdir
      simp [FileType.isSymlink_of_isDir (by simpa using hdir)] at hlink
    rw [processDirEntryResult_of_link os hlink, childSpec_followSymlink, hlink, hdir]
    simp only [Bool.true_and, Bool.false_or]
    rfl
  · have hlink' : (followLinks && fileType.isSymlink) = false := by
      simpa using hlink
    rw [processDirEntryResult_of_not_link os hlink' hdepth, hlink', Bool.false_and, Bool.or_false]
    by_cases hdir : fileType.isDir = true <;>
      simp [ReadDir.childSpec, DirEntry.readChildrenSpec, he, DirEntry.fromRaw, hdir, subdirSpec]

/-! ### A streaming read that succeeds -/

/-- The request that the core callback makes for an item of the work queue. -/
def coreRequest (os : SystemCalls) (opts : WalkDirOptions B E)
    (weighted : Weighted (ReadDirSpec B)) : ReadRequest B where
  path := weighted.value.path
  readDirDepth := weighted.value.depth
  readDirContentsDepth := saturatingAdd weighted.value.depth 1
  followLinkAncestors :=
    extendAncestors os opts.followLinks weighted.value.path weighted.value.followLinkAncestors
  clientReadState := weighted.value.clientReadState
  streamingCtx := some ⟨weighted.indexPath, weighted.weight⟩

/-- A first attempt that succeeds decides the result and the streamed child reads of an item. -/
theorem coreReadDirCallback_of_ok {os : OperatingSystem} {opts : WalkDirOptions B E}
    {weighted : Weighted (ReadDirSpec B)} {readDir : ReadDir B E}
    (hdepth : saturatingAdd weighted.value.depth 1 ≤ opts.maxDepth)
    (h : (readDirOn os opts 0 (coreRequest os.systemCalls opts weighted)).value
      StreamOp.unstopped = .ok readDir) :
    (coreReadDirCallback os opts).result weighted = .ok readDir ∧
      (coreReadDirCallback (E := E) os opts).streamed weighted =
        schedules ((readDirOn (E := E) os opts 0
          (coreRequest os.systemCalls opts weighted)).asked StreamOp.unstopped) := by
  have hread := retryTransientIo_of_ok os.platform
    (fun attempt streamingCtx => readDirOn os opts attempt
      { coreRequest os.systemCalls opts weighted with streamingCtx := streamingCtx })
    opts.maxRetries (some ⟨weighted.indexPath, weighted.weight⟩) h
  simp only [ReadDirCallback.result, ReadDirCallback.streamed, coreReadDirCallback,
    Nat.not_lt.mpr hdepth, ↓reduceIte]
  exact ⟨hread.1, congrArg schedules hread.2⟩

section Streaming

variable {α : Type} {os : OperatingSystem} {opts : WalkDirOptions B E}
  {weighted : Weighted (ReadDirSpec B)} {enumeration : Enumeration α} {isSubdir skip : α → Bool}
  {name : α → OsString} {makeResults : List α → List (Except Error (DirEntry E))}
  (hsort : opts.sort = false) (hprocess : opts.processReadDir = none)
  (hdepth : saturatingAdd weighted.value.depth 1 ≤ opts.maxDepth)
  (hread : readDirOn os opts 0 (coreRequest os.systemCalls opts weighted) =
    readDirWith opts (coreRequest os.systemCalls opts weighted) enumeration isSubdir skip name
      makeResults)

include hsort hprocess hdepth hread

/-- What a streaming read schedules, and its result, unless it fails without having scheduled
anything. -/
theorem streaming_of_outcome (readDir : ReadDir B E)
    (houtcome : readDirOutcome opts (coreRequest os.systemCalls opts weighted) enumeration
      makeResults (subdirs isSubdir skip enumeration.records).length = .ok readDir) :
    (coreReadDirCallback os opts).result weighted = .ok readDir ∧
      ((coreReadDirCallback (E := E) os opts).streamed weighted).length =
        (subdirs isSubdir skip enumeration.records).length ∧
      ((coreReadDirCallback (E := E) os opts).streamed weighted).map Weighted.value =
        (subdirs isSubdir skip enumeration.records).map fun info =>
          subdirSpec (coreRequest os.systemCalls opts weighted) (name info) := by
  have hstream : streamedRecords opts (coreRequest os.systemCalls opts weighted) isSubdir skip
      enumeration.records = subdirs isSubdir skip enumeration.records := by
    simp [streamedRecords, WalkDirOptions.streaming, hsort, hprocess, coreRequest]
  have hvalue : (readDirOn os opts 0 (coreRequest os.systemCalls opts weighted)).value
      StreamOp.unstopped = .ok readDir := by
    rw [hread, value_readDirWith, hstream, houtcome]
  obtain ⟨hresult, hstreamed⟩ := coreReadDirCallback_of_ok hdepth hvalue
  rw [hread, schedules_readDirWith _ _ _ _ _ _ _ rfl, hstream] at hstreamed
  refine ⟨hresult, by rw [hstreamed, List.length_mapIdx], ?_⟩
  rw [hstreamed]
  exact List.ext_getElem (by simp) fun i h₁ h₂ => by simp [subdirItem, subdirSpec]

/-- A streaming read that succeeds is aligned if it schedules nothing, or what it schedules is what
the entries ask for. -/
theorem alignedAt_streaming_iff (hok : enumeration.error = none) :
    (coreReadDirCallback (E := E) os opts).AlignedAt weighted ↔
      subdirs isSubdir skip enumeration.records = [] ∨
      (subdirs isSubdir skip enumeration.records).map (fun info =>
          subdirSpec (coreRequest os.systemCalls opts weighted) (name info)) =
        (makeResults enumeration.records).filterMap
          (ReadDir.childSpec weighted.value.clientReadState) := by
  obtain ⟨hresult, hlength, hvalues⟩ := streaming_of_outcome hsort hprocess hdepth hread
    ⟨weighted.value.clientReadState, makeResults enumeration.records,
      (subdirs isSubdir skip enumeration.records).length⟩
    (by simp [readDirOutcome, hok, finishReadDir, hsort, hprocess, coreRequest])
  have hnil : (coreReadDirCallback (E := E) os opts).streamed weighted = [] ↔
      subdirs isSubdir skip enumeration.records = [] := by
    rw [← List.length_eq_zero_iff, hlength, List.length_eq_zero_iff]
  rw [alignedAt_iff_of_result hresult hlength, hnil, hvalues]
  rfl

end Streaming

/-! ### Linux -/

/-- The read of Linux in its frame. -/
theorem readDirOn_linux (os : LinuxCalls) (opts : WalkDirOptions B E) (attempt : ℕ)
    (req : ReadRequest B) : readDirOn (E := E) (.linux os) opts attempt req =
      readDirWith opts req (linuxRecords os req.path attempt) (fun info => info.dType == DT_DIR)
        (skipLinux opts) LinuxDirEntryOwned.name fun entries =>
          (batchStatx os opts req.path entries).filterMap (linuxResult os opts req) := rfl

/-- The records of a listing that are not skipped as hidden. -/
def visibleLinux (opts : WalkDirOptions B E) (records : List LinuxDirEntryOwned) :
    List LinuxDirEntryOwned :=
  records.filter fun info => !(opts.skipHidden && isHidden info.name)

/-- Whether the entry for a record asks for a read. -/
def asksLinux (os : LinuxCalls) (opts : WalkDirOptions B E) (req : ReadRequest B)
    (info : LinuxDirEntryOwned) : Bool :=
  info.dType == DT_DIR || opts.followLinks && info.dType == DT_LNK &&
    leadsToDirectory os.toSystemCalls req.followLinkAncestors req.path info.name

omit [Inhabited E] in
/-- The batch fills in what was fetched and changes nothing else. -/
theorem batchStatx_eq (os : LinuxCalls) (opts : WalkDirOptions B E) (path : Path)
    (entries : List LinuxDirEntryOwned) :
    ∃ statx : LinuxDirEntryOwned → Option Statx,
      (batchStatx os opts path entries =
        entries.map fun info => { info with statx := statx info }) ∧
      ∀ info found, statx info = some found → info.statx = some found ∨
        ∃ fetched, os.prefetch path = some fetched ∧ fetched info.name = some found := by
  have hsame : entries = entries.map fun info => { info with statx := info.statx } := by simp
  unfold batchStatx
  dsimp only
  split
  · rename_i fetched hfetched
    split_ifs
    · exact ⟨fun info => fetched info.name, rfl, fun _ _ h => Or.inr ⟨fetched, hfetched, h⟩⟩
    · exact ⟨LinuxDirEntryOwned.statx, hsame, fun _ _ h => Or.inl h⟩
  · exact ⟨LinuxDirEntryOwned.statx, hsame, fun _ _ h => Or.inl h⟩

/-- The file type by a type byte. -/
theorem isDir_fileTypeFromDtype (dType : UInt8) :
    ((fileTypeFromDtype dType).getD (fileTypeFromMode S_IFREG)).isDir = (dType == DT_DIR) ∧
      ((fileTypeFromDtype dType).getD (fileTypeFromMode S_IFREG)).isSymlink =
        (dType == DT_LNK) := by
  unfold fileTypeFromDtype
  split_ifs with h₁ h₂ h₃ h₄ h₅ h₆ h₇
  all_goals first | subst dType; decide | skip
  simp [h₁, h₃, FileType.isDir, FileType.isSymlink, fileTypeFromMode]
  decide

/-- An entry whose type byte is not the unknown one has its type from this byte. -/
theorem exists_fromRaw_of_known (os : LinuxCalls) (info : LinuxDirEntryOwned)
    (hknown : info.dType ≠ DT_UNKNOWN) (depth : ℕ) (parentPath : Path)
    (readMetadata readMetadataExt : Bool) (ancestors : Option (List AncestorIdentity)) :
    ∃ metadata metadataExt, makeDirEntryLinux (E := E) os info depth parentPath readMetadata
        readMetadataExt ancestors =
      .fromRaw depth parentPath metadata metadataExt info.name
        ((fileTypeFromDtype info.dType).getD (fileTypeFromMode S_IFREG)) ancestors := by
  unfold makeDirEntryLinux
  dsimp only
  split
  · exact ⟨_, _, rfl⟩
  · simp only [beq_iff_eq, hknown, ↓reduceIte]
    exact ⟨_, _, rfl⟩

/-- The read that the entry for a record asks for, if its type is known. -/
theorem childSpec_linuxResult (os : LinuxCalls) (opts : WalkDirOptions B E) (req : ReadRequest B)
    (hdepth : req.readDirContentsDepth ≠ 0) (info : LinuxDirEntryOwned)
    (hknown : info.dType ≠ DT_UNKNOWN) :
    (linuxResult (E := E) os opts req info).bind (ReadDir.childSpec req.clientReadState) =
      if !(opts.skipHidden && isHidden info.name) && asksLinux os opts req info then
        some (subdirSpec req info.name)
      else none := by
  obtain ⟨hdir, hlink⟩ := isDir_fileTypeFromDtype info.dType
  obtain ⟨metadata, metadataExt, hraw⟩ := exists_fromRaw_of_known (E := E) os info hknown
    req.readDirContentsDepth req.path opts.readMetadata opts.readMetadataExt req.followLinkAncestors
  rw [linuxResult, hraw]
  by_cases hhidden : (opts.skipHidden && isHidden info.name) = true
  · simp [hhidden]
  · rw [if_neg hhidden, Option.bind_some, childSpec_processDirEntryResult _ _ _ hdepth, hdir,
      hlink]
    simp only [hhidden, Bool.not_false, Bool.true_and, asksLinux]

/-- Nothing is at depth zero below a directory. -/
theorem saturatingAdd_one_ne_zero (n : ℕ) : saturatingAdd n 1 ≠ 0 := by
  simp only [saturatingAdd, usizeMax]
  omega

/-- The reads that the entries of a listing ask for, if all types are known. -/
theorem filterMap_linuxResults (os : LinuxCalls) (opts : WalkDirOptions B E) (req : ReadRequest B)
    (hdepth : req.readDirContentsDepth ≠ 0) (records : List LinuxDirEntryOwned)
    (hknown : ∀ info ∈ records, info.dType ≠ DT_UNKNOWN) :
    ((batchStatx os opts req.path records).filterMap (linuxResult (E := E) os opts req)).filterMap
        (ReadDir.childSpec req.clientReadState) =
      (records.filter fun info =>
        !(opts.skipHidden && isHidden info.name) && asksLinux os opts req info).map fun info =>
          subdirSpec req info.name := by
  obtain ⟨statx, hbatch, -⟩ := batchStatx_eq os opts req.path records
  rw [hbatch, List.filterMap_filterMap, List.filterMap_map]
  refine Selection.filterMap_ite fun info hinfo => ?_
  exact childSpec_linuxResult os opts req hdepth { info with statx := statx info }
    (hknown info hinfo)

omit [Inhabited E] in
/-- The records that a streaming read schedules are the visible directories. -/
theorem subdirs_linux (opts : WalkDirOptions B E) (records : List LinuxDirEntryOwned) :
    subdirs (fun info => info.dType == DT_DIR) (skipLinux opts) records =
      records.filter fun info =>
        !(opts.skipHidden && isHidden info.name) && info.dType == DT_DIR := by
  refine List.filter_congr fun info _ => ?_
  cases hdir : info.dType == DT_DIR <;> simp [skipLinux, bne, hdir]

/-- A streaming read of Linux that succeeds is aligned if no visible record is a directory, or the
visible directories are what the entries ask for. -/
theorem alignedAt_linux_streaming_iff (os : LinuxCalls) {opts : WalkDirOptions B E}
    (hsort : opts.sort = false) (hprocess : opts.processReadDir = none)
    {weighted : Weighted (ReadDirSpec B)}
    (hdepth : saturatingAdd weighted.value.depth 1 ≤ opts.maxDepth)
    (hok : (linuxRecords os weighted.value.path 0).error = none) :
    (coreReadDirCallback (E := E) (.linux os) opts).AlignedAt weighted ↔
      (∀ info ∈ visibleLinux opts (linuxRecords os weighted.value.path 0).records,
        info.dType ≠ DT_DIR) ∨
      ((linuxRecords os weighted.value.path 0).records.filter fun info =>
          !(opts.skipHidden && isHidden info.name) && info.dType == DT_DIR).map
            (fun info => subdirSpec (coreRequest os.toSystemCalls opts weighted) info.name) =
        ((batchStatx os opts weighted.value.path
            (linuxRecords os weighted.value.path 0).records).filterMap
          (linuxResult (E := E) os opts (coreRequest os.toSystemCalls opts weighted))).filterMap
            (ReadDir.childSpec weighted.value.clientReadState) := by
  have haligned := alignedAt_streaming_iff (E := E) hsort hprocess hdepth
    (readDirOn_linux os opts 0 (coreRequest os.toSystemCalls opts weighted)) hok
  rw [subdirs_linux] at haligned
  refine haligned.trans (or_congr ?_ Iff.rfl)
  simp [visibleLinux, coreRequest]

/-- **When a streaming read of Linux that follows links is aligned.** All types are known and the
enumeration succeeds. Then the counted child reads are those that the entries ask for if and only
if no visible record is a directory, or no visible record is a link that leads to a directory. -/
theorem alignedAt_linux_iff (os : LinuxCalls) (opts : WalkDirOptions B E)
    (hsort : opts.sort = false) (hprocess : opts.processReadDir = none)
    (hfollow : opts.followLinks = true) (weighted : Weighted (ReadDirSpec B))
    (hdepth : saturatingAdd weighted.value.depth 1 ≤ opts.maxDepth)
    (hok : (linuxRecords os weighted.value.path 0).error = none)
    (hknown : ∀ info ∈ (linuxRecords os weighted.value.path 0).records,
      info.dType ≠ DT_UNKNOWN) :
    (coreReadDirCallback (E := E) (.linux os) opts).AlignedAt weighted ↔
      (∀ info ∈ visibleLinux opts (linuxRecords os weighted.value.path 0).records,
        info.dType ≠ DT_DIR) ∨
      (∀ info ∈ visibleLinux opts (linuxRecords os weighted.value.path 0).records,
        info.dType = DT_LNK → leadsToDirectory os.toSystemCalls
          (extendAncestors os.toSystemCalls true weighted.value.path
            weighted.value.followLinkAncestors) weighted.value.path info.name = false) := by
  set records := (linuxRecords os weighted.value.path 0).records with hrecords
  set req := coreRequest os.toSystemCalls opts weighted with hreq
  have hancestors : req.followLinkAncestors = extendAncestors os.toSystemCalls true
      weighted.value.path weighted.value.followLinkAncestors := by
    rw [hreq, coreRequest, hfollow]
  have hresults := filterMap_linuxResults (E := E) os opts req (saturatingAdd_one_ne_zero _)
    records hknown
  refine (alignedAt_linux_streaming_iff os hsort hprocess hdepth hok).trans (or_congr Iff.rfl ?_)
  refine (Eq.congr_right hresults).trans ?_
  -- what is scheduled is asked for, so the picks differ by the followed links
  rw [Selection.map_filter_eq_iff_of_imp fun info _ h => by
    simp only [Bool.and_eq_true] at h
    simp [asksLinux, h.1, h.2]]
  simp only [visibleLinux, List.mem_filter, and_imp]
  refine forall₂_congr fun info _ => ?_
  have hpath : req.path = weighted.value.path := rfl
  rw [asksLinux, hfollow, hancestors, hpath]
  have hne : DT_DIR ≠ DT_LNK := by decide
  by_cases hdir : info.dType = DT_DIR
  · simp [hdir, hne]
  · by_cases hlink : info.dType = DT_LNK <;> simp [hdir, hlink, hne.symm]

/-- A Linux where every directory holds the same records, and every link leads to a directory
outside of them. -/
def linkedLinux (records : List (UInt8 × OsString)) : LinuxCalls :=
  { LinuxCalls.listing fun _ => ⟨records, none⟩ with
    metadata := fun _ => .ok (.ofMode S_IFDIR 1 7)
    symlinkMetadata := fun _ => .ok (.ofMode S_IFDIR 1 2)
    readLink := fun _ => .ok ⟨[.rootDir, .normal [116]]⟩
    canonicalize := fun path => .ok path }

/-- The options of a walk that follows links. -/
def followOptions : WalkDirOptions Unit Unit :=
  { (WalkDirOptions.new : WalkDirOptions Unit Unit) with followLinks := true }

/-- The item for the read of the directory `r`. -/
def itemR : Weighted (ReadDirSpec Unit) := ⟨⟨0, ⟨[.normal [114]]⟩, (), none⟩, ⟨[0]⟩, rootWeight⟩

/-- The statement above for a directory that holds nothing but a link: its read is aligned. -/
theorem alignedAt_linux_link_only :
    (coreReadDirCallback (E := Unit) (.linux (linkedLinux [(DT_LNK, [108])]))
      followOptions).AlignedAt itemR :=
  (alignedAt_linux_iff (linkedLinux [(DT_LNK, [108])]) followOptions rfl rfl rfl itemR (by decide)
    rfl (by decide)).mpr (Or.inl (by decide))

instance [DecidableEq B] (callback : ReadDirCallback B E) (weighted : Weighted (ReadDirSpec B)) :
    Decidable (callback.AlignedAt weighted) :=
  inferInstanceAs (Decidable (_ = _))

/-- A directory with a subdirectory `d` and a link `l` to a directory: `l` asks for a read that is
not counted. -/
theorem not_alignedAt_linux_dir_and_link :
    followOptions.sort = false ∧ followOptions.processReadDir = none ∧
    followOptions.followLinks = true ∧
    (linuxRecords (linkedLinux [(DT_DIR, [100]), (DT_LNK, [108])]) itemR.value.path 0).error =
      none ∧
    (∀ info ∈ (linuxRecords (linkedLinux [(DT_DIR, [100]), (DT_LNK, [108])])
      itemR.value.path 0).records, info.dType ≠ DT_UNKNOWN) ∧
    ¬ (coreReadDirCallback (E := Unit)
      (.linux (linkedLinux [(DT_DIR, [100]), (DT_LNK, [108])])) followOptions).AlignedAt itemR := by
  refine ⟨rfl, rfl, rfl, rfl, by decide, ?_⟩
  decide +kernel

/-! ### Windows -/

/-- The records of a listing that are not skipped as hidden. -/
def visibleWindows (opts : WalkDirOptions B E) (records : List DirEntryInfo) :
    List DirEntryInfo :=
  records.filter fun info => !(opts.skipHidden && isHiddenWin32 info.fileName info.fileAttributes)

/-- Whether the entry for a record asks for a read. -/
def asksWindows (os : WindowsCalls) (opts : WalkDirOptions B E) (req : ReadRequest B)
    (info : DirEntryInfo) : Bool :=
  (fileTypeFromAttrs info.fileAttributes).isDir ||
    opts.followLinks && hasReparsePointBit info.fileAttributes &&
      leadsToDirectory os.toSystemCalls req.followLinkAncestors req.path info.fileName

/-- The read that the entry for a record asks for. -/
theorem childSpec_windowsResult (os : WindowsCalls) (opts : WalkDirOptions B E)
    (req : ReadRequest B) (hdepth : req.readDirContentsDepth ≠ 0) (info : DirEntryInfo) :
    (windowsResult (E := E) os opts req info).bind (ReadDir.childSpec req.clientReadState) =
      if !(opts.skipHidden && isHiddenWin32 info.fileName info.fileAttributes) &&
          asksWindows os opts req info then
        some (subdirSpec req info.fileName)
      else none := by
  by_cases hhidden : (opts.skipHidden && isHiddenWin32 info.fileName info.fileAttributes) = true
  · simp [windowsResult, hhidden]
  · rw [windowsResult, if_neg hhidden, Option.bind_some, makeDirEntry,
      childSpec_processDirEntryResult _ _ _ hdepth]
    simp only [hhidden, Bool.not_false, Bool.true_and, asksWindows]
    rfl

/-- The records with their numbers of links, if they are wanted. -/
def linkedRecords (os : WindowsCalls) (opts : WalkDirOptions B E) (path : Path)
    (entries : List DirEntryInfo) : List DirEntryInfo :=
  if opts.readMetadataExt && opts.readHardlinkInfo then fillLinkInfo os path entries else entries

/-- The read of Windows in its frame. -/
theorem readDirOn_windows (os : WindowsCalls) (opts : WalkDirOptions B E) (attempt : ℕ)
    (req : ReadRequest B) : readDirOn (E := E) (.windows os) opts attempt req =
      readDirWith opts req (windowsRecords os req.path attempt)
        (fun info => hasDirectoryBit info.fileAttributes) (skipWindows opts) DirEntryInfo.fileName
        fun entries =>
          (linkedRecords os opts req.path entries).filterMap (windowsResult os opts req) := rfl

omit [Inhabited E] in
/-- The numbers of links are filled in, and nothing else is changed. -/
theorem linkedRecords_eq (os : WindowsCalls) (opts : WalkDirOptions B E) (path : Path)
    (entries : List DirEntryInfo) :
    ∃ fill : DirEntryInfo → DirEntryInfo, linkedRecords os opts path entries = entries.map fill ∧
      ∀ info, (fill info).fileName = info.fileName ∧
        (fill info).fileAttributes = info.fileAttributes := by
  unfold linkedRecords
  split_ifs
  · exact ⟨_, rfl, fun info => ⟨rfl, rfl⟩⟩
  · exact ⟨id, (List.map_id _).symm, fun info => ⟨rfl, rfl⟩⟩

/-- The reads that the entries of a listing ask for. -/
theorem filterMap_windowsResults (os : WindowsCalls) (opts : WalkDirOptions B E)
    (req : ReadRequest B) (hdepth : req.readDirContentsDepth ≠ 0) (records : List DirEntryInfo) :
    ((linkedRecords os opts req.path records).filterMap
        (windowsResult (E := E) os opts req)).filterMap (ReadDir.childSpec req.clientReadState) =
      (records.filter fun info =>
        !(opts.skipHidden && isHiddenWin32 info.fileName info.fileAttributes) &&
          asksWindows os opts req info).map fun info => subdirSpec req info.fileName := by
  obtain ⟨fill, hfill, hsame⟩ := linkedRecords_eq os opts req.path records
  rw [hfill, List.filterMap_filterMap, List.filterMap_map]
  refine Selection.filterMap_ite fun info _ => ?_
  have hspec := childSpec_windowsResult (E := E) os opts req hdepth (fill info)
  rw [asksWindows, (hsame info).1, (hsame info).2] at hspec
  exact hspec

/-- **When a streaming read of Windows is aligned.** The enumeration succeeds, and no two of its
records have the same path. Then the counted child reads are those that the entries ask for if and
only if no visible record has the directory bit, or every visible reparse point has the directory
bit exactly if links are followed and it leads to a directory. -/
theorem alignedAt_windows_iff (os : WindowsCalls) (opts : WalkDirOptions B E)
    (hsort : opts.sort = false) (hprocess : opts.processReadDir = none)
    (weighted : Weighted (ReadDirSpec B))
    (hdepth : saturatingAdd weighted.value.depth 1 ≤ opts.maxDepth)
    (hok : (windowsRecords os weighted.value.path 0).error = none)
    (hpaths : ((windowsRecords os weighted.value.path 0).records.map fun info =>
      weighted.value.path.join info.fileName).Nodup) :
    (coreReadDirCallback (E := E) (.windows os) opts).AlignedAt weighted ↔
      (∀ info ∈ visibleWindows opts (windowsRecords os weighted.value.path 0).records,
        hasDirectoryBit info.fileAttributes = false) ∨
      (∀ info ∈ visibleWindows opts (windowsRecords os weighted.value.path 0).records,
        hasReparsePointBit info.fileAttributes = true →
          hasDirectoryBit info.fileAttributes = (opts.followLinks &&
            leadsToDirectory os.toSystemCalls
              (extendAncestors os.toSystemCalls opts.followLinks weighted.value.path
                weighted.value.followLinkAncestors) weighted.value.path info.fileName)) := by
  set records := (windowsRecords os weighted.value.path 0).records with hrecords
  set req := coreRequest os.toSystemCalls opts weighted with hreq
  have hsubdirs : subdirs (fun info => hasDirectoryBit info.fileAttributes) (skipWindows opts)
      records = records.filter fun info =>
        !(opts.skipHidden && isHiddenWin32 info.fileName info.fileAttributes) &&
          hasDirectoryBit info.fileAttributes := by
    refine List.filter_congr fun info _ => ?_
    cases hdir : hasDirectoryBit info.fileAttributes <;> simp [skipWindows, hdir]
  have haligned : (coreReadDirCallback (E := E) (.windows os) opts).AlignedAt weighted ↔
      subdirs (fun info => hasDirectoryBit info.fileAttributes) (skipWindows opts) records = [] ∨
      (subdirs (fun info => hasDirectoryBit info.fileAttributes) (skipWindows opts) records).map
          (fun info => subdirSpec req info.fileName) =
        ((linkedRecords os opts req.path records).filterMap
          (windowsResult (E := E) os opts req)).filterMap
            (ReadDir.childSpec req.clientReadState) :=
    alignedAt_streaming_iff hsort hprocess hdepth (readDirOn_windows os opts 0 req) hok
  have hresults := filterMap_windowsResults (E := E) os opts req (saturatingAdd_one_ne_zero _)
    records
  have hnodup : (records.map fun info => subdirSpec req info.fileName).Nodup := by
    refine List.Nodup.of_map ReadDirSpec.path ?_
    rw [List.map_map]
    exact hpaths
  rw [haligned, hsubdirs, hresults]
  refine or_congr ?_ ?_
  · simp [visibleWindows]
  · rw [Selection.map_filter_eq_iff_of_nodup hnodup]
    simp only [visibleWindows, List.mem_filter, and_imp]
    refine forall₂_congr fun info _ => ?_
    have hancestors : req.followLinkAncestors = extendAncestors os.toSystemCalls opts.followLinks
        weighted.value.path weighted.value.followLinkAncestors := rfl
    have hpath : req.path = weighted.value.path := rfl
    rw [asksWindows, hancestors, hpath]
    by_cases hreparse : hasReparsePointBit info.fileAttributes = true
    · by_cases hhidden :
          (opts.skipHidden && isHiddenWin32 info.fileName info.fileAttributes) = true
      · simp [hhidden]
      · simp [hhidden, hreparse, fileTypeFromAttrs, FileType.isDir]
    · simp [hreparse, fileTypeFromAttrs, FileType.isDir]

/-- A Windows where every directory holds the same records, given by names and attribute words, and
every call on a path fails. -/
def listingWindows (records : List (OsString × UInt32)) (error : Option IoError) :
    WindowsCalls where
  metadata := fun _ => .error (.os 2)
  symlinkMetadata := fun _ => .error (.os 2)
  readLink := fun _ => .error (.os 2)
  canonicalize := fun _ => .error (.os 2)
  enumerate := fun _ _ =>
    ⟨records.map fun record => ⟨record.1, record.2, 0, 0, 0, 0, 0, none, none⟩, error⟩
  isFatFamily := fun _ => false
  volSerial := fun _ => none
  queryNlinks := fun _ _ => none

/-- The statement above for a directory that holds a subdirectory and a file: its read is
aligned. -/
theorem alignedAt_windows_dir_and_file :
    (coreReadDirCallback (E := Unit) (.windows (listingWindows [([100], 0x10), ([102], 0x20)] none))
      (WalkDirOptions.new : WalkDirOptions Unit Unit)).AlignedAt itemR :=
  (alignedAt_windows_iff (listingWindows [([100], 0x10), ([102], 0x20)] none) .new rfl rfl itemR
    (by decide) rfl (by decide)).mpr (Or.inr (by decide))

/-- A directory that holds a junction, with the options of `WalkDirGeneric::new`: its read is
counted, but its entry does not ask for one. -/
theorem not_alignedAt_windows_junction :
    (WalkDirOptions.new : WalkDirOptions Unit Unit).sort = false ∧
    (WalkDirOptions.new : WalkDirOptions Unit Unit).processReadDir.isNone = true ∧
    (windowsRecords (listingWindows [([106], 0x410)] none) itemR.value.path 0).error = none ∧
    ¬ (coreReadDirCallback (E := Unit) (.windows (listingWindows [([106], 0x410)] none))
      (WalkDirOptions.new : WalkDirOptions Unit Unit)).AlignedAt itemR := by
  refine ⟨rfl, rfl, rfl, ?_⟩
  decide +kernel

/-! ### A read that fails midway -/

/-- The enumeration of a directory fails after it has come to a visible subdirectory, so that some
child reads have been scheduled already. -/
def FailsMidway (opts : WalkDirOptions B E) (path : Path) : OperatingSystem → Prop
  | .linux os => (linuxRecords os path 0).error.isSome = true ∧
      ∃ info ∈ visibleLinux opts (linuxRecords os path 0).records, info.dType = DT_DIR
  | .windows os => (windowsRecords os path 0).error.isSome = true ∧
      ∃ info ∈ visibleWindows opts (windowsRecords os path 0).records,
        hasDirectoryBit info.fileAttributes = true
  | .unix _ => False

section FailedMidway

variable {α : Type} {os : OperatingSystem} {opts : WalkDirOptions B E}
  {weighted : Weighted (ReadDirSpec B)} {enumeration : Enumeration α} {isSubdir skip : α → Bool}
  {name : α → OsString} {makeResults : List α → List (Except Error (DirEntry E))}

/-- After a failure midway the announced child reads are those that were scheduled, and no entry
asks for one. -/
theorem failed_midway_of_readDirWith (hsort : opts.sort = false)
    (hprocess : opts.processReadDir = none)
    (hdepth : saturatingAdd weighted.value.depth 1 ≤ opts.maxDepth)
    (hread : readDirOn os opts 0 (coreRequest os.systemCalls opts weighted) =
      readDirWith opts (coreRequest os.systemCalls opts weighted) enumeration isSubdir skip name
        makeResults)
    (herror : enumeration.error.isSome = true) {info : α} (hinfo : info ∈ enumeration.records)
    (hsubdir : isSubdir info = true) (hskip : skip info = false) :
    0 < ((coreReadDirCallback (E := E) os opts).ordered weighted).childCount ∧
      childSpecs ((coreReadDirCallback (E := E) os opts).result weighted) = [] := by
  obtain ⟨err, herr⟩ := Option.isSome_iff_exists.mp herror
  have hpos : 0 < (subdirs isSubdir skip enumeration.records).length :=
    List.length_pos_of_mem (List.mem_filter.mpr ⟨hinfo, by simp [hsubdir, hskip]⟩)
  obtain ⟨hresult, -, -⟩ := streaming_of_outcome hsort hprocess hdepth hread
    ⟨weighted.value.clientReadState, [.error (Error.fromPath 0 weighted.value.path err)],
      (subdirs isSubdir skip enumeration.records).length⟩
    (by simp [readDirOutcome, herr, hpos, coreRequest])
  refine ⟨?_, ?_⟩
  · simp only [ReadDirCallback.ordered, hresult, childCount, streamedCount]
    omega
  · rw [hresult]
    rfl

end FailedMidway

/-- **A read that fails midway is never aligned.** On both platforms that stream, whenever the
enumeration fails after some child reads have been scheduled, the announced number of child reads is
not the number of entries that ask for one. -/
theorem childCount_failed_midway (os : OperatingSystem) (opts : WalkDirOptions B E)
    (hsort : opts.sort = false) (hprocess : opts.processReadDir = none)
    (weighted : Weighted (ReadDirSpec B))
    (hdepth : saturatingAdd weighted.value.depth 1 ≤ opts.maxDepth)
    (hfails : FailsMidway opts weighted.value.path os) :
    ¬ ((coreReadDirCallback (E := E) os opts).ordered weighted).childCount =
      (childSpecs ((coreReadDirCallback (E := E) os opts).result weighted)).length := by
  have hmidway : 0 < ((coreReadDirCallback (E := E) os opts).ordered weighted).childCount ∧
      childSpecs ((coreReadDirCallback (E := E) os opts).result weighted) = [] := by
    cases os with
    | linux calls =>
      obtain ⟨herror, info, hinfo, hdir⟩ := hfails
      obtain ⟨hmem, hvisible⟩ := List.mem_filter.mp hinfo
      have hskip : skipLinux opts info = false := by
        rw [skipLinux, (Bool.not_eq_true' _).mp hvisible, hdir]
        rfl
      exact failed_midway_of_readDirWith hsort hprocess hdepth (readDirOn_linux calls opts 0 _)
        herror hmem (beq_iff_eq.mpr hdir) hskip
    | windows calls =>
      obtain ⟨herror, info, hinfo, hdir⟩ := hfails
      obtain ⟨hmem, hvisible⟩ := List.mem_filter.mp hinfo
      have hskip : skipWindows opts info = false := by
        rw [skipWindows, (Bool.not_eq_true' _).mp hvisible, hdir]
        rfl
      exact failed_midway_of_readDirWith hsort hprocess hdepth (readDirOn_windows calls opts 0 _)
        herror hmem hdir hskip
    | unix calls => exact hfails.elim
  rw [hmidway.2]
  exact hmidway.1.ne'

/-- The statement above for a directory of Linux whose enumeration fails after one subdirectory. -/
theorem childCount_failed_midway_one_subdir :
    ¬ ((coreReadDirCallback (E := Unit)
        (.linux (.listing fun _ => ⟨[(DT_DIR, [97])], some (.os 5)⟩))
        (WalkDirOptions.new : WalkDirOptions Unit Unit)).ordered itemR).childCount =
      (childSpecs ((coreReadDirCallback (E := Unit)
        (.linux (.listing fun _ => ⟨[(DT_DIR, [97])], some (.os 5)⟩))
        (WalkDirOptions.new : WalkDirOptions Unit Unit)).result itemR)).length :=
  childCount_failed_midway _ .new rfl rfl itemR (by decide) ⟨rfl, by decide⟩

/-- A directory of Linux with two subdirectories, after which its enumeration fails with an I/O
error: two child reads are announced, and no entry asks for one. -/
theorem announced_failed_midway_two_subdirs :
    FailsMidway (WalkDirOptions.new : WalkDirOptions Unit Unit) itemR.value.path
      (.linux (.listing fun _ => ⟨[(DT_DIR, [97]), (DT_DIR, [98])], some (.os 5)⟩)) ∧
    ((coreReadDirCallback (E := Unit)
        (.linux (.listing fun _ => ⟨[(DT_DIR, [97]), (DT_DIR, [98])], some (.os 5)⟩))
        (WalkDirOptions.new : WalkDirOptions Unit Unit)).ordered itemR).childCount = 2 ∧
    (childSpecs ((coreReadDirCallback (E := Unit)
        (.linux (.listing fun _ => ⟨[(DT_DIR, [97]), (DT_DIR, [98])], some (.os 5)⟩))
        (WalkDirOptions.new : WalkDirOptions Unit Unit)).result itemR)).length = 0 :=
  ⟨⟨rfl, by decide⟩, by decide, by decide⟩

end JwalkMeta
