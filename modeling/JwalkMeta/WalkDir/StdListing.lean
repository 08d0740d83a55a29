import JwalkMeta.WalkDir.Alignment
import JwalkMeta.WalkDir.FileSystem
import JwalkMeta.WalkDir.StatSources

/-!
# The listing by `getdents64` and the listing by `std::fs::read_dir`

On Linux a directory is listed by `getdents64`; with the feature `legacy-read-dir`, and on other
Unix systems, `std::fs::read_dir` lists it. Where the two see the same directory they give the same
results, but for the times: `fstatat` knows no time of birth, `std::fs::Metadata` does not give the
time of change, and the listing by `getdents64` leaves out a time before the epoch.

A listing that breaks off is an error for `getdents64`, and one more result for
`std::fs::read_dir`. Nothing is said here about the metadata of an entry whose `stat` fails.

## Main definitions

* `Stat.stdMetadata`, `SameEntry`, `SameDirectory`: what both listings see.
* `DirEntry.Agrees`, `Ending.Agreement`: in which sense the results agree.

## Main results

* `forall₂_mergeSort`: sorting keeps lists related.
* `processDirEntryResult_agrees`: following links keeps entries in agreement.
* `getdents_agrees_std`: the two listings agree.
-/

namespace JwalkMeta

variable {B E : Type}

/-! ### What both listings see -/

/-- `std::fs::Metadata` for an answer of `fstatat`, with the time of birth if `statx` tells it. -/
def Stat.stdMetadata (stat : Stat) (created : Option SystemTime) : Metadata where
  fileType := fileTypeFromMode stat.stMode
  len := stat.stSize.toUInt64
  created := created
  modified := some ⟨stat.stMtime.toInt, stat.stMtimeNsec.toInt.toNat⟩
  accessed := some ⟨stat.stAtime.toInt, stat.stAtimeNsec.toInt.toNat⟩
  permissions := ⟨stat.stMode⟩
  ext := stat.metaDataExt

/-- The nanoseconds of a time are less than a second. -/
def Nanoseconds (nsec : Int64) : Prop := 0 ≤ nsec.toInt ∧ nsec.toInt < 1000000000

/-- Both calls give an answer about one inode, or both fail. -/
def SameStat : Except IoError Stat → Except IoError Metadata → Prop
  | .ok stat, .ok metadata => (∃ created, metadata = stat.stdMetadata created) ∧
      Nanoseconds stat.stMtimeNsec ∧ Nanoseconds stat.stAtimeNsec
  | .error _, .error _ => True
  | _, _ => False

/-- What both listings see of one entry, whose type byte is known. -/
structure SameEntry (os : LinuxCalls) (path : Path) (record : UInt8 × OsString)
    (entry : FsDirEntry) : Prop where
  fileName : entry.fileName = record.2
  valid : ValidName record.2
  fileType : ∃ fileType, fileTypeFromDtype record.1 = some fileType ∧ entry.fileType = .ok fileType
  metadata : SameStat (os.fstatat path record.2) entry.metadata
  symlinkMetadata : SameStat (os.fstatat path record.2) (os.symlinkMetadata (path.join record.2))
  /-- Where `statx` is available it tells the same. -/
  statx : ∀ statx, os.statx path record.2 = .ok statx →
    ∃ stat, os.fstatat path record.2 = .ok stat ∧ SameInode statx stat
  /-- What the batch has fetched is what `statx` tells. -/
  prefetch : ∀ fetched statx, os.prefetch path = some fetched → fetched record.2 = some statx →
    os.statx path record.2 = .ok statx

/-- How a listing ends. -/
inductive Ending
  /-- The directory cannot be opened. -/
  | unopened (err : IoError)
  /-- All entries are listed. -/
  | complete
  /-- The listing breaks off, after some entries or at once. -/
  | brokenOff (err : IoError)

/-- Both listings see the same directory. Where a listing breaks off, `std::fs::read_dir` gives the
entries up to there and then the error. -/
inductive SameDirectory (linux : LinuxCalls) (unix : UnixCalls) (path : Path) (attempt : ℕ) :
    Ending → Prop
  | unopened {err : IoError} (hlinux : linux.enumerate path attempt = ⟨[], some err⟩)
      (hunix : unix.readDir path attempt = .error err) :
    SameDirectory linux unix path attempt (.unopened err)
  | complete {records : List (UInt8 × OsString)} {entries : List FsDirEntry}
      (hlinux : linux.enumerate path attempt = ⟨records, none⟩)
      (hunix : unix.readDir path attempt = .ok (entries.map .ok))
      (hentries : List.Forall₂ (SameEntry linux path)
        (records.filter fun record => !isDot record.2) entries) :
    SameDirectory linux unix path attempt .complete
  | brokenOff {records : List (UInt8 × OsString)} {entries : List FsDirEntry} {err : IoError}
      (hlinux : linux.enumerate path attempt = ⟨records, some err⟩)
      (hunix : unix.readDir path attempt = .ok (entries.map .ok ++ [.error err]))
      (hentries : List.Forall₂ (SameEntry linux path)
        (records.filter fun record => !isDot record.2) entries) :
    SameDirectory linux unix path attempt (.brokenOff err)

/-! ### In which sense the results agree -/

/-- A time, if it does not lie before the epoch. -/
def sinceEpoch (time : Option SystemTime) : Option SystemTime :=
  time.filter fun time => decide (0 ≤ time.secs)

/-- Metadata without the times of last modification and access that lie before the epoch. -/
def MetaData.sinceEpoch (metadata : MetaData) : MetaData :=
  { metadata with
    modified := JwalkMeta.sinceEpoch metadata.modified
    accessed := JwalkMeta.sinceEpoch metadata.accessed }

/-- Metadata without the times that only one of the listings knows. -/
def MetaData.compared (metadata : MetaData) : MetaData :=
  { metadata with created := none, changed := none }

/-- The metadata that the listing by `getdents64` gives where the other one gives these: a followed
link keeps its times. -/
def DirEntry.expectedMetadata (e : DirEntry E) : Option MetaData :=
  if e.followLink then e.metadata else e.metadata.map MetaData.sinceEpoch

/-- An entry of the listing by `getdents64` and one of `std::fs::read_dir` agree; their metadata are
compared if `stated` holds. -/
structure DirEntry.Agrees (stated : Prop) (e e' : DirEntry E) : Prop where
  fileName : e.fileName = e'.fileName
  fileType : e.fileType = e'.fileType
  readChildrenPath : e.readChildrenPath = e'.readChildrenPath
  metadataExt : e.metadataExt = e'.metadataExt
  metadata : stated →
    e.metadata.map MetaData.compared = e'.expectedMetadata.map MetaData.compared

/-- Two results agree: the same error, or entries that agree. -/
inductive ResultAgrees (stated : OsString → Prop) :
    Except Error (DirEntry E) → Except Error (DirEntry E) → Prop
  | error {err : Error} : ResultAgrees stated (.error err) (.error err)
  | ok {e e' : DirEntry E} (h : e.Agrees (stated e.fileName) e') :
    ResultAgrees stated (.ok e) (.ok e')

/-- The results of the two reads agree, according to the end of the listing. -/
def Ending.Agreement (stated : OsString → Prop) (req : ReadRequest B)
    (result result' : ReadDirResult B E) : Ending → Prop
  | .unopened err =>
    result = .error (Error.fromPath 0 req.path err) ∧
      result' = .error (Error.fromPath 0 req.path err)
  | .complete => ∃ readDir readDir', result = .ok readDir ∧ result' = .ok readDir' ∧
      List.Forall₂ (ResultAgrees stated) readDir.resultsList readDir'.resultsList
  | .brokenOff err =>
    result = .error (Error.fromPath 0 req.path err) ∧
      ∃ readDir', result' = .ok readDir' ∧
        .error (Error.fromIo req.readDirContentsDepth err) ∈ readDir'.resultsList

/-! ### Times -/

/-- A time of `fstatat` is the one of `std::fs::Metadata`, if that does not lie before the epoch. -/
theorem timeToSystemtime_eq {sec nsec : Int64} (h : Nanoseconds nsec) :
    timeToSystemtime sec nsec = sinceEpoch (some ⟨sec.toInt, nsec.toInt.toNat⟩) := by
  obtain ⟨hnonneg, hlt⟩ := h
  have hnanos : nsec.toUInt64.toUInt32 = UInt32.ofNat nsec.toInt.toNat := by
    refine toUInt32_of_toInt ?_
    rw [UInt32.toNat_ofNat']
    omega
  have hnat : (UInt32.ofNat nsec.toInt.toNat).toNat = nsec.toInt.toNat := by
    rw [UInt32.toNat_ofNat']
    omega
  have hsign : sec < 0 ↔ sec.toInt < 0 := Int64.lt_iff_toInt_lt
  by_cases hsec : sec < 0
  · have hneg : ¬ 0 ≤ sec.toInt := not_le.mpr (hsign.mp hsec)
    simp [timeToSystemtime, sinceEpoch, hsec, hneg, Option.filter]
  · have hpos : 0 ≤ sec.toInt := not_lt.mp (mt hsign.mpr hsec)
    have hbound := sec.toInt_lt
    have hsecsNat : (UInt64.ofNat sec.toInt.toNat).toNat = sec.toInt.toNat := by
      rw [UInt64.toNat_ofNat']
      omega
    have hsecs : sec.toUInt64 = UInt64.ofNat sec.toInt.toNat :=
      toUInt64_of_toInt (by omega)
    have hquot : sec.toInt.toNat + nsec.toInt.toNat / 1000000000 = sec.toInt.toNat := by omega
    have hrem : nsec.toInt.toNat % 1000000000 = nsec.toInt.toNat := by omega
    have hrange : sec.toInt.toNat < 2 ^ 63 := by omega
    have hcast : (sec.toInt.toNat : Int) = sec.toInt := by omega
    simp only [timeToSystemtime, sinceEpoch, hsec, ↓reduceIte, addToEpoch, hsecs, hsecsNat, hnanos,
      hnat, hquot, hrem, hrange, hcast, Option.filter, hpos, decide_true]

/-! ### The metadata of one entry -/

/-- The metadata by `fstatat` are those of `std::fs::Metadata`. -/
theorem compared_stdMetadata {stat : Stat} (hmodified : Nanoseconds stat.stMtimeNsec)
    (haccessed : Nanoseconds stat.stAtimeNsec) (created : Option SystemTime) :
    stat.metaData.compared =
      (MetaData.fromFsMetadata (stat.stdMetadata created)).sinceEpoch.compared := by
  simp only [MetaData.compared, MetaData.sinceEpoch, Stat.metaData, MetaData.fromFsMetadata,
    Stat.stdMetadata, timeToSystemtime_eq hmodified, timeToSystemtime_eq haccessed]
  rfl

/-- The metadata by `statx` are those by `fstatat`. -/
theorem SameInode.compared_eq {statx : Statx} {stat : Stat} (h : SameInode statx stat) :
    statx.metaData.compared = stat.metaData.compared :=
  congrArg (fun metadata : MetaData => { metadata with changed := none }) h.metaData_eq

/-- An entry whose type byte is known. -/
theorem makeDirEntryLinux_of_known [Inhabited E] (os : LinuxCalls) {info : LinuxDirEntryOwned}
    {fileType : FileType} (hknown : fileTypeFromDtype info.dType = some fileType) (depth : ℕ)
    (parentPath : Path) (readMetadata readMetadataExt : Bool)
    (followLinkAncestors : Option (List AncestorIdentity)) :
    makeDirEntryLinux (E := E) os info depth parentPath readMetadata readMetadataExt
        followLinkAncestors =
      .fromRaw depth parentPath
        (if readMetadata then
          (statOf os info parentPath (readMetadata || readMetadataExt)).map fun found => found.2.1
        else none)
        (if readMetadataExt then
          (statOf os info parentPath (readMetadata || readMetadataExt)).map fun found => found.2.2
        else none) info.name fileType followLinkAncestors := by
  have hunknown : (info.dType == DT_UNKNOWN) = false := by
    by_contra hbyte
    have hzero : info.dType = DT_UNKNOWN := by simpa using hbyte
    have hnone : fileTypeFromDtype DT_UNKNOWN = none := rfl
    rw [hzero, hnone] at hknown
    cases hknown
  simp only [makeDirEntryLinux, hknown, hunknown, Option.getD_some, Bool.or_false]
  cases statOf os info parentPath (readMetadata || readMetadataExt) with
  | none => simp
  | some found => rfl

namespace SameEntry

variable {os : LinuxCalls} {path : Path} {record : UInt8 × OsString} {entry : FsDirEntry}
  {info : LinuxDirEntryOwned} {stat : Stat} {err : IoError}

theorem statxMetadata_eq (h : SameEntry os path record entry) (hname : info.name = record.2) :
    statxMetadata os path info.name = os.statx path record.2 ∧
      fstatatMetadata os path info.name = os.fstatat path record.2 := by
  have hnul : hasNul record.2 = false := h.valid.2.2.1
  simp [statxMetadata, fstatatMetadata, hname, hnul]

/-- Where `fstatat` succeeds, the calls on the entry tell the same. -/
theorem statOf_of_ok (h : SameEntry os path record entry) (hname : info.name = record.2)
    (hfetched : ∀ statx, info.statx = some statx → os.statx path record.2 = .ok statx)
    (hstat : os.fstatat path record.2 = .ok stat) :
    ∃ mode metadata, statOf os info path true = some (mode, metadata, stat.metaDataExt) ∧
      metadata.compared = stat.metaData.compared := by
  obtain ⟨hstatxCall, hfstatatCall⟩ := h.statxMetadata_eq hname
  have hsame {statx : Statx} (hstatx : os.statx path record.2 = .ok statx) :
      SameInode statx stat := by
    obtain ⟨stat', hstat', hinode⟩ := h.statx statx hstatx
    rwa [Except.ok.inj (hstat.symm.trans hstat')]
  cases hprefetched : info.statx with
  | some statx =>
    have hinode := hsame (hfetched statx hprefetched)
    refine ⟨statx.mode, statx.metaData, ?_, hinode.compared_eq⟩
    simp [statOf, tryFillFromStatx_eq, hprefetched, hinode.metaDataExt_eq]
  | none =>
    cases hstatx : os.statx path record.2 with
    | ok statx =>
      have hinode := hsame hstatx
      refine ⟨statx.mode, statx.metaData, ?_, hinode.compared_eq⟩
      simp [statOf, tryFillFromStatx_eq, hprefetched, hstatxCall, hstatx, hinode.metaDataExt_eq]
    | error err =>
      refine ⟨stat.stMode, stat.metaData, ?_, rfl⟩
      simp [statOf, tryFillFromStatx_eq, hprefetched, hstatxCall, hstatx, hfstatatCall, hstat]

/-- Where `fstatat` fails, the calls on the entry tell nothing. -/
theorem statOf_of_error (h : SameEntry os path record entry) (hname : info.name = record.2)
    (hfetched : ∀ statx, info.statx = some statx → os.statx path record.2 = .ok statx)
    (hstat : os.fstatat path record.2 = .error err) (needStat : Bool) :
    statOf os info path needStat = none := by
  obtain ⟨hstatxCall, hfstatatCall⟩ := h.statxMetadata_eq hname
  have hfails (statx : Statx) (hstatx : os.statx path record.2 = .ok statx) : False := by
    obtain ⟨stat, hok, -⟩ := h.statx statx hstatx
    rw [hstat] at hok
    cases hok
  cases hprefetched : info.statx with
  | some statx => exact (hfails statx (hfetched statx hprefetched)).elim
  | none =>
    cases hstatx : os.statx path record.2 with
    | ok statx => exact (hfails statx hstatx).elim
    | error err =>
      simp [statOf, tryFillFromStatx_eq, hprefetched, hstatxCall, hstatx, hfstatatCall, hstat]

/-- The metadata of both listings: those of `getdents64` and those of `std::fs::read_dir`. -/
structure Metadatas (stated : Prop) (metadata metadata' : Option MetaData)
    (metadataExt : Option MetaDataExt) : Prop where
  /-- Whether a followed link gets extended metadata. -/
  both : (metadata.isSome && metadataExt.isSome) = (metadata'.isSome && metadataExt.isSome)
  isSome : stated → metadata.isSome = metadata'.isSome
  agree : stated → metadata.map MetaData.compared =
    (metadata'.map MetaData.sinceEpoch).map MetaData.compared

/-- **Both listings make the same entry** up to its metadata. -/
theorem exists_metadatas [Inhabited E] {unix : UnixCalls}
    (hcalls : os.toSystemCalls = unix.toSystemCalls) (h : SameEntry os path record entry)
    (hbyte : info.dType = record.1) (hname : info.name = record.2)
    (hfetched : ∀ statx, info.statx = some statx → os.statx path record.2 = .ok statx) (depth : ℕ)
    (readMetadata readMetadataExt : Bool) (ancestors : Option (List AncestorIdentity)) :
    ∃ metadata metadata' metadataExt fileType,
      makeDirEntryLinux (E := E) os info depth path readMetadata readMetadataExt ancestors =
        .fromRaw depth path metadata metadataExt record.2 fileType ancestors ∧
      legacyMetadata unix depth path entry readMetadata readMetadataExt =
        .ok (metadata', metadataExt) ∧
      entry.fileType = .ok fileType ∧
      Metadatas (readMetadata = true → ∃ stat, os.fstatat path record.2 = .ok stat) metadata
        metadata' metadataExt := by
  obtain ⟨fileType, hknown, hfileType⟩ := h.fileType
  have hentry := makeDirEntryLinux_of_known (E := E) os (hbyte ▸ hknown) depth path readMetadata
    readMetadataExt ancestors
  rw [hname] at hentry
  have hmeta := h.metadata
  have hlink := h.symlinkMetadata
  rw [hcalls] at hlink
  cases hstat : os.fstatat path record.2 with
  | ok stat =>
    obtain ⟨mode, metadata, hfound, hcompared⟩ := h.statOf_of_ok hname hfetched hstat
    rw [hstat] at hmeta hlink
    cases hanswer : entry.metadata with
    | error err => simp [hanswer, SameStat] at hmeta
    | ok answer =>
      cases hlinkAnswer : unix.symlinkMetadata (path.join record.2) with
      | error err => simp [hlinkAnswer, SameStat] at hlink
      | ok linkAnswer =>
        rw [hanswer] at hmeta
        rw [hlinkAnswer] at hlink
        obtain ⟨⟨created, rfl⟩, hmodified, haccessed⟩ := hmeta
        obtain ⟨⟨created', rfl⟩, -⟩ := hlink
        have hagree := hcompared.trans (compared_stdMetadata hmodified haccessed created)
        refine ⟨_, if readMetadata then some (.fromFsMetadata (stat.stdMetadata created)) else none,
          _, fileType, hentry, ?_, hfileType, ?_⟩
        · cases readMetadata <;> cases readMetadataExt <;>
            simp [legacyMetadata, h.fileName, hanswer, hlinkAnswer, hfound, getMetadataExt,
              Stat.stdMetadata]
        · cases readMetadata <;> cases readMetadataExt <;>
            constructor <;> simp [hfound, hagree]
  | error err =>
    have hnone := h.statOf_of_error hname hfetched hstat
    rw [hstat] at hmeta hlink
    cases hanswer : entry.metadata with
    | ok answer => simp [hanswer, SameStat] at hmeta
    | error err' =>
      cases hlinkAnswer : unix.symlinkMetadata (path.join record.2) with
      | ok linkAnswer => simp [hlinkAnswer, SameStat] at hlink
      | error err'' =>
        refine ⟨_, if readMetadata then some (.ofFileType fileType) else none, _, fileType, hentry,
          ?_, hfileType, ?_⟩
        · cases readMetadata <;> cases readMetadataExt <;>
            simp [legacyMetadata, h.fileName, hanswer, hlinkAnswer, hnone, hfileType]
        · cases readMetadata <;> cases readMetadataExt <;>
            constructor <;> simp [hnone]

end SameEntry

/-! ### Following links -/

theorem ValidName.fileName_join {name : OsString} (h : ValidName name) (path : Path) :
    (path.join name).fileName = some name := by
  simp [Path.fileName, h.components_join]

section Links

variable [Inhabited E] {stated : OsString → Prop} (os : SystemCalls)

/-- Two entries for the target of a link, with or without metadata. -/
theorem fromPath_agrees {path : Path} {name : OsString} (hname : path.fileName = some name)
    {readMetadata readMetadata' readMetadataExt readMetadataExt' : Bool}
    (hboth : (readMetadata && readMetadataExt) = (readMetadata' && readMetadataExt'))
    (hsame : stated name → readMetadata = readMetadata') (depth : ℕ)
    (ancestors : Option (List AncestorIdentity)) :
    ResultAgrees (E := E) stated
      (DirEntry.fromPath os depth path readMetadata readMetadataExt true ancestors)
      (DirEntry.fromPath os depth path readMetadata' readMetadataExt' true ancestors) := by
  unfold DirEntry.fromPath
  simp only [↓reduceIte]
  cases os.metadata path with
  | error err => exact .error
  | ok metadata =>
    refine .ok ⟨rfl, rfl, rfl, ?_, fun hstated => ?_⟩
    · simp only [hboth]
    · simp only [hname, Option.getD_some] at hstated
      simp only [DirEntry.expectedMetadata, hsame hstated, ↓reduceIte]

variable {path : Path} {name : OsString} {metadata metadata' : Option MetaData}
  {metadataExt : Option MetaDataExt}

/-- Entries that agree still do if their link is followed. -/
theorem followSymlink_agrees (hvalid : ValidName name)
    (h : SameEntry.Metadatas (stated name) metadata metadata' metadataExt) (depth : ℕ)
    (fileType : FileType) (ancestors : Option (List AncestorIdentity)) :
    ResultAgrees (E := E) stated
      ((DirEntry.fromRaw depth path metadata metadataExt name fileType ancestors).followSymlink os)
      ((DirEntry.fromRaw depth path metadata' metadataExt name fileType ancestors).followSymlink
        os) := by
  have hfrom := fromPath_agrees (E := E) os (hvalid.fileName_join path) h.both h.isSome depth
    ancestors
  -- what keeps a link from being followed does not depend on the metadata
  have hlink : DirEntry.linkError os
      (DirEntry.fromRaw (E := E) depth path metadata metadataExt name fileType ancestors) =
      DirEntry.linkError os
        (DirEntry.fromRaw (E := E) depth path metadata' metadataExt name fileType ancestors) := rfl
  rw [DirEntry.followSymlink_eq, DirEntry.followSymlink_eq, hlink]
  generalize DirEntry.linkError os (DirEntry.fromRaw (E := E) depth path metadata' metadataExt name
    fileType ancestors) = linkErr
  simp only [DirEntry.path, DirEntry.fromRaw]
  generalize DirEntry.fromPath (E := E) os depth (path.join name) metadata.isSome
    metadataExt.isSome true ancestors = target at hfrom ⊢
  generalize DirEntry.fromPath (E := E) os depth (path.join name) metadata'.isSome
    metadataExt.isSome true ancestors = target' at hfrom ⊢
  cases hfrom with
  | error => exact .error
  | @ok e e' hagrees =>
    simp only [Except.bind, hagrees.fileType]
    split_ifs
    · cases linkErr with
      | none => exact .ok hagrees
      | some err => exact .error
    · exact .ok hagrees

/-- **Following links keeps entries in agreement.** -/
theorem processDirEntryResult_agrees (hvalid : ValidName name)
    (h : SameEntry.Metadatas (stated name) metadata metadata' metadataExt) (followLinks : Bool)
    (depth : ℕ) (fileType : FileType) (ancestors : Option (List AncestorIdentity)) :
    ResultAgrees (E := E) stated
      (processDirEntryResult os followLinks
        (.ok (.fromRaw depth path metadata metadataExt name fileType ancestors)))
      (processDirEntryResult os followLinks
        (.ok (.fromRaw depth path metadata' metadataExt name fileType ancestors))) := by
  by_cases hlink : (followLinks && fileType.isSymlink) = true
  · rw [processDirEntryResult_of_link os hlink, processDirEntryResult_of_link os hlink]
    exact followSymlink_agrees os hvalid h depth fileType ancestors
  · have hlink' : (followLinks && fileType.isSymlink) = false := by
      simpa using hlink
    simp only [processDirEntryResult, DirEntry.fromRaw, hlink', Bool.false_eq_true, ↓reduceIte,
      DirEntry.path, Bind.bind, Except.bind, pure, Except.pure]
    by_cases hroot : (!followLinks && depth == 0 && fileType.isSymlink) = true
    · simp only [hroot, ↓reduceIte]
      cases os.metadata (path.join name) with
      | error err => exact .error
      | ok target =>
        by_cases hdir : target.fileType.isDir = true
        · simp only [hdir, ↓reduceIte]
          exact .ok ⟨rfl, rfl, rfl, rfl, h.agree⟩
        · simp only [hdir, Bool.false_eq_true, ↓reduceIte]
          exact .ok ⟨rfl, rfl, rfl, rfl, h.agree⟩
    · simp only [hroot, Bool.false_eq_true, ↓reduceIte]
      exact .ok ⟨rfl, rfl, rfl, rfl, h.agree⟩

end Links

/-! ### Sorting -/

/-- **Sorting keeps lists related** whose members are compared alike. -/
theorem forall₂_mergeSort {α β : Type} {R : α → β → Prop} {le : α → α → Bool}
    {le' : β → β → Bool} (hle : ∀ {a b a' b'}, R a a' → R b b' → le a b = le' a' b') {l : List α}
    {l' : List β} (h : List.Forall₂ R l l') :
    List.Forall₂ R (l.mergeSort le) (l'.mergeSort le') := by
  obtain ⟨hlength, hpairs⟩ := List.forall₂_iff_zip.mp h
  -- both lists are sorted as the list of pairs is
  have hleft : ((l.zip l').mergeSort fun p q => le p.1 q.1).map Prod.fst = l.mergeSort le := by
    rw [List.map_mergeSort (s := le) (f := Prod.fst) fun _ _ _ _ => rfl,
      List.map_fst_zip hlength.le]
  have hright : ((l.zip l').mergeSort fun p q => le p.1 q.1).map Prod.snd = l'.mergeSort le' := by
    rw [List.map_mergeSort (s := le') (f := Prod.snd)
      fun _ hp _ hq => hle (hpairs hp) (hpairs hq), List.map_snd_zip hlength.ge]
  rw [← hleft, ← hright, List.forall₂_map_left_iff, List.forall₂_map_right_iff, List.forall₂_same]
  exact fun p hp => hpairs (List.mem_mergeSort.mp hp)

theorem sortDirEntriesByName_agrees {stated : OsString → Prop}
    {results results' : List (Except Error (DirEntry E))}
    (h : List.Forall₂ (ResultAgrees stated) results results') :
    List.Forall₂ (ResultAgrees stated) (sortDirEntriesByName results)
      (sortDirEntriesByName results') := by
  refine forall₂_mergeSort ?_ h
  rintro _ _ _ _ (_ | ⟨hfirst⟩) (_ | ⟨hsecond⟩)
  · rfl
  · rfl
  · rfl
  · simp only [hfirst.fileName, hsecond.fileName]

/-! ### The two listings -/

section Listings

variable [Inhabited E] {linux : LinuxCalls} {unix : UnixCalls} {opts : WalkDirOptions B E}
  {req : ReadRequest B}

/-- The names of the entries whose metadata are compared: all of them, unless metadata are read and
the `stat` of the entry fails. -/
def Stated (linux : LinuxCalls) (opts : WalkDirOptions B E) (path : Path) (name : OsString) :
    Prop :=
  opts.readMetadata = true → ∃ stat, linux.fstatat path name = .ok stat

/-- The results for one entry. -/
theorem linuxResult_agrees (hcalls : linux.toSystemCalls = unix.toSystemCalls)
    {record : UInt8 × OsString} {entry : FsDirEntry} (h : SameEntry linux req.path record entry)
    {info : LinuxDirEntryOwned} (hbyte : info.dType = record.1) (hname : info.name = record.2)
    (hfetched : ∀ statx, info.statx = some statx → linux.statx req.path record.2 = .ok statx) :
    Option.Rel (ResultAgrees (Stated linux opts req.path)) (linuxResult linux opts req info)
      (unixResult unix opts req (.ok entry)) := by
  obtain ⟨metadata, metadata', metadataExt, fileType, hlinux, hlegacy, hfileType, hsame⟩ :=
    h.exists_metadatas (E := E) hcalls hbyte hname hfetched req.readDirContentsDepth
      opts.readMetadata opts.readMetadataExt req.followLinkAncestors
  simp only [linuxResult, unixResult, hlinux, hlegacy, DirEntry.fromEntry, hfileType, hname,
    h.fileName, hcalls]
  by_cases hhidden : (opts.skipHidden && isHidden record.2) = true
  · simp only [DirEntry.fromRaw, hhidden, ↓reduceIte]
    exact .none
  · simp only [DirEntry.fromRaw, hhidden, Bool.false_eq_true, ↓reduceIte]
    exact .some (processDirEntryResult_agrees _ h.valid hsame opts.followLinks _ fileType _)

/-- The results for the entries of a directory. -/
theorem linuxResults_agree (hcalls : linux.toSystemCalls = unix.toSystemCalls)
    {records : List (UInt8 × OsString)} {entries : List FsDirEntry}
    (h : List.Forall₂ (SameEntry linux req.path)
      (records.filter fun record => !isDot record.2) entries) :
    List.Forall₂ (ResultAgrees (Stated linux opts req.path))
      ((batchStatx linux opts req.path ((records.filter fun record => !isDot record.2).map
        fun record => ⟨record.1, record.2, none⟩)).filterMap (linuxResult linux opts req))
      ((entries.map .ok).filterMap (unixResult unix opts req)) := by
  obtain ⟨statx, hbatch, hfetched⟩ := batchStatx_eq linux opts req.path
    ((records.filter fun record => !isDot record.2).map fun record => ⟨record.1, record.2, none⟩)
  rw [hbatch, List.map_map, List.filterMap_map, List.filterMap_map]
  refine List.rel_filterMap (R := SameEntry linux req.path) ?_ h
  intro record entry hentry
  refine linuxResult_agrees hcalls hentry rfl rfl fun found hfound => ?_
  rcases hfetched _ found hfound with hnone | ⟨fetched, hprefetch, hname⟩
  · cases hnone
  · exact hentry.prefetch fetched found hprefetch hname

omit [Inhabited E] in
/-- Both reads finish in the same way. -/
theorem finishReadDir_agrees (hprocess : opts.processReadDir = none) {stated : OsString → Prop}
    {results results' : List (Except Error (DirEntry E))}
    (h : List.Forall₂ (ResultAgrees stated) results results') :
    List.Forall₂ (ResultAgrees stated) (finishReadDir opts req 0 results).resultsList
      (finishReadDir opts req 0 results').resultsList := by
  simp only [finishReadDir, hprocess]
  split_ifs
  · exact sortDirEntriesByName_agrees h
  · exact h

end Listings

/-- **The listing by `getdents64` agrees with the one by `std::fs::read_dir`.** For every directory
with known types that both listings see, whatever its entries are and for which of them `stat`
fails, in a read that does not stream: if the directory cannot be opened, both reads give the same
error. If the listing is complete, both give the same sequence of results, the same errors and
entries with the same name, type, path to read and extended metadata; the metadata are the same but
for the times of birth and change, where the times before the epoch are left out, and nothing is
said about them if they are read and the `stat` of the entry fails. If the listing breaks off, the
read by `getdents64` fails with the error that is one of the results of the other read. -/
theorem getdents_agrees_std [Inhabited E] (linux : LinuxCalls) (unix : UnixCalls)
    (hcalls : linux.toSystemCalls = unix.toSystemCalls) (opts : WalkDirOptions B E)
    (hprocess : opts.processReadDir = none) (attempt : ℕ) (req : ReadRequest B)
    (hstream : opts.streaming req = none) (ending : Ending)
    (hsame : SameDirectory linux unix req.path attempt ending) :
    ∃ result result', readDirLinuxViaGetdents linux opts attempt req = .done result ∧
      readDirUnixFsLegacy unix opts attempt req = .done result' ∧
      ending.Agreement (E := E) (Stated linux opts req.path) req result result' := by
  have hread := readDirWith_of_streaming opts req (linuxRecords linux req.path attempt)
    (fun info => info.dType == DT_DIR) (skipLinux opts) LinuxDirEntryOwned.name
    (fun entries => (batchStatx linux opts req.path entries).filterMap (linuxResult linux opts req))
    hstream
  cases hsame with
  | @unopened err hlinux hunix =>
    have hlegacy : readDirUnixFsLegacy unix opts attempt req =
        .done (.error (Error.fromPath 0 req.path err)) := by
      rw [readDirUnixFsLegacy, hunix]
      rfl
    refine ⟨_, _, hread, hlegacy, ?_⟩
    simp only [Ending.Agreement, readDirOutcome, linuxRecords, hlinux]
    exact ⟨rfl, trivial⟩
  | @complete records entries hlinux hunix hentries =>
    have hlegacy : readDirUnixFsLegacy unix opts attempt req = .done (.ok (finishReadDir opts req 0
        ((entries.map .ok).filterMap (unixResult unix opts req)))) := by
      rw [readDirUnixFsLegacy, hunix]
      rfl
    refine ⟨_, _, hread, hlegacy, ?_⟩
    simp only [Ending.Agreement, readDirOutcome, linuxRecords, hlinux]
    exact ⟨_, _, rfl, rfl, finishReadDir_agrees hprocess (linuxResults_agree hcalls hentries)⟩
  | @brokenOff records entries err hlinux hunix hentries =>
    have hlegacy : readDirUnixFsLegacy unix opts attempt req = .done (.ok (finishReadDir opts req 0
        ((entries.map Except.ok ++ [Except.error err]).filterMap (unixResult unix opts req)))) := by
      rw [readDirUnixFsLegacy, hunix]
      rfl
    refine ⟨_, _, hread, hlegacy, ?_⟩
    simp only [Ending.Agreement, readDirOutcome, linuxRecords, hlinux]
    refine ⟨rfl, _, rfl, (finishReadDir_perm hprocess _ _ _).mem_iff.mpr ?_⟩
    simp [unixResult]

/-- What `fstatat` tells about a link `l`, a directory `a` and a file. -/
def mixedStat (name : OsString) : Stat :=
  { fileStat with
    stMode := if name = [108] then S_IFLNK else if name = [97] then S_IFDIR else S_IFREG }

/-- The entries of a directory with these three. -/
def mixedRecords : List (UInt8 × OsString) := [(DT_LNK, [108]), (8, [98]), (DT_DIR, [97])]

/-- A Linux without `statx` where every directory has these entries, and the link leads to a
directory. -/
def mixedLinux : LinuxCalls :=
  { LinuxCalls.listing fun _ => ⟨(DT_DIR, [46]) :: mixedRecords, none⟩ with
    metadata := fun _ => .ok ((mixedStat [97]).stdMetadata none)
    symlinkMetadata := fun path => .ok ((mixedStat (path.fileName.getD [])).stdMetadata none)
    readLink := fun _ => .ok ⟨[.normal [116]]⟩
    fstatat := fun _ name => .ok (mixedStat name) }

/-- The entry that `std::fs::read_dir` gives for one of them. -/
def mixedEntry (name : OsString) : FsDirEntry :=
  ⟨name, .ok (fileTypeFromMode (mixedStat name).stMode), .ok ((mixedStat name).stdMetadata none)⟩

/-- The same system, listed by `std::fs::read_dir`. -/
def mixedUnix : UnixCalls :=
  { mixedLinux.toSystemCalls with
    readDir := fun _ _ => .ok (mixedRecords.map fun record => .ok (mixedEntry record.2)) }

/-- Options for a sorted walk that follows links and reads metadata. -/
def mixedOptions : WalkDirOptions Unit Unit :=
  { (WalkDirOptions.new : WalkDirOptions Unit Unit) with
    readMetadata := true, sort := true, followLinks := true }

/-- A read of the directory `r`. -/
def listRequest : ReadRequest Unit := ⟨⟨[.normal [114]]⟩, 0, 1, none, (), none⟩

theorem sameEntry_mixed {record : UInt8 × OsString} (h : record ∈ mixedRecords) :
    SameEntry mixedLinux listRequest.path record (mixedEntry record.2) := by
  have hnanos : Nanoseconds 0 := by
    constructor <;> decide
  have hknown : ValidName record.2 ∧
      fileTypeFromDtype record.1 = some (fileTypeFromMode (mixedStat record.2).stMode) := by
    revert record
    decide
  have hstat (name : OsString) :
      SameStat (.ok (mixedStat name)) (.ok ((mixedStat name).stdMetadata none)) :=
    ⟨⟨none, rfl⟩, hnanos, hnanos⟩
  refine ⟨rfl, hknown.1, ⟨_, hknown.2, rfl⟩, hstat _, ?_, ?_, ?_⟩
  · have hname := hknown.1.fileName_join listRequest.path
    simp only [mixedLinux, hname, Option.getD_some]
    exact hstat record.2
  · intro statx hstatx
    cases hstatx
  · intro fetched statx hfetched
    cases hfetched

/-- The statement above for a sorted read of this directory that follows the link. -/
theorem getdents_agrees_std_mixed :
    ∃ readDir readDir' : ReadDir Unit Unit,
      readDirLinuxViaGetdents mixedLinux mixedOptions 0 listRequest = .done (.ok readDir) ∧
      readDirUnixFsLegacy mixedUnix mixedOptions 0 listRequest = .done (.ok readDir') ∧
      List.Forall₂ (ResultAgrees (Stated mixedLinux mixedOptions listRequest.path))
        readDir.resultsList readDir'.resultsList ∧
      ∃ a b l, readDir.resultsList = [.ok a, .ok b, .ok l] ∧
        [a, b, l].map DirEntry.fileName = [[97], [98], [108]] ∧ l.followLink = true := by
  have hsame : SameDirectory mixedLinux mixedUnix listRequest.path 0 .complete :=
    @SameDirectory.complete _ _ _ _ _ (mixedRecords.map fun record => mixedEntry record.2) rfl rfl
      (.cons (sameEntry_mixed (by decide)) (.cons (sameEntry_mixed (by decide))
        (.cons (sameEntry_mixed (by decide)) .nil)))
  obtain ⟨result, result', hlinux, hunix, readDir, readDir', rfl, rfl, hagree⟩ :=
    getdents_agrees_std (E := Unit) mixedLinux mixedUnix rfl mixedOptions rfl 0 listRequest rfl _
      hsame
  -- the results before they are sorted
  obtain ⟨l, b, a, hread, ha, hb, hl, hfollowed⟩ : ∃ l b a : DirEntry Unit,
      readDirLinuxViaGetdents mixedLinux mixedOptions 0 listRequest =
        .done (.ok ⟨(), sortDirEntriesByName [.ok l, .ok b, .ok a], 0⟩) ∧
      a.fileName = [97] ∧ b.fileName = [98] ∧ l.fileName = [108] ∧ l.followLink = true :=
    ⟨_, _, _, rfl, rfl, rfl, rfl, rfl⟩
  have hsort : sortDirEntriesByName [.ok l, .ok b, .ok a] = [.ok a, .ok b, .ok l] := by
    have hlb : (List.compareLex compare l.fileName b.fileName).isLE = false := by
      rw [hl, hb]
      rfl
    have hba : (List.compareLex compare b.fileName a.fileName).isLE = false := by
      rw [hb, ha]
      rfl
    simp [sortDirEntriesByName, List.mergeSort, List.MergeSort.Internal.splitInTwo, hlb, hba]
  rw [hread, hsort] at hlinux
  obtain rfl := Except.ok.inj (Interaction.done.inj hlinux)
  exact ⟨_, readDir', hread.trans (by rw [hsort]), hunix, hagree, a, b, l, rfl,
    by simp [ha, hb, hl], hfollowed⟩

/-- A file that was last modified one second before the epoch. -/
def oldStat : Stat := { fileStat with stMtime := -1 }

/-- A Linux without `statx` where every directory has this file as `a`; the listing breaks off
if an error is given. -/
def oldLinux (error : Option IoError) : LinuxCalls :=
  { LinuxCalls.listing fun _ => ⟨[(DT_DIR, [46]), (8, [97])], error⟩ with
    symlinkMetadata := fun _ => .ok (oldStat.stdMetadata none)
    fstatat := fun _ _ => .ok oldStat }

/-- The entry that `std::fs::read_dir` gives for the file. -/
def oldEntry : FsDirEntry :=
  ⟨[97], .ok (fileTypeFromMode S_IFREG), .ok (oldStat.stdMetadata none)⟩

/-- The same system, listed by `std::fs::read_dir`. -/
def oldUnix (error : Option IoError) : UnixCalls :=
  { (oldLinux error).toSystemCalls with
    readDir := fun _ _ => .ok ([oldEntry].map .ok ++ (error.map .error).toList) }

/-- Options for a walk that reads metadata. -/
def metadataOptions : WalkDirOptions Unit Unit :=
  { (WalkDirOptions.new : WalkDirOptions Unit Unit) with readMetadata := true }

theorem sameEntry_old (error : Option IoError) :
    SameEntry (oldLinux error) listRequest.path (8, [97]) oldEntry := by
  have hnanos : Nanoseconds 0 := by
    constructor <;> decide
  have hstat : SameStat (.ok oldStat) (.ok (oldStat.stdMetadata none)) :=
    ⟨⟨none, rfl⟩, hnanos, hnanos⟩
  refine ⟨rfl, by decide, ⟨_, rfl, rfl⟩, hstat, hstat, ?_, ?_⟩
  · intro statx h
    cases h
  · intro fetched statx h
    cases h

theorem sameDirectory_old :
    SameDirectory (oldLinux none) (oldUnix none) listRequest.path 0 .complete ∧
      SameDirectory (oldLinux (some (.os 5))) (oldUnix (some (.os 5))) listRequest.path 0
        (.brokenOff (.os 5)) := by
  constructor
  · exact @SameDirectory.complete _ _ _ _ _ [oldEntry] rfl rfl (.cons (sameEntry_old none) .nil)
  · exact @SameDirectory.brokenOff _ _ _ _ _ [oldEntry] _ rfl rfl (.cons (sameEntry_old _) .nil)

/-- The two listings of this file differ in the time of its last modification. If they break off
after it, one fails and the other gives two results. -/
theorem not_getdents_agrees_std_before_epoch :
    (SameDirectory (oldLinux none) (oldUnix none) listRequest.path 0 .complete ∧
      ∃ e e' : DirEntry Unit,
        readDirLinuxViaGetdents (oldLinux none) metadataOptions 0 listRequest =
            .done (.ok ⟨(), [.ok e], 0⟩) ∧
          readDirUnixFsLegacy (oldUnix none) metadataOptions 0 listRequest =
            .done (.ok ⟨(), [.ok e'], 0⟩) ∧
          e.metadata.map MetaData.modified = some none ∧
          e'.metadata.map MetaData.modified = some (some ⟨-1, 0⟩)) ∧
    SameDirectory (oldLinux (some (.os 5))) (oldUnix (some (.os 5))) listRequest.path 0
        (.brokenOff (.os 5)) ∧
      ∃ err, ∃ results : List (Except Error (DirEntry Unit)), results.length = 2 ∧
        readDirLinuxViaGetdents (E := Unit) (oldLinux (some (.os 5))) metadataOptions 0
            listRequest = .done (.error err) ∧
          readDirUnixFsLegacy (oldUnix (some (.os 5))) metadataOptions 0 listRequest =
            .done (.ok ⟨(), results, 0⟩) :=
  ⟨⟨sameDirectory_old.1, _, _, rfl, rfl, rfl, rfl⟩, sameDirectory_old.2, _, _, rfl, rfl, rfl⟩

end JwalkMeta
